import ProbeScript.Text.Basic

/-! The binary operators, in four tiers from the loosest to the tightest. -/
namespace ProbeScript

inductive Operator
  | and | or | eq | ne | ge | gt | le | lt | add | subtract | multiply | divide | modulo
  deriving DecidableEq, Repr

namespace Operator

/-- A symbol that begins another comes after it. -/
def all : List Operator :=
  [and, or, eq, ne, ge, gt, le, lt, add, subtract, multiply, divide, modulo]

def symbol : Operator → Text
  | and => "&&".toList
  | or => "||".toList
  | eq => "==".toList
  | ne => "!=".toList
  | ge => ">=".toList
  | gt => ">".toList
  | le => "<=".toList
  | lt => "<".toList
  | add => "+".toList
  | subtract => "-".toList
  | multiply => "*".toList
  | divide => "/".toList
  | modulo => "%".toList

def name : Operator → Text
  | and => "AND".toList
  | or => "OR".toList
  | eq => "EQ".toList
  | ne => "NE".toList
  | ge => "GE".toList
  | gt => "GT".toList
  | le => "LE".toList
  | lt => "LT".toList
  | add => "ADD".toList
  | subtract => "SUBTRACT".toList
  | multiply => "MULTIPLY".toList
  | divide => "DIVIDE".toList
  | modulo => "MODULO".toList

/-- Logical, relational, additive and multiplicative operators; a higher tier binds more tightly. -/
def tier : Operator → Nat
  | and | or => 1
  | eq | ne | ge | gt | le | lt => 2
  | add | subtract => 3
  | multiply | divide | modulo => 4

def ofSymbol? (t : Text) : Option Operator := all.find? (·.symbol == t)

theorem ofSymbol?_symbol (op : Operator) : ofSymbol? op.symbol = some op := by
  cases op <;> decide

theorem symbol_inj {op op' : Operator} (h : op.symbol = op'.symbol) : op = op' := by
  have hop := ofSymbol?_symbol op
  rw [h, ofSymbol?_symbol] at hop
  exact (Option.some.inj hop).symm

theorem tier_lt (op : Operator) : op.tier < 5 := by cases op <;> decide

end Operator
end ProbeScript
