import ProbeScript.Tree.Node

/-! When two trees are the same: when they are equal once their stretches of text are forgotten.
Trees that are the same have the same digest. -/
namespace ProbeScript

def Text.digest (t : Text) : UInt64 := hash (String.ofList t)

namespace Node

mutual

/-- The tree without any stretch of text. -/
def bare : Node → Node
  | plain _ => .plain none
  | identifier name _ => .identifier name none
  | integer value base _ => .integer value base none
  | string value _ => .string value none
  | binary op left right _ => .binary op left.bare right.bare none
  | parenthesized inner _ => .parenthesized inner.bare none
  | tuple values _ => .tuple (bareAll values) none
  | call name args _ => .call name (bareAll args) none
  | assignment target value _ => .assignment target.bare value.bare none
  | spec parts _ => .spec parts none
  | probe event predicate body _ => .probe event.bare (bareSome predicate) (bareAll body) none
  | script probes _ => .script (bareAll probes) none

def bareAll : List Node → List Node
  | [] => []
  | n :: ns => n.bare :: bareAll ns

def bareSome : Option Node → Option Node
  | none => none
  | some n => some n.bare

end

mutual

/-- Whether two trees are the same but for their stretches of text. -/
def same : Node → Node → Bool
  | plain _, plain _ => true
  | identifier a _, identifier b _ => a == b
  | integer a i _, integer b j _ => a == b && i == j
  | string a _, string b _ => a == b
  | binary o l r _, binary o' l' r' _ => o == o' && l.same l' && r.same r'
  | parenthesized a _, parenthesized b _ => a.same b
  | tuple as _, tuple bs _ => sameAll as bs
  | call a as _, call b bs _ => a == b && sameAll as bs
  | assignment a v _, assignment b w _ => a.same b && v.same w
  | spec as _, spec bs _ => as == bs
  | probe s p as _, probe t q bs _ => s.same t && sameSome p q && sameAll as bs
  | script as _, script bs _ => sameAll as bs
  | _, _ => false

def sameAll : List Node → List Node → Bool
  | [], [] => true
  | a :: as, b :: bs => a.same b && sameAll as bs
  | _, _ => false

def sameSome : Option Node → Option Node → Bool
  | none, none => true
  | some a, some b => a.same b
  | _, _ => false

end

mutual

theorem same_iff : (a b : Node) → (a.same b = true ↔ a.bare = b.bare)
  | .plain _, b => by cases b <;> simp [same, bare]
  | .identifier .., b => by cases b <;> simp [same, bare]
  | .integer .., b => by cases b <;> simp [same, bare]
  | .string .., b => by cases b <;> simp [same, bare]
  | .binary _ l r _, b => by cases b <;> simp [same, bare, same_iff l, same_iff r, and_assoc]
  | .parenthesized i _, b => by cases b <;> simp [same, bare, same_iff i]
  | .tuple vs _, b => by cases b <;> simp [same, bare, sameAll_iff vs]
  | .call _ vs _, b => by cases b <;> simp [same, bare, sameAll_iff vs]
  | .assignment t v _, b => by cases b <;> simp [same, bare, same_iff t, same_iff v]
  | .spec .., b => by cases b <;> simp [same, bare]
  | .probe e p vs _, b => by
    cases b <;> simp [same, bare, same_iff e, sameSome_iff p, sameAll_iff vs, and_assoc]
  | .script vs _, b => by cases b <;> simp [same, bare, sameAll_iff vs]

theorem sameAll_iff : (as bs : List Node) → (sameAll as bs = true ↔ bareAll as = bareAll bs)
  | [], bs => by cases bs <;> simp [sameAll, bareAll]
  | a :: as, bs => by cases bs <;> simp [sameAll, bareAll, same_iff a, sameAll_iff as]

theorem sameSome_iff : (a b : Option Node) → (sameSome a b = true ↔ bareSome a = bareSome b)
  | none, b => by cases b <;> simp [sameSome, bareSome]
  | some a, b => by cases b <;> simp [sameSome, bareSome, same_iff a]

end

mutual

/-- A number that trees have in common when they are the same. -/
def digest : Node → UInt64
  | plain _ => 1
  | identifier name _ => mixHash 2 name.digest
  | integer value base _ => mixHash 3 (mixHash (hash value) (hash base))
  | string value _ => mixHash 5 value.digest
  | binary op l r _ => mixHash 7 (mixHash op.symbol.digest (mixHash l.digest r.digest))
  | parenthesized inner _ => mixHash 11 inner.digest
  | tuple values _ => mixHash 13 (digestAll values)
  | call name args _ => mixHash 17 (mixHash name.digest (digestAll args))
  | assignment target value _ => mixHash 19 (mixHash target.digest value.digest)
  | spec parts _ => mixHash 23 (hash (parts.map (·.map Text.digest)))
  | probe event predicate body _ =>
    mixHash 29 (mixHash event.digest (mixHash (digestSome predicate) (digestAll body)))
  | script probes _ => mixHash 31 (digestAll probes)

def digestAll : List Node → UInt64
  | [] => 37
  | n :: ns => mixHash n.digest (digestAll ns)

def digestSome : Option Node → UInt64
  | none => 41
  | some n => n.digest

end

mutual

private theorem digest_bare : (n : Node) → n.bare.digest = n.digest
  | .plain _ | .identifier .. | .integer .. | .string .. | .spec .. => by simp [bare, digest]
  | .binary _ l r _ => by simp [bare, digest, digest_bare l, digest_bare r]
  | .parenthesized i _ => by simp [bare, digest, digest_bare i]
  | .tuple vs _ => by simp [bare, digest, digestAll_bareAll vs]
  | .call _ vs _ => by simp [bare, digest, digestAll_bareAll vs]
  | .assignment t v _ => by simp [bare, digest, digest_bare t, digest_bare v]
  | .probe e p vs _ => by
    simp [bare, digest, digest_bare e, digestSome_bareSome p, digestAll_bareAll vs]
  | .script vs _ => by simp [bare, digest, digestAll_bareAll vs]

private theorem digestAll_bareAll : (ns : List Node) → digestAll (bareAll ns) = digestAll ns
  | [] => rfl
  | n :: ns => by simp [bareAll, digestAll, digest_bare n, digestAll_bareAll ns]

private theorem digestSome_bareSome : (n : Option Node) → digestSome (bareSome n) = digestSome n
  | none => rfl
  | some n => by simp [bareSome, digestSome, digest_bare n]

end

theorem digest_eq_of_same {a b : Node} (h : a.same b = true) : a.digest = b.digest := by
  rw [← digest_bare a, (same_iff a b).1 h, digest_bare b]

end Node
end ProbeScript
