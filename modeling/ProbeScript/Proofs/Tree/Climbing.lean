import ProbeScript.Proofs.Tree.Flat

/-! Three ways to group a row of operands: attaching one after the other, climbing from operator to
operator with a bound on how loosely they may bind, and dividing the row at the last of its loosest
operators. They come to the same grouping. -/
namespace ProbeScript

theorem Span.join_eq_none_iff {s t : Option Span} : join s t = none ↔ s = none ∨ t = none := by
  cases s <;> cases t <;> simp [join]

namespace Grouping

variable {α : Type} {P : α → Prop} {first : α} {row before after : List (Operator × α)}
  {x y : Operator × α}

/-- The last of the loosest operators of a row, with its operand, between what comes before and what
comes after. -/
def loosest? : List (Operator × α) →
    Option (List (Operator × α) × (Operator × α) × List (Operator × α))
  | [] => none
  | x :: row =>
    match loosest? row with
    | some (before, y, after) =>
      if y.1.tier ≤ x.1.tier then some (x :: before, y, after) else some ([], x, row)
    | none => some ([], x, row)

theorem loosest?_eq_none_iff : loosest? row = none ↔ row = [] := by
  cases row with
  | nil => simp [loosest?]
  | cons x row =>
    rw [loosest?]
    split
    · split <;> simp
    · simp

/-- No operator binds more loosely, and none after it binds as loosely. -/
private theorem loosest?_spec (h : loosest? row = some (before, y, after)) :
    row = before ++ y :: after ∧
    (∀ x ∈ before, y.1.tier ≤ x.1.tier) ∧ ∀ x ∈ after, y.1.tier < x.1.tier := by
  induction row generalizing before y after with
  | nil => cases h
  | cons x row ih =>
    rw [loosest?] at h
    split at h
    case h_1 init z last hrow =>
      obtain ⟨rfl, hinit, hlast⟩ := ih hrow
      split at h
      case isTrue hle =>
        obtain ⟨rfl, rfl, rfl⟩ := h
        exact ⟨rfl, List.forall_mem_cons.2 ⟨hle, hinit⟩, hlast⟩
      case isFalse hlt =>
        obtain ⟨rfl, rfl, rfl⟩ := h
        have hlt := Nat.not_le.1 hlt
        refine ⟨rfl, by simp, List.forall_mem_append.2 ⟨fun w hw => ?_, ?_⟩⟩
        · exact Nat.lt_of_lt_of_le hlt (hinit w hw)
        · exact List.forall_mem_cons.2 ⟨hlt, fun w hw => Nat.lt_trans hlt (hlast w hw)⟩
    case h_2 hrow =>
      obtain ⟨rfl, rfl, rfl⟩ := h
      simp [loosest?_eq_none_iff.1 hrow]

/-- There is only one such operator. -/
private theorem loosest?_append (hbefore : ∀ x ∈ before, y.1.tier ≤ x.1.tier)
    (hafter : ∀ x ∈ after, y.1.tier < x.1.tier) :
    loosest? (before ++ y :: after) = some (before, y, after) := by
  induction before with
  | nil =>
    rw [List.nil_append, loosest?]
    split
    case h_1 init z last hrow =>
      obtain ⟨rfl, -, -⟩ := loosest?_spec hrow
      have hlt := hafter z (List.mem_append_right _ List.mem_cons_self)
      exact if_neg (Nat.not_le.2 hlt)
    case h_2 => rfl
  | cons x before ih =>
    obtain ⟨hle, hbefore⟩ := List.forall_mem_cons.1 hbefore
    rw [List.cons_append, loosest?, ih hbefore]
    exact if_pos hle

private theorem length_of_loosest? (h : loosest? row = some (before, y, after)) :
    before.length < row.length ∧ after.length < row.length := by
  obtain ⟨rfl, -, -⟩ := loosest?_spec h
  rw [List.length_append, List.length_cons]
  omega

/-- A row divided at the last of its loosest operators, and each side again. -/
def divide (first : α) (row : List (Operator × α)) : Grouping α :=
  match _h : loosest? row with
  | none => operand first
  | some (before, (op, a), after) => joined op (divide first before) (divide a after)
termination_by row.length
decreasing_by
  · exact (length_of_loosest? _h).1
  · exact (length_of_loosest? _h).2

private theorem divide_nil (first : α) : divide first [] = operand first := by
  rw [divide]
  rfl

private theorem divide_of_loosest? {op : Operator} {a : α}
    (h : loosest? row = some (before, (op, a), after)) :
    divide first row = joined op (divide first before) (divide a after) := by
  rw [divide]
  split
  case h_1 hnone => rw [h] at hnone; cases hnone
  case h_2 hsome =>
    rw [h] at hsome
    obtain ⟨rfl, rfl, rfl⟩ := hsome
    rfl

/-- An ordered grouping is what its row is divided into. -/
private theorem Ordered.divide_eq {g : Grouping α} (h : g.Ordered P) :
    divide g.first g.rest = g := by
  induction h with
  | operand => exact divide_nil _
  | @joined op left right hleft hright hle hlt ihleft ihright =>
    have hloosest : loosest? (Grouping.joined op left right).rest =
        some (left.rest, (op, right.first), right.rest) := by
      apply loosest?_append
      all_goals intro x hx
      · exact Nat.le_trans hle (hleft.tier_le x hx)
      · exact Nat.lt_of_lt_of_le hlt (hright.tier_le x hx)
    rw [divide_of_loosest? hloosest, ihright]
    exact congrArg (Grouping.joined op · right) ihleft

section
variable (operands : List α) (operators : List Operator)

mutual

/-- Takes in the operators from the index on that bind so tightly at least. There is no result if an
operand is missing, or if a round takes nothing in, so that there would be no end. -/
def climb (least : Nat) (lhs : Grouping α) (i : Nat) : Option (Grouping α × Nat) :=
  if _h : i < operators.length then
    let op := operators[i]
    if op.tier < least then some (lhs, i)
    else do
      let a ← operands[i + 1]?
      let (rhs, j) ← tighten op.tier (operand a) (i + 1)
      if _h : i < j then climb least (joined op lhs rhs) j else none
  else some (lhs, i)
termination_by (operators.length - i, 0)

/-- Takes in the operators from the index on that bind more tightly. -/
def tighten (tier : Nat) (rhs : Grouping α) (i : Nat) : Option (Grouping α × Nat) :=
  if _h : i < operators.length then
    if operators[i].tier ≤ tier then some (rhs, i)
    else do
      let (rhs, j) ← climb (tier + 1) rhs i
      if _h : i < j then tighten tier rhs j else none
  else some (rhs, i)
termination_by (operators.length - i, 1)

end

end

/-- One grouping comes of another by taking in the operators of the row between two indices, each
with the operand after it. -/
structure TakesIn (row : List (Operator × α)) (lhs : Grouping α) (i : Nat) (g : Grouping α)
    (j : Nat) : Prop where
  first_eq : g.first = lhs.first
  exists_taken : ∃ taken, g.rest = lhs.rest ++ taken ∧ row.drop i = taken ++ row.drop j ∧
    j = i + taken.length

namespace TakesIn
variable {lhs rhs g g' : Grouping α} {i j k : Nat} {op : Operator} {a : α}

private theorem refl (row : List (Operator × α)) (g : Grouping α) (i : Nat) : TakesIn row g i g i :=
  ⟨rfl, [], by simp⟩

private theorem trans (h : TakesIn row lhs i g j) (h' : TakesIn row g j g' k) :
    TakesIn row lhs i g' k := by
  obtain ⟨taken, hrest, hrow, rfl⟩ := h.exists_taken
  obtain ⟨taken', hrest', hrow', rfl⟩ := h'.exists_taken
  refine ⟨h'.first_eq.trans h.first_eq, taken ++ taken', ?_, ?_, ?_⟩
  · rw [hrest', hrest, List.append_assoc]
  · rw [hrow, hrow', List.append_assoc]
  · rw [List.length_append, Nat.add_assoc]

/-- An operator is taken in together with what its right side has taken in. -/
private theorem joined (lhs : Grouping α) (hrow : row.drop i = (op, a) :: row.drop (i + 1))
    (h : TakesIn row (operand a) (i + 1) rhs j) :
    TakesIn row lhs i (Grouping.joined op lhs rhs) j := by
  obtain ⟨taken, hrest, hrow', rfl⟩ := h.exists_taken
  refine ⟨rfl, (op, a) :: taken, ?_, ?_, ?_⟩
  · rw [Grouping.rest, h.first_eq, hrest]
    rfl
  · rw [hrow, hrow', List.cons_append]
  · rw [List.length_cons]
    omega

private theorem le (h : TakesIn row lhs i g j) : i ≤ j := by
  obtain ⟨taken, -, -, rfl⟩ := h.exists_taken
  exact Nat.le_add_right _ _

end TakesIn

section
variable {others : List α} {operators : List Operator} {op : Operator}

/-- After each operator there is an operand. -/
private theorem exists_operand {i : Nat} (h : others.length = operators.length)
    (hop : operators[i]? = some op) : ∃ a, others[i]? = some a ∧
      (operators.zip others).drop i = (op, a) :: (operators.zip others).drop (i + 1) := by
  obtain ⟨hi, rfl⟩ := List.getElem?_eq_some_iff.1 hop
  have hi' : i < others.length := h ▸ hi
  refine ⟨others[i], List.getElem?_eq_getElem hi', ?_⟩
  rw [List.drop_eq_getElem_cons (by rw [List.length_zip]; omega), List.getElem_zip]

mutual

/-- A climb takes in operators up to the first that binds too loosely. What it begins with stays
whole on the left, so it must not bind more loosely than the next operator. -/
private theorem exists_climb (first : α) (least : Nat) (h : others.length = operators.length)
    {lhs : Grouping α} {i : Nat} (hlhs : lhs.Ordered fun _ => True)
    (hnext : ∀ op ∈ operators[i]?, least ≤ op.tier → op.tier ≤ lhs.tier) :
    ∃ g j, climb (first :: others) operators least lhs i = some (g, j) ∧
      (g.Ordered fun _ => True) ∧ TakesIn (operators.zip others) lhs i g j ∧
        min least lhs.tier ≤ g.tier ∧ ∀ op ∈ operators[j]?, op.tier < least := by
  rw [climb]
  by_cases hlt : i < operators.length
  case neg =>
    have hi := List.getElem?_eq_none (Nat.not_lt.1 hlt)
    exact ⟨lhs, i, dif_neg hlt, hlhs, .refl _ _ _, Nat.min_le_right _ _, by simp [hi]⟩
  rw [dif_pos hlt]
  have hi := List.getElem?_eq_getElem hlt
  generalize operators[i] = op at hi
  by_cases ht : op.tier < least
  · exact ⟨lhs, i, if_pos ht, hlhs, .refl _ _ _, Nat.min_le_right _ _, by simp [hi, ht]⟩
  have hle : least ≤ op.tier := Nat.not_lt.1 ht
  obtain ⟨a, ha, hrow⟩ := exists_operand h hi
  obtain ⟨rhs, j, hrhs, hordered, htakes, htier, hend⟩ :=
    exists_tighten first h (i := i + 1)
      (.operand trivial : (operand a).Ordered fun _ => True) op.tier_lt
      fun o _ _ => Nat.le_of_lt o.tier_lt
  have hjoined : (joined op lhs rhs).Ordered fun _ => True :=
    .joined hlhs hordered (hnext op hi hle) htier
  have hij : i < j := htakes.le
  obtain ⟨g, k, hg, hordered', htakes', htier', hend'⟩ :=
    exists_climb first least h hjoined (i := j) fun o ho _ => hend o ho
  refine ⟨g, k, ?_, hordered', (htakes.joined lhs hrow).trans htakes', ?_, hend'⟩
  · simp [ht, ha, hrhs, hij, hg]
  · have hleast : min least (joined op lhs rhs).tier = least := Nat.min_eq_left hle
    rw [hleast] at htier'
    exact Nat.le_trans (Nat.min_le_left _ _) htier'
termination_by (operators.length - i, 0)

/-- What binds more tightly than an operator becomes its right side, up to the first that does
not. -/
private theorem exists_tighten (first : α) (h : others.length = operators.length) {tier : Nat}
    {rhs : Grouping α} {i : Nat} (hrhs : rhs.Ordered fun _ => True) (htier : tier < rhs.tier)
    (hnext : ∀ op ∈ operators[i]?, tier < op.tier → op.tier ≤ rhs.tier) :
    ∃ g j, tighten (first :: others) operators tier rhs i = some (g, j) ∧
      (g.Ordered fun _ => True) ∧ TakesIn (operators.zip others) rhs i g j ∧ tier < g.tier ∧
        ∀ op ∈ operators[j]?, op.tier ≤ tier := by
  rw [tighten]
  by_cases hlt : i < operators.length
  case neg =>
    have hi := List.getElem?_eq_none (Nat.not_lt.1 hlt)
    exact ⟨rhs, i, dif_neg hlt, hrhs, .refl _ _ _, htier, by simp [hi]⟩
  rw [dif_pos hlt]
  have hi := List.getElem?_eq_getElem hlt
  generalize operators[i] = op at hi
  by_cases ht : op.tier ≤ tier
  · exact ⟨rhs, i, if_pos ht, hrhs, .refl _ _ _, htier, by simp [hi, ht]⟩
  obtain ⟨g, j, hg, hordered, htakes, hmin, hend⟩ :=
    exists_climb first (tier + 1) h hrhs (i := i) hnext
  have htier' : tier < g.tier :=
    Nat.lt_of_lt_of_le (Nat.lt_min.2 ⟨Nat.lt_succ_self _, htier⟩) hmin
  -- the climb has taken in one operator at least, as it stops before a looser one
  have hij : i < j := by
    refine Nat.lt_of_le_of_ne htakes.le fun heq => ?_
    have := hend op (heq ▸ hi)
    omega
  obtain ⟨g', k, hg', hordered', htakes', htier'', hend'⟩ :=
    exists_tighten first h hordered htier' (i := j) fun o ho hlt => by
      have := hend o ho
      omega
  refine ⟨g', k, ?_, hordered', htakes.trans htakes', htier'', hend'⟩
  simp [ht, hg, hij, hg']
termination_by (operators.length - i, 1)

end

/-- A climb from the first operand that takes in any operator ends with the row divided at its
loosest operators. -/
private theorem climb_eq_divide (first : α) (h : others.length = operators.length) :
    climb (first :: others) operators 1 (operand first) 0 =
      some (divide first (operators.zip others), operators.length) := by
  obtain ⟨g, j, hclimb, hordered, htakes, -, hend⟩ :=
    exists_climb first 1 h (i := 0) (.operand trivial : (operand first).Ordered fun _ => True)
      fun o _ _ => Nat.le_of_lt o.tier_lt
  -- no operator is loose enough for the climb to stop before it
  have hj : operators.length ≤ j := by
    refine List.getElem?_eq_none_iff.1 (Option.eq_none_iff_forall_not_mem.2 fun o ho => ?_)
    have hpos : 0 < o.tier := by cases o <;> decide
    have := hend o ho
    omega
  obtain ⟨taken, hrest, hrow, htaken⟩ := htakes.exists_taken
  have hlen : (operators.zip others).length = operators.length := by
    rw [List.length_zip, h, Nat.min_self]
  have hdrop : (operators.zip others).drop j = [] :=
    List.drop_eq_nil_of_le (Nat.le_trans (Nat.le_of_eq hlen) hj)
  rw [hdrop, List.append_nil, List.drop_zero] at hrow
  have hg : divide first (operators.zip others) = g := by
    rw [← hordered.divide_eq, htakes.first_eq, hrest, hrow]
    rfl
  rw [hclimb, hg, htaken, ← hrow, hlen, Nat.zero_add]

end

/-! The stretches of text that are covered. -/

/-- A grouping and those that it is joined of. -/
def parts : Grouping α → List (Grouping α)
  | operand a => [operand a]
  | joined op left right => joined op left right :: (left.parts ++ right.parts)

private theorem span_node_eq_none_iff (g : Grouping Node) :
    g.node.span = none ↔ ∃ a ∈ g.operands, a.span = none := by
  induction g with
  | operand n => simp [node, operands]
  | joined op left right ihleft ihright =>
    have hspan : (joined op left right).node.span = Span.join left.node.span right.node.span := rfl
    rw [hspan, Span.join_eq_none_iff, ihleft, ihright, operands]
    simp only [List.mem_append, or_and_right, exists_or]

private theorem span_node_of_mem {s : Span} (g : Grouping Node) (h : s ∈ g.node.span) :
    ∃ s₁ ∈ g.first.span, ∃ s₂ ∈ g.last.span,
      s = ⟨s₁.line, s₁.column, s₂.endLine, s₂.endColumn⟩ := by
  induction g generalizing s with
  | operand n => exact ⟨s, h, s, h, rfl⟩
  | joined op left right ihleft ihright =>
    have hspan : Span.join left.node.span right.node.span = some s := h
    cases hl : left.node.span with
    | none => rw [hl] at hspan; cases hspan
    | some l =>
      cases hr : right.node.span with
      | none => rw [hl, hr] at hspan; cases hspan
      | some r =>
        rw [hl, hr] at hspan
        obtain rfl := Option.some.inj hspan
        obtain ⟨s₁, hs₁, _, -, rfl⟩ := ihleft hl
        obtain ⟨_, -, s₂, hs₂, rfl⟩ := ihright hr
        exact ⟨s₁, hs₁, s₂, hs₂, rfl⟩

/-- A row of operands is grouped as it is divided at its loosest operators. So it is by climbing,
which finds every operand and takes in every operator. A node that joins others covers them from
the first to the last, if each of them covers some text. -/
theorem grouped?_eq_divide (first : Node) {others : List Node} {operators : List Operator}
    (h : others.length = operators.length) :
    Node.grouped? (first :: others) operators =
        some (divide first (operators.zip others)).node ∧
      climb (first :: others) operators 1 (operand first) 0 =
        some (divide first (operators.zip others), operators.length) ∧
      ∀ g ∈ (divide first (operators.zip others)).parts,
        (g.node.span = none ↔ ∃ a ∈ g.operands, a.span = none) ∧
        ∀ s ∈ g.node.span, ∃ s₁ ∈ g.first.span, ∃ s₂ ∈ g.last.span,
          s = ⟨s₁.line, s₁.column, s₂.endLine, s₂.endColumn⟩ := by
  refine ⟨?_, climb_eq_divide first h, fun g _ => ?_⟩
  · have hordered : (ofList first (operators.zip others)).Ordered fun _ => True :=
      .ofList trivial fun _ _ => trivial
    have hdivide := hordered.divide_eq
    rw [first_ofList, rest_ofList] at hdivide
    rw [Node.grouped?, if_pos h, hdivide]
  · exact ⟨span_node_eq_none_iff g, fun s => span_node_of_mem g⟩

/-- A sum with a product on its right, one factor of which covers no text. -/
theorem grouped?_eq_divide_sum :
    let a := Node.identifier ['a'] (some ⟨1, 1, 1, 2⟩)
    let b := Node.identifier ['b'] none
    let c := Node.identifier ['c'] (some ⟨1, 9, 1, 10⟩)
    Node.grouped? [a, b, c] [.add, .multiply] =
        some (.binary .add a (.binary .multiply b c none) none) ∧
      climb [a, b, c] [.add, .multiply] 1 (operand a) 0 =
        some (joined .add (operand a) (joined .multiply (operand b) (operand c)), 2) := by
  intro a b c
  have hordered : (joined .add (operand a) (joined .multiply (operand b) (operand c))).Ordered
      fun _ => True :=
    .joined (.operand trivial)
      (.joined (.operand trivial) (.operand trivial) (by decide) (by decide)) (by decide)
      (by decide)
  have hdivide : divide a (List.zip [.add, .multiply] [b, c]) =
      joined .add (operand a) (joined .multiply (operand b) (operand c)) := hordered.divide_eq
  have hlength : [b, c].length = [Operator.add, .multiply].length := rfl
  obtain ⟨hgrouped, hclimb, -⟩ := grouped?_eq_divide a hlength
  rw [hdivide] at hgrouped hclimb
  exact ⟨hgrouped, hclimb⟩

end Grouping
end ProbeScript
