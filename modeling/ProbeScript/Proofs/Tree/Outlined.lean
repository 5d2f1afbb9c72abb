import ProbeScript.Proofs.Text.Quoting
import ProbeScript.Proofs.Tree.Nodes
import ProbeScript.Proofs.Tree.Printed
import ProbeScript.Proofs.WellFormed

/-! Outlines of trees. An outline has a line for each node, and from the lines the tree can be told:
the indentation tells which nodes are children of which, and the rest of a line what the node is. -/
namespace ProbeScript

private theorem Numeral.decimal?_of_lt {n : Int} (h : n.natAbs < 10 ^ Radix.digitLimit) :
    decimal? n = some (signed .decimal n) := by
  rw [decimal?, Nat.pow_eq, if_pos h]

private theorem Numeral.decimal?_of_le {n : Int} (h : 10 ^ Radix.digitLimit ≤ n.natAbs) :
    decimal? n = none := by
  rw [decimal?, Nat.pow_eq, if_neg (Nat.not_lt.2 h)]

/-! Lists of results that may fail. -/

section
variable {ε α β : Type} {f : α → Except ε β} {as : List α}

private theorem bind_pure_eq_error {e : Except ε α} {g : α → β} {fault : ε}
    (h : (e >>= fun a => pure (g a)) = .error fault) : e = .error fault := by
  cases e with
  | error => exact congrArg _ (Except.error.inj h)
  | ok => cases h

theorem exists_of_forall₂ {R : α → β → Prop} {bs : List β} (h : List.Forall₂ R as bs) :
    ∀ a ∈ as, ∃ b, R a b := by
  induction h with
  | nil => exact List.forall_mem_nil _
  | cons hab _ ih => exact List.forall_mem_cons.2 ⟨⟨_, hab⟩, ih⟩

theorem map_eq_of_forall₂ {γ : Type} {g : α → γ} {R : α → β → Prop} {as as' : List α} {bs : List β}
    (hg : ∀ a a' b, R a b → R a' b → g a = g a') (h : List.Forall₂ R as bs)
    (h' : List.Forall₂ R as' bs) : as.map g = as'.map g := by
  induction h generalizing as' with
  | nil =>
    cases h'
    rfl
  | cons hab _ ih =>
    obtain ⟨a', as', hab', has', rfl⟩ := List.forall₂_cons_right_iff.1 h'
    rw [List.map_cons, List.map_cons, hg _ _ _ hab hab', ih has']

private theorem exists_of_mapM_error {e : ε} (h : as.mapM f = .error e) :
    ∃ a ∈ as, f a = .error e := by
  induction as with
  | nil => cases h
  | cons a as ih =>
    rw [List.mapM_cons] at h
    cases ha : f a with
    | error e' =>
      rw [ha] at h
      obtain rfl := Except.error.inj h
      exact ⟨a, List.mem_cons_self, ha⟩
    | ok b =>
      have hrest : as.mapM f = .error e := by
        cases hrest : as.mapM f with
        | error e' =>
          rw [ha, hrest] at h
          exact h
        | ok bs =>
          rw [ha, hrest] at h
          cases h
      obtain ⟨a', ha', he⟩ := ih hrest
      exact ⟨a', List.mem_cons_of_mem a ha', he⟩

end

namespace Node

variable {n a b : Node} {t d : Text} {e : PrintError}

theorem details_integer {value base : Int} {span : Option Span}
    (h : value.natAbs < 10 ^ Radix.digitLimit) : (integer value base span).details =
      .ok (' ' :: Numeral.signed .decimal value ++ " (base ".toList ++
        Numeral.signed .decimal base ++ [')']) := by
  rw [details.eq_def]
  dsimp only
  rw [Numeral.decimal?_of_lt h]

theorem details_integer_of_le {value base : Int} {span : Option Span}
    (h : 10 ^ Radix.digitLimit ≤ value.natAbs) :
    (integer value base span).details = .error .tooLarge := by
  rw [details.eq_def]
  dsimp only
  rw [Numeral.decimal?_of_le h]

theorem details_integer_eq_ok_iff {value base : Int} {span : Option Span} :
    (integer value base span).details = .ok d ↔ value.natAbs < 10 ^ Radix.digitLimit ∧
      d = ' ' :: Numeral.signed .decimal value ++ " (base ".toList ++
        Numeral.signed .decimal base ++ [')'] := by
  rcases Nat.lt_or_ge value.natAbs (10 ^ Radix.digitLimit) with hlt | hle
  · rw [details_integer hlt]
    exact ⟨fun h => ⟨hlt, (Except.ok.inj h).symm⟩, fun h => congrArg _ h.2.symm⟩
  · rw [details_integer_of_le hle]
    exact ⟨nofun, fun h => absurd hle (Nat.not_le.2 h.1)⟩

/-- Only an integer may have no details. -/
theorem details_eq_error_iff : n.details = .error e ↔ e = .tooLarge ∧
    ∃ value base span, n = .integer value base span ∧ 10 ^ Radix.digitLimit ≤ value.natAbs := by
  constructor
  · intro h
    cases n with
    | integer value base span =>
      rcases Nat.lt_or_ge value.natAbs (10 ^ Radix.digitLimit) with hlt | hle
      · rw [details_integer hlt] at h
        cases h
      · rw [details_integer_of_le hle] at h
        exact ⟨(Except.error.inj h).symm, value, base, span, rfl, hle⟩
    | probe event predicate => cases predicate <;> cases h
    | _ => cases h
  · rintro ⟨rfl, value, base, span, rfl, hle⟩
    rw [details_integer_of_le hle]

theorem outlineLine_eq_ok_iff {depth : Nat} : outlineLine depth n = .ok t ↔ ∃ d,
    n.details = .ok d ∧ t = List.replicate (4 * depth) ' ' ++ n.kind.title ++ d :=
  bind_pure_eq_ok_iff

theorem outline_eq_ok_iff : n.outline = .ok t ↔ ∃ lines,
    List.Forall₂ (fun x line => outlineLine x.1 x.2 = .ok line) (n.listing 0) lines ∧
      t = List.intercalate ['\n'] lines := by
  rw [outline, bind_pure_eq_ok_iff]
  simp only [mapM_eq_ok_iff]

/-- An outline fails only because of an integer that is too large. -/
theorem outline_eq_error_iff : n.outline = .error e ↔ e = .tooLarge ∧
    ∃ value base span, .integer value base span ∈ n.nodes ∧
      10 ^ Radix.digitLimit ≤ value.natAbs := by
  have herror {e : PrintError} (h : n.outline = .error e) : e = .tooLarge ∧
      ∃ value base span, .integer value base span ∈ n.nodes ∧
        10 ^ Radix.digitLimit ≤ value.natAbs := by
    obtain ⟨x, hx, hline⟩ := exists_of_mapM_error (bind_pure_eq_error h)
    obtain ⟨rfl, value, base, span, hn, hle⟩ := details_eq_error_iff.1 (bind_pure_eq_error hline)
    exact ⟨rfl, value, base, span, hn ▸ List.mem_map_of_mem hx, hle⟩
  constructor
  · exact herror
  · rintro ⟨rfl, value, base, span, hmem, hle⟩
    cases h : n.outline with
    | error e => rw [(herror h).1]
    | ok t =>
      obtain ⟨lines, hlines, -⟩ := outline_eq_ok_iff.1 h
      obtain ⟨x, hx, hnode⟩ := List.mem_map.1 hmem
      obtain ⟨line, hline⟩ := exists_of_forall₂ hlines x hx
      obtain ⟨d, hd, -⟩ := outlineLine_eq_ok_iff.1 hline
      rw [hnode, details_integer_of_le hle] at hd
      cases hd

/-! What is told of a node. -/

private theorem ne_of_mem_word {terminal : Phrase.Terminal} (hs : terminal ≠ .string)
    (h : terminal.Spells t) : ∀ c ∈ t, c ≠ ' ' ∧ c ≠ '\n' := by
  intro c hc
  have hsolid := h.solid hs c hc
  constructor <;> rintro rfl <;> cases hsolid

theorem ne_of_mem_decimal {value : Int} (h : 0 ≤ value) :
    ∀ c ∈ Numeral.signed .decimal value, c ≠ ' ' ∧ c ≠ '\n' := by
  obtain ⟨k, rfl⟩ := Int.eq_ofNat_of_zero_le h
  intro c hc
  rw [Numeral.signed_natCast] at hc
  have hlayout := Text.isLayout_of_isAlphanum
    (Radix.isAlphanum_of_isDigit (Radix.decimal.isDigit_of_mem_digits k c hc))
  constructor <;> rintro rfl <;> cases hlayout

/-- What is told of a node stands on one line. -/
private theorem newline_not_mem_details (h : n.Shaped) (hd : n.details = .ok d) : '\n' ∉ d := by
  have hcons {t : Text} (ht : '\n' ∉ t) : '\n' ∉ ' ' :: t :=
    List.not_mem_cons_of_ne_of_not_mem (by decide) ht
  cases n with
  | identifier name =>
    obtain rfl := Except.ok.inj hd
    exact hcons fun hc => (ne_of_mem_word (by decide) h _ hc).2 rfl
  | call name =>
    obtain rfl := Except.ok.inj hd
    exact hcons fun hc => (ne_of_mem_word (by decide) h.1 _ hc).2 rfl
  | integer value base span =>
    obtain ⟨hvalue, hbase, -⟩ := h
    have hbases : ∀ b ∈ ([2, 8, 10, 16] : List Int), 0 ≤ b := by decide
    have hbase := hbases base hbase
    obtain ⟨-, rfl⟩ := details_integer_eq_ok_iff.1 hd
    have hvalue : '\n' ∉ Numeral.signed .decimal value :=
      fun hc => (ne_of_mem_decimal hvalue _ hc).2 rfl
    have hbase : '\n' ∉ Numeral.signed .decimal base :=
      fun hc => (ne_of_mem_decimal hbase _ hc).2 rfl
    simp [hvalue, hbase]
  | string value =>
    obtain rfl := Except.ok.inj hd
    exact hcons (Text.newline_not_mem_quoted value)
  | binary op =>
    obtain rfl := Except.ok.inj hd
    cases op <;> decide
  | spec parts =>
    obtain rfl := Except.ok.inj hd
    exact hcons fun hc => (ne_of_mem_word (by decide) (IsSpec.spells h) _ hc).2 rfl
  | probe event predicate =>
    cases predicate
    all_goals
      obtain rfl := Except.ok.inj hd
      decide
  | plain => exact h.elim
  | parenthesized | tuple | assignment | script =>
    obtain rfl := Except.ok.inj hd
    exact List.not_mem_nil

theorem head?_details (hd : n.details = .ok d) : ∀ c ∈ d.head?, c = ' ' := by
  intro c hc
  cases n with
  | integer value base span =>
    obtain ⟨-, rfl⟩ := details_integer_eq_ok_iff.1 hd
    exact (Option.some.inj hc).symm
  | probe event predicate =>
    cases predicate
    all_goals
      obtain rfl := Except.ok.inj hd
      simpa using hc.symm
  | _ =>
    obtain rfl := Except.ok.inj hd
    simpa using hc.symm

theorem title_inj {k l : NodeKind} (h : k.title = l.title) : k = l := by
  revert h
  cases k <;> cases l <;> decide

theorem title_solid (k : NodeKind) : k.title ≠ [] ∧ ∀ c ∈ k.title, c ≠ ' ' ∧ c ≠ '\n' := by
  cases k <;> exact ⟨by decide, Text.forall_mem_of_all (by decide)⟩

/-! The lines of an outline. -/

/-- An outline has a line for each node. -/
theorem outline_lines (h : ∀ m ∈ n.nodes, m.Shaped) (ht : n.outline = .ok t) :
    List.Forall₂ (fun x line => outlineLine x.1 x.2 = .ok line) (n.listing 0)
      (Text.pieces '\n' t) := by
  obtain ⟨lines, hlines, rfl⟩ := outline_eq_ok_iff.1 ht
  have hne : lines ≠ [] := by
    rintro rfl
    rw [listing_eq] at hlines
    cases hlines
  have hnewline : ∀ line ∈ lines, '\n' ∉ line := by
    intro line hline
    obtain ⟨i, hi, rfl⟩ := List.getElem_of_mem hline
    have hi' : i < (n.listing 0).length := hlines.length_eq ▸ hi
    obtain ⟨d, hd, he⟩ := outlineLine_eq_ok_iff.1 (hlines.get hi' hi)
    have hshaped := h _ (List.mem_map_of_mem (List.getElem_mem hi'))
    have hparts : lines[i] = _ := he
    rw [hparts, List.mem_append, List.mem_append]
    rintro ((hc | hc) | hc)
    · cases List.eq_of_mem_replicate hc
    · exact ((title_solid _).2 _ hc).2 rfl
    · exact newline_not_mem_details hshaped hd hc
  rwa [Text.pieces_intercalate hne hnewline]

end Node
end ProbeScript
