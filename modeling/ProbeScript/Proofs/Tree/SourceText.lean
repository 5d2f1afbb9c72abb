import ProbeScript.Proofs.Tree.Words

/-! What the text of a tree depends on and what it is made of: it does not tell where the tree was
read from, a carriage return in it stands in one of the words of the tree, and the only white space
at its end is the line feed behind the last brace of a script. -/
namespace ProbeScript

namespace Text
variable {t w : Text}

/-- The last character is no white space. -/
def EndsSolid (t : Text) : Prop := ∃ s c, t = s ++ [c] ∧ isSpace c = false

private theorem EndsSolid.append (h : EndsSolid t) (s : Text) : EndsSolid (s ++ t) := by
  obtain ⟨r, c, rfl, hc⟩ := h
  exact ⟨s ++ r, c, by rw [List.append_assoc], hc⟩

/-- White space at the end is cut off up to there. -/
theorem EndsSolid.stripEnd_append (h : EndsSolid t) (hw : ∀ c ∈ w, isSpace c = true) :
    stripEnd (t ++ w) = t := by
  obtain ⟨s, c, rfl, hc⟩ := h
  have hall : ∀ d ∈ w.reverse, isSpace d = true := fun d hd => hw d (List.mem_reverse.1 hd)
  rw [stripEnd, dropEnd, List.reverse_append, List.dropWhile_append_of_pos hall,
    List.reverse_append, List.reverse_singleton, List.singleton_append,
    List.dropWhile_cons_of_neg (by simp [hc]), List.reverse_cons, List.reverse_reverse]

theorem EndsSolid.not_isBlank (h : EndsSolid t) (w : Text) : isBlank (t ++ w) = false := by
  obtain ⟨s, c, rfl, hc⟩ := h
  simp [isBlank, hc]

end Text

private theorem Phrase.Terminal.Spells.endsSolid {terminal : Terminal} {w : Text}
    (h : terminal.Spells w) : w.EndsSolid := by
  rcases List.eq_nil_or_concat' w with rfl | ⟨s, c, rfl⟩
  · exact absurd rfl h.ne_nil
  · exact ⟨s, c, rfl, h.isSpace_last⟩

namespace Node

open Phrase (Terminal intercalate_cons not_mem_intercalate)

/-! The text of a tree, by those of its parts. -/

section
variable {n : Node} {ns : List Node} {span : Option Span} {t : Text} {ts : List Text}

theorem source_binary_iff {op : Operator} {left right : Node} :
    (binary op left right span).source = .ok t ↔ ∃ l r, left.source = .ok l ∧
      right.source = .ok r ∧ t = parenthesesIf (breaksLeft op left) l ++ ' ' :: op.symbol ++ ' ' ::
        parenthesesIf (breaksRight op right) r :=
  bind_bind_pure_eq_ok_iff

theorem source_parenthesized_iff : (parenthesized n span).source = .ok t ↔
    ∃ u, n.source = .ok u ∧ t = parenthesesIf true u :=
  bind_pure_eq_ok_iff

theorem source_tuple_iff : (tuple ns span).source = .ok t ↔
    ∃ ts, sources ns = .ok ts ∧ t = listText ts :=
  bind_pure_eq_ok_iff

theorem source_call_iff {name : Text} : (call name ns span).source = .ok t ↔
    ∃ ts, sources ns = .ok ts ∧ t = name ++ listText ts :=
  bind_pure_eq_ok_iff

theorem source_assignment_iff {target value : Node} :
    (assignment target value span).source = .ok t ↔ ∃ name v, target.name? = some name ∧
      value.source = .ok v ∧ t = name ++ " = ".toList ++ v := by
  rw [source]
  cases target.name? with
  | none => simp
  | some name =>
    refine bind_pure_eq_ok_iff.trans ?_
    simp

theorem source_probe_iff {event : Node} {predicate : Option Node} {body : List Node} :
    (probe event predicate body span).source = .ok t ↔ ∃ e p b, event.source = .ok e ∧
      sourceSome predicate = .ok p ∧ sources body = .ok b ∧ t = probeText e p b := by
  refine bind_eq_ok_iff.trans (exists_congr fun e => ?_)
  rw [bind_bind_pure_eq_ok_iff]
  simp only [exists_and_left]

theorem source_script_iff : (script ns span).source = .ok t ↔
    ∃ ts, sources ns = .ok ts ∧ t = List.intercalate ['\n'] ts :=
  bind_pure_eq_ok_iff

theorem sources_cons_iff : sources (n :: ns) = .ok ts ↔
    ∃ u us, n.source = .ok u ∧ sources ns = .ok us ∧ ts = u :: us :=
  bind_bind_pure_eq_ok_iff

theorem sources_eq_ok_iff : sources ns = .ok ts ↔
    List.Forall₂ (fun n t => n.source = .ok t) ns ts := by
  induction ns generalizing ts with
  | nil => exact ⟨fun h => Except.ok.inj h ▸ .nil, fun h => by cases h; rfl⟩
  | cons n ns ih =>
    rw [sources_cons_iff, List.forall₂_cons_left_iff]
    simp only [ih, exists_and_left]

theorem sourceSome_some_iff {p : Option Text} : sourceSome (some n) = .ok p ↔
    ∃ u, n.source = .ok u ∧ p = some u :=
  bind_pure_eq_ok_iff

end

/-! The stretches of text of a tree are not written. -/

private theorem operator?_bare (n : Node) : n.bare.operator? = n.operator? := by cases n <;> rfl

private theorem name?_bare (n : Node) : n.bare.name? = n.name? := by cases n <;> rfl

mutual

private theorem source_bare : (n : Node) → n.bare.source = n.source
  | .plain _ | .identifier .. | .integer .. | .string .. | .spec .. => rfl
  | .binary _ l r _ => by
    rw [bare, source, source_bare l, source_bare r, source, breaksLeft, breaksRight, breaksLeft,
      breaksRight, operator?_bare, operator?_bare]
  | .parenthesized i _ => by rw [bare, source, source_bare i, source]
  | .tuple vs _ => by rw [bare, source, sources_bareAll vs, source]
  | .call _ vs _ => by rw [bare, source, sources_bareAll vs, source]
  | .assignment t v _ => by rw [bare, source, source_bare v, name?_bare, source]
  | .probe e p vs _ => by
    rw [bare, source, source_bare e, sourceSome_bareSome p, sources_bareAll vs, source]
  | .script vs _ => by rw [bare, source, sources_bareAll vs, source]

private theorem sources_bareAll : (ns : List Node) → sources (bareAll ns) = sources ns
  | [] => rfl
  | n :: ns => by rw [bareAll, sources, source_bare n, sources_bareAll ns, sources]

private theorem sourceSome_bareSome : (n : Option Node) → sourceSome (bareSome n) = sourceSome n
  | none => rfl
  | some n => by rw [bareSome, sourceSome, source_bare n, sourceSome]

end

/-- Trees that are the same have the same text. -/
theorem source_eq_of_bare {n m : Node} (h : n.bare = m.bare) : n.source = m.source := by
  rw [← source_bare n, h, source_bare]

/-! Carriage returns. -/

/-- No word holds a carriage return. -/
def Unreturned (ws : List (Terminal × Text)) : Prop := ∀ w ∈ ws, '\r' ∉ w.2

private theorem Unreturned.of_enclosed {ws : List (Terminal × Text)}
    (h : Unreturned (enclosed ws)) : Unreturned ws :=
  (List.forall_mem_append.1 (List.forall_mem_cons.1 h).2).1

private theorem Unreturned.of_listed {wss : List (List (Terminal × Text))}
    (h : Unreturned (listed wss)) : ∀ ws ∈ wss, Unreturned ws := by
  cases wss with
  | nil => exact List.forall_mem_nil _
  | cons vs wss =>
    rw [listed, intercalate_cons] at h
    obtain ⟨hvs, hwss⟩ := List.forall_mem_append.1 h
    refine List.forall_mem_cons.2 ⟨hvs, fun ws hws w hw => ?_⟩
    exact hwss w (List.mem_flatMap_of_mem hws (List.mem_append_right _ hw))

theorem return_not_mem_marker (r : Radix) : '\r' ∉ r.marker := by cases r <;> decide

theorem return_not_mem_digits (r : Radix) (n : Nat) : '\r' ∉ r.digits n := by
  intro hc
  cases Text.isLayout_of_isAlphanum (Radix.isAlphanum_of_isDigit (r.isDigit_of_mem_digits n _ hc))

private theorem return_not_mem_signed (r : Radix) (n : Int) : '\r' ∉ Numeral.signed r n := by
  have hsign : '\r' ∉ if n < 0 then ['-'] else [] := by split <;> decide
  rw [Numeral.signed, List.mem_append, List.mem_append]
  rintro ((hc | hc) | hc)
  · exact return_not_mem_marker r hc
  · exact hsign hc
  · exact return_not_mem_digits r _ hc

private theorem return_not_mem_literal {value base : Int} {t : Text}
    (ht : Numeral.literal value base = .ok t) : '\r' ∉ t := by
  rw [Numeral.literal] at ht
  split at ht
  case h_1 =>
    rw [Numeral.decimal?] at ht
    split at ht
    case isTrue =>
      obtain rfl := Except.ok.inj ht
      exact return_not_mem_signed .decimal value
    case isFalse => cases ht
  case h_2 r _ =>
    obtain rfl := Except.ok.inj ht
    exact return_not_mem_signed _ value

private theorem return_not_mem_name? {n : Node} {name : Text} (h : Unreturned n.words)
    (hn : n.name? = some name) : '\r' ∉ name := by
  cases n with
  | identifier | call =>
    obtain rfl := Option.some.inj hn
    exact h _ List.mem_cons_self
  | _ => cases hn

private theorem return_not_mem_parenthesesIf (needed : Bool) {t : Text} (h : '\r' ∉ t) :
    '\r' ∉ parenthesesIf needed t := by
  cases needed <;> simp [parenthesesIf, h]

private theorem return_not_mem_listText {ts : List Text} (h : ∀ t ∈ ts, '\r' ∉ t) :
    '\r' ∉ listText ts := by
  have hitems : '\r' ∉ List.intercalate ", ".toList ts := not_mem_intercalate (by decide) h
  rw [listText, List.mem_append, List.mem_cons]
  rintro ((hc | hc) | hc)
  · cases hc
  · exact hitems hc
  · cases List.mem_singleton.1 hc

private theorem return_not_mem_probeText {event : Text} {predicate : Option Text} {body : List Text}
    (he : '\r' ∉ event) (hp : ∀ p ∈ predicate, '\r' ∉ p) (hb : ∀ s ∈ body, '\r' ∉ s) :
    '\r' ∉ probeText event predicate body := by
  cases predicate <;> simp_all [probeText]

mutual

theorem return_not_mem_source : (n : Node) → {t : Text} → Unreturned n.words →
    n.source = .ok t → '\r' ∉ t
  | .plain _, _, _, ht => by cases ht
  | .identifier name _, _, h, ht => by
    obtain rfl := Except.ok.inj ht
    exact h _ List.mem_cons_self
  | .integer value base _, _, _, ht => return_not_mem_literal ht
  | .string value _, _, h, ht => by
    obtain rfl := Except.ok.inj ht
    exact h _ List.mem_cons_self
  | .binary op left right _, _, h, ht => by
    obtain ⟨l, r, hl, hr, rfl⟩ := source_binary_iff.1 ht
    obtain ⟨hleft, hright⟩ := List.forall_mem_append.1 h
    obtain ⟨hop, hright⟩ := List.forall_mem_cons.1 hright
    have hl := return_not_mem_parenthesesIf (breaksLeft op left)
      (return_not_mem_source left hleft hl)
    have hr := return_not_mem_parenthesesIf (breaksRight op right)
      (return_not_mem_source right hright hr)
    simpa [hl, hr] using hop
  | .parenthesized inner _, _, h, ht => by
    obtain ⟨t, hinner, rfl⟩ := source_parenthesized_iff.1 ht
    exact return_not_mem_parenthesesIf true (return_not_mem_source inner h.of_enclosed hinner)
  | .tuple values _, _, h, ht => by
    obtain ⟨ts, hts, rfl⟩ := source_tuple_iff.1 ht
    exact return_not_mem_listText (return_not_mem_sources values h.of_enclosed.of_listed hts)
  | .call name args _, _, h, ht => by
    obtain ⟨ts, hts, rfl⟩ := source_call_iff.1 ht
    obtain ⟨hname, hargs⟩ := List.forall_mem_cons.1 h
    have hlist := return_not_mem_listText
      (return_not_mem_sources args (Unreturned.of_enclosed hargs).of_listed hts)
    exact fun hc => (List.mem_append.1 hc).elim hname hlist
  | .assignment target value _, _, h, ht => by
    obtain ⟨name, v, hname, hv, rfl⟩ := source_assignment_iff.1 ht
    obtain ⟨htarget, hvalue⟩ := List.forall_mem_append.1 h
    have hname := return_not_mem_name? htarget hname
    have hv := return_not_mem_source value (List.forall_mem_cons.1 hvalue).2 hv
    simp [hname, hv]
  | .spec parts _, _, h, ht => by
    obtain rfl := Except.ok.inj ht
    exact h _ List.mem_cons_self
  | .probe event predicate body _, _, h, ht => by
    obtain ⟨e, p, b, he, hp, hb, rfl⟩ := source_probe_iff.1 ht
    obtain ⟨hevent, h⟩ := List.forall_mem_append.1 h
    obtain ⟨hpredicate, h⟩ := List.forall_mem_append.1 h
    obtain ⟨-, h⟩ := List.forall_mem_cons.1 h
    obtain ⟨hbody, -⟩ := List.forall_mem_append.1 h
    refine return_not_mem_probeText (return_not_mem_source event hevent he)
      (return_not_mem_sourceSome predicate hpredicate hp) (return_not_mem_sources body ?_ hb)
    exact fun ws hws w hw => hbody w (List.mem_flatMap_of_mem hws (List.mem_append_left _ hw))
  | .script probes _, _, h, ht => by
    obtain ⟨ts, hts, rfl⟩ := source_script_iff.1 ht
    refine not_mem_intercalate (by decide) (return_not_mem_sources probes ?_ hts)
    exact fun ws hws w hw => h w (List.mem_flatten_of_mem hws hw)

private theorem return_not_mem_sources : (ns : List Node) → {ts : List Text} →
    (∀ ws ∈ wordsAll ns, Unreturned ws) → sources ns = .ok ts → ∀ t ∈ ts, '\r' ∉ t
  | [], _, _, hts => by
    obtain rfl := Except.ok.inj hts
    exact List.forall_mem_nil _
  | n :: ns, _, h, hts => by
    obtain ⟨t, ts, ht, hrest, rfl⟩ := sources_cons_iff.1 hts
    obtain ⟨hn, hns⟩ := List.forall_mem_cons.1 h
    exact List.forall_mem_cons.2
      ⟨return_not_mem_source n hn ht, return_not_mem_sources ns hns hrest⟩

private theorem return_not_mem_sourceSome : (n : Option Node) → {t : Option Text} →
    Unreturned (wordsSome n) → sourceSome n = .ok t → ∀ p ∈ t, '\r' ∉ p
  | none, _, _, ht => by
    obtain rfl := Except.ok.inj ht
    rintro p ⟨⟩
  | some n, _, h, ht => by
    obtain ⟨t, hn, rfl⟩ := sourceSome_some_iff.1 ht
    rintro p ⟨⟩
    obtain ⟨-, h⟩ := List.forall_mem_cons.1 h
    exact return_not_mem_source n (List.forall_mem_append.1 h).1 hn

end

/-! The ends of texts. -/

variable {n : Node} {t : Text}

private theorem IsValue.endsSolid (h : IsValue n) : ∃ t, n.source = .ok t ∧ t.EndsSolid := by
  cases h with
  | identifier span hname => exact ⟨_, rfl, hname.endsSolid⟩
  | @integer r n span hlt =>
    have hspells : (Terminal.ofRadix r).Spells (r.marker ++ r.digits n) :=
      .numeral r (r.digits_ne_nil n) (r.isDigit_of_mem_digits n) fun _ => Radix.digits_of_zero
    exact ⟨_, Numeral.literal_eq hlt, hspells.endsSolid⟩
  | string span => exact ⟨_, rfl, _, _, rfl, rfl⟩

private theorem parenthesesIf_endsSolid (needed : Bool) (h : t.EndsSolid) :
    (parenthesesIf needed t).EndsSolid := by
  cases needed
  · exact h
  · exact ⟨'(' :: t, ')', rfl, rfl⟩

theorem IsExpression.endsSolid : {n : Node} → IsExpression n → {t : Text} → n.source = .ok t →
    t.EndsSolid
  | _, .value h, _, ht => by
    obtain ⟨u, hu, hend⟩ := h.endsSolid
    obtain rfl := Except.ok.inj (hu.symm.trans ht)
    exact hend
  | .binary op left right _, .binary _ _ _ hright, _, ht => by
    obtain ⟨l, r, -, hr, rfl⟩ := source_binary_iff.1 ht
    have hend := parenthesesIf_endsSolid (breaksRight op right) (hright.endsSolid hr)
    exact (hend.append [' ']).append (parenthesesIf (breaksLeft op left) l ++ ' ' :: op.symbol)
  | .parenthesized _ _, .parenthesized _ _, _, ht => by
    obtain ⟨t, -, rfl⟩ := source_parenthesized_iff.1 ht
    exact ⟨'(' :: t, ')', rfl, rfl⟩
  | .call name _ _, .call _ _ _, _, ht => by
    obtain ⟨ts, -, rfl⟩ := source_call_iff.1 ht
    have hlist : (listText ts).EndsSolid := ⟨_, ')', rfl, rfl⟩
    exact hlist.append name

/-- A text that ends in a closing brace and a line feed. -/
def Closed (t : Text) : Prop := ∃ s, t = s ++ ['\x7d'] ++ ['\n']

private theorem IsProbe.closed (h : IsProbe n) (ht : n.source = .ok t) : Closed t := by
  cases h
  obtain ⟨event, predicate, body, -, -, -, rfl⟩ := source_probe_iff.1 ht
  exact ⟨_, (List.append_assoc _ ['\x7d'] ['\n']).symm⟩

private theorem Closed.intercalate (sep : Text) :
    {ts : List Text} → ts ≠ [] → (∀ t ∈ ts, Closed t) →
    Closed (List.intercalate sep ts)
  | [t], _, h => by
    rw [List.intercalate_singleton]
    exact h t List.mem_cons_self
  | t :: u :: ts, _, h => by
    have hrest := (List.forall_mem_cons.1 h).2
    obtain ⟨s, hs⟩ := Closed.intercalate sep (List.cons_ne_nil u ts) hrest
    rw [List.intercalate_cons_cons, hs]
    exact ⟨t ++ sep ++ s, by simp⟩

theorem IsScript.closed (h : IsScript n) (ht : n.source = .ok t) : Closed t := by
  obtain ⟨span, hne, hprobes⟩ := h
  obtain ⟨ts, hts, rfl⟩ := source_script_iff.1 ht
  replace hts := sources_eq_ok_iff.1 hts
  refine Closed.intercalate ['\n'] ?_ fun t ht => ?_
  · rintro rfl
    cases hts
    exact hne rfl
  · obtain ⟨i, hi, rfl⟩ := List.getElem_of_mem ht
    have hlength := hts.length_eq
    exact (hprobes _ (List.getElem_mem (hlength ▸ hi))).closed (hts.get _ hi)

end Node
end ProbeScript
