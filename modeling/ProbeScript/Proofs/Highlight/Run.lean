import ProbeScript.Highlight
import ProbeScript.Proofs.Phrase.Word

/-! Colouring as a run of matches. Wherever text is left some rule takes pieces from its head, at
least one character, and what it takes is what stands there; so the pieces, match after match, make
up the text. -/
namespace ProbeScript.Highlight

variable {depth depth' depth'' : Nat} {t u v w : Text} {ps qs : Pieces} {kind : Kind}

/-- The characters of the pieces. -/
def spelled (ps : Pieces) : Text := ps.flatMap Prod.snd

@[simp] theorem spelled_nil : spelled [] = [] := rfl

@[simp] theorem spelled_cons (p : Kind × Text) (ps : Pieces) :
    spelled (p :: ps) = p.2 ++ spelled ps := rfl

@[simp] theorem spelled_append (ps qs : Pieces) : spelled (ps ++ qs) = spelled ps ++ spelled qs :=
  List.flatMap_append

@[simp] theorem spelled_piece (kind : Kind) (w : Text) : spelled (piece kind w) = w := by
  cases w with
  | nil => rfl
  | cons c w => simp [piece]

theorem piece_eq (kind : Kind) (h : w ≠ []) : piece kind w = [(kind, w)] := by
  rw [piece, if_neg (by simpa using h)]

/-- No piece is empty. -/
private theorem ne_nil_of_mem_piece : ∀ p ∈ piece kind w, p.2 ≠ [] := by
  intro p hp
  rw [piece] at hp
  split at hp
  case isTrue => cases hp
  case isFalse hw =>
    obtain rfl := List.mem_singleton.1 hp
    simpa using hw

theorem mem_piece : ∀ p ∈ piece kind w, p.1 = kind := by
  rw [piece]
  split <;> simp

theorem width_eq (ps : Pieces) : width ps = (spelled ps).length := by
  induction ps with
  | nil => rfl
  | cons p ps ih => rw [spelled_cons, List.length_append, ← ih]; rfl

/-! What a rule takes stands at the head of the text. -/

private theorem prefix_lineCommentAt (t : Text) : lineCommentAt t <+: t := by
  fun_cases lineCommentAt t with
  | case1 rest => exact ⟨rest.dropWhile (· != '\n'), by simp⟩
  | case2 => exact List.nil_prefix

private theorem prefix_word (terminal : Phrase.Terminal) (t : Text) : terminal.word t <+: t := by
  by_cases h : terminal.word t = []
  · exact h ▸ List.nil_prefix
  · exact (Phrase.Terminal.takes_word h).isPrefix

private theorem prefix_functionAt (t : Text) : spelled (functionAt t) <+: t := by
  have hname := List.prefix_iff_eq_append.1 (prefix_word .name t)
  obtain ⟨v, hv⟩ := List.takeWhile_prefix (l := t.drop (Phrase.Terminal.name.word t).length)
    Text.isSpace
  rw [functionAt]
  split
  case isFalse => exact List.nil_prefix
  case isTrue =>
    rw [spelled_append, spelled_piece]
    split
    case isTrue => exact (List.append_nil _).symm ▸ prefix_word .name t
    case isFalse => exact ⟨v, by rw [spelled_piece, List.append_assoc, hv, hname]⟩

private theorem prefix_operatorAt (t : Text) : operatorAt t <+: t := by
  rw [operatorAt]
  split
  case h_1 op hop => exact List.isPrefixOf_iff_prefix.1 (by simpa using List.find?_some hop)
  case h_2 => exact prefix_word .equal t

private theorem prefix_oneOf (cs t : Text) : oneOf cs t <+: t := by
  fun_cases oneOf cs t with
  | case2 c t => exact ⟨t, rfl⟩
  | case1 | case3 => exact List.nil_prefix

private theorem prefix_of_mem_rules {rule : Text → Pieces} (h : rule ∈ rules) (t : Text) :
    spelled (rule t) <+: t := by
  revert rule
  simp only [rules, List.forall_mem_cons, spelled_piece]
  refine ⟨List.takeWhile_prefix _, prefix_lineCommentAt t, ?_, prefix_word .string t, ?_,
    prefix_word .hexadecimal t, prefix_word .binary t, prefix_word .octal t,
    List.takeWhile_prefix _, prefix_functionAt t, prefix_word .name t, prefix_operatorAt t,
    prefix_oneOf _ t, by simp⟩
  · split
    case isTrue hp => exact List.isPrefixOf_iff_prefix.1 hp
    case isFalse => exact List.nil_prefix
  · rw [probeSpecAt]
    split
    case isTrue => exact prefix_word .probeSpec t
    case isFalse => exact List.nil_prefix

/-- Outside comments some rule fits, or one character is text. -/
theorem outside_cases (t : Text) : (∃ rule ∈ rules, rule t ≠ [] ∧ outside t = rule t) ∨
    (∀ rule ∈ rules, rule t = []) ∧ outside t = piece .text (t.take 1) := by
  rw [outside]
  split
  case h_1 ps hps =>
    obtain ⟨rule, hrule, rfl⟩ := List.mem_map.1 (List.mem_of_find?_eq_some hps)
    exact .inl ⟨rule, hrule, by simpa using List.find?_some hps, rfl⟩
  case h_2 hnone =>
    exact .inr ⟨by simpa using hnone, rfl⟩

/-- None of the first rules fits. -/
def Passes (n : Nat) (t : Text) : Prop := ∀ rule ∈ rules.take n, rule t = []

theorem Passes.succ {n : Nat} {rule : Text → Pieces} (h : Passes n t)
    (hrule : rules[n]? = some rule) (hnil : rule t = []) : Passes (n + 1) t := by
  rw [Passes, List.take_add_one, hrule]
  exact List.forall_mem_append.2 ⟨h, List.forall_mem_singleton.2 hnil⟩

/-- The first rule that fits is the one that counts. -/
theorem Passes.outside_eq {n : Nat} {rule : Text → Pieces} (h : Passes n t)
    (hrule : rules[n]? = some rule) (hne : rule t ≠ []) : outside t = rule t := by
  obtain ⟨hn, hget⟩ := List.getElem?_eq_some_iff.1 hrule
  have hsplit : rules = rules.take n ++ rule :: rules.drop (n + 1) := by
    rw [← hget, ← List.drop_eq_getElem_cons hn, List.take_append_drop]
  have hnone : ((rules.take n).map (· t)).find? (!·.isEmpty) = none := by
    rw [List.find?_eq_none]
    exact List.forall_mem_map.2 fun r hr => by simp [h r hr]
  rw [outside, hsplit, List.map_append, List.find?_append, hnone, List.map_cons,
    List.find?_cons_of_pos (by simpa using hne)]
  rfl

/-! Every rule but that of calls takes a single piece. -/

theorem Passes.skip {n : Nat} {f : Text → Text} (h : Passes n t)
    (hrule : rules[n]? = some fun t => piece kind (f t)) (hnil : f t = []) : Passes (n + 1) t :=
  h.succ hrule (by rw [hnil]; rfl)

theorem Passes.outside_word {n : Nat} {f : Text → Text} (h : Passes n t)
    (hrule : rules[n]? = some fun t => piece kind (f t)) (hw : f t = w) (hne : w ≠ []) :
    outside t = [(kind, w)] := by
  subst hw
  rw [← piece_eq kind hne]
  exact h.outside_eq hrule (piece_eq kind hne ▸ List.cons_ne_nil _ _)

private theorem prefix_inside (t : Text) : inside t <+: t := by
  rw [inside]
  split
  case isTrue hp => exact List.isPrefixOf_iff_prefix.1 hp
  case isFalse =>
    split
    case isTrue hp => exact List.isPrefixOf_iff_prefix.1 hp
    case isFalse =>
      split
      case h_1 => exact List.take_prefix 1 t
      case h_2 => exact List.takeWhile_prefix _

theorem inside_ne_nil (h : t ≠ []) : inside t ≠ [] := by
  rw [inside]
  split
  case isTrue => simp
  case isFalse =>
    split
    case isTrue => simp
    case isFalse =>
      split
      case h_1 => simpa using h
      case h_2 run hrun => exact hrun

private theorem ne_nil_of_mem_rules {rule : Text → Pieces} (h : rule ∈ rules) (t : Text) :
    ∀ p ∈ rule t, p.2 ≠ [] := by
  have hpiece {kind : Kind} {w : Text} := @ne_nil_of_mem_piece w kind
  revert rule
  simp only [rules, List.forall_mem_cons]
  refine ⟨hpiece, hpiece, hpiece, hpiece, hpiece, hpiece, hpiece, hpiece, hpiece, ?_, hpiece,
    hpiece, hpiece, by simp⟩
  rw [functionAt]
  split
  case isFalse => simp
  case isTrue =>
    refine List.forall_mem_append.2 ⟨hpiece, ?_⟩
    split
    case isTrue => simp
    case isFalse => exact hpiece

private theorem ne_nil_of_mem_pieces (depth : Nat) (t : Text) : ∀ p ∈ pieces depth t, p.2 ≠ [] := by
  rw [pieces]
  split
  case isFalse => exact ne_nil_of_mem_piece
  case isTrue =>
    rcases outside_cases t with ⟨rule, hrule, -, he⟩ | ⟨-, he⟩ <;> rw [he]
    · exact ne_nil_of_mem_rules hrule t
    · exact ne_nil_of_mem_piece

private theorem pieces_ne_nil (depth : Nat) (h : t ≠ []) : pieces depth t ≠ [] := by
  rw [pieces]
  split
  case isFalse =>
    rw [piece_eq _ (inside_ne_nil h)]
    exact List.cons_ne_nil _ _
  case isTrue =>
    rcases outside_cases t with ⟨rule, -, hne, he⟩ | ⟨-, he⟩ <;> rw [he]
    · exact hne
    · rw [piece_eq _ (by simpa using h)]
      exact List.cons_ne_nil _ _

/-- What is taken stands at the head of the text. -/
theorem prefix_pieces (depth : Nat) (t : Text) : spelled (pieces depth t) <+: t := by
  rw [pieces]
  split
  case isFalse => exact (spelled_piece _ _).symm ▸ prefix_inside t
  case isTrue =>
    rcases outside_cases t with ⟨rule, hrule, -, he⟩ | ⟨-, he⟩ <;> rw [he]
    · exact prefix_of_mem_rules hrule t
    · exact (spelled_piece _ _).symm ▸ List.take_prefix 1 t

theorem spelled_pieces_ne_nil (depth : Nat) (h : t ≠ []) : spelled (pieces depth t) ≠ [] := by
  obtain ⟨p, hp⟩ := List.exists_mem_of_ne_nil _ (pieces_ne_nil depth h)
  intro hnil
  exact ne_nil_of_mem_pieces depth t p hp (List.flatMap_eq_nil_iff.1 hnil p hp)

/-! Where a mark begins, the first match takes the whole of it. -/

theorem outside_string {inner : Text} (h : '"' ∉ inner) (u : Text) :
    outside ('"' :: inner ++ ['"'] ++ u) = [(.string, '"' :: inner ++ ['"'])] := by
  have hword : Phrase.Terminal.string.word ('"' :: inner ++ ['"'] ++ u) = '"' :: inner ++ ['"'] :=
    (Phrase.Terminal.takes_iff.1 (Phrase.Terminal.takes_append_iff.2 ⟨.quoted h, fun _ _ => rfl⟩)).2
  have hnil : Passes 0 ('"' :: inner ++ ['"'] ++ u) := by simp [Passes]
  have hpasses : Passes 3 _ := ((hnil.skip rfl rfl).skip rfl rfl).skip rfl rfl
  exact hpasses.outside_word rfl hword (List.cons_ne_nil _ _)

theorem outside_lineComment (rest : Text) : outside ('/' :: '/' :: rest) =
    [(.lineComment, '/' :: '/' :: rest.takeWhile (· != '\n'))] := rfl

theorem outside_blockComment (rest : Text) :
    outside ('/' :: '*' :: rest) = [(.blockComment, "/*".toList)] := rfl

theorem outside_byteOrderMark (rest : Text) :
    outside (Text.byteOrderMark :: rest) = [(.text, [Text.byteOrderMark])] := rfl

/-- Match after match takes the pieces from the head of the first text; the second is left. As many
comments are open before and after as the numbers say. -/
inductive Run : Nat → Text → Pieces → Nat → Text → Prop
  | done (depth : Nat) (t : Text) : Run depth t [] depth t
  | step {depth depth' : Nat} {ps qs : Pieces} {u v : Text} : spelled ps ++ u ≠ [] →
      pieces depth (spelled ps ++ u) = ps → Run (ps.foldl depthAfter depth) u qs depth' v →
      Run depth (spelled ps ++ u) (ps ++ qs) depth' v

theorem foldl_depthAfter (h : ∀ p ∈ ps, p.1 ≠ .blockComment) (depth : Nat) :
    ps.foldl depthAfter depth = depth := by
  induction ps with
  | nil => rfl
  | cons p ps ih =>
    obtain ⟨hp, hps⟩ := List.forall_mem_cons.1 h
    rw [List.foldl_cons, depthAfter, if_neg hp, ih hps]

namespace Run

theorem append (h : Run depth t ps depth' u) (h' : Run depth' u qs depth'' v) :
    Run depth t (ps ++ qs) depth'' v := by
  induction h with
  | done => exact h'
  | step hne hps _ ih =>
    rw [List.append_assoc]
    exact .step hne hps (ih h')

/-- One match. -/
theorem single (hne : t ≠ []) (hps : pieces depth t = ps) (ht : t = spelled ps ++ u) :
    Run depth t ps (ps.foldl depthAfter depth) u := by
  subst ht
  have hstep := step hne hps (.done _ u)
  rwa [List.append_nil] at hstep

/-- One match outside comments, which opens none. -/
theorem outside (hne : t ≠ []) (hps : Highlight.outside t = ps) (ht : t = spelled ps ++ u)
    (hkind : ∀ p ∈ ps, p.1 ≠ .blockComment) : Run 0 t ps 0 u := by
  have hrun : Run 0 t ps (ps.foldl depthAfter 0) u := single hne hps ht
  rwa [foldl_depthAfter hkind] at hrun

theorem text_eq (h : Run depth t ps depth' u) : t = spelled ps ++ u := by
  induction h with
  | done => rfl
  | step _ _ _ ih => rw [spelled_append, List.append_assoc, ← ih]

theorem ne_nil_of_mem (h : Run depth t ps depth' u) : ∀ p ∈ ps, p.2 ≠ [] := by
  induction h with
  | done => exact List.forall_mem_nil _
  | step _ hps _ ih =>
    exact List.forall_mem_append.2 ⟨hps ▸ ne_nil_of_mem_pieces _ _, ih⟩

end Run

/-- Match after match comes to the end of every text. -/
theorem exists_run (depth : Nat) (t : Text) : ∃ ps depth', Run depth t ps depth' [] := by
  generalize hn : t.length = n
  induction n using Nat.strong_induction_on generalizing depth t with
  | _ n ih =>
    by_cases ht : t = []
    · exact ⟨[], depth, ht ▸ .done depth []⟩
    obtain ⟨u, hu⟩ := prefix_pieces depth t
    have hlt : u.length < n := by
      have hlen := congrArg List.length hu
      have hpos := List.length_pos_iff.2 (spelled_pieces_ne_nil depth ht)
      rw [List.length_append] at hlen
      omega
    obtain ⟨qs, depth', hrun⟩ := ih u.length hlt _ u rfl
    exact ⟨_, depth', (Run.single ht rfl hu.symm).append hrun⟩

/-- Passing over characters changes nothing but the index. -/
private theorem tokensFrom_passing (depth i passing : Nat) (t : Text) :
    tokensFrom depth i passing t = tokensFrom depth (i + passing) 0 (t.drop passing) := by
  induction t generalizing i passing with
  | nil => cases passing <;> simp [tokensFrom]
  | cons c t ih =>
    cases passing with
    | zero => rfl
    | succ passing =>
      rw [tokensFrom, ih, List.drop_succ_cons, Nat.add_assoc, Nat.add_comm 1]

theorem placed_append (i : Nat) (ps qs : Pieces) :
    placed i (ps ++ qs) = placed i ps ++ placed (i + (spelled ps).length) qs := by
  induction ps generalizing i with
  | nil => rfl
  | cons p ps ih =>
    obtain ⟨kind, w⟩ := p
    simp [placed, ih, Nat.add_assoc]

/-- The tokens are the pieces of the run, each at its place. -/
private theorem tokensFrom_of_run (h : Run depth t ps depth' []) (i : Nat) :
    tokensFrom depth i 0 t = placed i ps := by
  generalize hu : ([] : Text) = u at h
  induction h generalizing i with
  | done =>
    subst hu
    rw [tokensFrom]
    rfl
  | @step depth depth' ps qs u v hne hps _ ih =>
    have hspelled := spelled_pieces_ne_nil depth hne
    rw [hps] at hspelled
    obtain ⟨c, w, hw⟩ := List.exists_cons_of_ne_nil hspelled
    rw [placed_append, ← ih _ hu]
    rw [hw, List.cons_append] at hps ⊢
    rw [tokensFrom, hps, tokensFrom_passing, width_eq, hw, List.length_cons, Nat.add_sub_cancel,
      List.drop_left, Nat.add_assoc, Nat.add_comm 1]

theorem tokens_of_run (h : Run 0 t ps depth []) : tokens t = placed 0 ps :=
  tokensFrom_of_run h 0

/-! A token stands where the pieces before it end. -/

theorem take_placed (i k : Nat) (ps : Pieces) : (placed i ps).take k = placed i (ps.take k) := by
  induction ps generalizing i k with
  | nil => simp [placed]
  | cons p ps ih =>
    cases k with
    | zero => rfl
    | succ k => rw [List.take_succ_cons, placed, placed, List.take_succ_cons, ih]

theorem flatMap_text_placed (i : Nat) (ps : Pieces) :
    (placed i ps).flatMap Token.text = spelled ps := by
  induction ps generalizing i with
  | nil => rfl
  | cons p ps ih =>
    rw [placed, List.flatMap_cons, ih]
    rfl

theorem getElem?_placed (i k : Nat) (ps : Pieces) : (placed i ps)[k]? =
    ps[k]?.map fun p => ⟨i + (spelled (ps.take k)).length, p.1, p.2⟩ := by
  induction ps generalizing i k with
  | nil => rfl
  | cons p ps ih =>
    cases k with
    | zero => rfl
    | succ k =>
      rw [placed, List.getElem?_cons_succ, ih, List.getElem?_cons_succ, List.take_succ_cons,
        spelled_cons, List.length_append, Nat.add_assoc]

end ProbeScript.Highlight
