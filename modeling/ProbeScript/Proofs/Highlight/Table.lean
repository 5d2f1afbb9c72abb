import ProbeScript.Proofs.Highlight.Comments

/-! Colouring by a table. A loop looks up the state on top of a stack, takes what the first entry
that fits takes, and changes the stack as the entry says; where none fits it gives an error. It ends
for every text and gives the tokens, each of them at its place and none of them an error, and all
the time the stack holds as many states above the first as there are comments open. -/
namespace ProbeScript.Highlight

inductive State
  | root | comment
  deriving DecidableEq, Repr

/-- What an entry does to a stack of states. The first of the list is on top. -/
inductive Change
  | stay
  | enter (s : State)
  /-- The state on top once more. -/
  | again
  | leave

/-- The last state is never taken from the stack. -/
def Change.apply : Change → List State → List State
  | stay, stack => stack
  | enter s, stack => s :: stack
  | again, stack => stack.headD .root :: stack
  | leave, _ :: s :: stack => s :: stack
  | leave, stack => stack

/-- An entry takes pieces from the head of a text, or none if it does not fit. -/
structure Entry where
  take : Text → Pieces
  change : Change

def Entry.fits (t : Text) (e : Entry) : Bool := !(e.take t).isEmpty

def character : Text → Pieces
  | [] => []
  | c :: _ => if c = '\n' then [] else [(.text, [c])]

def mark (w : Text) (t : Text) : Pieces := piece .blockComment (if w.isPrefixOf t then w else [])

/-- The head of a text up to where a mark might begin or end. -/
def stretch (t : Text) : Text := t.takeWhile fun c => c != '*' && c != '/'

/-- The rules, of which the third enters a comment. -/
def ruleEntries : List Entry :=
  List.zipWith Entry.mk rules (.stay :: .stay :: .enter .comment :: List.replicate 10 .stay)

def table : State → List Entry
  | .root => ruleEntries ++ [⟨character, .stay⟩]
  | .comment =>
    [⟨fun t => piece .blockComment (stretch t), .stay⟩, ⟨mark "/*".toList, .again⟩,
      ⟨mark "*/".toList, .leave⟩, ⟨fun t => piece .blockComment (oneOf "*/".toList t), .stay⟩]

/-- Where the loop is in a text. -/
structure Config where
  stack : List State
  index : Nat
  rest : Text

/-- What the loop gives. -/
inductive Output
  | token (x : Token)
  | error (index : Nat) (c : Char)

/-- One turn of the loop, if it goes on. A line feed that no entry takes leaves all comments. -/
def Config.turn (c : Config) : Option (List Output × Config) :=
  match (table (c.stack.headD .root)).find? (·.fits c.rest) with
  | some e =>
    let ps := e.take c.rest
    some ((placed c.index ps).map .token,
      ⟨e.change.apply c.stack, c.index + width ps, c.rest.drop (width ps)⟩)
  | none =>
    match c.rest with
    | [] => none
    | '\n' :: rest => some ([.token ⟨c.index, .whitespace, ['\n']⟩], ⟨[.root], c.index + 1, rest⟩)
    | a :: rest => some ([.error c.index a], ⟨c.stack, c.index + 1, rest⟩)

/-- The loop comes to its end, and this is what it gives, each with the stack after it. -/
inductive Loops : Config → List (Output × List State) → Prop
  | ended {c : Config} : c.turn = none → Loops c []
  | turned {c c' : Config} {os : List Output} {log : List (Output × List State)} :
      c.turn = some (os, c') → Loops c' log → Loops c (os.map (·, c'.stack) ++ log)

theorem Loops.unique {c : Config} {log log' : List (Output × List State)} (h : Loops c log)
    (h' : Loops c log') : log = log' := by
  induction h generalizing log' with
  | ended hc =>
    cases h' with
    | ended => rfl
    | turned hc' => cases hc.symm.trans hc'
  | turned hc _ ih =>
    cases h' with
    | ended hc' => cases hc.symm.trans hc'
    | turned hc' hlog' =>
      obtain ⟨rfl, rfl⟩ := Prod.mk.inj (Option.some.inj (hc.symm.trans hc'))
      rw [ih hlog']

/-- The stack with a number of comments open. -/
def stackAt (depth : Nat) : List State := List.replicate depth .comment ++ [.root]

variable {depth depth' i : Nat} {t u : Text} {ps qs : Pieces}

private theorem Entry.fits_iff {e : Entry} : e.fits t = true ↔ e.take t ≠ [] := by
  rw [fits, Bool.not_eq_true', List.isEmpty_eq_false_iff]

private theorem mark_of_isPrefix {w : Text} (hw : w ≠ []) (h : w <+: t) :
    mark w t = [(.blockComment, w)] := by
  rw [mark, if_pos (List.isPrefixOf_iff_prefix.2 h), piece_eq _ hw]

private theorem mark_eq_nil {w : Text} (h : ¬ w <+: t) : mark w t = [] := by
  rw [mark, if_neg (List.isPrefixOf_iff_prefix.not.2 h)]
  rfl

/-- Of the rules the third takes an opening mark, and no other takes any part of a block comment. -/
private theorem ruleEntries_cases (t : Text) : ∀ e ∈ ruleEntries, e.fits t = true →
    e.change = .stay ∧ (∀ p ∈ e.take t, p.1 ≠ .blockComment) ∨
      e.change = .enter .comment ∧ e.take t = [(.blockComment, "/*".toList)] := by
  have hpiece {kind : Kind} {w : Text} (hkind : kind ≠ .blockComment) :
      ∀ p ∈ piece kind w, p.1 ≠ .blockComment := fun p hp => mem_piece p hp ▸ hkind
  have hfunction : ∀ p ∈ functionAt t, p.1 ≠ .blockComment := by
    intro p hp he
    cases he ▸ (ordinary_functionAt t).isComment p hp
  simp only [ruleEntries, rules, List.replicate, List.zipWith, List.forall_mem_cons]
  refine ⟨?_, ?_, fun hfits => .inr ⟨trivial, ?_⟩, ?_, ?_, ?_, ?_, ?_, ?_, ?_, ?_, ?_, ?_, by simp⟩
  case refine_3 =>
    have hprefix : "/*".toList <+: t :=
      by_contra fun hno => Entry.fits_iff.1 hfits (mark_eq_nil hno)
    exact mark_of_isPrefix (by decide) hprefix
  case refine_10 => exact fun _ => .inl ⟨trivial, hfunction⟩
  all_goals exact fun _ => .inl ⟨trivial, hpiece (by decide)⟩

private theorem map_take_ruleEntries : ruleEntries.map Entry.take = rules := by
  rw [ruleEntries, List.map_zipWith, ← List.map_uncurry_zip_eq_zipWith]
  exact List.map_fst_zip (le_refl _)

private theorem find?_ruleEntries (t : Text) : (ruleEntries.find? (·.fits t)).map (·.take t) =
    (rules.map (· t)).find? (!·.isEmpty) := by
  rw [← map_take_ruleEntries, List.map_map, List.find?_map]
  rfl

/-- Outside comments the first entry that fits takes what is taken there. -/
private theorem find?_root (h : t ≠ []) : ∃ e, (table .root).find? (·.fits t) = some e ∧
    e.take t = outside t ∧
      e.change.apply (stackAt 0) = stackAt ((outside t).foldl depthAfter 0) := by
  have hfind := find?_ruleEntries t
  have hstay {e : Entry} (hchange : e.change = .stay)
      (hkind : ∀ p ∈ e.take t, p.1 ≠ .blockComment) :
      e.change.apply (stackAt 0) = stackAt ((e.take t).foldl depthAfter 0) := by
    rw [foldl_depthAfter hkind, hchange, Change.apply]
  rw [table, List.find?_append]
  cases he : ruleEntries.find? (·.fits t) with
  | some e =>
    rw [he, Option.map_some] at hfind
    have houtside : e.take t = outside t := by rw [outside, ← hfind]
    refine ⟨e, rfl, houtside, ?_⟩
    rw [← houtside]
    rcases ruleEntries_cases t e (List.mem_of_find?_eq_some he) (List.find?_some he) with
      ⟨hchange, hkind⟩ | ⟨hchange, htake⟩
    · exact hstay hchange hkind
    · rw [hchange, htake]
      rfl
  | none =>
    obtain ⟨c, rest, rfl⟩ := List.exists_cons_of_ne_nil h
    rw [he, Option.map_none] at hfind
    have houtside : outside (c :: rest) = [(.text, [c])] := by
      rw [outside, ← hfind]
      rfl
    -- a line feed is white space, so some rule takes it
    have hc : c ≠ '\n' := by
      rintro rfl
      have hspace := List.find?_eq_none.1 he ⟨_, .stay⟩ List.mem_cons_self
      exact hspace rfl
    have hcharacter : character (c :: rest) = [(.text, [c])] := if_neg hc
    have hfits : (⟨character, .stay⟩ : Entry).fits (c :: rest) = true :=
      Entry.fits_iff.2 fun hnil => List.cons_ne_nil _ _ (hcharacter.symm.trans hnil)
    refine ⟨⟨character, .stay⟩, ?_, hcharacter.trans houtside.symm, ?_⟩
    · rw [Option.none_or, List.find?_cons_of_pos hfits]
    · rw [houtside]
      rfl

/-! Within a block comment, where no mark begins, the comment goes on as it is. -/

private theorem inside_eq (hopen : ¬ "/*".toList <+: t) (hclose : ¬ "*/".toList <+: t) :
    inside t = if stretch t = [] then t.take 1 else stretch t := by
  rw [inside, if_neg (List.isPrefixOf_iff_prefix.not.2 hopen),
    if_neg (List.isPrefixOf_iff_prefix.not.2 hclose)]
  split
  case h_1 hnil => exact (if_pos hnil).symm
  case h_2 run hrun => exact (if_neg (hrun : stretch t ≠ [])).symm

private theorem depthAfter_inside (h : t ≠ []) (hopen : ¬ "/*".toList <+: t)
    (hclose : ¬ "*/".toList <+: t) : depthAfter depth (.blockComment, inside t) = depth := by
  obtain ⟨c, rest, rfl⟩ := List.exists_cons_of_ne_nil h
  have hopen' : ∀ r, c = '/' → rest ≠ '*' :: r := by
    rintro r rfl rfl
    exact hopen ⟨r, rfl⟩
  have hclose' : ∀ r, c = '*' → rest ≠ '/' :: r := by
    rintro r rfl rfl
    exact hclose ⟨r, rfl⟩
  obtain ⟨w, u, hw, -, hplain⟩ := inside_other hopen' hclose'
  rw [hw, depthAfter_other hplain]

private theorem oneOf_of_stretch (h : t ≠ []) (hnil : stretch t = []) :
    oneOf "*/".toList t = t.take 1 := by
  obtain ⟨c, rest, rfl⟩ := List.exists_cons_of_ne_nil h
  rw [stretch, List.takeWhile_cons] at hnil
  split at hnil
  case isTrue => cases hnil
  case isFalse hc =>
    have hmark : "*/".toList.contains c = true := by
      by_contra hno
      exact hc (by simpa using hno)
    rw [oneOf, if_pos hmark]
    rfl

/-- Within a block comment the first entry that fits takes the piece that is taken there. -/
private theorem find?_comment (depth : Nat) (h : t ≠ []) :
    ∃ e, (table .comment).find? (·.fits t) = some e ∧
    e.take t = [(.blockComment, inside t)] ∧ e.change.apply (stackAt (depth + 1)) =
      stackAt (depthAfter (depth + 1) (.blockComment, inside t)) := by
  by_cases hopen : "/*".toList <+: t
  · obtain ⟨u, rfl⟩ := hopen
    exact ⟨⟨mark _, .again⟩, rfl, rfl, rfl⟩
  by_cases hclose : "*/".toList <+: t
  · obtain ⟨u, rfl⟩ := hclose
    refine ⟨⟨mark _, .leave⟩, rfl, rfl, ?_⟩
    cases depth <;> rfl
  rw [depthAfter_inside h hopen hclose]
  have hinside := inside_eq hopen hclose
  have hpiece := piece_eq .blockComment (inside_ne_nil h)
  have hfits {e : Entry} (htake : e.take t = [(.blockComment, inside t)]) : e.fits t = true :=
    Entry.fits_iff.2 (htake ▸ List.cons_ne_nil _ _)
  have hfails {e : Entry} (htake : e.take t = []) : ¬ e.fits t = true :=
    fun he => Entry.fits_iff.1 he htake
  by_cases hnil : stretch t = []
  · rw [if_pos hnil, ← oneOf_of_stretch h hnil] at hinside
    rw [hinside] at hpiece hfits ⊢
    refine ⟨⟨fun t => piece .blockComment (oneOf "*/".toList t), .stay⟩, ?_, hpiece, rfl⟩
    have hstretch : piece .blockComment (stretch t) = [] := hnil ▸ rfl
    rw [table, List.find?_cons_of_neg (hfails hstretch),
      List.find?_cons_of_neg (hfails (mark_eq_nil hopen)),
      List.find?_cons_of_neg (hfails (mark_eq_nil hclose)), List.find?_cons_of_pos (hfits hpiece)]
  · rw [if_neg hnil] at hinside
    rw [hinside] at hpiece hfits ⊢
    refine ⟨⟨fun t => piece .blockComment (stretch t), .stay⟩, ?_, hpiece, rfl⟩
    rw [table, List.find?_cons_of_pos (hfits hpiece)]

/-- The first entry that fits takes the pieces at the head of the text, and the stack keeps count of
the comments open. -/
private theorem find?_pieces (depth : Nat) (h : t ≠ []) :
    ∃ e, (table ((stackAt depth).headD .root)).find? (·.fits t) = some e ∧
      e.take t = pieces depth t ∧
      e.change.apply (stackAt depth) = stackAt ((pieces depth t).foldl depthAfter depth) := by
  cases depth with
  | zero => exact find?_root h
  | succ depth =>
    have hpieces : pieces (depth + 1) t = [(.blockComment, inside t)] :=
      piece_eq .blockComment (inside_ne_nil h)
    rw [hpieces]
    exact find?_comment depth h

private theorem turn_eq (depth i : Nat) (h : t ≠ []) : (⟨stackAt depth, i, t⟩ : Config).turn =
    some ((placed i (pieces depth t)).map .token,
      ⟨stackAt ((pieces depth t).foldl depthAfter depth), i + width (pieces depth t),
        t.drop (width (pieces depth t))⟩) := by
  obtain ⟨e, he, htake, hchange⟩ := find?_pieces depth h
  simp only [Config.turn, he, htake, hchange]

/-- The loop ends where the text does. -/
private theorem turn_nil (depth i : Nat) : (⟨stackAt depth, i, []⟩ : Config).turn = none := by
  cases depth <;> rfl

/-- Outside comments a match has no part of a block comment, or it is an opening mark. -/
private theorem outside_kind (t : Text) : (∀ p ∈ outside t, p.1 ≠ .blockComment) ∨
    outside t = [(.blockComment, "/*".toList)] := by
  rcases outside_cases t with ⟨rule, hrule, hne, he⟩ | ⟨-, he⟩
  · obtain ⟨e, hmem, rfl⟩ := List.mem_map.1 (map_take_ruleEntries ▸ hrule)
    rw [he]
    exact (ruleEntries_cases t e hmem (Entry.fits_iff.2 hne)).imp And.right And.right
  · rw [he]
    exact .inl fun p hp hkind => by cases (mem_piece p hp).symm.trans hkind

/-- A match has no part of a block comment, or it is a single piece of one, which does not close it
unless it is open. -/
private theorem pieces_cases (depth : Nat) (h : t ≠ []) :
    (∀ p ∈ pieces depth t, p.1 ≠ .blockComment) ∨
      ∃ w, pieces depth t = [(.blockComment, w)] ∧ (w = "*/".toList → depth ≠ 0) := by
  cases depth with
  | zero =>
    refine (outside_kind t).imp_right fun he => ⟨_, he, ?_⟩
    decide
  | succ depth =>
    exact .inr ⟨_, piece_eq .blockComment (inside_ne_nil h), fun _ => Nat.succ_ne_zero depth⟩

/-- The pieces as the loop gives them, each with the stack after it. -/
def logged (depth i : Nat) : Pieces → List (Output × List State)
  | [] => []
  | p :: ps => (.token ⟨i, p.1, p.2⟩, stackAt (depthAfter depth p)) ::
    logged (depthAfter depth p) (i + p.2.length) ps

private theorem logged_append (depth i : Nat) (ps qs : Pieces) : logged depth i (ps ++ qs) =
    logged depth i ps ++ logged (ps.foldl depthAfter depth) (i + width ps) qs := by
  induction ps generalizing depth i with
  | nil => rfl
  | cons p ps ih =>
    rw [List.cons_append, logged, ih, Nat.add_assoc]
    rfl

private theorem map_fst_logged (depth i : Nat) (ps : Pieces) :
    (logged depth i ps).map Prod.fst = (placed i ps).map .token := by
  induction ps generalizing depth i with
  | nil => rfl
  | cons p ps ih => rw [logged, List.map_cons, ih]; rfl

private theorem logged_of_ordinary (h : ∀ p ∈ ps, p.1 ≠ .blockComment) :
    logged depth i ps = ((placed i ps).map .token).map (·, stackAt depth) := by
  induction ps generalizing i with
  | nil => rfl
  | cons p ps ih =>
    obtain ⟨hp, hps⟩ := List.forall_mem_cons.1 h
    rw [logged, depthAfter, if_neg hp, ih hps]
    rfl

/-- In one match the stack is the same after all of the pieces. -/
private theorem logged_pieces (depth i : Nat) (h : t ≠ []) : logged depth i (pieces depth t) =
    ((placed i (pieces depth t)).map .token).map
      (·, stackAt ((pieces depth t).foldl depthAfter depth)) := by
  rcases pieces_cases depth h with hkind | ⟨w, hw, -⟩
  · rw [logged_of_ordinary hkind, foldl_depthAfter hkind]
  · rw [hw]
    rfl

/-- A run of matches is a run of the loop. -/
private theorem Loops.of_run (h : Run depth t ps depth' []) (i : Nat) :
    Loops ⟨stackAt depth, i, t⟩ (logged depth i ps) := by
  generalize hu : ([] : Text) = u at h
  induction h generalizing i with
  | done depth t =>
    subst hu
    exact .ended (turn_nil depth i)
  | @step depth depth' ps qs u v hne hps _ ih =>
    have hturn := turn_eq depth i hne
    have hlog := logged_pieces depth i hne
    rw [hps] at hturn hlog
    rw [width_eq, List.drop_left] at hturn
    rw [logged_append, hlog, width_eq]
    exact .turned hturn (ih _ hu)

/-- How many of the tokens are this mark of a block comment. -/
def marks (w : Text) (xs : List Token) : Nat :=
  xs.countP fun x => x.kind = .blockComment ∧ x.text = w

private theorem marks_placed (w : Text) (i : Nat) (ps : Pieces) :
    marks w (placed i ps) = ps.count (.blockComment, w) := by
  induction ps generalizing i with
  | nil => rfl
  | cons p ps ih =>
    rw [placed, marks, List.countP_cons, ← marks, ih, List.count_cons]
    simp [Prod.ext_iff]

/-- The comments open after pieces are those open before and those opened, less those closed. -/
def Balanced (depth : Nat) (ps : Pieces) : Prop :=
  ps.foldl depthAfter depth + ps.count (.blockComment, "*/".toList) =
    depth + ps.count (.blockComment, "/*".toList)

private theorem Balanced.nil (depth : Nat) : Balanced depth [] := by
  rw [Balanced, List.count_nil, List.count_nil]
  rfl

private theorem Balanced.append (hps : Balanced depth ps)
    (hqs : Balanced (ps.foldl depthAfter depth) qs) :
    Balanced depth (ps ++ qs) := by
  rw [Balanced] at hps hqs ⊢
  rw [List.foldl_append, List.count_append, List.count_append]
  omega

private theorem Balanced.of_ordinary (h : ∀ p ∈ ps, p.1 ≠ .blockComment) : Balanced depth ps := by
  have hcount (w : Text) : ps.count (.blockComment, w) = 0 :=
    List.count_eq_zero.2 fun hmem => h _ hmem rfl
  rw [Balanced, foldl_depthAfter h, hcount, hcount]

private theorem Balanced.single {w : Text} (h : w = "*/".toList → depth ≠ 0) :
    Balanced depth [(.blockComment, w)] := by
  rw [Balanced, List.foldl_cons, List.foldl_nil, List.count_singleton, List.count_singleton,
    depthAfter, if_pos rfl]
  have hne : "/*".toList ≠ "*/".toList := by decide
  by_cases hopen : w = "/*".toList
  · simp only [hopen, hne, ↓reduceIte, beq_iff_eq, Prod.mk.injEq, true_and]
  by_cases hclose : w = "*/".toList
  · simp only [hclose, hne.symm, ↓reduceIte, beq_iff_eq, Prod.mk.injEq, true_and]
    exact Nat.sub_add_cancel (Nat.pos_of_ne_zero (h hclose))
  · simp only [hopen, hclose, ↓reduceIte, beq_iff_eq, Prod.mk.injEq, true_and]

/-- The count holds within a match too. -/
private theorem balanced_take_pieces (depth : Nat) (h : t ≠ []) (k : Nat) :
    Balanced depth ((pieces depth t).take k) := by
  rcases pieces_cases depth h with hkind | ⟨w, hw, hopen⟩
  · exact .of_ordinary fun p hp => hkind p (List.mem_of_mem_take hp)
  · rw [hw]
    cases k with
    | zero => exact .nil depth
    | succ k =>
      rw [List.take_succ_cons, List.take_nil]
      exact .single hopen

private theorem Run.balanced_take (h : Run depth t ps depth' u) (k : Nat) :
    Balanced depth (ps.take k) := by
  induction h generalizing k with
  | done depth t =>
    rw [List.take_nil]
    exact .nil depth
  | @step depth depth' ps qs u v hne hps _ ih =>
    have hmatch := balanced_take_pieces depth hne k
    rw [hps] at hmatch
    rw [List.take_append]
    rcases Nat.le_total k ps.length with hk | hk
    · rw [Nat.sub_eq_zero_of_le hk, List.take_zero, List.append_nil]
      exact hmatch
    · rw [List.take_of_length_le hk] at hmatch ⊢
      exact hmatch.append (ih _)

private theorem getElem?_logged (depth i k : Nat) (ps : Pieces) : (logged depth i ps)[k]? =
    (placed i ps)[k]?.map fun x =>
      (.token x, stackAt ((ps.take (k + 1)).foldl depthAfter depth)) := by
  induction ps generalizing depth i k with
  | nil => rfl
  | cons p ps ih =>
    cases k with
    | zero => rfl
    | succ k =>
      rw [logged, placed, List.getElem?_cons_succ, ih, List.getElem?_cons_succ]
      rfl

/-- Colouring loses nothing of any text. The loop ends, in one way only, and gives the tokens and no
errors. The tokens are not empty and make up the text, each at the index where those before it end,
and after each of them the stack holds above the first state one for every comment that is opened
and not yet closed. -/
theorem tokens_lossless (t : Text) : ∃ log, Loops ⟨[.root], 0, t⟩ log ∧
    (∀ log', Loops ⟨[.root], 0, t⟩ log' → log' = log) ∧
    log.map Prod.fst = (tokens t).map .token ∧ (tokens t).flatMap Token.text = t ∧
    ∀ k x, (tokens t)[k]? = some x →
      x.text ≠ [] ∧ x.index = (((tokens t).take k).flatMap Token.text).length ∧
      ∃ depth, log[k]? = some (.token x, List.replicate depth .comment ++ [.root]) ∧
        depth + marks "*/".toList ((tokens t).take (k + 1)) =
          marks "/*".toList ((tokens t).take (k + 1)) := by
  obtain ⟨ps, depth, hrun⟩ := exists_run 0 t
  have hloops : Loops ⟨[.root], 0, t⟩ (logged 0 0 ps) := .of_run hrun 0
  have htext : t = spelled ps := hrun.text_eq.trans (List.append_nil _)
  rw [tokens_of_run hrun]
  refine ⟨logged 0 0 ps, hloops, fun _ h => h.unique hloops, map_fst_logged 0 0 ps,
    (flatMap_text_placed 0 ps).trans htext.symm, fun k x hx => ?_⟩
  have hlog := getElem?_logged 0 0 k ps
  rw [hx] at hlog
  have hbalanced := hrun.balanced_take (k + 1)
  rw [Balanced, Nat.zero_add] at hbalanced
  rw [take_placed, take_placed, flatMap_text_placed, marks_placed, marks_placed]
  rw [getElem?_placed, Nat.zero_add, Option.map_eq_some_iff] at hx
  obtain ⟨p, hp, rfl⟩ := hx
  exact ⟨hrun.ne_nil_of_mem p (List.mem_of_getElem? hp), rfl, _, hlog, hbalanced⟩

/-- A call, and two comments that stand open where the text ends in a quotation mark. -/
theorem tokens_lossless_open : ∃ log, Loops ⟨[.root], 0, "f (/*\n/*\"".toList⟩ log ∧
    log[6]? = some (.token ⟨8, .blockComment, ['"']⟩, [.comment, .comment, .root]) := by
  obtain ⟨log, hlog, -, -, -, htokens⟩ := tokens_lossless "f (/*\n/*\"".toList
  have hlast : (tokens "f (/*\n/*\"".toList)[6]? = some ⟨8, .blockComment, ['"']⟩ := by
    decide +kernel
  obtain ⟨-, -, depth, hstack, hdepth⟩ := htokens 6 _ hlast
  have hopened : marks "/*".toList ((tokens "f (/*\n/*\"".toList).take 7) = 2 := by decide +kernel
  have hclosed : marks "*/".toList ((tokens "f (/*\n/*\"".toList).take 7) = 0 := by decide +kernel
  rw [hopened, hclosed, Nat.add_zero] at hdepth
  subst hdepth
  exact ⟨log, hlog, hstack⟩

end ProbeScript.Highlight
