import Mathlib.Data.List.Forall2
import ProbeScript.Proofs.Phrase.Written
import ProbeScript.Proofs.Text.Digits
import ProbeScript.Proofs.Tree.Grouping
import ProbeScript.Proofs.Tree.Spec

/-! The texts of trees. Each kind of tree that has a text is written as the tokens of a phrase, and
the tree of this phrase is the given one with its parentheses made explicit. -/
namespace ProbeScript

theorem Numeral.signed_natCast (r : Radix) (n : Nat) : signed r n = r.marker ++ r.digits n := by
  rw [signed, if_neg (Int.not_lt.2 (Int.natCast_nonneg n)), List.append_nil, Int.natAbs_natCast]

theorem Numeral.literal_eq {r : Radix} {n : Nat} (h : r = .decimal → n < 10 ^ Radix.digitLimit) :
    Numeral.literal n r.base = .ok (r.marker ++ r.digits n) := by
  have hsigned := signed_natCast r n
  cases r
  case decimal =>
    have hlt := h rfl
    rw [Numeral.literal]
    change (Numeral.decimal? n).elim _ _ = _
    rw [Numeral.decimal?, Int.natAbs_natCast, Nat.pow_eq, if_pos hlt, hsigned]
    rfl
  all_goals
    rw [← hsigned]
    rfl

namespace Phrase
open Node

/-- Wherever its words were found, the phrase has a tree, which is the given one but for its
stretches of text. -/
def Forms {α : Type} (tree : Text → α → Fallible Node) (n : Node) (a : α) : Prop :=
  ∀ source, ∃ m, tree source a = .ok m ∧ m.bare = n.bare

def FormsAll {α : Type} (tree : Text → α → Fallible (List Node)) (ns : List Node) (a : α) : Prop :=
  ∀ source, ∃ ms, tree source a = .ok ms ∧ bareAll ms = bareAll ns

variable {n : Node} {ns : List Node} {t : Text}

private theorem numeral_written {r : Radix} {n : Nat} (span : Option Span)
    (h : r = .decimal → n < 10 ^ Radix.digitLimit) :
    Written (fun v : Value => [v.token]) (Forms Value.tree (.integer n r.base span))
      (r.marker ++ r.digits n) := by
  have hspells : (Terminal.ofRadix r).Spells (r.marker ++ r.digits n) :=
    .numeral r (r.digits_ne_nil n) (r.isDigit_of_mem_digits n) fun _ => Radix.digits_of_zero
  have hkept := hspells.kept (by cases r <;> decide) (by cases r <;> decide)
  have hread : r.read (r.digits n) = .ok n := by
    refine Radix.read_eq_ok_iff.2 ⟨r.value_digits n, fun hr => ?_⟩
    have hlt := h hr
    rw [show 10 = r.base by rw [hr]; rfl] at hlt
    exact Radix.length_digits_le (Nat.succ_pos _) hlt
  refine (Written.word hspells hkept).map (.integer r) (fun _ => rfl) fun l hl source => ?_
  refine ⟨.integer n r.base (l.span source), ?_, rfl⟩
  rw [Value.tree, hl, List.drop_left, hread]

private theorem value_written (h : IsValue n) :
    ∃ t, n.source = .ok t ∧ Written (fun v : Value => [v.token]) (Forms Value.tree n) t := by
  cases h with
  | @identifier name span hname =>
    refine ⟨name, rfl, ?_⟩
    refine (Written.name hname).map .name (fun _ => rfl) ?_
    rintro l rfl source
    exact ⟨_, rfl, rfl⟩
  | integer r span hlt => exact ⟨_, Numeral.literal_eq hlt, numeral_written span hlt⟩
  | @string t span ht =>
    refine ⟨'"' :: t ++ ['"'], rfl, ?_⟩
    refine (Written.word (.quoted ht) (.string ht)).map .string (fun _ => rfl) fun l hl source => ?_
    refine ⟨_, rfl, ?_⟩
    rw [hl]
    simp [bare]

/-! Chains one after the other. -/

/-- No operator of the chain binds more loosely. -/
def Chain.AtLeast (k : Nat) : Chain → Prop
  | .one _ => True
  | .more init joint _ => init.AtLeast k ∧ k ≤ joint.op.tier

/-- The operands of one chain and then those of another. -/
def Chain.append (c : Chain) (j : Joint) : Chain → Chain
  | .one o => .more c j o
  | .more init joint last => .more (c.append j init) joint last

private theorem Chain.AtLeast.mono {k l : Nat} (hkl : k ≤ l) :
    {c : Chain} → c.AtLeast l → c.AtLeast k
  | .one _, _ => trivial
  | .more _ _ _, ⟨hinit, hop⟩ => ⟨hinit.mono hkl, hkl.trans hop⟩

private theorem Chain.AtLeast.append {c : Chain} {j : Joint} {k : Nat} (hc : c.AtLeast k)
    (hj : k ≤ j.op.tier) : {d : Chain} → d.AtLeast k → (c.append j d).AtLeast k
  | .one _, _ => ⟨hc, hj⟩
  | .more _ _ _, ⟨hinit, hop⟩ => ⟨hc.append hj hinit, hop⟩

theorem Chain.tokens_append (c : Chain) (j : Joint) (d : Chain) :
    (c.append j d).tokens = c.tokens ++ j.token :: d.tokens := by
  cases d with
  | one o => rfl
  | more init joint last =>
    rw [Chain.append, Chain.tokens, Chain.tokens, Chain.tokens_append c j init, List.append_assoc,
      List.cons_append]

/-- The operator between two chains is the outermost one of both if it binds more loosely than those
on its right, and no more tightly than those on its left. -/
private theorem Chain.grouping_append {source : Text} {c : Chain} {j : Joint} {g : Grouping Node}
    (hc : c.grouping source = .ok g) (hle : j.op.tier ≤ g.tier) : (d : Chain) →
    d.AtLeast (j.op.tier + 1) → {g' : Grouping Node} → d.grouping source = .ok g' →
    (c.append j d).grouping source = .ok (.joined j.op g g')
  | .one o, _, g', hd => by
    obtain ⟨n, hn, rfl⟩ := grouping_one_iff.1 hd
    rw [← Grouping.attach_of_le hle]
    exact grouping_more_iff.2 ⟨g, n, hc, hn, rfl⟩
  | .more init joint last, ⟨hinit, hop⟩, g', hd => by
    obtain ⟨g₁, n, hg₁, hn, rfl⟩ := grouping_more_iff.1 hd
    have ih := Chain.grouping_append hc hle init hinit hg₁
    rw [← Grouping.attach_of_lt hop]
    exact grouping_more_iff.2 ⟨_, n, ih, hn, rfl⟩

/-- The operands are grouped into the tree, and no operator binds more loosely than it does. -/
structure Chain.Groups (n : Node) (c : Chain) : Prop where
  exists_grouping : ∀ source, ∃ g, c.grouping source = .ok g ∧
    g.node.bare = n.bare ∧ g.tier = n.tier
  atLeast : c.AtLeast n.tier

theorem Chain.Groups.forms {c : Chain} (h : c.Groups n) : Forms Chain.tree n c := by
  intro source
  obtain ⟨g, hg, hbare, -⟩ := h.exists_grouping source
  exact ⟨g.node, tree_iff.2 ⟨g, hg, rfl⟩, hbare⟩

namespace Written
variable {left right : Node} {u : Text}

private theorem one (h : Written Operand.tokens (Forms Operand.tree n) t) (htier : n.tier = 5) :
    Written Chain.tokens (Chain.Groups n) t := by
  refine h.map .one (fun _ => rfl) fun o ho => ⟨fun source => ?_, trivial⟩
  obtain ⟨m, hm, hbare⟩ := ho source
  exact ⟨.operand m, Chain.grouping_one_iff.2 ⟨m, hm, rfl⟩, hbare, htier.symm⟩

private theorem group (h : Written Chain.tokens (Chain.Groups n) t) (span : Option Span) :
    Written Operand.tokens (Forms Operand.tree (.parenthesized n span)) ('(' :: t ++ [')']) := by
  refine h.enclosed.map (fun x => .group x.1 x.2.1 x.2.2) (fun _ => rfl) ?_
  rintro ⟨lpar, c, rpar⟩ hc source
  obtain ⟨g, hg, hbare, -⟩ := hc.exists_grouping source
  exact ⟨_, Operand.tree_group_iff.2 ⟨g, hg, rfl⟩, by rw [bare, hbare, bare]⟩

private theorem wrapped (h : Written Chain.tokens (Chain.Groups n) t) (needed : Bool) :
    Written Chain.tokens (Chain.Groups (wrapped needed n)) (parenthesesIf needed t) := by
  cases needed
  · exact h
  · exact (h.group none).one rfl

private theorem binary (hleft : Written Chain.tokens (Chain.Groups left) t)
    (hright : Written Chain.tokens (Chain.Groups right) u) (op : Operator) (span : Option Span)
    (hle : op.tier ≤ left.tier) (hlt : op.tier < right.tier) :
    Written Chain.tokens (Chain.Groups (.binary op left right span))
      (t ++ ' ' :: op.symbol ++ ' ' :: u) := by
  rw [List.append_assoc]
  refine (hleft.append ((hright.symbol op).layout rfl) (separated_cons (by decide))).map
    (fun x => x.1.append x.2.1 x.2.2) (fun _ => Chain.tokens_append _ _ _) ?_
  rintro ⟨c, j, d⟩ ⟨hc, rfl, hd⟩
  refine ⟨fun source => ?_, (hc.atLeast.mono hle).append (le_refl _) (hd.atLeast.mono hlt.le)⟩
  obtain ⟨g, hg, hbare, htier⟩ := hc.exists_grouping source
  obtain ⟨g', hg', hbare', -⟩ := hd.exists_grouping source
  refine ⟨_, Chain.grouping_append hg (htier ▸ hle) d (hd.atLeast.mono hlt) hg', ?_, rfl⟩
  rw [Grouping.node, bare, hbare, hbare', bare]

end Written

/-! Lists between commas. -/

/-- The two kinds of list that grow at their right end, of values and of arguments. -/
structure Listing (α β : Type) where
  tokens : α → List Token
  tree : Text → α → Fallible Node
  allTokens : β → List Token
  allTree : Text → β → Fallible (List Node)
  one : α → β
  more : β → Lexeme → α → β
  allTokens_one : ∀ a, allTokens (one a) = tokens a
  allTokens_more : ∀ b comma a,
    allTokens (more b comma a) = allTokens b ++ ⟨.comma, comma⟩ :: tokens a
  allTree_one : ∀ source a, allTree source (one a) = tree source a >>= fun n => .ok [n]
  allTree_more : ∀ source b comma a, allTree source (more b comma a) =
    allTree source b >>= fun ns => tree source a >>= fun n => .ok (ns ++ [n])

def Listing.values : Listing Value Values where
  tokens v := [v.token]
  tree := Value.tree
  allTokens := Values.tokens
  allTree := Values.tree
  one := .one
  more := .more
  allTokens_one _ := rfl
  allTokens_more _ _ _ := rfl
  allTree_one _ _ := rfl
  allTree_more _ _ _ _ := rfl

def Listing.args : Listing Arg Args where
  tokens := Arg.tokens
  tree := Arg.tree
  allTokens := Args.tokens
  allTree := Args.tree
  one := .one
  more := .more
  allTokens_one _ := rfl
  allTokens_more _ _ _ := rfl
  allTree_one _ _ := rfl
  allTree_more _ _ _ _ := rfl

theorem intercalate_cons {α : Type} (sep t : List α) (ts : List (List α)) :
    List.intercalate sep (t :: ts) = t ++ ts.flatMap (sep ++ ·) := by
  induction ts generalizing t with
  | nil => simp
  | cons u ts ih => rw [List.intercalate_cons_cons, ih, List.flatMap_cons, List.append_assoc,
      List.append_assoc]

theorem not_mem_intercalate {α : Type} {c : α} {sep : List α} {ts : List (List α)}
    (hsep : c ∉ sep) (hts : ∀ t ∈ ts, c ∉ t) : c ∉ List.intercalate sep ts := by
  cases ts with
  | nil => exact List.not_mem_nil
  | cons t ts =>
    rw [intercalate_cons, List.mem_append, List.mem_flatMap]
    rintro (hc | ⟨u, hu, hc⟩)
    · exact hts t List.mem_cons_self hc
    · exact (List.mem_append.1 hc).elim hsep (hts u (List.mem_cons_of_mem t hu))

namespace Listing
variable {α β : Type} (l : Listing α β) {ts : List Text} {ms : List Node}

theorem forms_one {a : α} (h : Forms l.tree n a) : FormsAll l.allTree [n] (l.one a) := by
  intro source
  obtain ⟨m, hm, hbare⟩ := h source
  rw [l.allTree_one]
  exact ⟨[m], bind_eq_ok_iff.2 ⟨m, hm, rfl⟩, by rw [bareAll, bareAll, hbare]; rfl⟩

theorem forms_more {b : β} {a : α} (comma : Lexeme) (hb : FormsAll l.allTree ns b)
    (ha : Forms l.tree n a) : FormsAll l.allTree (ns ++ [n]) (l.more b comma a) := by
  intro source
  obtain ⟨ms, hms, hbares⟩ := hb source
  obtain ⟨m, hm, hbare⟩ := ha source
  rw [l.allTree_more]
  refine ⟨ms ++ [m], bind_eq_ok_iff.2 ⟨ms, hms, bind_eq_ok_iff.2 ⟨m, hm, rfl⟩⟩, ?_⟩
  rw [bareAll_append, bareAll_append, hbares, bareAll, bareAll, hbare]
  rfl

private theorem one_written (h : Written l.tokens (Forms l.tree n) t) :
    Written l.allTokens (FormsAll l.allTree [n]) t :=
  h.map l.one l.allTokens_one fun _ => l.forms_one

private theorem comma_written {u : Text} (h : Written l.allTokens (FormsAll l.allTree ns) t)
    (hu : Written l.tokens (Forms l.tree n) u) :
    Written l.allTokens (FormsAll l.allTree (ns ++ [n])) (t ++ ", ".toList ++ u) := by
  rw [List.append_assoc]
  have hspace := hu.layout (c := ' ') rfl
  have hcomma := hspace.mark .comma rfl (by decide)
  refine (h.append hcomma (separated_cons (by decide))).map (fun x => l.more x.1 x.2.1 x.2.2)
    (fun _ => l.allTokens_more _ _ _) ?_
  rintro ⟨b, comma, a⟩ ⟨hb, ha⟩
  exact l.forms_more comma hb ha

private theorem more_written (h : Written l.allTokens (FormsAll l.allTree ns) t)
    (hs : List.Forall₂ (fun t n => Written l.tokens (Forms l.tree n) t) ts ms) :
    Written l.allTokens (FormsAll l.allTree (ns ++ ms)) (t ++ ts.flatMap (", ".toList ++ ·)) := by
  induction hs generalizing t ns with
  | nil => rwa [List.append_nil, List.flatMap_nil, List.append_nil]
  | @cons u m us ms hu _ ih =>
    have hmore := ih (l.comma_written h hu)
    rwa [List.append_assoc, List.append_assoc, List.append_assoc] at hmore

/-- The items with commas between them. -/
private theorem written (hne : ts ≠ [])
    (hs : List.Forall₂ (fun t n => Written l.tokens (Forms l.tree n) t) ts ms) :
    Written l.allTokens (FormsAll l.allTree ms) (List.intercalate ", ".toList ts) := by
  cases hs with
  | nil => exact absurd rfl hne
  | cons ht hs =>
    rw [intercalate_cons]
    exact l.more_written (l.one_written ht) hs

end Listing

/-- The values between parentheses where an argument is wanted. -/
def Values.argument (lpar rpar : Lexeme) : Values → Arg
  | .one v => .chain (.one (.group lpar (.one (.value v)) rpar))
  | .more init comma last => .tuple lpar init comma last rpar

private theorem Values.tokens_argument (lpar rpar : Lexeme) (vs : Values) :
    (vs.argument lpar rpar).tokens = ⟨.lpar, lpar⟩ :: (vs.tokens ++ [⟨.rpar, rpar⟩]) := by
  cases vs with
  | one v => rfl
  | more init comma last => simp [argument, Arg.tokens, tokens]

private theorem Value.asArgument_tree {source : Text} {v : Value} {m : Node}
    (h : v.tree source = .ok m) (span : Option Span) :
    asArgument (.parenthesized m span) = .tuple [m] span := by
  rcases v with word | word | ⟨r, word⟩
  · obtain rfl := Except.ok.inj h
    rfl
  · obtain rfl := Except.ok.inj h
    rfl
  · obtain ⟨k, -, rfl⟩ := Value.tree_integer_iff.1 h
    rfl

theorem Values.forms_argument {vs : Values} (h : FormsAll Values.tree ns vs) (lpar rpar : Lexeme)
    (span : Option Span) : Forms Arg.tree (.tuple ns span) (vs.argument lpar rpar) := by
  intro source
  obtain ⟨ms, hms, hbare⟩ := h source
  cases vs with
  | one v =>
    obtain ⟨m, hm, rfl⟩ := tree_one_iff.1 hms
    have hvalue : (Chain.one (.value v)).grouping source = .ok (.operand m) :=
      Chain.grouping_one_iff.2 ⟨m, hm, rfl⟩
    have hgroup : (Operand.group lpar (.one (.value v)) rpar).tree source =
        .ok (.parenthesized m (lpar.through source rpar)) :=
      Operand.tree_group_iff.2 ⟨_, hvalue, rfl⟩
    refine ⟨_, Arg.tree_chain_iff.2 ⟨_, Chain.grouping_one_iff.2 ⟨_, hgroup, rfl⟩, rfl⟩, ?_⟩
    rw [Grouping.node]
    rw [Value.asArgument_tree hm, bare, hbare, bare]
  | more init comma last =>
    obtain ⟨ks, k, hks, hk, rfl⟩ := tree_more_iff.1 hms
    refine ⟨.tuple (ks ++ [k]) (lpar.through source rpar), ?_, by rw [bare, hbare, bare]⟩
    exact Arg.tree_tuple_iff.2 ⟨ks, k, hks, hk, rfl⟩

/-! The texts of lists of trees. -/

theorem exists_sources {R : Text → Node → Prop} (h : ∀ n ∈ ns, ∃ t, n.source = .ok t ∧ R t n) :
    ∃ ts, sources ns = .ok ts ∧ List.Forall₂ R ts ns := by
  induction ns with
  | nil => exact ⟨[], rfl, .nil⟩
  | cons n ns ih =>
    obtain ⟨⟨t, ht, hR⟩, hns⟩ := List.forall_mem_cons.1 h
    obtain ⟨ts, hts, hall⟩ := ih hns
    exact ⟨t :: ts, bind_eq_ok_iff.2 ⟨t, ht, bind_eq_ok_iff.2 ⟨ts, hts, rfl⟩⟩, .cons hR hall⟩

private theorem tuple_written {values : List Node} (span : Option Span) (hne : values ≠ [])
    (h : ∀ v ∈ values, IsValue v) : ∃ t, (Node.tuple values span).source = .ok t ∧
      Written Arg.tokens (Forms Arg.tree (.tuple values span)) t := by
  obtain ⟨ts, hts, hall⟩ := exists_sources fun v hv => value_written (h v hv)
  have hts' : ts ≠ [] := by
    rintro rfl
    cases hall
    exact hne rfl
  refine ⟨listText ts, bind_eq_ok_iff.2 ⟨ts, hts, rfl⟩, ?_⟩
  refine (Listing.values.written hts' hall).enclosed.map (fun x => x.2.1.argument x.1 x.2.2)
    (fun _ => Values.tokens_argument _ _ _) ?_
  rintro ⟨lpar, vs, rpar⟩ hvs
  exact vs.forms_argument hvs lpar rpar span

/-- A call is written so that it can be read if its arguments are. -/
theorem call_written {name : Text} {args : List Node} (span : Option Span)
    (hname : Terminal.name.Spells name) (h : ∀ a ∈ args, ∃ t, a.source = .ok t ∧
      Written Arg.tokens (Forms Arg.tree (asArgument a.normal)) t) :
    ∃ t, (Node.call name args span).source = .ok t ∧
      Written Call.tokens (Forms Call.tree (Node.call name args span).normal) t := by
  obtain ⟨ts, hts, hall⟩ := exists_sources h
  refine ⟨name ++ listText ts, bind_eq_ok_iff.2 ⟨ts, hts, rfl⟩, ?_⟩
  have hword := Written.name hname
  cases hall with
  | nil =>
    have hempty : Written (fun _ : Unit => []) (fun _ => True) [] := .nil () trivial rfl
    refine (hword.append hempty.enclosed (separated_cons (by decide))).map
      (fun x => .bare x.1 x.2.1 x.2.2.2) (fun _ => rfl) ?_
    rintro ⟨l, lpar, -, rpar⟩ ⟨rfl, -⟩ source
    exact ⟨_, rfl, rfl⟩
  | @cons u a us as hu hus =>
    have hlist := Listing.args.written (List.cons_ne_nil u us)
      (List.forall₂_map_right_iff.2 (.cons hu hus) : List.Forall₂ _ (u :: us)
        ((a :: as).map fun a => asArgument a.normal))
    refine (hword.append hlist.enclosed (separated_cons (by decide))).map
      (fun x => .applied x.1 x.2.1 x.2.2.1 x.2.2.2) (fun _ => rfl) ?_
    rintro ⟨l, lpar, b, rpar⟩ ⟨rfl, hb⟩ source
    obtain ⟨ms, hms, hbare⟩ := hb source
    refine ⟨_, Call.tree_applied_iff.2 ⟨ms, hms, rfl⟩, ?_⟩
    rw [bare, hbare, normal, normalArguments_eq, bare]

mutual

theorem expression_written : {n : Node} → IsExpression n → ∃ t, n.source = .ok t ∧
    Written Chain.tokens (Chain.Groups n.normal) t
  | _, .value h => by
    obtain ⟨t, ht, hwritten⟩ := value_written h
    refine ⟨t, ht, ?_⟩
    rw [h.normal_eq]
    exact (hwritten.map .value (fun _ => rfl) fun _ hv => hv).one h.tier_eq
  | .binary op left right span, .binary _ _ hleft hright => by
    obtain ⟨t, ht, hwritten⟩ := expression_written hleft
    obtain ⟨u, hu, hwritten'⟩ := expression_written hright
    refine ⟨_, bind_eq_ok_iff.2 ⟨t, ht, bind_eq_ok_iff.2 ⟨u, hu, rfl⟩⟩, ?_⟩
    exact (hwritten.wrapped _).binary (hwritten'.wrapped _) op span
      (tier_wrapped_breaksLeft op left) (tier_wrapped_breaksRight op right)
  | .parenthesized inner span, .parenthesized _ h => by
    obtain ⟨t, ht, hwritten⟩ := expression_written h
    exact ⟨_, bind_eq_ok_iff.2 ⟨t, ht, rfl⟩, (hwritten.group span).one rfl⟩
  | .call name args span, .call _ hname hargs => by
    obtain ⟨t, ht, hwritten⟩ := call_written span hname fun a ha => argument_written (hargs a ha)
    exact ⟨t, ht, (hwritten.map .call (fun _ => rfl) fun _ hc => hc).one rfl⟩

theorem argument_written : {n : Node} → IsArgument n → ∃ t, n.source = .ok t ∧
    Written Arg.tokens (Forms Arg.tree (asArgument n.normal)) t
  | _, .expression h => by
    obtain ⟨t, ht, hwritten⟩ := expression_written h
    refine ⟨t, ht, hwritten.map .chain (fun _ => rfl) fun c hc source => ?_⟩
    obtain ⟨g, hg, hbare, -⟩ := hc.exists_grouping source
    exact ⟨_, Arg.tree_chain_iff.2 ⟨g, hg, rfl⟩, by rw [bare_asArgument, hbare, bare_asArgument]⟩
  | _, .tuple span hne h => tuple_written span hne h

end

end Phrase
end ProbeScript
