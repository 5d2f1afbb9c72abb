import ProbeScript.Proofs.Tree.Outlined

/-! The tree told from its outline. The indentation of the lines tells which nodes are children of
which, and the rest of a line tells what the node is. -/
namespace ProbeScript.Node

variable {n a b : Node} {t d : Text}

/-! A node told by its line and its children. -/

private theorem decimal_inj {value value' : Int} (h : 0 ≤ value) (h' : 0 ≤ value')
    (he : Numeral.signed .decimal value = Numeral.signed .decimal value') : value = value' := by
  obtain ⟨k, rfl⟩ := Int.eq_ofNat_of_zero_le h
  obtain ⟨l, rfl⟩ := Int.eq_ofNat_of_zero_le h'
  rw [Numeral.signed_natCast, Numeral.signed_natCast] at he
  have hdigits := List.append_cancel_left he
  rw [← Radix.decimal.value_digits k, hdigits, Radix.value_digits]

/-- An integer and its base are told apart by the space between them. -/
private theorem integer_inj {value value' base base' : Int} {span span' : Option Span}
    (ha : (integer value base span).Shaped) (hb : (integer value' base' span').Shaped)
    (hda : (integer value base span).details = .ok d)
    (hdb : (integer value' base' span').details = .ok d) : value = value' ∧ base = base' := by
  have hbases : ∀ b ∈ ([2, 8, 10, 16] : List Int), 0 ≤ b := by decide
  obtain ⟨hvalue, hbase, -⟩ := ha
  obtain ⟨hvalue', hbase', -⟩ := hb
  obtain ⟨-, hd⟩ := details_integer_eq_ok_iff.1 hda
  obtain ⟨-, hd'⟩ := details_integer_eq_ok_iff.1 hdb
  have htext := hd.symm.trans hd'
  simp only [List.cons_append, List.append_assoc, List.cons.injEq, true_and] at htext
  have hspace {x : Text} : ∀ c ∈ (" (base ".toList ++ x).head?, (c != ' ') = false := by
    rintro c ⟨⟩
    rfl
  have hdigits {value : Int} (h : 0 ≤ value) :
      ∀ c ∈ Numeral.signed .decimal value, (c != ' ') = true := fun c hc =>
    bne_iff_ne.2 (ne_of_mem_decimal h c hc).1
  obtain ⟨hfirst, hsecond⟩ :=
    append_inj_of_stop htext (hdigits hvalue) (hdigits hvalue') hspace hspace
  have hrest := List.append_cancel_right (List.append_cancel_left hsecond)
  exact ⟨decimal_inj hvalue hvalue' hfirst,
    decimal_inj (hbases base hbase) (hbases base' hbase') hrest⟩

/-- A node is told by its kind, its details and its children. -/
private theorem bare_eq_of_details (ha : a.Shaped) (hb : b.Shaped) (hk : a.kind = b.kind)
    (hda : a.details = .ok d) (hdb : b.details = .ok d)
    (hc : bareAll a.children = bareAll b.children) : a.bare = b.bare := by
  cases a with
  | plain => exact ha.elim
  | identifier name =>
    cases b with
    | identifier name' =>
      obtain ⟨-, rfl⟩ := List.cons.inj (Except.ok.inj (hda.trans hdb.symm))
      rfl
    | _ => cases hk
  | integer value base =>
    cases b with
    | integer value' base' =>
      obtain ⟨rfl, rfl⟩ := integer_inj ha hb hda hdb
      rfl
    | _ => cases hk
  | string value =>
    cases b with
    | string value' =>
      obtain ⟨-, hquoted⟩ := List.cons.inj (Except.ok.inj (hda.trans hdb.symm))
      obtain rfl := Text.quoted_inj hquoted
      rfl
    | _ => cases hk
  | binary op left right =>
    cases b with
    | binary op' left' right' =>
      obtain ⟨-, hsymbol⟩ := List.cons.inj (Except.ok.inj (hda.trans hdb.symm))
      simp only [children, bareAll, List.cons.injEq, and_true] at hc
      rw [bare, bare, Operator.symbol_inj hsymbol, hc.1, hc.2]
    | _ => cases hk
  | parenthesized inner =>
    cases b with
    | parenthesized inner' =>
      simp only [children, bareAll, List.cons.injEq, and_true] at hc
      rw [bare, bare, hc]
    | _ => cases hk
  | tuple values =>
    cases b with
    | tuple values' => exact congrArg (Node.tuple · none) hc
    | _ => cases hk
  | call name args =>
    cases b with
    | call name' args' =>
      obtain ⟨-, rfl⟩ := List.cons.inj (Except.ok.inj (hda.trans hdb.symm))
      exact congrArg (Node.call name · none) hc
    | _ => cases hk
  | assignment target value =>
    cases b with
    | assignment target' value' =>
      simp only [children, bareAll, List.cons.injEq, and_true] at hc
      rw [bare, bare, hc.1, hc.2]
    | _ => cases hk
  | spec parts =>
    cases b with
    | spec parts' =>
      obtain ⟨-, htext⟩ := List.cons.inj (Except.ok.inj (hda.trans hdb.symm))
      have hsplit := ProbeSpec.split?_eq_some_iff.2 ⟨ha, htext⟩
      rw [ProbeSpec.split?_eq_some_iff.2 ⟨hb, rfl⟩] at hsplit
      rw [bare, bare, Option.some.inj hsplit]
    | _ => cases hk
  | probe event predicate body =>
    cases b with
    | probe event' predicate' body' =>
      -- the mark of a probe without a predicate tells whether the second child is one
      have hd := hda.trans hdb.symm
      cases predicate with
      | none =>
        cases predicate' with
        | none =>
          obtain ⟨hevent, hbody⟩ := List.cons.inj hc
          rw [bare, bare, hevent]
          exact congrArg (Node.probe event'.bare none · none) hbody
        | some q => exact absurd (Except.ok.inj hd) (by decide)
      | some p =>
        cases predicate' with
        | none => exact absurd (Except.ok.inj hd) (by decide)
        | some q =>
          obtain ⟨hevent, hc⟩ := List.cons.inj hc
          obtain ⟨hpredicate, hbody⟩ := List.cons.inj hc
          rw [bare, bare, bareSome, bareSome, hevent, hpredicate]
          exact congrArg (Node.probe event'.bare (some q.bare) · none) hbody
    | _ => cases hk
  | script probes =>
    cases b with
    | script probes' => exact congrArg (Node.script · none) hc
    | _ => cases hk

/-! The tree told from the rows of an outline. -/

/-- What a row of an outline tells: the depth, the kind and the details of a node. -/
def row (x : Nat × Node) : Nat × NodeKind × Except PrintError Text := (x.1, x.2.kind, x.2.details)

private theorem row_eq_iff {x y : Nat × Node} : row x = row y ↔
    x.1 = y.1 ∧ x.2.kind = y.2.kind ∧ x.2.details = y.2.details := by
  rw [row, row, Prod.mk.injEq, Prod.mk.injEq]

/-- The rows of the trees, one after the other, all at one depth. -/
def rows (depth : Nat) (ns : List Node) : List (Nat × NodeKind × Except PrintError Text) :=
  ns.flatMap fun n => (n.listing depth).map row

private theorem rows_cons (depth : Nat) (n : Node) (ns : List Node) : rows depth (n :: ns) =
    row (depth, n) :: (rows (depth + 1) n.children ++ rows depth ns) := by
  rw [rows, List.flatMap_cons, listing_eq, List.map_cons, List.map_flatMap, List.cons_append]
  rfl

private theorem length_rows_lt (depth : Nat) (n : Node) (ns : List Node) :
    (rows (depth + 1) n.children).length < (rows depth (n :: ns)).length ∧
      (rows depth ns).length < (rows depth (n :: ns)).length := by
  rw [rows_cons, List.length_cons, List.length_append]
  omega

/-- What holds of trees at a depth if it holds of the children of the first tree, one deeper, and of
the other trees. -/
@[elab_as_elim]
theorem forest_induction {motive : Nat → List Node → Prop} (nil : ∀ depth, motive depth [])
    (cons : ∀ depth n ns, motive (depth + 1) n.children → motive depth ns →
      motive depth (n :: ns)) : (depth : Nat) → (ns : List Node) → motive depth ns
  | depth, [] => nil depth
  | depth, n :: ns =>
    cons depth n ns (forest_induction nil cons (depth + 1) n.children)
      (forest_induction nil cons depth ns)
termination_by depth ns => (rows depth ns).length
decreasing_by
  · exact (length_rows_lt depth n ns).1
  · exact (length_rows_lt depth n ns).2

/-- No row stands higher than the trees do. -/
private theorem le_of_mem_rows (depth : Nat) (ns : List Node) :
    ∀ x ∈ rows depth ns, depth ≤ x.1 := by
  induction depth, ns using forest_induction with
  | nil depth => exact List.forall_mem_nil _
  | cons depth n ns hbelow hafter =>
    rw [rows_cons]
    refine List.forall_mem_cons.2 ⟨Nat.le_refl _, List.forall_mem_append.2 ⟨fun x hx => ?_, hafter⟩⟩
    exact Nat.le_of_succ_le (hbelow x hx)

private theorem head?_rows {depth : Nat} {ns : List Node} :
    ∀ x ∈ (rows depth ns).head?, x.1 = depth := by
  cases ns with
  | nil => simp [rows]
  | cons n ns =>
    rw [rows_cons]
    rintro x ⟨⟩
    rfl

/-- A tree whose nodes all have rows that tell what they are. -/
def Told (n : Node) : Prop := ∀ m ∈ n.nodes, m.Shaped ∧ ∃ d, m.details = .ok d

private theorem Told.child {c : Node} (h : Told n) (hc : c ∈ n.children) : Told c :=
  fun m hm => h m (mem_nodes_iff.2 (.inr ⟨c, hc, hm⟩))

/-- The children of a node are the trees whose rows stand deeper, up to the next row that does
not. -/
private theorem bareAll_eq_of_rows {depth : Nat} {as bs : List Node} (ha : ∀ a ∈ as, Told a)
    (hb : ∀ b ∈ bs, Told b) (h : rows depth as = rows depth bs) : bareAll as = bareAll bs := by
  induction depth, as using forest_induction generalizing bs with
  | nil depth =>
    cases bs with
    | nil => rfl
    | cons b bs =>
      rw [rows_cons] at h
      cases h
  | cons depth a as ihbelow ihafter =>
    obtain _ | ⟨b, bs⟩ := bs
    · rw [rows_cons] at h
      cases h
    rw [rows_cons, rows_cons] at h
    obtain ⟨hrow, hrest⟩ := List.cons.inj h
    have hdeeper {ns : List Node} : ∀ x ∈ rows (depth + 1) ns, decide (depth < x.1) = true :=
      fun x hx => decide_eq_true (le_of_mem_rows (depth + 1) ns x hx)
    have hstop {ns : List Node} : ∀ x ∈ (rows depth ns).head?, decide (depth < x.1) = false :=
      fun x hx => decide_eq_false (Nat.not_lt.2 (Nat.le_of_eq (head?_rows x hx)))
    -- the rows of the children end where the first row stands no deeper than the parent
    obtain ⟨hchildren, hothers⟩ := append_inj_of_stop hrest hdeeper hdeeper hstop hstop
    obtain ⟨hta, has⟩ := List.forall_mem_cons.1 ha
    obtain ⟨htb, hbs⟩ := List.forall_mem_cons.1 hb
    have hbelow := ihbelow (fun _ => hta.child) (fun _ => htb.child) hchildren
    have hafter := ihafter has hbs hothers
    obtain ⟨-, hkind, hdetails⟩ := row_eq_iff.1 hrow
    obtain ⟨hsa, d, hda⟩ := hta a (self_mem_nodes a)
    obtain ⟨hsb, -⟩ := htb b (self_mem_nodes b)
    rw [bareAll, bareAll, hafter,
      bare_eq_of_details hsa hsb hkind hda (hdetails ▸ hda) hbelow]

/-! Outlines and rows. -/

/-- A line tells its row: it is indented as deep as its node stands, and the title ends where the
details begin. -/
private theorem row_eq_of_line {x y : Nat × Node} (hx : outlineLine x.1 x.2 = .ok t)
    (hy : outlineLine y.1 y.2 = .ok t) : row x = row y := by
  obtain ⟨d, hd, ht⟩ := outlineLine_eq_ok_iff.1 hx
  obtain ⟨d', hd', ht'⟩ := outlineLine_eq_ok_iff.1 hy
  have htext := ht.symm.trans ht'
  rw [List.append_assoc, List.append_assoc] at htext
  have hindent {k : Nat} : ∀ c ∈ List.replicate k ' ', (c == ' ') = true := fun c hc =>
    beq_iff_eq.2 (List.eq_of_mem_replicate hc)
  have hstart {k : NodeKind} {r : Text} : ∀ c ∈ (k.title ++ r).head?, (c == ' ') = false := by
    intro c hc
    rw [List.head?_append_of_ne_nil _ (title_solid k).1] at hc
    exact beq_eq_false_iff_ne.2 ((title_solid k).2 c (List.mem_of_mem_head? hc)).1
  obtain ⟨hdepth, hrest⟩ := append_inj_of_stop htext hindent hindent hstart hstart
  have htitle {k : NodeKind} : ∀ c ∈ k.title, (c != ' ') = true := fun c hc =>
    bne_iff_ne.2 ((title_solid k).2 c hc).1
  have hend {m : Node} {d : Text} (hd : m.details = .ok d) : ∀ c ∈ d.head?, (c != ' ') = false :=
    fun c hc => bne_eq_false_iff_eq.2 (head?_details hd c hc)
  obtain ⟨hkind, hdetails⟩ := append_inj_of_stop hrest htitle htitle (hend hd) (hend hd')
  have hlength := congrArg List.length hdepth
  rw [List.length_replicate, List.length_replicate] at hlength
  exact row_eq_iff.2 ⟨by omega, title_inj hkind, by rw [hd, hd', hdetails]⟩

private theorem rows_singleton (depth : Nat) (n : Node) :
    rows depth [n] = (n.listing depth).map row :=
  List.append_nil _

/-- Trees with one outline are the same. -/
theorem bare_eq_of_outline (ha : ∀ m ∈ a.nodes, m.Shaped) (hb : ∀ m ∈ b.nodes, m.Shaped)
    (hta : a.outline = .ok t) (htb : b.outline = .ok t) : a.bare = b.bare := by
  have htold {n : Node} (h : ∀ m ∈ n.nodes, m.Shaped) (ht : n.outline = .ok t) : Told n := by
    intro m hm
    obtain ⟨x, hx, rfl⟩ := List.mem_map.1 hm
    obtain ⟨line, hline⟩ := exists_of_forall₂ (outline_lines h ht) x hx
    obtain ⟨d, hd, -⟩ := outlineLine_eq_ok_iff.1 hline
    exact ⟨h _ hm, d, hd⟩
  have hrows : rows 0 [a] = rows 0 [b] := by
    rw [rows_singleton, rows_singleton]
    have hline : ∀ (x y : Nat × Node) (line : Text), outlineLine x.1 x.2 = .ok line →
        outlineLine y.1 y.2 = .ok line → row x = row y := fun _ _ _ => row_eq_of_line
    exact map_eq_of_forall₂ hline (outline_lines ha hta) (outline_lines hb htb)
  have hall := bareAll_eq_of_rows (List.forall_mem_singleton.2 (htold ha hta))
    (List.forall_mem_singleton.2 (htold hb htb)) hrows
  exact (List.cons.inj hall).1

/-! The rows of a tree do not depend on its stretches of text. -/

private theorem details_bare (n : Node) : n.bare.details = n.details := by
  cases n with
  | probe event predicate => cases predicate <;> rfl
  | integer value base span =>
    rcases Nat.lt_or_ge value.natAbs (10 ^ Radix.digitLimit) with hlt | hle
    · rw [bare, details_integer hlt, details_integer hlt]
    · rw [bare, details_integer_of_le hle, details_integer_of_le hle]
  | _ => rfl

private theorem children_bare (n : Node) : n.bare.children = bareAll n.children := by
  cases n with
  | probe event predicate => cases predicate <;> rfl
  | _ => rfl

private theorem kind_bare (n : Node) : n.bare.kind = n.kind := by
  cases n <;> rfl

private theorem rows_bareAll (depth : Nat) (ns : List Node) :
    rows depth (bareAll ns) = rows depth ns := by
  induction depth, ns using forest_induction with
  | nil depth => rfl
  | cons depth n ns hbelow hafter =>
    have hrow : row (depth, n.bare) = row (depth, n) :=
      row_eq_iff.2 ⟨rfl, kind_bare n, details_bare n⟩
    rw [bareAll, rows_cons, rows_cons, hrow, children_bare, hbelow, hafter]

/-- The line that tells a row. -/
def rowLine (r : Nat × NodeKind × Except PrintError Text) : Except PrintError Text :=
  return List.replicate (4 * r.1) ' ' ++ r.2.1.title ++ (← r.2.2)

private theorem outline_eq_rows (n : Node) :
    n.outline = (return List.intercalate ['\n'] (← (rows 0 [n]).mapM rowLine)) := by
  rw [rows_singleton, List.mapM_map]
  rfl

theorem outline_bare (n : Node) : n.bare.outline = n.outline := by
  rw [outline_eq_rows, outline_eq_rows, ← rows_bareAll 0 [n]]
  rfl

end ProbeScript.Node
