import ProbeScript.Proofs.Acceptance
import ProbeScript.Proofs.Text.Quoting
import ProbeScript.Proofs.Tree.Printed

/-! Messages about bad texts. Whatever stands in the text, what is said of it stands on one line. -/
namespace ProbeScript

private theorem Text.newline_not_mem_decimal (n : Nat) : '\n' ∉ Numeral.decimal n := by
  intro hc
  cases Text.isLayout_of_isAlphanum
    (Radix.isAlphanum_of_isDigit (Radix.decimal.isDigit_of_mem_digits n _ hc))

namespace Diagnostic

/-- A message stands on one line if its parts do. -/
private theorem newline_not_mem_message {summary : Text} {position : Position} {rule : Option Text}
    {expected : List Text} (hsummary : '\n' ∉ summary) (hexpected : ∀ t ∈ expected, '\n' ∉ t) :
    '\n' ∉ message ⟨summary, position, rule, expected⟩ := by
  have hdecimal := Text.newline_not_mem_decimal
  have hlist : '\n' ∉ List.intercalate ", ".toList expected :=
    Phrase.not_mem_intercalate (by decide) hexpected
  rw [message]
  simp only [List.mem_append, not_or]
  refine ⟨⟨⟨⟨⟨hsummary, by decide⟩, hdecimal _⟩, by decide⟩, hdecimal _⟩, ?_⟩
  split
  case isTrue => exact List.not_mem_nil
  case isFalse =>
    simp only [List.mem_append, not_or]
    exact ⟨⟨by decide, hlist⟩, by decide⟩

private theorem newline_not_mem_ofFault (source : Text) (f : Segment.Fault) :
    '\n' ∉ (ofFault source f).message := by
  cases f with
  | invalidCharacter index c =>
    refine newline_not_mem_message ?_ (List.forall_mem_nil _)
    rw [List.mem_append]
    exact not_or.2 ⟨by decide, Text.newline_not_mem_quoted [c]⟩
  | openString => exact newline_not_mem_message (by decide) (by decide)
  | openComment index =>
    refine newline_not_mem_message ?_ (by decide)
    simp only [List.mem_append, not_or]
    exact ⟨⟨⟨by decide, Text.newline_not_mem_decimal _⟩, by decide⟩, Text.newline_not_mem_decimal _⟩

private theorem newline_not_mem_ofStop (source : Text) (i : Nat) (waiting : List Phrase.Item) :
    '\n' ∉ (ofStop source i waiting).message := by
  refine newline_not_mem_message ?_ (List.forall_mem_map.2 fun terminal _ => ?_)
  · split
    case h_1 c _ =>
      rw [List.mem_append]
      exact not_or.2 ⟨by decide, Text.newline_not_mem_quoted [c]⟩
    case h_2 => decide
  · cases terminal <;> decide

private theorem newline_not_mem_ofMalformedSpec (source : Text) (i : Nat) (spec : Text) :
    '\n' ∉ (ofMalformedSpec source i spec).message := by
  refine newline_not_mem_message ?_ (List.forall_mem_nil _)
  simp only [List.mem_append, not_or]
  exact ⟨⟨by decide, Text.newline_not_mem_quoted spec⟩, by decide⟩

end Diagnostic

/-- What is said of a text at fault stands on one line. -/
theorem Goal.newline_not_mem_message {g : Goal} {source : Text} {e : ReadError} {d : Diagnostic}
    (h : g.read source = .error e) (hd : e.diagnostic? = some d) : '\n' ∉ d.message := by
  cases h ▸ read_ends g source with
  | @fault f _ =>
    obtain rfl := Option.some.inj hd
    exact Diagnostic.newline_not_mem_ofFault source f
  | @stop _ i p _ _ =>
    obtain rfl := Option.some.inj hd
    exact Diagnostic.newline_not_mem_ofStop source i p.waiting
  | @limit _ _ f _ _ _ =>
    cases f with
    | digits k => cases hd
    | malformedSpec i spec =>
      obtain rfl := Option.some.inj hd
      exact Diagnostic.newline_not_mem_ofMalformedSpec source i spec

end ProbeScript
