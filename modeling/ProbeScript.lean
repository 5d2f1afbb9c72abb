import ProbeScript.Highlight
import ProbeScript.Main
import ProbeScript.Tree.Checked
import ProbeScript.Tree.Same
import ProbeScript.Proofs.Phrase.Letter
import ProbeScript.Proofs.Phrase.Scan
import ProbeScript.Proofs.Phrase.Step
import ProbeScript.Proofs.Phrase.Reader
import ProbeScript.Proofs.Phrase.Growth
import ProbeScript.Proofs.Phrase.Run
import ProbeScript.Proofs.Text.Row
import ProbeScript.Proofs.Text.Blanking
import ProbeScript.Proofs.Fault
import ProbeScript.Proofs.Acceptance
import ProbeScript.Proofs.Phrase.Boundary
import ProbeScript.Proofs.Ending
import ProbeScript.Proofs.Stop
import ProbeScript.Proofs.Tree.Located
import ProbeScript.Proofs.Transparency
import ProbeScript.Proofs.Text.Digits
import ProbeScript.Proofs.Tree.Form
import ProbeScript.Proofs.Tree.Grouping
import ProbeScript.Proofs.Tree.Parsed
import ProbeScript.Proofs.Phrase.Written
import ProbeScript.Proofs.Tree.Printed
import ProbeScript.Proofs.RoundTrip
import ProbeScript.Proofs.Printing
import ProbeScript.Proofs.Tree.Nodes
import ProbeScript.Proofs.WellFormed
import ProbeScript.Proofs.Phrase.Alike
import ProbeScript.Proofs.Tree.Alike
import ProbeScript.Proofs.Tree.Words
import ProbeScript.Proofs.Tokens
import ProbeScript.Proofs.Tree.Placed
import ProbeScript.Proofs.Phrase.Excerpt
import ProbeScript.Proofs.Spans
import ProbeScript.Proofs.Text.Filler
import ProbeScript.Proofs.Layout
import ProbeScript.Proofs.Highlight.Comments
import ProbeScript.Proofs.Phrase.Follow
import ProbeScript.Proofs.Highlight.Words
import ProbeScript.Proofs.Phrase.Calls
import ProbeScript.Proofs.Highlight.Tokens
import ProbeScript.Proofs.Colouring
import ProbeScript.Proofs.Phrase.Moved
import ProbeScript.Proofs.Text.Joined
import ProbeScript.Proofs.Concatenation
import ProbeScript.Proofs.Text.Parting
import ProbeScript.Proofs.Contexts
import ProbeScript.Proofs.Tree.Guarded
import ProbeScript.Proofs.Failure
import ProbeScript.Proofs.Phrase.Quotes
import ProbeScript.Proofs.Tree.SourceText
import ProbeScript.Proofs.FixedPoint
import ProbeScript.Proofs.Tree.Flat
import ProbeScript.Proofs.Tree.Climbing
import ProbeScript.Proofs.Text.Division
import ProbeScript.Proofs.Segments
import ProbeScript.Proofs.Tree.Ungrouped
import ProbeScript.Proofs.Tree.Regrouped
import ProbeScript.Proofs.Tree.Added
import ProbeScript.Proofs.Redundancy
import ProbeScript.Proofs.Text.Quoting
import ProbeScript.Proofs.Tree.Outlined
import ProbeScript.Proofs.Tree.Told
import ProbeScript.Proofs.Outline
import ProbeScript.Proofs.LoneWord
import ProbeScript.Proofs.ProbeSpec
import ProbeScript.Proofs.Text.Order
import ProbeScript.Proofs.Tree.Siblings
import ProbeScript.Proofs.Tree.Outermost
import ProbeScript.Proofs.Traversal
import ProbeScript.Proofs.Prompt
import ProbeScript.Proofs.Naming
import ProbeScript.Proofs.Highlight.Table
import ProbeScript.Proofs.Message
import ProbeScript.Proofs.Checking
import ProbeScript.Proofs.Session
import ProbeScript.Proofs.Text.Coordinates
