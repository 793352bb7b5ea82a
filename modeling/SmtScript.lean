import SmtScript.Arith.Value
import SmtScript.Uninterpreted
import SmtScript.Pipeline
import SmtScript.Proofs.Sexp.Grammar
import SmtScript.Proofs.Sexp.Completion
import SmtScript.Proofs.Sexp.Blank
import SmtScript.Proofs.Arith.RoundTrip
import SmtScript.Proofs.Arith.Expression
import SmtScript.Proofs.Arith.Positional
import SmtScript.Proofs.Naming.History
import SmtScript.Proofs.Term.Checking
import SmtScript.Proofs.Term.Refusal
import SmtScript.Proofs.Script.Legality
import SmtScript.Proofs.Script.Replay
import SmtScript.Proofs.Script.Reassertion
import SmtScript.Proofs.Script.Names
import SmtScript.Proofs.Script.Faithful
import SmtScript.Proofs.Script.Transcript
import SmtScript.Proofs.Script.Readable
import SmtScript.Proofs.Script.Lines
import SmtScript.Proofs.Script.Construction
import SmtScript.Proofs.Reply.RoundTrip
import SmtScript.Proofs.Reply.Shape
import SmtScript.Proofs.Reply.Declared
import SmtScript.Proofs.Reply.Acceptance
import SmtScript.Proofs.Reply.Truncation
import SmtScript.Proofs.Reply.Growth
import SmtScript.Proofs.Reply.Layout
import SmtScript.Proofs.Reply.Rereading
import SmtScript.Proofs.Reply.FirstDefect
import SmtScript.Proofs.Reply.Valueless
import SmtScript.Proofs.Reply.Excerpt
import SmtScript.Proofs.Pipeline
