import IncrementalLR.Grammar.Metrics
import IncrementalLR.Main
import IncrementalLR.Proofs.Automaton.WeakCompatibility
import IncrementalLR.Proofs.Automaton.Resolution
import IncrementalLR.Proofs.Automaton.History
import IncrementalLR.Proofs.Automaton.Memo
import IncrementalLR.Proofs.Automaton.Cache
import IncrementalLR.Proofs.Automaton.LeastClosure
import IncrementalLR.Proofs.Lexer.Segmentation
import IncrementalLR.Proofs.Lexer.Indentation
import IncrementalLR.Proofs.Grammar.Follow
import IncrementalLR.Proofs.Grammar.Whitespace
import IncrementalLR.Proofs.Grammar.RoundTrip
import IncrementalLR.Proofs.Grammar.LineNumbers
import IncrementalLR.Proofs.Template.RoundTrip
import IncrementalLR.Proofs.Document.Consistency
import IncrementalLR.Proofs.Document.Rejection
import IncrementalLR.Proofs.Document.Reuse
import IncrementalLR.Proofs.Parse.Paths
import IncrementalLR.Proofs.Document.Drafts
import IncrementalLR.Proofs.Tree.Texts
import IncrementalLR.Proofs.Document.Recording
import IncrementalLR.Proofs.Document.Timeline
import IncrementalLR.Proofs.Document.PassThrough
import IncrementalLR.Proofs.Document.Frames
import IncrementalLR.Proofs.Document.Forcing
import IncrementalLR.Proofs.Document.Unshifted
import IncrementalLR.Proofs.Document.Repetition
import IncrementalLR.Proofs.Document.Embedding
import IncrementalLR.Proofs.Document.Portraits
import IncrementalLR.Proofs.Document.Reaching
import IncrementalLR.Proofs.Document.Termination
import IncrementalLR.Proofs.Document.Expressions
import IncrementalLR.Proofs.Document.Pointing
import IncrementalLR.Proofs.Document.Faultless
import IncrementalLR.Proofs.Replay.Failure
import IncrementalLR.Proofs.Diagnostic.EditDistance
