import Expander.Main
import Expander.Proofs.Diagnostic.Carets
import Expander.Proofs.Diagnostic.Codes
import Expander.Proofs.Grammar.Acceptance
import Expander.Proofs.Grammar.Blame
import Expander.Proofs.Grammar.Blindness
import Expander.Proofs.Grammar.Bounds
import Expander.Proofs.Grammar.Breadth
import Expander.Proofs.Grammar.Completeness
import Expander.Proofs.Grammar.Conservation
import Expander.Proofs.Grammar.Continuations
import Expander.Proofs.Grammar.Entry
import Expander.Proofs.Grammar.Followers
import Expander.Proofs.Grammar.Fronts
import Expander.Proofs.Grammar.Fusion
import Expander.Proofs.Grammar.Language
import Expander.Proofs.Grammar.Locality
import Expander.Proofs.Grammar.Lossless
import Expander.Proofs.Grammar.Nesting
import Expander.Proofs.Grammar.Outputs
import Expander.Proofs.Grammar.Prefixes
import Expander.Proofs.Grammar.Qualifiers
import Expander.Proofs.Grammar.Reading
import Expander.Proofs.Grammar.Rules
import Expander.Proofs.Grammar.Safety
import Expander.Proofs.Grammar.Soundness
import Expander.Proofs.Grammar.Spelling
import Expander.Proofs.Grammar.Surface
import Expander.Proofs.Grammar.Turbofish
import Expander.Proofs.Grammar.Viability
import Expander.Proofs.Lexing.Brackets
import Expander.Proofs.Lexing.Chain
import Expander.Proofs.Lexing.Choice
import Expander.Proofs.Lexing.Composition
import Expander.Proofs.Lexing.Forming
import Expander.Proofs.Lexing.Layout
import Expander.Proofs.Lexing.Pieces
import Expander.Proofs.Lexing.Provenance
import Expander.Proofs.Lexing.Respacing
import Expander.Proofs.Lexing.Stability
import Expander.Proofs.Protocol.Blindness
import Expander.Proofs.Protocol.Branching
import Expander.Proofs.Protocol.Course
import Expander.Proofs.Protocol.Evaluation
import Expander.Proofs.Protocol.Expanding
import Expander.Proofs.Protocol.Honesty
import Expander.Proofs.Protocol.Limits
import Expander.Proofs.Protocol.Points
import Expander.Proofs.Protocol.Recasting
import Expander.Proofs.Protocol.Renumbering
import Expander.Proofs.Protocol.Rewriting
import Expander.Proofs.Protocol.RuleRun
import Expander.Proofs.Source.Lines
import Expander.Proofs.Source.Places
import Expander.Proofs.Token.Erasure
import Expander.Proofs.Token.Mirrors
import Expander.Proofs.Token.Narrowing
import Expander.Proofs.Token.Patterns
import Expander.Proofs.Token.Splitting
import Expander.Proofs.Token.Unfusing
import Expander.Proofs.Token.Views
import Expander.Proofs.Token.Windows
import Expander.Protocol.Trace
import Expander.Token.Window
