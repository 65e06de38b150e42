import Backtrack.Alternatives.Lemmas
import Backtrack.CommandLine
import Backtrack.Grammar.Continuation
import Backtrack.Grammar.Induction
import Backtrack.Main
import Backtrack.Proofs.Suffix
import Backtrack.Session
import Backtrack.Proofs.Derivation
import Backtrack.Proofs.Demand
import Backtrack.Proofs.Locality
import Backtrack.Proofs.Calls
import Backtrack.Proofs.Progress
import Backtrack.Proofs.Spelling
import Backtrack.Proofs.Termination
import Backtrack.Proofs.Independence
import Backtrack.Proofs.Formats
import Backtrack.Proofs.Laws
import Backtrack.Proofs.Repetition
import Backtrack.Proofs.CommandLine
import Backtrack.Proofs.Deterministic
import Backtrack.Proofs.Ranges
import Backtrack.Proofs.Numerals
import Backtrack.Proofs.SeparatedLists
import Backtrack.Proofs.Completion
import Backtrack.Proofs.Failures
import Backtrack.Proofs.Words
import Backtrack.Proofs.Decimals
import Backtrack.Proofs.Doubles
import Backtrack.Proofs.NearestDoubles
import Backtrack.Proofs.PrintedJson
import Backtrack.Proofs.Messages
import Backtrack.Proofs.DecimalRange
import Backtrack.Proofs.Nesting
import Backtrack.Proofs.Compositions
import Backtrack.Proofs.LineRepetition
import Backtrack.Proofs.OptionTexts
