import LogicMachine.Code.Text
import LogicMachine.Main
import LogicMachine.Proofs.Arena
import LogicMachine.Proofs.Mention
import LogicMachine.Proofs.Moves
import LogicMachine.Proofs.Saves
import LogicMachine.Proofs.Stack
import LogicMachine.Proofs.Acts
import LogicMachine.Proofs.Unifying
import LogicMachine.Proofs.Builtins
import LogicMachine.Proofs.Offering
import LogicMachine.Proofs.Calling
import LogicMachine.Proofs.Barriers
import LogicMachine.Proofs.Trying
import LogicMachine.Proofs.Running
import LogicMachine.Proofs.Catching
import LogicMachine.Proofs.Phases
import LogicMachine.Proofs.Searching
import LogicMachine.Proofs.Reaching
import LogicMachine.Proofs.Trees
import LogicMachine.Proofs.Equations
import LogicMachine.Proofs.Unifiers
import LogicMachine.Proofs.Entering
import LogicMachine.Proofs.LastCalls
import LogicMachine.Proofs.Evolving
import LogicMachine.Proofs.Deeds
import LogicMachine.Proofs.Turns
import LogicMachine.Proofs.Retracting
import LogicMachine.Proofs.Asking
import LogicMachine.Proofs.UpdateView
import LogicMachine.Proofs.StandardOrder
import LogicMachine.Proofs.Symmetry
import LogicMachine.Proofs.Agreement
import LogicMachine.Proofs.ExactArithmetic
import LogicMachine.Proofs.QuotedText
import LogicMachine.Proofs.Shapes
import LogicMachine.Proofs.ExactCopying
import LogicMachine.Proofs.Indexing
import LogicMachine.Proofs.StoredClauses
import LogicMachine.Proofs.Overflow
import LogicMachine.Proofs.Matching
import LogicMachine.Proofs.Returning
import LogicMachine.Proofs.Enumerating
import LogicMachine.Proofs.Arguments
import LogicMachine.Proofs.Ranges
import LogicMachine.Proofs.Substrings
import LogicMachine.Proofs.Scopes
import LogicMachine.Proofs.Ages
import LogicMachine.Proofs.RoundTrips
