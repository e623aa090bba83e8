import Abacus.Formula.Integer
import Abacus.Script
import Abacus.ConfigurationFile
import Abacus.Proofs.Grammar.Refinement
import Abacus.Proofs.Grammar.Soundness
import Abacus.Proofs.Evaluation.Blanks
import Abacus.Proofs.Evaluation.Substitution
import Abacus.Proofs.History.Replay
import Abacus.Proofs.Evaluation.Calls
import Abacus.Proofs.Evaluation.Interruption
import Abacus.Proofs.History.Atomicity
import Abacus.Proofs.Evaluation.Arity
import Abacus.Proofs.History.WellFormed
import Abacus.Proofs.History.Invocations
import Abacus.Proofs.Evaluation.Arrival
import Abacus.Proofs.Evaluation.Variables
import Abacus.Proofs.Evaluation.Placement
import Abacus.Proofs.Grammar.Beginning
import Abacus.Proofs.Grammar.Accord
import Abacus.Proofs.Evaluation.Lookups
import Abacus.Proofs.Grammar.Diagnosis
import Abacus.Proofs.Evaluation.Naming
import Abacus.Proofs.History.Admission
import Abacus.Proofs.Grammar.Integer
import Abacus.Proofs.Evaluation.Trailing
import Abacus.Proofs.Grammar.Viability
import Abacus.Formula.Descent
import Abacus.Proofs.Descent.Cursor
import Abacus.Proofs.Descent.Progress
import Abacus.Proofs.Descent.Locality
import Abacus.Proofs.Descent.Outlook
import Abacus.Proofs.Descent.Agreement
import Abacus.Proofs.Descent.SinglePass
import Abacus.Proofs.Grammar.Rendering
import Abacus.Proofs.Grammar.Magnitude
import Abacus.Proofs.Evaluation.Mentions
import Abacus.Proofs.Evaluation.Openings
import Abacus.Proofs.Descent.Termination
import Abacus.Proofs.Descent.Passage
import Abacus.Proofs.Descent.Pending
import Abacus.Proofs.Grammar.Division
import Abacus.Proofs.Evaluation.Application
import Abacus.Proofs.Evaluation.Power
import Abacus.Proofs.Parameter.Acceptance
