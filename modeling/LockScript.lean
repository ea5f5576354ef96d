import LockScript.Error
import LockScript.Proofs.Satisfaction
import LockScript.Proofs.Policy
import LockScript.Proofs.Agreement
import LockScript.Proofs.Dissatisfaction
import LockScript.Proofs.FreeChoice
import LockScript.Proofs.Completeness
import LockScript.Proofs.Candidates
import LockScript.Proofs.Satisfiability
import LockScript.Proofs.Sanity
import LockScript.Proofs.ExactBudget
import LockScript.Proofs.LockPaths
import LockScript.Proofs.WitnessBound
import LockScript.Proofs.SatisfactionSize
import LockScript.Proofs.StackDepth
import LockScript.Proofs.ExecutionPeak
import LockScript.Proofs.OpcodeBound
import LockScript.Proofs.RequiredSignature
import LockScript.Proofs.Exchange
import LockScript.Proofs.Construction
import LockScript.Proofs.OperandWidth
import LockScript.Proofs.SaneScripts
import LockScript.Proofs.MoreMaterial
import LockScript.Proofs.WrapAround
import LockScript.Proofs.TypeInvariants
import LockScript.Proofs.LockChoices
import LockScript.Proofs.MixedLocks
import LockScript.Proofs.FoundInputs
import LockScript.Proofs.Dissatisfiability
import LockScript.Proofs.ThresholdChoice
import LockScript.Proofs.SignatureChoice
import LockScript.Proofs.ThresholdUsage
import LockScript.Proofs.RepeatedKeys
import LockScript.Proofs.UniqueText
import LockScript.Proofs.Encoder
import LockScript.Proofs.Iteration
