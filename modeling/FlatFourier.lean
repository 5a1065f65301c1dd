import FlatFourier.Main
import FlatFourier.Proofs.Staging
import FlatFourier.Proofs.Execution
import FlatFourier.Proofs.PlanOrder
import FlatFourier.Proofs.PlanContents
import FlatFourier.Proofs.PlanValidity
import FlatFourier.Proofs.LastWrite
import FlatFourier.Proofs.FloatBits
import FlatFourier.Proofs.Literal
import FlatFourier.Proofs.Assembly
import FlatFourier.Proofs.Lines
import FlatFourier.Proofs.Parsing
import FlatFourier.Proofs.Meaning
import FlatFourier.Proofs.Values
import FlatFourier.Proofs.Delivery
import FlatFourier.Proofs.KernelMeaning
import FlatFourier.Proofs.RingRules
import FlatFourier.Proofs.Evaluation
import FlatFourier.Proofs.Dft
import FlatFourier.Proofs.Lockstep
import FlatFourier.Proofs.Representation
import FlatFourier.Proofs.Scripts
import FlatFourier.Proofs.Sharing
import FlatFourier.Proofs.NormalForm
import FlatFourier.Proofs.Safety
import FlatFourier.Proofs.ReadingBack
import FlatFourier.Proofs.ArrayNames
import FlatFourier.Proofs.Outcomes
import FlatFourier.Proofs.WriteRecord
import FlatFourier.Proofs.Accounts
import FlatFourier.Proofs.OperatorTable
import FlatFourier.Proofs.Negation
import FlatFourier.Proofs.Atomicity
import FlatFourier.Proofs.ConstantInput
import FlatFourier.Proofs.Residue
import FlatFourier.Proofs.PlanLength
import FlatFourier.Proofs.DiagramOrder
import FlatFourier.Proofs.Fillers
import FlatFourier.Proofs.Overruns
import FlatFourier.Proofs.Termination
import FlatFourier.Proofs.RepeatedRules
import FlatFourier.Proofs.Immediates
import FlatFourier.Proofs.TextShape
