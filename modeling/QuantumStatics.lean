import QuantumStatics.Proofs.Classification.Monotone
import QuantumStatics.Proofs.Classification.Termination
import QuantumStatics.Proofs.Consumption.GivenBack
import QuantumStatics.Proofs.Consumption.Loans
import QuantumStatics.Proofs.Elaboration.Agreement
import QuantumStatics.Proofs.Elaboration.DeclaredBounds
import QuantumStatics.Proofs.Elaboration.Faithful
import QuantumStatics.Proofs.Elaboration.PlaceUses
import QuantumStatics.Proofs.Elaboration.Returning
import QuantumStatics.Proofs.Program.Bounds
import QuantumStatics.Proofs.Program.Isolation
import QuantumStatics.Proofs.Program.NatValues
import QuantumStatics.Proofs.Signature.Operations
import QuantumStatics.Proofs.Specialization.Cycles
import QuantumStatics.Proofs.Specialization.KeyTexts
import QuantumStatics.Proofs.Specialization.Locals
import QuantumStatics.Proofs.Specialization.Termination
import QuantumStatics.Proofs.Ty.Canonical
import QuantumStatics.Proofs.Ty.Fields
import QuantumStatics.Proofs.Ty.Rewriting
import QuantumStatics.Proofs.Unification.Context
import QuantumStatics.Proofs.Unification.MostGeneral
import QuantumStatics.Source.Sexp
