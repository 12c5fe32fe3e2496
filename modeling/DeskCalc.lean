import DeskCalc.Demo
import DeskCalc.Main
import DeskCalc.Print
import DeskCalc.Proofs.AskedPrecision
import DeskCalc.Proofs.BackendAgreement
import DeskCalc.Proofs.CommandLineAgreement
import DeskCalc.Proofs.ConfigDecoding
import DeskCalc.Proofs.DepthIndependence
import DeskCalc.Proofs.EqualOperands
import DeskCalc.Proofs.ExactPower
import DeskCalc.Proofs.ExactQuotient
import DeskCalc.Proofs.ExactSums
import DeskCalc.Proofs.ExponentBound
import DeskCalc.Proofs.ExponentForm
import DeskCalc.Proofs.Failure
import DeskCalc.Proofs.FormatterRange
import DeskCalc.Proofs.Frame
import DeskCalc.Proofs.HandledEvents
import DeskCalc.Proofs.LineComposition
import DeskCalc.Proofs.LineEnds
import DeskCalc.Proofs.LiteralAcceptance
import DeskCalc.Proofs.LiteralUse
import DeskCalc.Proofs.MaximalMunch
import DeskCalc.Proofs.PositionalForm
import DeskCalc.Proofs.PowerAccuracy
import DeskCalc.Proofs.PowerOverflow
import DeskCalc.Proofs.PrecisionHistory
import DeskCalc.Proofs.PrecisionIndependence
import DeskCalc.Proofs.Prints
import DeskCalc.Proofs.QuotientAccuracy
import DeskCalc.Proofs.ReadBack
import DeskCalc.Proofs.Respacing
import DeskCalc.Proofs.RootAccuracy
import DeskCalc.Proofs.SessionReport
import DeskCalc.Proofs.StackForms
import DeskCalc.Proofs.WrittenOutput
import DeskCalc.Sink
