import Predictive.Journal
import Predictive.Main
import Predictive.Proofs.CellTexts
import Predictive.Proofs.CheckedOutput
import Predictive.Proofs.EarliestRejection
import Predictive.Proofs.ExtendedTables
import Predictive.Proofs.LeftRecursion
import Predictive.Proofs.LinearRuns
import Predictive.Proofs.OfferedChoices
import Predictive.Proofs.PredictedSteps
import Predictive.Proofs.RuleRegister
import Predictive.Proofs.SearchInPlace
import Predictive.Proofs.SessionUndo
import Predictive.Proofs.SilentElements
import Predictive.Proofs.TraceLog
import Predictive.Proofs.WrittenSettings
