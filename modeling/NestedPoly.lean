import NestedPoly.Proofs.AdmissibleOrder
import NestedPoly.Proofs.Batch
import NestedPoly.Proofs.CodingShelf
import NestedPoly.Proofs.EvaluationLaw
import NestedPoly.Proofs.ExactCodes
import NestedPoly.Proofs.GreedyWork
import NestedPoly.Proofs.ObtainedCodes
import NestedPoly.Proofs.Paths
import NestedPoly.Proofs.PrimeSearch
import NestedPoly.Proofs.PrintedForm
import NestedPoly.Proofs.RowChecks
import NestedPoly.Proofs.Sorting
import NestedPoly.Proofs.SplitLog
import NestedPoly.Proofs.TreeSize
import NestedPoly.Proofs.Univariate
