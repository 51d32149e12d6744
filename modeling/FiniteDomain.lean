import FiniteDomain.Domain.Cursor
import FiniteDomain.Main
import FiniteDomain.Novelty
import FiniteDomain.Proofs.DomainForm
import FiniteDomain.Proofs.DomainValues
import FiniteDomain.Proofs.IndexSetMembers
import FiniteDomain.Proofs.GraphSound
import FiniteDomain.Proofs.GraphComponent
import FiniteDomain.Proofs.NetworkModel
import FiniteDomain.Proofs.Returning
import FiniteDomain.Proofs.AssignmentValues
import FiniteDomain.Proofs.GreedyWitness
import FiniteDomain.Proofs.ClassMerge
import FiniteDomain.Proofs.CollapseExact
import FiniteDomain.Proofs.PruneExact
import FiniteDomain.Proofs.SearchVerdict
import FiniteDomain.Proofs.Declared
import FiniteDomain.Proofs.Holding
import FiniteDomain.Proofs.ImposeExact
import FiniteDomain.Proofs.ClauseVerdict
import FiniteDomain.Proofs.FormulaVerdict
import FiniteDomain.Proofs.EqualityQuotient
import FiniteDomain.Proofs.PruneModels
import FiniteDomain.Proofs.SearchBudget
import FiniteDomain.Proofs.SearchModes
import FiniteDomain.Proofs.TriedEvents
import FiniteDomain.Proofs.BudgetVerdict
import FiniteDomain.Proofs.Checked
import FiniteDomain.Proofs.CheckedGraph
import FiniteDomain.Proofs.CheckedNetwork
import FiniteDomain.Proofs.CheckedSearch
import FiniteDomain.Proofs.Confirmation
import FiniteDomain.Proofs.CheckedSolve
import FiniteDomain.Proofs.ModeVerdict
import FiniteDomain.Proofs.ChoiceLoop
import FiniteDomain.Proofs.BudgetMonotone
import FiniteDomain.Proofs.FirstChoice
import FiniteDomain.Proofs.GraphForm
import FiniteDomain.Proofs.ImposedNetwork
import FiniteDomain.Proofs.EquationSet
import FiniteDomain.Proofs.DomainAlgebra
import FiniteDomain.Proofs.IndexSetWords
import FiniteDomain.Proofs.IndexSetAlgebra
import FiniteDomain.Proofs.MatchingSearch
import FiniteDomain.Proofs.DisjunctionAgreement
import FiniteDomain.Proofs.PhaseExits
import FiniteDomain.Proofs.OperationSequence
import FiniteDomain.Proofs.GraphAlgebra
import FiniteDomain.Proofs.GreedySolution
import FiniteDomain.Proofs.GraphEmbedding
import FiniteDomain.Proofs.NetworkEmbedding
import FiniteDomain.Proofs.SearchEmbedding
import FiniteDomain.Proofs.InsertedVariables
import FiniteDomain.Proofs.DirectSolve
import FiniteDomain.Proofs.DistinctDeclarations
import FiniteDomain.Proofs.Pigeonhole
import FiniteDomain.Proofs.FixedEnds
import FiniteDomain.Proofs.StoredClauses
import FiniteDomain.Proofs.LeadingChoice
import FiniteDomain.Proofs.AliasingProblem
import FiniteDomain.Proofs.Aliasing
import FiniteDomain.Proofs.SearchDepth
import FiniteDomain.Proofs.FirstFault
import FiniteDomain.Proofs.OrderVerdict
import FiniteDomain.Proofs.RefutationCause
import FiniteDomain.Proofs.FormulaMeaning
import FiniteDomain.Proofs.CanonicalDomain
import FiniteDomain.Proofs.CursorScript
import FiniteDomain.Proofs.FirstDeclarations
import FiniteDomain.Proofs.EqualityClasses
