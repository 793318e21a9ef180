import AtomicMovers.Pass
import AtomicMovers.Program.ExprTheorems
import AtomicMovers.Semantics.Run
import AtomicMovers.Proofs.Evaluation
import AtomicMovers.Proofs.Substitution
import AtomicMovers.Proofs.Commands
import AtomicMovers.Proofs.TableSubstitution
import AtomicMovers.Proofs.References
import AtomicMovers.Proofs.Growth
import AtomicMovers.Proofs.Operations
import AtomicMovers.Proofs.Bindings
import AtomicMovers.Proofs.BlockCopies
import AtomicMovers.Proofs.Replicas
import AtomicMovers.Proofs.Runs
import AtomicMovers.Proofs.Paths
import AtomicMovers.Proofs.RelationSearch
import AtomicMovers.Proofs.SymbolicExecution
import AtomicMovers.Proofs.Transitions
import AtomicMovers.Proofs.Obligations
import AtomicMovers.Proofs.Assembly
import AtomicMovers.Proofs.Discipline
import AtomicMovers.Proofs.TransitionRelation
import AtomicMovers.Proofs.Validity
import AtomicMovers.Proofs.Commutativity
import AtomicMovers.Proofs.GatePreservation
import AtomicMovers.Proofs.FailurePreservation
import AtomicMovers.Proofs.TopLevel
import AtomicMovers.Proofs.LedgerSteps
import AtomicMovers.Proofs.LedgerEntries
import AtomicMovers.Proofs.Appending
import AtomicMovers.Proofs.Entering
import AtomicMovers.Proofs.RenamedTexts
import AtomicMovers.Proofs.Siblings
import AtomicMovers.Proofs.RequestOrder
import AtomicMovers.Proofs.Typing
import AtomicMovers.Proofs.WellFormed
import AtomicMovers.Proofs.TypedRuns
import AtomicMovers.Proofs.WellFormedObligations
import AtomicMovers.Proofs.WellFormedOutput
import AtomicMovers.Proofs.Registration
import AtomicMovers.Proofs.ProcedureNames
import AtomicMovers.Proofs.ShadowCopies
import AtomicMovers.Proofs.IndependentActions
import AtomicMovers.Proofs.DeclaredPredicates
import AtomicMovers.Proofs.Lockstep
import AtomicMovers.Proofs.RenamedRelations
import AtomicMovers.Proofs.ShadowRelation
import AtomicMovers.Proofs.SearchOutcomes
import AtomicMovers.Proofs.PriorReads
import AtomicMovers.Proofs.GateExtraction
import AtomicMovers.Proofs.RunMaps
import AtomicMovers.Proofs.FaithfulShadows
import AtomicMovers.Proofs.FailedRequests
import AtomicMovers.Proofs.RegistrationOutcomes
import AtomicMovers.Proofs.DisjointnessClauses
import AtomicMovers.Proofs.PrintedNames
import AtomicMovers.Proofs.SubstitutedEntries
import AtomicMovers.Proofs.OwnGraphs
import AtomicMovers.Proofs.Identifiers
import AtomicMovers.Proofs.Reading
import AtomicMovers.Proofs.UnambiguousTexts
