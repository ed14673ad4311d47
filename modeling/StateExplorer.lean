import StateExplorer.Check.Components
import StateExplorer.Check.Nested
import StateExplorer.Check.Reachability
import StateExplorer.Check.Safety
import StateExplorer.Graph.Examples
import StateExplorer.Model.Graph
import StateExplorer.Model.Search
import StateExplorer.Model.Store
import StateExplorer.Model.System
import StateExplorer.Search.Record
import StateExplorer.Search.Routine
import StateExplorer.StepBudget
import StateExplorer.Store.Probing
import StateExplorer.Transition.Automaton
import StateExplorer.Transition.Choice
import StateExplorer.Proofs.Exploration
import StateExplorer.Proofs.Returning
import StateExplorer.Proofs.Visiting
import StateExplorer.Proofs.Termination
import StateExplorer.Proofs.Lasso
import StateExplorer.Proofs.Nested.Basic
import StateExplorer.Proofs.Nested.Preorder
import StateExplorer.Proofs.Nested.Postorder
import StateExplorer.Proofs.Nested.Colored
import StateExplorer.Proofs.Nested.Emptiness
import StateExplorer.Proofs.Components.Chart
import StateExplorer.Proofs.Components.Ledger
import StateExplorer.Proofs.Components.Assembly
import StateExplorer.Proofs.Components.Decomposition
import StateExplorer.Proofs.Transition
import StateExplorer.Proofs.AcceptingRun
import StateExplorer.Proofs.Drivers
import StateExplorer.Proofs.CallLog
import StateExplorer.Proofs.Adjacency
import StateExplorer.Proofs.Construction
import StateExplorer.Proofs.Reachability
import StateExplorer.Proofs.Bounded
import StateExplorer.Proofs.BreadthExploration
import StateExplorer.Proofs.Safety
import StateExplorer.Proofs.CanonicalForms
import StateExplorer.Proofs.Metered
import StateExplorer.Proofs.Budget
import StateExplorer.Proofs.Probing.Operations
import StateExplorer.Proofs.Probing.Refinement
import StateExplorer.Proofs.Probing.Growth
import StateExplorer.Proofs.Course
import StateExplorer.Proofs.Allowance
import StateExplorer.Proofs.Components.CutShort
import StateExplorer.Proofs.Nested.Reduction
import StateExplorer.Proofs.JointPath
import StateExplorer.Proofs.Strides
import StateExplorer.Proofs.Interruption
import StateExplorer.Proofs.Recording
import StateExplorer.Proofs.Nested.Record
import StateExplorer.Proofs.Nested.Coloring
import StateExplorer.Proofs.Nested.Settlement
import StateExplorer.Proofs.StepCount
import StateExplorer.Proofs.Levels
import StateExplorer.Proofs.FirstDiscovery
import StateExplorer.Proofs.Coupling
import StateExplorer.Proofs.Twins
import StateExplorer.Proofs.StoreChoice
import StateExplorer.Proofs.Unfolding
import StateExplorer.Proofs.Cutoff
import StateExplorer.Proofs.Morphism
import StateExplorer.Proofs.Resolution
