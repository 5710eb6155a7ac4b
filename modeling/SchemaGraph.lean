import SchemaGraph.Conversion.Session
import SchemaGraph.Graph.Request
import SchemaGraph.Main
import SchemaGraph.Proofs.Abreast
import SchemaGraph.Proofs.Command.Verdicts
import SchemaGraph.Proofs.Descent.Choices
import SchemaGraph.Proofs.Descent.Completeness
import SchemaGraph.Proofs.Descent.DeclaredFields
import SchemaGraph.Proofs.Descent.EndlessCycles
import SchemaGraph.Proofs.Descent.Likeness
import SchemaGraph.Proofs.Descent.NormalForm
import SchemaGraph.Proofs.Descent.Pace
import SchemaGraph.Proofs.Descent.Preservation
import SchemaGraph.Proofs.Descent.Pruning
import SchemaGraph.Proofs.Descent.Recursion
import SchemaGraph.Proofs.Descent.References
import SchemaGraph.Proofs.Descent.Relaxing
import SchemaGraph.Proofs.Descent.SharedRecords
import SchemaGraph.Proofs.Descent.Upkeep
import SchemaGraph.Proofs.Document.Blame
import SchemaGraph.Proofs.Document.Pruning
import SchemaGraph.Proofs.Document.Reading
import SchemaGraph.Proofs.Document.Relaxing
import SchemaGraph.Proofs.Document.Resolution
import SchemaGraph.Proofs.Document.Spelling
import SchemaGraph.Proofs.Graph.Assignment
import SchemaGraph.Proofs.Graph.Chains
import SchemaGraph.Proofs.Graph.Faithfulness
import SchemaGraph.Proofs.Graph.Interning
import SchemaGraph.Proofs.Graph.Likeness
import SchemaGraph.Proofs.Graph.NameHistory
import SchemaGraph.Proofs.Graph.Preorder
import SchemaGraph.Proofs.Graph.Requests
import SchemaGraph.Proofs.Reordering.Agreement
import SchemaGraph.Proofs.Reordering.Descent
import SchemaGraph.Proofs.Reordering.Documents
import SchemaGraph.Proofs.Reordering.Leaves
import SchemaGraph.Proofs.Reordering.Mirrors
import SchemaGraph.Proofs.Reordering.Names
import SchemaGraph.Proofs.Reordering.Outcomes
import SchemaGraph.Proofs.Reordering.Unification
import SchemaGraph.Proofs.Session.Alternatives
import SchemaGraph.Proofs.Session.Blame
import SchemaGraph.Proofs.Session.Calls
import SchemaGraph.Proofs.Session.Consultation
import SchemaGraph.Proofs.Session.ConversionCalls
import SchemaGraph.Proofs.Session.Depth
import SchemaGraph.Proofs.Session.Faults
import SchemaGraph.Proofs.Session.Grouping
import SchemaGraph.Proofs.Session.InputSets
import SchemaGraph.Proofs.Session.Interning
import SchemaGraph.Proofs.Session.NameIndependence
import SchemaGraph.Proofs.Session.Nesting
import SchemaGraph.Proofs.Session.OpenTypes
import SchemaGraph.Proofs.Session.UnificationCalls
import SchemaGraph.Proofs.Session.Upheld
import SchemaGraph.Proofs.Session.UpperBound
import SchemaGraph.Proofs.SingularForms
import SchemaGraph.Proofs.Unification.Joining
import SchemaGraph.Proofs.Unification.JointTypes
import SchemaGraph.Proofs.Unification.Lockstep
import SchemaGraph.Proofs.Unification.MergeCalls
import SchemaGraph.Proofs.Unification.Pace
import SchemaGraph.Proofs.Unification.Relaxing
import SchemaGraph.Proofs.Unification.Settled
import SchemaGraph.Proofs.Unification.Twins
import SchemaGraph.Proofs.Unification.Upkeep
