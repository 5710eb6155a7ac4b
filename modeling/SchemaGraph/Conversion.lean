import SchemaGraph.Conversion.Descent
import SchemaGraph.Options

/-!
This module contains the conversion of a whole schema document to a type graph.
-/

namespace SchemaGraph

structure Conversion where
  graph : Graph
  root : Handle

namespace Conversion

def run (document : Json) (options : Options) : Except Fault Handle × State :=
  (Descent.convert document .root (.inferred options.rootName)).run (.start document)

def ofDocument (document : Json) (options : Options) : Except Fault Conversion :=
  match run document options with
  | (.ok root, s) => .ok ⟨s.graph, root⟩
  | (.error fault, _) => .error fault

end Conversion

end SchemaGraph
