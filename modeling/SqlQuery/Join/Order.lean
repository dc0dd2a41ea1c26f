import SqlQuery.Join.Edge

/-!
# The order of join edges

Edges with a key come before edges without one, and keys ascend in the order of their bytes.
Edges that this does not tell apart keep the order in which they are given.
-/

namespace SqlQuery.JoinEdge

/-- Whether the order keys put the first edge before the second. -/
def precedes (e f : JoinEdge) : Bool :=
  !e.orderKey.isEmpty && (f.orderKey.isEmpty || decide (e.orderKey < f.orderKey))

/-- The edges in the order of their keys. -/
def inOrder (edges : List JoinEdge) : List JoinEdge :=
  edges.mergeSort fun e f => !f.precedes e

end SqlQuery.JoinEdge
