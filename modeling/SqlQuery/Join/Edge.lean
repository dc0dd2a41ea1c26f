import SqlQuery.Table

/-!
# Join edges

A join edge relates two tables by a predicate.  It is written with an orientation but means the
same in both: swapping the tables flips the type of the join.
-/

namespace SqlQuery

/-- Which rows without a partner a join keeps. -/
inductive JoinType where
  | inner
  | left
  | right
  | full
  deriving DecidableEq

namespace JoinType

/-- The type after the two sides of the join are swapped. -/
def flip : JoinType → JoinType
  | .left => .right
  | .right => .left
  | t => t

@[simp] theorem flip_flip (t : JoinType) : t.flip.flip = t := by cases t <;> rfl

/-- The keywords that introduce the join. -/
def keyword : JoinType → Text
  | .inner => "JOIN"
  | .left => "LEFT OUTER JOIN"
  | .right => "RIGHT OUTER JOIN"
  | .full => "FULL OUTER JOIN"

def isOuter (t : JoinType) : Bool := t != .inner

end JoinType

/-- A join between two tables.  The order key hints at the place of the join in the chain; an empty
one hints at nothing. -/
structure JoinEdge where
  left : TableRef
  right : TableRef
  predicate : Text
  orderKey : Text
  type : JoinType
  deriving DecidableEq

namespace JoinEdge

def isOuter (e : JoinEdge) : Bool := e.type.isOuter

/-- Whether two edges join the same tables, in either orientation. -/
def connectsSameTables (e f : JoinEdge) : Bool :=
  (e.left == f.left && e.right == f.right) || (e.left == f.right && e.right == f.left)

end JoinEdge

end SqlQuery
