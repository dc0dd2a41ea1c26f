import SqlQuery.Join.Edge

/-!
# Queries

The description of one query, independent of any dialect.  It is plain data: nothing about it is
checked while it is put together.
-/

namespace SqlQuery

/-- An expression after SELECT, with the alias it is given.  A present alias may be empty. -/
structure Selection where
  expression : Text
  alias? : Option Text
  deriving DecidableEq

/-- An expression after ORDER BY, with its direction. -/
structure OrderItem where
  expression : Text
  ascending : Bool
  deriving DecidableEq

/-- A query.  Without selections it selects everything. -/
structure Query where
  /-- Whether repeated rows are dropped. -/
  distinct : Bool := false
  selections : List Selection := []
  tables : List TableRef := []
  joins : List JoinEdge := []
  /-- Predicates that every row satisfies, apart from the joins. -/
  filters : List Text := []
  groupBy : List Text := []
  /-- Predicates that every group satisfies. -/
  having : List Text := []
  orderBy : List OrderItem := []
  limit? : Option UInt64 := none
  deriving DecidableEq

namespace Query

/-- The query without any part. -/
def empty : Query := {}

def hasOuterJoin (q : Query) : Bool := q.joins.any (·.isOuter)

end Query

end SqlQuery
