import SqlQuery.Query.Basic

/-!
# Validity of queries

A valid query has a table; its tables differ in their references and in their aliases; every join
connects two different tables of the query on a condition; and no two joins connect the same tables.
The rules are checked in this order, tables and joins in the order in which they were added, and the
first broken rule is reported.
-/

namespace SqlQuery.Query

/-- What a table shares with an earlier one. -/
def clash? (earlier : List TableRef) (t : TableRef) : Option Flaw :=
  if earlier.any (·.reference == t.reference) then some (.repeatedReference t.reference)
  else t.alias?.bind fun a =>
    if earlier.any (·.alias? == some a) then some (.repeatedAlias a) else none

/-- The first clash among tables that follow the earlier ones. -/
def tablesFlaw? (earlier : List TableRef) : List TableRef → Option Flaw
  | [] => none
  | t :: ts => (clash? earlier t).or (tablesFlaw? (t :: earlier) ts)

/-- What is wrong with a join between the given tables. -/
def joinFlaw? (tables : List TableRef) (e : JoinEdge) : Option Flaw :=
  if !tables.any (·.reference == e.left.reference) then some (.unknownEndpoint e.left.reference)
  else if !tables.any (·.reference == e.right.reference) then
    some (.unknownEndpoint e.right.reference)
  else if e.left = e.right then some (.selfJoin e.left.reference)
  else if e.predicate = [] then some (.noCondition e.left.reference e.right.reference)
  else none

/-- The first broken rule of a single table or join. -/
def flaw? (q : Query) : Option Flaw :=
  if q.tables = [] then some .noTable
  else (tablesFlaw? [] q.tables).or (q.joins.findSome? (joinFlaw? q.tables))

/-- The first join whose tables a later one connects again. -/
def duplicatePath? : List JoinEdge → Option PathError
  | [] => none
  | e :: es =>
    if es.any e.connectsSameTables then some (.duplicate e.left.reference e.right.reference)
    else duplicatePath? es

/-- The first broken rule; a valid query has none. -/
def defect? (q : Query) : Option QueryError :=
  (q.flaw?.map .malformed).or ((duplicatePath? q.joins).map .path)

end SqlQuery.Query
