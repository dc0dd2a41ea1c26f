import SqlQuery.Dialect.Registry
import SqlQuery.Join.Plan
import SqlQuery.Query.Validity
import SqlQuery.Text.Decimal

/-!
# Queries as SQL

A query is written clause by clause.  Every table, join, predicate and list item is on a line of its
own, indented so that the items of a clause align; no semicolon ends the query.

Nothing is written unless everything can be: a missing outer join is reported before any defect of
the query, and a missing row limit after it.
-/

namespace SqlQuery.Query

/-! ## Layout -/

/-- What stands before the first item of a clause. -/
def indent : Text := "          "

/-- What stands before each further item of a list. -/
def listSeparator : Text := "         ,"

/-- What stands before each further predicate of a conjunction. -/
def conjunction : Text := "      AND "

/-- One line for each item. -/
def itemLines (first next : Text) : List Text → List Text
  | [] => []
  | i :: is => (first ++ i) :: is.map (next ++ ·)

/-- A clause with a list of items; without items there is no clause. -/
def listClause (keyword : Text) (items : List Text) : List Text :=
  if items = [] then [] else keyword :: itemLines indent listSeparator items

/-- A clause with a conjunction of predicates; without predicates there is no clause. -/
def conjunctionClause (keyword : Text) (predicates : List Text) : List Text :=
  if predicates = [] then []
  else keyword :: itemLines indent conjunction (predicates.map fun p => "( " ++ p ++ " )")

/-! ## Clauses -/

/-- The decimal text of a row limit. -/
def limitText (n : UInt64) : Text := Text.ofNat n.toNat

/-- A selection; without support for aliases its alias is dropped. -/
def selectionText (d : Dialect) (s : Selection) : Text :=
  match s.alias? with
  | some a => if d.capabilities.aliasedSelection then s.expression ++ " AS " ++ a else s.expression
  | none => s.expression

def selectKeyword (d : Dialect) (q : Query) : Text :=
  let distinct : Text := if q.distinct then " DISTINCT" else []
  let top : Text :=
    match q.limit?, d.capabilities.limitStyle with
    | some n, .top => " TOP " ++ limitText n
    | _, _ => []
  "SELECT" ++ distinct ++ top

def selectClause (d : Dialect) (q : Query) : List Text :=
  selectKeyword d q ::
    if q.selections = [] then [indent ++ "*"]
    else itemLines indent listSeparator (q.selections.map (selectionText d))

/-- The tables of a query without joins.  Where commas are not allowed, each further table is
joined without a condition. -/
def tableLines (d : Dialect) (tables : List TableRef) : List Text :=
  let separator :=
    if d.capabilities.commaFrom then listSeparator else indent ++ JoinType.inner.keyword ++ " "
  itemLines indent separator (tables.map (·.reference))

def stepLine (s : JoinStep) : Text :=
  let condition : Text :=
    match s.condition? with
    | some c => " ON ( " ++ c ++ " )"
    | none => []
  indent ++ s.type.keyword ++ " " ++ s.table.reference ++ condition

/-- The tables of a query with joins, in the order of the plan. -/
def planLines (p : JoinPlan) : List Text := (indent ++ p.anchor.reference) :: p.joins.map stepLine

/-- What stands after FROM, and the join predicates that are left for WHERE. -/
structure Source where
  lines : List Text
  deferred : List Text
  deriving DecidableEq

/-- Resolves the joins, which have to reach every table of the query. -/
def source (d : Dialect) (q : Query) : Except Failure Source :=
  if q.joins = [] then
    if q.tables = [] then .error (.invariant .validatedHasTable)
    else .ok ⟨tableLines d q.tables, []⟩
  else
    match JoinPlan.resolve d q.joins with
    | .error f => .error f
    | .ok plan =>
      match q.tables.find? (!plan.uses ·) with
      | some t => .error (.path (.unreachable plan.anchor.reference t.reference))
      | none => .ok ⟨planLines plan, plan.deferred⟩

def orderText (i : OrderItem) : Text :=
  if i.ascending then i.expression ++ " ASC" else i.expression ++ " DESC"

/-- The row limit at the end of the query, for the styles that have it there. -/
def limitClause (d : Dialect) (q : Query) : List Text :=
  match q.limit?, d.capabilities.limitStyle with
  | some n, .limit => ["LIMIT " ++ limitText n]
  | some n, .fetchFirst => ["FETCH FIRST " ++ limitText n ++ " ROWS ONLY"]
  | _, _ => []

/-! ## The whole query -/

/-- What keeps a query from being written, apart from joins that form no chain. -/
def obstacle? (d : Dialect) (q : Query) : Option SqlError :=
  if q.hasOuterJoin && !d.capabilities.outerJoin then some (.unsupported (.outerJoin none))
  else match q.defect? with
    | some e => some (.query e)
    | none =>
      if q.limit?.isSome && d.capabilities.limitStyle == .noLimit then some (.unsupported .rowLimit)
      else none

def fromKeyword : Text := "FROM"

/-- The lines of a query after its source is known. -/
def sqlLines (d : Dialect) (q : Query) (s : Source) : List Text :=
  selectClause d q ++ fromKeyword :: s.lines ++
    conjunctionClause "WHERE" (s.deferred ++ q.filters) ++ listClause "GROUP BY" q.groupBy ++
    conjunctionClause "HAVING" q.having ++ listClause "ORDER BY" (q.orderBy.map orderText) ++
    limitClause d q

/-- The query as SQL of the dialect. -/
def toSql (q : Query) (d : Dialect) : Except Failure Text :=
  match q.obstacle? d with
  | some e => .error (.sql e)
  | none => (fun s => Text.ofLines (sqlLines d q s)) <$> q.source d

/-- The query as SQL of the registered dialect of that name. -/
def toSqlOf (q : Query) (r : Registry) (dialect : Text) : Except Failure Text := do
  q.toSql (← r.get dialect)

end SqlQuery.Query
