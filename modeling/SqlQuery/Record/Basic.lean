import SqlQuery.Query.Basic
import SqlQuery.Record.Format

/-!
# Records

A record says one thing about a query.  Its first field names its kind, in any case of letters, and
the others are its arguments.  An optional argument may also be left empty.
-/

namespace SqlQuery

/-- One part of a query. -/
inductive Record where
  | distinct
  | selection (item : Selection)
  | table (table : TableRef)
  | join (edge : JoinEdge)
  | filter (predicate : Text)
  | group (expression : Text)
  | having (predicate : Text)
  | order (item : OrderItem)
  | limit (rows : UInt64)
  deriving DecidableEq

/-- The query with one more part.  A row limit replaces the one before it. -/
def Query.add (q : Query) : Record → Query
  | .distinct => { q with distinct := true }
  | .selection s => { q with selections := q.selections ++ [s] }
  | .table t => { q with tables := q.tables ++ [t] }
  | .join e => { q with joins := q.joins ++ [e] }
  | .filter p => { q with filters := q.filters ++ [p] }
  | .group e => { q with groupBy := q.groupBy ++ [e] }
  | .having p => { q with having := q.having ++ [p] }
  | .order i => { q with orderBy := q.orderBy ++ [i] }
  | .limit n => { q with limit? := some n }

namespace Record

/-- What the user is warned of when a record is added to a query. -/
def caution? (q : Query) : Record → Option Caution
  | .distinct => if q.distinct then some .repeatedDistinct else none
  | .limit _ => q.limit?.map .limitOverridden
  | _ => none

/-! ## Kinds of records -/

inductive Kind where
  | distinct
  | select
  | table
  | join
  | filter
  | group
  | having
  | order
  | limit
  deriving DecidableEq

namespace Kind

/-- The word that names the kind in a file. -/
def keyword : Kind → Text
  | .distinct => "distinct"
  | .select => "select"
  | .table => "table"
  | .join => "join"
  | .filter => "where"
  | .group => "group"
  | .having => "having"
  | .order => "order"
  | .limit => "limit"

def all : List Kind :=
  [.distinct, .select, .table, .join, .filter, .group, .having, .order, .limit]

/-- The kind of that name, in any case of letters. -/
def ofText? (t : Text) : Option Kind := all.find? (·.keyword == Text.lower t)

@[simp] theorem ofText?_keyword (k : Kind) : ofText? k.keyword = some k := by cases k <;> decide

/-- The least and the greatest number of arguments. -/
def arity : Kind → Nat × Nat
  | .distinct => (0, 0)
  | .select => (1, 2)
  | .table => (1, 2)
  | .join => (5, 7)
  | .filter => (1, 1)
  | .group => (1, 1)
  | .having => (1, 1)
  | .order => (1, 2)
  | .limit => (1, 1)

end Kind

/-! ## Words for join types and directions -/

def joinTypeName : JoinType → Text
  | .inner => "inner"
  | .left => "left"
  | .right => "right"
  | .full => "full"

/-- The join type of that name, in any case of letters. -/
def joinType? (t : Text) : Option JoinType :=
  [JoinType.inner, .left, .right, .full].find? (joinTypeName · == Text.lower t)

@[simp] theorem joinType?_joinTypeName (t : JoinType) : joinType? (joinTypeName t) = some t := by
  cases t <;> decide

def directionName (ascending : Bool) : Text := if ascending then "asc" else "desc"

/-- Whether the direction of that name ascends, in any case of letters. -/
def ascending? (t : Text) : Option Bool := [true, false].find? (directionName · == Text.lower t)

@[simp] theorem ascending?_directionName (a : Bool) : ascending? (directionName a) = some a := by
  cases a <;> decide

/-! ## Records from fields -/

/-- Why fields make no record: the line is rejected, or something failed that no line can cause. -/
inductive Refusal where
  | rejected (rejection : Rejection)
  | failed (failure : Failure)
  deriving DecidableEq

end Record

namespace Field

open Record (Refusal)

def reject {α : Type} (x : Field) (c : Complaint) : Except Refusal α :=
  .error (.rejected ⟨x.column, c⟩)

/-- The text of an argument that must not be empty. -/
def required (x : Field) (part : Part) : Except Refusal Text :=
  if x.text = [] then x.reject (.missing part) else .ok x.text

/-- The text of an optional argument, if it is given and not empty. -/
def given? (x? : Option Field) : Option Text :=
  (x?.map (·.text)).filter (!·.isEmpty)

end Field

namespace Record

/-- A reference to a table that the fields of a record name. -/
def tableRef (name : Text) (alias? : Option Text) : Except Refusal TableRef :=
  (TableRef.make name alias?).mapError .failed

def ofSelect (expression : Field) (alias? : Option Field) : Except Refusal Record := do
  let e ← expression.required .selectionExpression
  pure (.selection ⟨e, Field.given? alias?⟩)

def ofTable (name : Field) (alias? : Option Field) : Except Refusal Record := do
  let n ← name.required .tableName
  return .table (← tableRef n (Field.given? alias?))

/-- The join type that a field names; inner unless one is given. -/
def typeOf (x? : Option Field) : Except Refusal JoinType :=
  match x? with
  | none => .ok .inner
  | some x =>
    if x.text = [] then .ok .inner
    else match joinType? x.text with
      | some t => .ok t
      | none => x.reject (.unknownJoinType x.text)

def ofJoin (left leftAlias right rightAlias condition : Field) (key? type? : Option Field) :
    Except Refusal Record := do
  let l ← left.required .leftTableName
  let r ← right.required .rightTableName
  let p ← condition.required .joinCondition
  let type ← typeOf type?
  let left ← tableRef l (Field.given? (some leftAlias))
  let right ← tableRef r (Field.given? (some rightAlias))
  pure (.join ⟨left, right, p, (Field.given? key?).getD [], type⟩)

/-- Whether the direction that a field names ascends; it does unless one is given. -/
def ascendingOf (x? : Option Field) : Except Refusal Bool :=
  match x? with
  | none => .ok true
  | some x =>
    if x.text = [] then .ok true
    else match ascending? x.text with
      | some a => .ok a
      | none => x.reject (.unknownDirection x.text)

def ofOrder (expression : Field) (direction? : Option Field) : Except Refusal Record := do
  let e ← expression.required .orderingExpression
  return .order ⟨e, ← ascendingOf direction?⟩

def ofLimit (rows : Field) : Except Refusal Record := do
  let t ← rows.required .rowLimit
  match Text.toUInt64? t with
  | some n => pure (.limit n)
  | none => rows.reject (.invalidLimit t)

/-- The record of a kind with the given arguments; none if their number is wrong. -/
def ofArguments? : Kind → List Field → Option (Except Refusal Record)
  | .distinct, [] => some (.ok .distinct)
  | .select, [e] => some (ofSelect e none)
  | .select, [e, a] => some (ofSelect e (some a))
  | .table, [n] => some (ofTable n none)
  | .table, [n, a] => some (ofTable n (some a))
  | .join, [l, la, r, ra, p] => some (ofJoin l la r ra p none none)
  | .join, [l, la, r, ra, p, k] => some (ofJoin l la r ra p (some k) none)
  | .join, [l, la, r, ra, p, k, t] => some (ofJoin l la r ra p (some k) (some t))
  | .filter, [p] => some (.filter <$> p.required .predicate)
  | .group, [e] => some (.group <$> e.required .groupingExpression)
  | .having, [p] => some (.having <$> p.required .predicate)
  | .order, [e] => some (ofOrder e none)
  | .order, [e, d] => some (ofOrder e (some d))
  | .limit, [n] => some (ofLimit n)
  | _, _ => none

/-- The record of the kind that the first field names, with the given arguments. -/
def ofFields (kind : Field) (arguments : List Field) : Except Refusal Record :=
  match Kind.ofText? kind.text with
  | none => kind.reject (.unknownKind kind.text)
  | some k =>
    match ofArguments? k arguments with
    | some r => r
    | none => kind.reject (.argumentCount kind.text k.arity.1 k.arity.2 arguments.length)

end Record

end SqlQuery
