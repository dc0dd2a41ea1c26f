import SqlQuery.Text.Basic

/-!
# Errors and their messages

A query fails to be written as SQL for one of two reasons: the dialect lacks a construct, which
another dialect cures, or the query itself is broken.  Apart from these stand the misuse of an
operation and the internal checks, neither of which a query can cause.

Tables are named by their reference text in every message.
-/

namespace SqlQuery

/-! ## Why a query is not written -/

/-- A construct that the query needs and the dialect lacks. -/
inductive Unsupported where
  /-- An outer join; the resolution of joins also tells the two tables. -/
  | outerJoin (between : Option (Text × Text))
  /-- An outer join whose condition the dialect does not accept after ON. -/
  | outerJoinCondition (left right : Text)
  /-- A limit on the number of rows. -/
  | rowLimit
  deriving DecidableEq

/-- The name of the missing construct. -/
def Unsupported.feature : Unsupported → Text
  | .outerJoin _ => "outer-join"
  | .outerJoinCondition .. => "outer-join-condition"
  | .rowLimit => "limit"

/-- Where the construct is needed, if that is known. -/
def Unsupported.detail? : Unsupported → Option Text
  | .outerJoin between =>
    between.map fun (l, r) => "requested between '" ++ l ++ "' and '" ++ r ++ "'"
  | .outerJoinCondition l r =>
    some ("the condition of the join between '" ++ l ++ "' and '" ++ r ++
      "' cannot be placed in the ON clause")
  | .rowLimit => none

def Unsupported.text (u : Unsupported) : Text :=
  let detail : Text :=
    match u.detail? with
    | some d => ": " ++ d
    | none => []
  "construct '" ++ u.feature ++ "' is not supported by the dialect" ++ detail

/-- The joins do not form one chain, and two tables show it. -/
inductive PathError where
  /-- A second way to get from one table to the other. -/
  | duplicate (left right : Text)
  /-- No way to get from one table to the other. -/
  | unreachable (left right : Text)
  deriving DecidableEq

/-- The two tables that the error names. -/
def PathError.tables : PathError → Text × Text
  | .duplicate l r => (l, r)
  | .unreachable l r => (l, r)

def PathError.text : PathError → Text
  | .duplicate l r => "additional join condition found between '" ++ l ++ "' and '" ++ r ++ "'"
  | .unreachable l r => "no join path found between '" ++ l ++ "' and '" ++ r ++ "'"

/-- A broken rule of a single table or join of the query. -/
inductive Flaw where
  | noTable
  | repeatedReference (reference : Text)
  | repeatedAlias (name : Text)
  | unknownEndpoint (reference : Text)
  | selfJoin (reference : Text)
  | noCondition (left right : Text)
  deriving DecidableEq

def Flaw.text : Flaw → Text
  | .noTable => "the query references no table"
  | .repeatedReference t => "table '" ++ t ++ "' is referenced more than once"
  | .repeatedAlias a => "alias '" ++ a ++ "' is used for more than one table"
  | .unknownEndpoint t => "join endpoint '" ++ t ++ "' is not a table of the query"
  | .selfJoin t => "table '" ++ t ++ "' is joined with itself"
  | .noCondition l r => "join between '" ++ l ++ "' and '" ++ r ++ "' has no condition"

/-- What is broken in a query, whatever the dialect. -/
inductive QueryError where
  | malformed (flaw : Flaw)
  | path (error : PathError)
  deriving DecidableEq

def QueryError.text : QueryError → Text
  | .malformed f => "malformed query model: " ++ f.text
  | .path e => e.text

/-- Why a query is not written as SQL. -/
inductive SqlError where
  | unsupported (construct : Unsupported)
  | query (error : QueryError)
  deriving DecidableEq

def SqlError.text : SqlError → Text
  | .unsupported u => u.text
  | .query e => e.text

/-! ## Misuse and internal checks -/

/-- An argument that an operation does not take. -/
inductive Misuse where
  | unnamedTable
  | unnamedDialect
  | noClassifier
  | dialectExists (name : Text)
  | noSuchDialect (name : Text)
  | noJoins
  | delimiterIsQuote
  | delimiterIsEscape
  deriving DecidableEq

def Misuse.text : Misuse → Text
  | .unnamedTable => "a table reference must name a table"
  | .unnamedDialect => "a dialect must have a name"
  | .noClassifier => "a dialect requires a predicate classifier"
  | .dialectExists n => "dialect '" ++ n ++ "' already exists"
  | .noSuchDialect n => "dialect '" ++ n ++ "' does not exist"
  | .noJoins => "cannot resolve an empty set of joins"
  | .delimiterIsQuote => "delimiter and quote must not be the same character"
  | .delimiterIsEscape => "delimiter and escape must not be the same character"

/-- A condition that an operation checks before it relies on it. -/
inductive Invariant where
  | oneTablePerEdge
  | validatedHasTable
  | splitHasField
  | freshOptionName
  deriving DecidableEq

def Invariant.text : Invariant → Text
  | .oneTablePerEdge => "every edge attaches exactly one table"
  | .validatedHasTable => "a validated model has a table"
  | .splitHasField => "split yields at least one field"
  | .freshOptionName => "name already in list"

/-- Everything that an operation of this library fails with. -/
inductive Failure where
  | sql (error : SqlError)
  | misuse (cause : Misuse)
  | invariant (check : Invariant)
  deriving DecidableEq

def Failure.text : Failure → Text
  | .sql e => e.text
  | .misuse m => m.text
  | .invariant i => i.text

/-- The wording shown to the user: it ends where a name in it holds a NUL. -/
def Failure.message (f : Failure) : Text := Text.upToNul f.text

/-! ## Short forms -/

/-- The failure for a missing construct. -/
def Failure.unsupported (u : Unsupported) : Failure := .sql (.unsupported u)

/-- The failure for joins that form no chain. -/
def Failure.path (e : PathError) : Failure := .sql (.query (.path e))

end SqlQuery
