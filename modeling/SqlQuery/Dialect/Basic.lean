import SqlQuery.Error

/-!
# Dialects

A dialect is what the grammar of one database allows.  A new target is a new value, not a new kind
of writer.
-/

namespace SqlQuery

/-- How a dialect restricts the number of rows. -/
inductive LimitStyle where
  /-- Not at all. -/
  | noLimit
  /-- By `LIMIT n` after the query. -/
  | limit
  /-- By `TOP n` after SELECT. -/
  | top
  /-- By `FETCH FIRST n ROWS ONLY` after the query. -/
  | fetchFirst
  deriving DecidableEq

/-- The constructs that a dialect has; unless said otherwise, all of them. -/
structure Capabilities where
  /-- LEFT, RIGHT and FULL OUTER JOIN. -/
  outerJoin : Bool := true
  /-- Selections renamed by AS. -/
  aliasedSelection : Bool := true
  /-- Several tables after FROM, separated by commas. -/
  commaFrom : Bool := true
  limitStyle : LimitStyle := .limit
  deriving DecidableEq

/-- The grammar of one database. -/
structure Dialect where
  name : Text
  capabilities : Capabilities
  /-- Whether a join predicate may stand after ON; the others move to WHERE. -/
  eligibleForOn : Text → Bool
  name_ne_nil : name ≠ []

namespace Dialect

/-- Describes a dialect; it needs a name and a classifier of join predicates. -/
def make (name : Text) (capabilities : Capabilities) (classifier? : Option (Text → Bool)) :
    Except Failure Dialect :=
  if h : name = [] then .error (.misuse .unnamedDialect)
  else match classifier? with
    | none => .error (.misuse .noClassifier)
    | some c => .ok ⟨name, capabilities, c, h⟩

/-! ## Classifiers of join predicates -/

/-- Accepts every predicate. -/
def anyPredicate (_ : Text) : Bool := true

/-- The operators and keywords that no conjunction of equalities contains. -/
def nonEqualityTokens : List Text := ["!=", ">", "<", "IS NULL", "IS NOT NULL"]

/-- Accepts the predicates without any of these tokens, in whichever case they are written. -/
def equalityOnly (predicate : Text) : Bool :=
  nonEqualityTokens.all fun token => !predicate.containsAnyCase token

/-! ## The known dialects -/

/-- Standard SQL. -/
def ansi : Dialect where
  name := "ansi"
  capabilities := { limitStyle := .fetchFirst }
  eligibleForOn := anyPredicate
  name_ne_nil := by decide

/-- Apache Hive. -/
def hive : Dialect where
  name := "hive"
  capabilities :=
    { outerJoin := false, aliasedSelection := false, commaFrom := false, limitStyle := .limit }
  eligibleForOn := equalityOnly
  name_ne_nil := by decide

/-- Microsoft SQL Server. -/
def mssql : Dialect where
  name := "mssql"
  capabilities := { limitStyle := .top }
  eligibleForOn := anyPredicate
  name_ne_nil := by decide

end Dialect

end SqlQuery
