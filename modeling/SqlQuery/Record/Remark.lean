import SqlQuery.Text.Decimal

/-!
# Remarks on a query file

Reading a file of records leaves remarks for the user: a complaint about each record that is
rejected, and cautions about records that are accepted but override what was read before.
-/

namespace SqlQuery

/-- An argument that a record must not leave empty. -/
inductive Part where
  | selectionExpression
  | tableName
  | leftTableName
  | rightTableName
  | joinCondition
  | predicate
  | groupingExpression
  | orderingExpression
  | rowLimit
  deriving DecidableEq

def Part.text : Part → Text
  | .selectionExpression => "selection expression"
  | .tableName => "table name"
  | .leftTableName => "left table name"
  | .rightTableName => "right table name"
  | .joinCondition => "join condition"
  | .predicate => "predicate"
  | .groupingExpression => "grouping expression"
  | .orderingExpression => "ordering expression"
  | .rowLimit => "row limit"

/-- Why a line is rejected. -/
inductive Complaint where
  | unterminatedQuote
  | textAfterQuote (delimiter : UInt8)
  | argumentCount (kind : Text) (least most given : Nat)
  | missing (part : Part)
  | unknownJoinType (name : Text)
  | unknownDirection (name : Text)
  | invalidLimit (text : Text)
  | unknownKind (kind : Text)
  deriving DecidableEq

/-- The number of arguments that a record takes. -/
def countText (least most : Nat) : Text :=
  if least = most then Text.ofNat least else Text.ofNat least ++ " to " ++ Text.ofNat most

def Complaint.text : Complaint → Text
  | .unterminatedQuote => "unterminated quoted field"
  | .textAfterQuote d => "expected '" ++ [d] ++ "' after quoted field"
  | .argumentCount k least most given =>
    "record '" ++ k ++ "' expects " ++ countText least most ++ " argument(s), got " ++
      Text.ofNat given
  | .missing p => "missing " ++ p.text
  | .unknownJoinType n => "unknown join type '" ++ n ++ "', expected inner, left, right, or full"
  | .unknownDirection n => "unknown sort direction '" ++ n ++ "', expected asc or desc"
  | .invalidLimit t => "invalid row limit '" ++ t ++ "'"
  | .unknownKind k => "unknown record kind '" ++ k ++ "'"

/-- A complaint about a line, at the column that it concerns. -/
structure Rejection where
  column : UInt32
  complaint : Complaint
  deriving DecidableEq

/-- What an accepted record repeats or overrides. -/
inductive Caution where
  | repeatedDistinct
  | limitOverridden (previous : UInt64)
  deriving DecidableEq

def Caution.text : Caution → Text
  | .repeatedDistinct => "repeated record 'distinct'"
  | .limitOverridden n => "row limit overrides previous limit " ++ Text.ofNat n.toNat

/-- What a remark says. -/
inductive Finding where
  | complaint (c : Complaint)
  | caution (c : Caution)
  deriving DecidableEq

def Finding.text : Finding → Text
  | .complaint c => c.text
  | .caution c => c.text

/-- A finding about a line of the file. -/
structure Remark where
  line : UInt32
  column : UInt32
  finding : Finding
  deriving DecidableEq

end SqlQuery
