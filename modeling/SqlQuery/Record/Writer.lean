import SqlQuery.Record.Basic

/-!
# Writing a query as records

A query is written with one record for each of its parts, on lines of their own.  The texts of the
query stand between quotes, so they may contain any byte but the line feed; only the words of the
format and numbers are written plain.  An argument that is not given is written as an empty text.
-/

namespace SqlQuery

/-- A field as it is written. -/
inductive WrittenField where
  /-- A word of the format or a number. -/
  | word (content : Text)
  /-- A text, which stands between quotes. -/
  | quoted (content : Text)
  deriving DecidableEq

namespace WrittenField

def content : WrittenField → Text
  | .word t => t
  | .quoted t => t

/-- An optional text; without it, nothing stands between the quotes. -/
def optional (t? : Option Text) : WrittenField := .quoted (t?.getD [])

end WrittenField

namespace Record

def kind : Record → Kind
  | .distinct => .distinct
  | .selection _ => .select
  | .table _ => .table
  | .join _ => .join
  | .filter _ => .filter
  | .group _ => .group
  | .having _ => .having
  | .order _ => .order
  | .limit _ => .limit

/-- The two fields of a table. -/
def tableArguments (t : TableRef) : List WrittenField := [.quoted t.name, .optional t.alias?]

def arguments : Record → List WrittenField
  | .distinct => []
  | .selection s => [.quoted s.expression, .optional s.alias?]
  | .table t => tableArguments t
  | .join e =>
    tableArguments e.left ++ tableArguments e.right ++
      [.quoted e.predicate, .quoted e.orderKey, .word (joinTypeName e.type)]
  | .filter p => [.quoted p]
  | .group e => [.quoted e]
  | .having p => [.quoted p]
  | .order i => [.quoted i.expression, .word (directionName i.ascending)]
  | .limit n => [.word (Text.ofNat n.toNat)]

def writtenFields (r : Record) : List WrittenField := .word r.kind.keyword :: r.arguments

end Record

/-- The parts of a query, one by one. -/
def Query.records (q : Query) : List Record :=
  (if q.distinct then [.distinct] else []) ++ q.selections.map .selection ++ q.tables.map .table ++
    q.joins.map .join ++ q.filters.map .filter ++ q.groupBy.map .group ++ q.having.map .having ++
    q.orderBy.map .order ++ q.limit?.toList.map .limit

namespace Format

/-- The text with an escape before each of its quotes and escapes. -/
def escaped (f : Format) (t : Text) : Text :=
  t.flatMap fun b => if b = f.quote ∨ b = f.escape then [f.escape, b] else [b]

def writeField (f : Format) : WrittenField → Text
  | .word t => t
  | .quoted t => f.quote :: (f.escaped t ++ [f.quote])

/-- The fields with a delimiter between them. -/
def writeLine (f : Format) (fields : List WrittenField) : Text :=
  [f.delimiter].intercalate (fields.map f.writeField)

/-- The query as a file of records. -/
def write (f : Format) (q : Query) : Text :=
  Text.ofLines (q.records.map fun r => f.writeLine r.writtenFields)

end Format

end SqlQuery
