import SqlQuery.Record.Basic

/-!
# Reading a file of records

Every line that is neither blank nor a comment is one record.  A malformed line is rejected with one
complaint and leaves no trace in the query.
-/

namespace SqlQuery

/-- What one line of a file amounts to. -/
inductive LineReading where
  /-- Blank, or a comment. -/
  | skipped
  | rejected (rejection : Rejection)
  /-- A record whose kind is named in the given column. -/
  | accepted (column : UInt32) (record : Record)
  deriving DecidableEq

namespace LineReading

/-- The query after the line. -/
def apply (q : Query) : LineReading → Query
  | .accepted _ r => q.add r
  | _ => q

/-- The remark on the line with the given number, read when the query is as given. -/
def remark? (line : UInt32) (q : Query) : LineReading → Option Remark
  | .skipped => none
  | .rejected r => some ⟨line, r.column, .complaint r.complaint⟩
  | .accepted column r => (r.caution? q).map fun c => ⟨line, column, .caution c⟩

end LineReading

/-- A query read from a file, and the remarks on it in the order of the lines. -/
structure Reading where
  query : Query
  remarks : List Remark
  deriving DecidableEq

/-- What the lines add to a query; the first of them has the given number. -/
def Reading.ofLines (line : UInt32) (q : Query) : List LineReading → Reading
  | [] => ⟨q, []⟩
  | l :: ls =>
    let r := ofLines (line + 1) (l.apply q) ls
    ⟨r.query, (l.remark? line q).toList ++ r.remarks⟩

namespace Format

/-- A carriage return at the end of a line does not belong to it. -/
def dropReturn (line : Text) : Text := if line.getLast? = some 13 then line.dropLast else line

/-- Whether a line holds no record: it is blank or its first byte after blanks starts a comment. -/
def isSkipped (f : Format) (line : Text) : Bool :=
  Text.allBlank line || (Text.trim line).head? == some f.comment

/-- What the fields of a line amount to. -/
def readFields : List Field → Except Failure LineReading
  | [] => .error (.invariant .splitHasField)
  | kind :: arguments =>
    match Record.ofFields kind arguments with
    | .ok r => .ok (.accepted kind.column r)
    | .error (.rejected r) => .ok (.rejected r)
    | .error (.failed e) => .error e

/-- Reads one line. -/
def readLine (f : Format) (line : Text) : Except Failure LineReading :=
  let line := dropReturn line
  if f.isSkipped line then .ok .skipped
  else match f.split line with
    | .error r => .ok (.rejected r)
    | .ok fields => readFields fields

/-- Reads a whole file. -/
def read (f : Format) (t : Text) : Except Failure Reading :=
  (Reading.ofLines 1 .empty) <$> (Text.lines t).mapM f.readLine

end Format

end SqlQuery
