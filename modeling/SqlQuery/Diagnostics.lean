import SqlQuery.Record.Remark

/-!
# Diagnostics

Messages for the user go to two streams: plain messages and notes to the output, warnings and errors
to the error stream.  Warnings and errors are counted, and on request everything is coloured.
-/

namespace SqlQuery

/-- A place in a named input. -/
structure Position where
  name : Text
  line : UInt32
  column : UInt32
  deriving DecidableEq

namespace Position

/-- The name, which ends at a NUL, the line and the column. -/
def toText (p : Position) : Text :=
  Text.upToNul p.name ++ ":" ++ Text.ofNat p.line.toNat ++ ":" ++ Text.ofNat p.column.toNat

/-- Whether two positions are the same place; names end at a NUL. -/
def sameAs (p q : Position) : Bool :=
  Text.sameUpToNul p.name q.name && p.line == q.line && p.column == q.column

end Position

/-- How serious a message is. -/
inductive Severity where
  | plain
  | note
  | warning
  | error
  deriving DecidableEq

/-! ## Colours of a terminal -/

namespace Color

def reset : Text := "\x1b[0m"

def bold : Text := "\x1b[1;37m"

def note : Text := "\x1b[1;2;37m"

def warning : Text := "\x1b[1;35m"

def error : Text := "\x1b[1;31m"

end Color

namespace Severity

/-- The word before a message. -/
def label : Severity → Text
  | .plain => []
  | .note => "note: "
  | .warning => "warning: "
  | .error => "error: "

/-- The colour of that word. -/
def style : Severity → Text
  | .plain => []
  | .note => Color.note
  | .warning => Color.warning
  | .error => Color.error

end Severity

/-- What has been written to both streams, and how many errors and warnings there were. -/
structure Diagnostics where
  color : Bool
  errors : UInt32 := 0
  warnings : UInt32 := 0
  out : Text := []
  err : Text := []
  deriving DecidableEq

namespace Diagnostics

/-- A part of a message in the given style, if there are colours. -/
def paint (d : Diagnostics) (style t : Text) : Text :=
  if d.color then style ++ t ++ Color.reset else t

/-- Writes to the output. -/
def print (d : Diagnostics) (t : Text) : Diagnostics := { d with out := d.out ++ t }

/-- Writes to the error stream. -/
def printError (d : Diagnostics) (t : Text) : Diagnostics := { d with err := d.err ++ t }

/-- What stands before a message about a position. -/
def heading (d : Diagnostics) (s : Severity) (p : Position) : Text :=
  d.paint Color.bold (p.toText ++ ": ") ++ d.paint s.style s.label

/-- Reports a message about a position. -/
def report (d : Diagnostics) (s : Severity) (p : Position) (message : Text) : Diagnostics :=
  let t := d.heading s p ++ message
  match s with
  | .plain => d.print t
  | .note => d.print t
  | .warning => { d.printError t with warnings := d.warnings + 1 }
  | .error => { d.printError t with errors := d.errors + 1 }

/-- Reports an error that has no position. -/
def reportError (d : Diagnostics) (message : Text) : Diagnostics :=
  { d.printError (d.paint Color.error Severity.error.label ++ message) with errors := d.errors + 1 }

/-- Forgets how many errors and warnings there were. -/
def clear (d : Diagnostics) : Diagnostics := { d with errors := 0, warnings := 0 }

/-! ## Remarks -/

/-- Reports a remark on the named input, on a line of its own. -/
def remark (name : Text) (d : Diagnostics) (r : Remark) : Diagnostics :=
  let severity :=
    match r.finding with
    | .complaint _ => Severity.error
    | .caution _ => Severity.warning
  d.report severity ⟨name, r.line, r.column⟩ (r.finding.text ++ "\n")

/-- Reports all remarks on the named input. -/
def remarks (d : Diagnostics) (name : Text) (rs : List Remark) : Diagnostics :=
  rs.foldl (remark name) d

end Diagnostics

end SqlQuery
