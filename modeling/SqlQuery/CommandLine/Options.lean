import SqlQuery.Error
import SqlQuery.Text.Decimal

/-!
# Options of a command line

An option has a short name, a long name or both, and stands for an event.  Arguments are taken from
left to right: the name of an option, with the argument after it if the option expects a value; an
unknown argument that starts with `--`, which is ignored with a warning; and anything else, which is
positional.  A lone `--` makes everything after it positional.
-/

namespace SqlQuery

/-! ## Options -/

/-- The event of an option, which may depend on a value that follows its name. -/
inductive OptionAction (α : Type) where
  | flag (event : α)
  | text (event : Text → α)
  | number (event : UInt64 → α)

/-- An option of a program. -/
structure CommandOption (α : Type) where
  /-- The heading under which the option is explained; general options have none. -/
  group? : Option Text
  short? : Option Text
  long? : Option Text
  description : Text
  action : OptionAction α

namespace CommandOption

variable {α : Type}

/-- The names that the option goes by. -/
def names (o : CommandOption α) : List Text := o.short?.toList ++ o.long?.toList

end CommandOption

/-- The options of a program in the order of their registration. -/
structure OptionTable (α : Type) where
  options : List (CommandOption α)

namespace OptionTable

variable {α : Type}

def empty : OptionTable α := ⟨[]⟩

/-- All names in use. -/
def names (t : OptionTable α) : List Text := t.options.flatMap (·.names)

/-- Registers an option; each name is new and stands for one option only. -/
def add (t : OptionTable α) (o : CommandOption α) : Except Failure (OptionTable α) :=
  if o.names.any t.names.contains || (o.short?.isSome && o.short? == o.long?) then
    .error (.invariant .freshOptionName)
  else .ok ⟨t.options ++ [o]⟩

/-- What the option of that name does. -/
def action? (t : OptionTable α) (name : Text) : Option (OptionAction α) :=
  (t.options.find? (·.names.contains name)).map (·.action)

/-! ## Help -/

/-- The length of the longest of the given names. -/
def width (names : List (Option Text)) : Nat :=
  (names.map fun n? => (n?.getD []).length).foldl max 0

/-- The line that explains an option; names are padded to the longest of the table. -/
def helpLine (t : OptionTable α) (o : CommandOption α) : Text :=
  "    " ++ Text.padRight (width (t.options.map (·.short?))) (o.short?.getD []) ++ "  " ++
    Text.padRight (width (t.options.map (·.long?))) (o.long?.getD []) ++ "    -    " ++ o.description

/-- The headings in use, in the order of their bytes. -/
def groups (t : OptionTable α) : List Text :=
  (t.options.filterMap (·.group?)).eraseDups.mergeSort fun a b => !decide (b < a)

/-- The heading of a group and the options under it. -/
def helpGroup (t : OptionTable α) (heading : Text) (group? : Option Text) : List Text :=
  (heading ++ ":") :: (t.options.filter (·.group? == group?)).map t.helpLine

/-- The explanation of all options, general ones first. -/
def help (t : OptionTable α) : Text :=
  Text.ofLines (t.helpGroup "General" none ++ t.groups.flatMap fun g => t.helpGroup g (some g))

end OptionTable

/-! ## Values -/

/-- Why the value of an option is not accepted. -/
inductive OptionError where
  | missingArgument
  | negative
  | notANumber
  | outOfRange
  deriving DecidableEq

def OptionError.text : OptionError → Text
  | .missingArgument => "missing argument"
  | .negative => "not a valid unsigned integer"
  | .notANumber => "not a valid integer"
  | .outOfRange => "value out of range"

/-- The sign before a number and what follows it: whether it is a minus. -/
def splitSign : Text → Bool × Text
  | 43 :: t => (false, t)
  | 45 :: t => (true, t)
  | t => (false, t)

/-- The number that a value starts with: blanks, a sign, and a run of digits of a value below
`2 ^ 64`.  What follows the digits is ignored.  A minus is refused as the first byte; after blanks
it negates modulo `2 ^ 64`. -/
def unsignedValue (t : Text) : Except OptionError UInt64 :=
  if t.head? = some 45 then .error .negative
  else
    let (minus, rest) := splitSign (Text.trimLeft t)
    let digits := rest.takeWhile Text.isDigit
    if digits = [] then .error .notANumber
    else if UInt64.size ≤ Text.digitsValue digits then .error .outOfRange
    else
      let n := UInt64.ofNat (Text.digitsValue digits)
      .ok (if minus then 0 - n else n)

/-! ## Arguments -/

/-- What one argument, or an option and its value, amounts to. -/
inductive ArgumentItem (α : Type) where
  | event (event : α)
  | unknown (argument : Text)
  | positional (argument : Text)

/-- The items of a list of arguments, and the error that ended them early. -/
structure ParsedArguments (α : Type) where
  items : List (ArgumentItem α)
  error? : Option OptionError

namespace ParsedArguments

variable {α : Type}

/-- The arguments with one more item before the others. -/
def after (i : ArgumentItem α) (p : ParsedArguments α) : ParsedArguments α :=
  ⟨i :: p.items, p.error?⟩

/-- The events of the options, in order. -/
def events (p : ParsedArguments α) : List α :=
  p.items.filterMap fun
    | .event e => some e
    | _ => none

/-- The positional arguments, in order. -/
def positional (p : ParsedArguments α) : List Text :=
  p.items.filterMap fun
    | .positional a => some a
    | _ => none

/-- The unknown options, in order. -/
def unknown (p : ParsedArguments α) : List Text :=
  p.items.filterMap fun
    | .unknown a => some a
    | _ => none

def unknownWarning (argument : Text) : Text := "warning: ignore unknown option " ++ argument

/-- What the user is told: a warning for each unknown option, and the error. -/
def messages (p : ParsedArguments α) : Text :=
  Text.ofLines (p.unknown.map unknownWarning ++ (p.error?.map (·.text)).toList)

end ParsedArguments

namespace OptionTable

variable {α : Type}

/-- The argument after which all others are positional. -/
def terminator : Text := "--"

/-- An argument that is not the name of an option. -/
def unregistered (a : Text) : ArgumentItem α :=
  if terminator.isPrefixOf a then .unknown a else .positional a

/-- Takes a list of arguments apart. -/
def parse (t : OptionTable α) : List Text → ParsedArguments α
  | [] => ⟨[], none⟩
  | a :: as =>
    if a = terminator then ⟨as.map .positional, none⟩
    else match t.action? a with
      | none => (parse t as).after (unregistered a)
      | some (.flag e) => (parse t as).after (.event e)
      | some (.text e) =>
        match as with
        | [] => ⟨[], some .missingArgument⟩
        | v :: vs => (parse t vs).after (.event (e v))
      | some (.number e) =>
        match as with
        | [] => ⟨[], some .missingArgument⟩
        | v :: vs =>
          match unsignedValue v with
          | .error x => ⟨[], some x⟩
          | .ok n => (parse t vs).after (.event (e n))

end OptionTable

end SqlQuery
