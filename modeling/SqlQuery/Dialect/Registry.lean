import SqlQuery.Dialect.Basic

/-!
# Dialects by name

A registry holds dialects under their names, in the byte order of the names, and one of them is the
default.  Dialects are added and never removed or replaced.
-/

namespace SqlQuery

/-- A dialect as it is registered, with the name that leads to it and a description for the user. -/
structure RegistryEntry where
  name : Text
  description : Text
  dialect : Dialect

/-- The entry of a dialect, under its own name. -/
def RegistryEntry.ofDialect (dialect : Dialect) (description : Text) : RegistryEntry :=
  ⟨dialect.name, description, dialect⟩

/-- The dialects known by name. -/
structure Registry where
  entries : List RegistryEntry
  default : RegistryEntry

namespace Registry

/-- Puts an entry before the first one with a greater name. -/
def insertByName (e : RegistryEntry) : List RegistryEntry → List RegistryEntry
  | [] => [e]
  | f :: fs => if e.name < f.name then e :: f :: fs else f :: insertByName e fs

def find? (r : Registry) (name : Text) : Option RegistryEntry :=
  r.entries.find? (·.name == name)

def has (r : Registry) (name : Text) : Bool := (r.find? name).isSome

/-- The entry of a registered dialect. -/
def entry (r : Registry) (name : Text) : Except Failure RegistryEntry :=
  match r.find? name with
  | some e => .ok e
  | none => .error (.misuse (.noSuchDialect name))

/-- The dialect of that name. -/
def get (r : Registry) (name : Text) : Except Failure Dialect := (·.dialect) <$> r.entry name

/-- The description of the dialect of that name. -/
def description (r : Registry) (name : Text) : Except Failure Text :=
  (·.description) <$> r.entry name

/-- Adds a dialect under its name, which must be a new one.  As long as nothing is registered there
is no registry yet, and the first dialect becomes the default. -/
def addTo (r? : Option Registry) (dialect : Dialect) (description : Text) :
    Except Failure Registry :=
  let e := RegistryEntry.ofDialect dialect description
  match r? with
  | none => .ok ⟨[e], e⟩
  | some r =>
    if r.has dialect.name then .error (.misuse (.dialectExists dialect.name))
    else .ok { r with entries := insertByName e r.entries }

/-- Adds a dialect to the registry. -/
def add (r : Registry) : Dialect → Text → Except Failure Registry := addTo (some r)

/-- Makes a registered dialect the default. -/
def setDefault (r : Registry) (name : Text) : Except Failure Registry :=
  (fun e => { r with default := e }) <$> r.entry name

/-! ## The fresh registry -/

def ansiText : Text := "standard SQL with outer joins and FETCH FIRST"

def hiveText : Text :=
  "Apache Hive; equality-only ON conditions, no outer joins, no selection aliases"

def mssqlText : Text := "Microsoft SQL Server; rows limited with SELECT TOP"

/-- How the registry is set up. -/
def setUp : Except Failure Registry := do
  let r ← addTo none .ansi ansiText
  let r ← r.add .hive hiveText
  let r ← r.add .mssql mssqlText
  r.setDefault "ansi"

/-- The registry that every program starts from; standard SQL is its default. -/
def standard : Registry where
  entries := [.ofDialect .ansi ansiText, .ofDialect .hive hiveText, .ofDialect .mssql mssqlText]
  default := .ofDialect .ansi ansiText

end Registry

end SqlQuery
