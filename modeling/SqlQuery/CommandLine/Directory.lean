import SqlQuery.Text.Basic

/-!
# Paths and the files they lead to

A path is followed one component after the other, from the working directory or from the root.  An
empty component and `.` stay where they are, `..` goes up, and a name goes down; nothing lies below
a file.  The directories above the working directory exist, but no file in them is known.
-/

namespace SqlQuery.CommandLine

/-- Why a path leads nowhere. -/
inductive PathError where
  | missing
  | notDirectory
  | nameTooLong
  deriving DecidableEq

/-- The words in which the system gives the reason. -/
def PathError.message : PathError → Text
  | .missing => "No such file or directory"
  | .notDirectory => "Not a directory"
  | .nameTooLong => "File name too long"

/-! ## Components -/

/-- The byte between the components of a path. -/
def slash : UInt8 := 47

/-- The length of the longest component. -/
def maxComponentLength : Nat := 255

/-- The length of the longest path. -/
def maxPathLength : Nat := 4095

/-- Whether a component stays in the directory that it is looked up in. -/
def stays (component : Text) : Bool := component == [] || component == "."

/-! ## Directories -/

/-- A directory with all that lies below it. -/
structure Directory where
  /-- The files below it, each with the names that lead down to it. -/
  files : List (List Text × Text)
  /-- Whether `..` stays in it too. -/
  isTop : Bool := false

namespace Directory

/-- The directory that holds the given files, each named by its path. -/
def ofFiles (files : List (Text × Text)) : Directory where
  files := files.map fun (path, contents) => ((path.splitOn slash).filter (!stays ·), contents)

/-- The directories above the working directory. -/
def unknown : Directory := ⟨[], true⟩

/-- The root, of which the null device alone is known; nothing can be read from it. -/
def root : Directory := ⟨[(["dev", "null"], [])], true⟩

/-- The directory above. -/
def above (d : Directory) : Directory := if d.isTop then d else unknown

end Directory

/-- What a path leads to: the directory at the end of some names below another one, or a file. -/
inductive Place where
  | directory (top : Directory) (names : List Text)
  | file (contents : Text)

namespace Directory

/-- What the given names lead to: a file, or a directory with files below it. -/
def find? (d : Directory) (names : List Text) : Option Place :=
  match d.files.lookup names with
  | some contents => some (.file contents)
  | none => if d.files.any (names.isPrefixOf ·.1) then some (.directory d names) else none

end Directory

namespace Place

/-- Where one component leads. -/
def step : Place → Text → Except PathError Place
  | .file _, _ => .error .notDirectory
  | .directory top names, component =>
    if stays component then .ok (.directory top names)
    else if component == ".." then
      .ok (if names = [] then .directory top.above [] else .directory top names.dropLast)
    else if maxComponentLength < component.length then .error .nameTooLong
    else match top.find? (names ++ [component]) with
      | some place => .ok place
      | none => .error .missing

/-- What can be read there, which is nothing in a directory. -/
def contents : Place → Text
  | .directory _ _ => []
  | .file contents => contents

end Place

namespace Directory

/-- Where a path leads.  It starts in the directory or, with a slash in front, at the root. -/
def follow (d : Directory) (path : Text) : Except PathError Place :=
  let start := if path.head? = some slash then root else d
  if maxPathLength < path.length then .error .nameTooLong
  else if path = [] then .error .missing
  else (path.splitOn slash).foldlM Place.step (.directory start [])

/-- What is read at the end of a path. -/
def read (d : Directory) (path : Text) : Except PathError Text := Place.contents <$> d.follow path

end Directory

end SqlQuery.CommandLine
