import SqlQuery.Error

/-!
# Table references

A query refers to a table by its name, optionally renamed by an alias.  The reference text, the
name followed by the alias, is what the query is written with.
-/

namespace SqlQuery

/-- A reference to a table of the database.  Neither the name nor a present alias is empty. -/
structure TableRef where
  name : Text
  alias? : Option Text
  name_ne_nil : name ≠ []
  alias_ne_nil : alias? ≠ some []
  deriving DecidableEq

namespace TableRef

/-- Refers to a table; an empty alias is no alias. -/
def make (name : Text) (alias? : Option Text) : Except Failure TableRef :=
  if hn : name = [] then .error (.misuse .unnamedTable)
  else if ha : alias? = some [] then .ok ⟨name, none, hn, by simp⟩
  else .ok ⟨name, alias?, hn, ha⟩

@[simp] theorem make_self (t : TableRef) : make t.name t.alias? = .ok t := by
  simp [make, t.name_ne_nil, t.alias_ne_nil]

/-- The text that refers to the table after FROM: the name, or the name, a space and the alias. -/
def reference (t : TableRef) : Text :=
  match t.alias? with
  | none => t.name
  | some a => t.name ++ " " ++ a

end TableRef

end SqlQuery
