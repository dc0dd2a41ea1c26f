import SqlQuery.CommandLine.Options

/-!
# Options before other arguments

Some arguments are options with their values and unregistered ones, up to the last of them
(`OptionTable.Takes`).  Whatever follows them is then taken apart as if it stood alone
(`OptionTable.Takes.parse_append`), so inputs can be named after the terminator
(`OptionTable.Takes.parse_names`).
-/

namespace SqlQuery

namespace ParsedArguments

variable {α : Type}

/-- The items of both, and the error of the second. -/
def append (p q : ParsedArguments α) : ParsedArguments α := ⟨p.items ++ q.items, q.error?⟩

theorem after_append (i : ArgumentItem α) (p q : ParsedArguments α) :
    (p.after i).append q = (p.append q).after i :=
  rfl

theorem events_append (p q : ParsedArguments α) : (p.append q).events = p.events ++ q.events :=
  List.filterMap_append

theorem positional_append (p q : ParsedArguments α) :
    (p.append q).positional = p.positional ++ q.positional :=
  List.filterMap_append

end ParsedArguments

namespace OptionTable

variable {α : Type} {t : OptionTable α} {arguments : List Text} {p : ParsedArguments α}

/-- The arguments are options with their values and unregistered arguments, and none is the
terminator or lacks its value. -/
inductive Takes (t : OptionTable α) : List Text → ParsedArguments α → Prop
  | nil : Takes t [] ⟨[], none⟩
  | flag {name : Text} {event : α} {arguments : List Text} {p : ParsedArguments α} :
      name ≠ terminator → t.action? name = some (.flag event) → Takes t arguments p →
      Takes t (name :: arguments) (p.after (.event event))
  | text {name value : Text} {event : Text → α} {arguments : List Text} {p : ParsedArguments α} :
      name ≠ terminator → t.action? name = some (.text event) → Takes t arguments p →
      Takes t (name :: value :: arguments) (p.after (.event (event value)))
  | number {name value : Text} {n : UInt64} {event : UInt64 → α} {arguments : List Text}
      {p : ParsedArguments α} :
      name ≠ terminator → t.action? name = some (.number event) → unsignedValue value = .ok n →
      Takes t arguments p → Takes t (name :: value :: arguments) (p.after (.event (event n)))
  | unregistered {argument : Text} {arguments : List Text} {p : ParsedArguments α} :
      argument ≠ terminator → t.action? argument = none → Takes t arguments p →
      Takes t (argument :: arguments) (p.after (OptionTable.unregistered argument))

theorem Takes.parse_append (h : t.Takes arguments p) (rest : List Text) :
    t.parse (arguments ++ rest) = p.append (t.parse rest) := by
  induction h with
  | nil => rfl
  | flag hname haction _ ih =>
      rw [List.cons_append, parse, if_neg hname, haction, ParsedArguments.after_append, ← ih]
  | text hname haction _ ih =>
      rw [List.cons_append, List.cons_append, parse, if_neg hname, haction,
        ParsedArguments.after_append, ← ih]
  | number hname haction hvalue _ ih =>
      rw [List.cons_append, List.cons_append, parse, if_neg hname, haction,
        ParsedArguments.after_append, ← ih]
      simp only [hvalue]
  | unregistered hname haction _ ih =>
      rw [List.cons_append, parse, if_neg hname, haction, ParsedArguments.after_append, ← ih]

theorem parse_terminator (t : OptionTable α) (names : List Text) :
    t.parse (terminator :: names) = ⟨names.map .positional, none⟩ := by
  rw [parse, if_pos rfl]

/-- What follows the terminator is positional and has no part in the events. -/
theorem Takes.parse_names (h : t.Takes arguments p) (names : List Text) :
    (t.parse (arguments ++ terminator :: names)).error? = none ∧
      (t.parse (arguments ++ terminator :: names)).events = p.events ∧
      (t.parse (arguments ++ terminator :: names)).positional = p.positional ++ names := by
  have hevents : (⟨names.map .positional, none⟩ : ParsedArguments α).events = [] :=
    List.filterMap_eq_nil_iff.mpr (List.forall_mem_map.mpr fun _ _ => rfl)
  have hnames : (⟨names.map .positional, none⟩ : ParsedArguments α).positional = names :=
    List.filterMap_map.trans List.filterMap_some
  rw [h.parse_append, parse_terminator, ParsedArguments.events_append,
    ParsedArguments.positional_append, hevents, hnames]
  exact ⟨rfl, List.append_nil _, rfl⟩

end OptionTable

end SqlQuery
