import Mathlib.Data.List.Lattice
import Mathlib.Data.List.Nodup
import Mathlib.Data.List.Pairwise
import SqlQuery.CommandLine.Run

/-!
# A command line as a sequence of items

A command line is a sequence of items, each written as one or two arguments, and an ending.  Where
the names of the options are distinct and none is the terminator, there is exactly one way to read a
list of arguments like this, and the parser reads it in that way (`OptionTable.parse_decomposes`).
-/

namespace SqlQuery

variable {α : Type}

/-! ## Items -/

/-- An item of a command line as it is written. -/
inductive WrittenItem (α : Type) where
  | flag (name : Text) (event : α)
  | option (name value : Text) (event : α)
  | unknown (argument : Text)
  | positional (argument : Text)

namespace WrittenItem

def written : WrittenItem α → List Text
  | flag name _ => [name]
  | option name value _ => [name, value]
  | unknown a => [a]
  | positional a => [a]

def event? : WrittenItem α → Option α
  | flag _ e => some e
  | option _ _ e => some e
  | _ => none

def unknown? : WrittenItem α → Option Text
  | unknown a => some a
  | _ => none

def positional? : WrittenItem α → Option Text
  | positional a => some a
  | _ => none

/-- What the parser makes of the item. -/
def item : WrittenItem α → ArgumentItem α
  | flag _ e => .event e
  | option _ _ e => .event e
  | unknown a => .unknown a
  | positional a => .positional a

end WrittenItem

/-- How a command line ends after its items. -/
inductive Ending where
  | complete
  /-- The terminator, with all arguments after it. -/
  | terminated (others : List Text)
  /-- An option without a value. -/
  | missing (name : Text)
  /-- An option with a value that it does not accept, and arguments that are not looked at. -/
  | invalid (name value : Text) (error : OptionError) (others : List Text)

namespace Ending

def written : Ending → List Text
  | complete => []
  | terminated others => OptionTable.terminator :: others
  | missing name => [name]
  | invalid name value _ others => name :: value :: others

def positional : Ending → List Text
  | terminated others => others
  | _ => []

def error? : Ending → Option OptionError
  | missing _ => some .missingArgument
  | invalid _ _ x _ => some x
  | _ => none

end Ending

/-- A command line as its items and its ending. -/
structure Decomposition (α : Type) where
  items : List (WrittenItem α)
  ending : Ending

namespace Decomposition

def after (i : WrittenItem α) (d : Decomposition α) : Decomposition α := ⟨i :: d.items, d.ending⟩

def written (d : Decomposition α) : List Text := d.items.flatMap (·.written) ++ d.ending.written

def parsed (d : Decomposition α) : ParsedArguments α :=
  ⟨d.items.map (·.item) ++ d.ending.positional.map .positional, d.ending.error?⟩

theorem parsed_after (i : WrittenItem α) (d : Decomposition α) :
    (d.after i).parsed = d.parsed.after i.item :=
  rfl

theorem filterMap_parsed {β : Type} {f : ArgumentItem α → Option β} {g : WrittenItem α → Option β}
    (h : ∀ i, f i.item = g i) (d : Decomposition α) : d.parsed.items.filterMap f =
      d.items.filterMap g ++ d.ending.positional.filterMap fun a => f (.positional a) := by
  rw [parsed, List.filterMap_append, List.filterMap_map, List.filterMap_map]
  exact congrArg (· ++ _) (List.filterMap_congr fun i _ => h i)

theorem events_parsed (d : Decomposition α) :
    d.parsed.events = d.items.filterMap (·.event?) := by
  refine (filterMap_parsed (g := (·.event?)) (fun i => ?_) d).trans ?_
  · cases i <;> rfl
  · simp

theorem positional_parsed (d : Decomposition α) :
    d.parsed.positional = d.items.filterMap (·.positional?) ++ d.ending.positional := by
  refine (filterMap_parsed (g := (·.positional?)) (fun i => ?_) d).trans ?_
  · cases i <;> rfl
  · simp

theorem unknown_parsed (d : Decomposition α) :
    d.parsed.unknown = d.items.filterMap (·.unknown?) := by
  refine (filterMap_parsed (g := (·.unknown?)) (fun i => ?_) d).trans ?_
  · cases i <;> rfl
  · simp

end Decomposition

namespace OptionTable

variable {t : OptionTable α} {name a : Text} {action : OptionAction α} {d : Decomposition α}
  {arguments : List Text} {i : WrittenItem α} {ending : Ending}

/-- An option of that name does this. -/
def Offers (t : OptionTable α) (name : Text) (action : OptionAction α) : Prop :=
  ∃ o ∈ t.options, name ∈ o.names ∧ o.action = action

/-- The item is what it seems to be. -/
inductive Admits (t : OptionTable α) : WrittenItem α → Prop
  | flag {name : Text} {event : α} : t.Offers name (.flag event) → Admits t (.flag name event)
  | text {name value : Text} {event : Text → α} : t.Offers name (.text event) →
      Admits t (.option name value (event value))
  | number {name value : Text} {event : UInt64 → α} {n : UInt64} :
      t.Offers name (.number event) → unsignedValue value = .ok n →
      Admits t (.option name value (event n))
  | unknown {a : Text} : a ∉ t.names → terminator <+: a → a ≠ terminator → Admits t (.unknown a)
  | positional {a : Text} : a ∉ t.names → ¬terminator <+: a → Admits t (.positional a)

/-- The command line may end like this. -/
inductive AdmitsEnding (t : OptionTable α) : Ending → Prop
  | complete : AdmitsEnding t .complete
  | terminated {others : List Text} : AdmitsEnding t (.terminated others)
  | missingText {name : Text} {event : Text → α} : t.Offers name (.text event) →
      AdmitsEnding t (.missing name)
  | missingNumber {name : Text} {event : UInt64 → α} : t.Offers name (.number event) →
      AdmitsEnding t (.missing name)
  | invalid {name value : Text} {event : UInt64 → α} {x : OptionError} {others : List Text} :
      t.Offers name (.number event) → unsignedValue value = .error x →
      AdmitsEnding t (.invalid name value x others)

/-- The arguments are written as these items and this ending. -/
structure Decomposes (t : OptionTable α) (arguments : List Text) (d : Decomposition α) : Prop where
  items : ∀ i ∈ d.items, t.Admits i
  ending : t.AdmitsEnding d.ending
  written : arguments = d.written

/-- The decomposition that is found from left to right. -/
def decompose (t : OptionTable α) : List Text → Decomposition α
  | [] => ⟨[], .complete⟩
  | a :: as =>
    if a = terminator then ⟨[], .terminated as⟩
    else match t.action? a with
      | none => (decompose t as).after
          (if terminator.isPrefixOf a then .unknown a else .positional a)
      | some (.flag e) => (decompose t as).after (.flag a e)
      | some (.text e) =>
        match as with
        | [] => ⟨[], .missing a⟩
        | v :: vs => (decompose t vs).after (.option a v (e v))
      | some (.number e) =>
        match as with
        | [] => ⟨[], .missing a⟩
        | v :: vs =>
          match unsignedValue v with
          | .error x => ⟨[], .invalid a v x vs⟩
          | .ok n => (decompose t vs).after (.option a v (e n))

theorem parse_eq_parsed (t : OptionTable α) (arguments : List Text) :
    t.parse arguments = (t.decompose arguments).parsed := by
  fun_induction decompose t arguments with
  | case1 => rfl
  | case2 as => simp [parse, Decomposition.parsed, Ending.positional, Ending.error?]
  | case3 a as ha haction ih =>
      rw [parse, if_neg ha, haction, Decomposition.parsed_after, ← ih]
      dsimp only
      rw [unregistered]
      split <;> rfl
  | case4 a as ha e haction ih =>
      rw [parse, if_neg ha, haction, Decomposition.parsed_after, ← ih]
      rfl
  | case5 a ha e haction =>
      rw [parse, if_neg ha, haction]
      rfl
  | case6 a ha e haction v vs ih =>
      rw [parse, if_neg ha, haction, Decomposition.parsed_after, ← ih]
      rfl
  | case7 a ha e haction =>
      rw [parse, if_neg ha, haction]
      rfl
  | case8 a ha e haction v vs x hx =>
      rw [parse, if_neg ha, haction]
      simp only [hx]
      rfl
  | case9 a ha e haction v vs n hn ih =>
      rw [parse, if_neg ha, haction, Decomposition.parsed_after, ← ih]
      simp only [hn]
      rfl

/-! ## Names -/

theorem offers_of_action? (h : t.action? name = some action) : t.Offers name action := by
  obtain ⟨o, ho, rfl⟩ := Option.map_eq_some_iff.mp h
  exact ⟨o, List.mem_of_find?_eq_some ho, by simpa using List.find?_some ho, rfl⟩

theorem action?_eq_none_iff : t.action? name = none ↔ name ∉ t.names := by
  simp [action?, names]

theorem Offers.mem_names (h : t.Offers name action) : name ∈ t.names := by
  obtain ⟨o, ho, hname, -⟩ := h
  exact List.mem_flatMap.mpr ⟨o, ho, hname⟩

theorem Offers.action?_eq (h : t.Offers name action) (hnames : t.names.Nodup) :
    t.action? name = some action := by
  obtain ⟨o, ho, hname, rfl⟩ := h
  obtain ⟨o', ho'⟩ : ∃ o', t.options.find? (·.names.contains name) = some o' :=
    Option.isSome_iff_exists.mp (List.find?_isSome.mpr ⟨o, ho, by simpa using hname⟩)
  have hname' : name ∈ o'.names := by simpa using List.find?_some ho'
  have hpairs := (List.nodup_flatMap.mp hnames).2
  have hsymm : Std.Symm (Function.onFun List.Disjoint (CommandOption.names (α := α))) :=
    ⟨fun _ _ hdisjoint => List.Disjoint.symm hdisjoint⟩
  -- Two options do not share a name.
  have heq : o' = o := by
    by_contra hne
    exact hpairs.forall (List.mem_of_find?_eq_some ho') ho hne hname' hname
  rw [action?, ho', heq, Option.map_some]

theorem Offers.eq (h : t.Offers name action) {action' : OptionAction α}
    (h' : t.Offers name action') (hnames : t.names.Nodup) : action = action' :=
  Option.some.inj ((h.action?_eq hnames).symm.trans (h'.action?_eq hnames))

/-! ## The only decomposition -/

theorem Decomposes.after (hi : t.Admits i) (h : t.Decomposes arguments d) :
    t.Decomposes (i.written ++ arguments) (d.after i) := by
  obtain ⟨hitems, hending, rfl⟩ := h
  refine ⟨List.forall_mem_cons.mpr ⟨hi, hitems⟩, hending, ?_⟩
  rw [Decomposition.written, Decomposition.written, Decomposition.after, List.flatMap_cons,
    List.append_assoc]

theorem AdmitsEnding.decomposes (h : t.AdmitsEnding ending) :
    t.Decomposes ending.written ⟨[], ending⟩ :=
  ⟨List.forall_mem_nil _, h, rfl⟩

theorem decomposes_decompose (t : OptionTable α) (arguments : List Text) :
    t.Decomposes arguments (t.decompose arguments) := by
  fun_induction decompose t arguments with
  | case1 => exact AdmitsEnding.complete.decomposes
  | case2 as => exact AdmitsEnding.terminated.decomposes
  | case3 a as ha haction ih =>
      have hname := action?_eq_none_iff.mp haction
      split
      · rename_i hprefix
        exact ih.after (.unknown hname (List.isPrefixOf_iff_prefix.mp hprefix) ha)
      · rename_i hprefix
        exact ih.after (.positional hname (mt List.isPrefixOf_iff_prefix.mpr hprefix))
  | case4 a as ha e haction ih => exact ih.after (.flag (offers_of_action? haction))
  | case5 a ha e haction =>
      exact (AdmitsEnding.missingText (offers_of_action? haction)).decomposes
  | case6 a ha e haction v vs ih => exact ih.after (.text (offers_of_action? haction))
  | case7 a ha e haction =>
      exact (AdmitsEnding.missingNumber (offers_of_action? haction)).decomposes
  | case8 a ha e haction v vs x hx =>
      exact (AdmitsEnding.invalid (offers_of_action? haction) hx).decomposes
  | case9 a ha e haction v vs n hn ih =>
      exact ih.after (.number (offers_of_action? haction) hn)

section Distinct

variable (hnames : t.names.Nodup) (hterminator : terminator ∉ t.names)

include hnames hterminator

theorem Offers.decompose_cons (h : t.Offers name action) (as : List Text) :
    t.decompose (name :: as) = match action, as with
      | .flag e, as => (t.decompose as).after (.flag name e)
      | .text _, [] => ⟨[], .missing name⟩
      | .text e, v :: vs => (t.decompose vs).after (.option name v (e v))
      | .number _, [] => ⟨[], .missing name⟩
      | .number e, v :: vs =>
        match unsignedValue v with
        | .error x => ⟨[], .invalid name v x vs⟩
        | .ok n => (t.decompose vs).after (.option name v (e n)) := by
  have hne : name ≠ terminator := fun heq => hterminator (heq ▸ h.mem_names)
  rw [decompose, if_neg hne, h.action?_eq hnames]
  cases action <;> cases as <;> rfl

theorem AdmitsEnding.decompose_eq (h : t.AdmitsEnding ending) :
    t.decompose ending.written = ⟨[], ending⟩ := by
  cases h with
  | complete => rfl
  | terminated => rw [Ending.written, decompose, if_pos rfl]
  | missingText h => exact h.decompose_cons hnames hterminator _
  | missingNumber h => exact h.decompose_cons hnames hterminator _
  | invalid h hx =>
      rw [Ending.written, h.decompose_cons hnames hterminator]
      simp only [hx]

theorem Admits.decompose_append (h : t.Admits i) (as : List Text) :
    t.decompose (i.written ++ as) = (t.decompose as).after i := by
  cases h with
  | flag h => exact h.decompose_cons hnames hterminator _
  | text h => exact h.decompose_cons hnames hterminator _
  | number h hn =>
      rw [WrittenItem.written, List.cons_append, List.cons_append,
        h.decompose_cons hnames hterminator]
      simp only [hn]
      rfl
  | unknown hname hprefix hne =>
      rw [WrittenItem.written, List.singleton_append, decompose, if_neg hne,
        action?_eq_none_iff.mpr hname]
      dsimp only
      rw [if_pos (List.isPrefixOf_iff_prefix.mpr hprefix)]
  | positional hname hprefix =>
      have hne : _ ≠ terminator := fun heq => hprefix (heq ▸ List.prefix_rfl)
      rw [WrittenItem.written, List.singleton_append, decompose, if_neg hne,
        action?_eq_none_iff.mpr hname]
      dsimp only
      rw [if_neg (mt List.isPrefixOf_iff_prefix.mp hprefix)]

theorem Decomposes.eq_decompose (h : t.Decomposes arguments d) : d = t.decompose arguments := by
  obtain ⟨items, ending⟩ := d
  obtain ⟨hitems, hending, rfl⟩ := h
  induction items with
  | nil => exact (hending.decompose_eq hnames hterminator).symm
  | cons i items ih =>
      obtain ⟨hi, hitems⟩ := List.forall_mem_cons.mp hitems
      have hrest := ih hitems hending
      rw [Decomposition.written, List.flatMap_cons, List.append_assoc,
        hi.decompose_append hnames hterminator]
      exact congrArg (Decomposition.after i) hrest

end Distinct

/-! ## Registration -/

theorem add_of_nodup {o : CommandOption α} (h : (t.names ++ o.names).Nodup) :
    t.add o = .ok ⟨t.options ++ [o]⟩ := by
  obtain ⟨-, hown, hfresh⟩ := List.nodup_append.mp h
  have hnew : o.names.any t.names.contains = false := by
    rw [List.any_eq_false]
    intro name hname
    simpa using fun hmem => hfresh name hmem name hname rfl
  have hsame : (o.short?.isSome && o.short? == o.long?) = false := by
    cases hshort : o.short? with
    | none => rfl
    | some s =>
        cases hlong : o.long? with
        | none => rfl
        | some l => simpa [CommandOption.names, hshort, hlong] using hown
  rw [add, hnew, hsame]
  rfl

/-- Options of distinct names can be registered, one after the other. -/
theorem foldlM_add {os : List (CommandOption α)} (h : (t.names ++ os.flatMap (·.names)).Nodup) :
    os.foldlM add t = .ok ⟨t.options ++ os⟩ := by
  induction os generalizing t with
  | nil =>
      rw [List.append_nil]
      rfl
  | cons o os ih =>
      rw [List.flatMap_cons, ← List.append_assoc] at h
      have hadd := add_of_nodup (List.nodup_append.mp h).1
      have hnames : names ⟨t.options ++ [o]⟩ = t.names ++ o.names := by
        simp [names]
      rw [← hnames] at h
      have hrest := ih h
      rw [List.append_assoc, List.singleton_append] at hrest
      rw [List.foldlM_cons, hadd]
      exact hrest

/-- Registered options of distinct names leave one way to take a list of arguments apart into items
and an ending.  The events are those of the items that are options, in order; positional are the
other unregistered arguments without the dashes of the terminator, and all after the terminator; the
messages are a warning for each unregistered argument with these dashes, and the reason why the
parser gives up at a value that is missing or not accepted. -/
theorem parse_decomposes {os : List (CommandOption α)} (hnames : (os.flatMap (·.names)).Nodup)
    (hterminator : terminator ∉ os.flatMap (·.names)) :
    os.foldlM add empty = .ok ⟨os⟩ ∧ ∀ arguments, ∃ d : Decomposition α,
      Decomposes ⟨os⟩ arguments d ∧ (∀ d', Decomposes ⟨os⟩ arguments d' → d' = d) ∧
      (parse ⟨os⟩ arguments).events = d.items.filterMap (·.event?) ∧
      (parse ⟨os⟩ arguments).positional =
        d.items.filterMap (·.positional?) ++ d.ending.positional ∧
      (parse ⟨os⟩ arguments).messages = Text.ofLines
        ((d.items.filterMap (·.unknown?)).map ParsedArguments.unknownWarning ++
          (d.ending.error?.map (·.text)).toList) ∧
      (parse ⟨os⟩ arguments).error? = d.ending.error? := by
  refine ⟨foldlM_add hnames, fun arguments => ⟨decompose ⟨os⟩ arguments,
    decomposes_decompose _ _, fun d' h => h.eq_decompose hnames hterminator, ?_⟩⟩
  rw [parse_eq_parsed]
  refine ⟨Decomposition.events_parsed _, Decomposition.positional_parsed _, ?_, rfl⟩
  rw [ParsedArguments.messages, Decomposition.unknown_parsed]
  rfl

end OptionTable

namespace Sample

open CommandLine OptionTable

/-- The terminator as the value of an option, before it ends the options. -/
def mixedArguments : List Text :=
  ["a.model", "-d", "--", "--no-such", "-q", "--", "--plan", "b.model"]

def mixed : Decomposition (Settings → Settings) where
  items := [.positional "a.model", .option "-d" "--" fun s => { s with dialect? := some "--" },
    .unknown "--no-such", .flag "-q" fun s => { s with quiet := true }]
  ending := .terminated ["--plan", "b.model"]

theorem mixed_written : options.Decomposes mixedArguments mixed where
  items := by
    refine List.forall_mem_cons.mpr ⟨?_, List.forall_mem_cons.mpr ⟨?_, List.forall_mem_cons.mpr
      ⟨?_, List.forall_mem_singleton.mpr ?_⟩⟩⟩
    · exact .positional (by decide) (by decide)
    · have hdialect : options.Offers "-d" (.text fun name s => { s with dialect? := some name }) :=
        offers_of_action? rfl
      exact .text hdialect
    · exact .unknown (by decide) (by decide) (by decide)
    · exact .flag (offers_of_action? rfl)
  ending := .terminated
  written := rfl

theorem mixed_decomposes : (options.options.flatMap (·.names)).Nodup ∧
    terminator ∉ options.options.flatMap (·.names) ∧
    options.options.foldlM add empty = .ok options ∧
    (∀ d, options.Decomposes mixedArguments d → d = mixed) ∧
    settings (options.parse mixedArguments).events =
      { quiet := true, dialect? := some "--" } ∧
    (options.parse mixedArguments).positional = ["a.model", "--plan", "b.model"] ∧
    (options.parse mixedArguments).messages =
      Text.ofLines ["warning: ignore unknown option --no-such"] ∧
    (options.parse mixedArguments).error? = none := by
  have hnames : (options.options.flatMap (·.names)).Nodup := by decide
  have hterminator : terminator ∉ options.options.flatMap (·.names) := by decide
  obtain ⟨hadd, hall⟩ := parse_decomposes hnames hterminator
  obtain ⟨d, -, hunique, hevents, hpositional, hmessages, herror⟩ := hall mixedArguments
  obtain rfl : mixed = d := hunique mixed mixed_written
  refine ⟨hnames, hterminator, hadd, hunique, ?_, hpositional, hmessages, herror⟩
  rw [hevents]
  rfl

end Sample

end SqlQuery
