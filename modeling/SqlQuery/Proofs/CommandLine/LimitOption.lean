import SqlQuery.Proofs.CommandLine.Agreement
import SqlQuery.Proofs.CommandLine.Arguments
import SqlQuery.Proofs.CommandLine.Decomposition
import SqlQuery.Proofs.CommandLine.Unsigned
import SqlQuery.Proofs.Record.Continuation

/-!
# The option for the row limit

The row limit of a query is set by a record or, after the whole file was read, by an option.  The
option does what a limit record at the end of every input does (`CommandLine.run_limitOption`).
-/

namespace SqlQuery

/-! ## Events of a table of options -/

/-- The option causes the event, with some value if it takes one. -/
inductive OptionAction.Causes {α : Type} : OptionAction α → α → Prop
  | flag (event : α) : Causes (.flag event) event
  | text (event : Text → α) (value : Text) : Causes (.text event) (event value)
  | number (event : UInt64 → α) (n : UInt64) : Causes (.number event) (event n)

namespace OptionTable

variable {α : Type} {t : OptionTable α} {i : WrittenItem α} {name : Text}
  {action : OptionAction α} {e : α}

theorem Offers.exists_causes (h : t.Offers name action) (he : action.Causes e) :
    ∃ o ∈ t.options, o.action.Causes e := by
  obtain ⟨o, ho, -, rfl⟩ := h
  exact ⟨o, ho, he⟩

theorem Admits.exists_causes (h : t.Admits i) (he : i.event? = some e) :
    ∃ o ∈ t.options, o.action.Causes e := by
  cases h with
  | flag hoffers =>
      cases he
      exact hoffers.exists_causes (.flag _)
  | text hoffers =>
      cases he
      exact hoffers.exists_causes (.text _ _)
  | number hoffers =>
      cases he
      exact hoffers.exists_causes (.number _ _)
  | unknown => cases he
  | positional => cases he

/-- Every event is that of an option. -/
theorem exists_causes_of_mem_events {arguments : List Text} (h : e ∈ (t.parse arguments).events) :
    ∃ o ∈ t.options, o.action.Causes e := by
  rw [parse_eq_parsed, Decomposition.events_parsed] at h
  obtain ⟨i, hi, he⟩ := List.mem_filterMap.mp h
  exact ((decomposes_decompose t arguments).items i hi).exists_causes he

end OptionTable

namespace ParsedArguments

variable {α : Type}

theorem unknown_append (p q : ParsedArguments α) :
    (p.append q).unknown = p.unknown ++ q.unknown :=
  List.filterMap_append

theorem messages_append_event (p q : ParsedArguments α) (e : α) :
    (p.append (q.after (.event e))).messages = (p.append q).messages := by
  rw [messages, messages, unknown_append, unknown_append]
  rfl

theorem positional_append_event (p q : ParsedArguments α) (e : α) :
    (p.append (q.after (.event e))).positional = (p.append q).positional := by
  rw [positional_append, positional_append]
  rfl

theorem events_append_event (p q : ParsedArguments α) (e : α) :
    (p.append (q.after (.event e))).events = p.events ++ e :: q.events :=
  events_append p (q.after (.event e))

end ParsedArguments

namespace CommandLine

variable {s : Settings} {d : Dialect} {inputs : Inputs} {before after names : List Text}
  {p : ParsedArguments (Settings → Settings)} {n : UInt64} {program contents number : Text}
  {events : List (Settings → Settings)} {log : Diagnostics}

/-! ## Settings -/

/-- The event neither changes the row limit nor depends on it. -/
structure KeepsLimit (e : Settings → Settings) : Prop where
  limit? : ∀ s, (e s).limit? = s.limit?
  withLimit : ∀ s n, e (s.withLimit n) = (e s).withLimit n

/-- An option of the program keeps the row limit, or else sets it. -/
theorem keepsLimit_or_eq {o : CommandOption (Settings → Settings)} {e : Settings → Settings}
    (ho : o ∈ options.options) (he : o.action.Causes e) :
    KeepsLimit e ∨ ∃ n, e = (·.withLimit n) := by
  simp only [options, List.mem_cons, List.not_mem_nil, or_false] at ho
  rcases ho with rfl | rfl | rfl | rfl | rfl | rfl | rfl <;> cases he
  case inr.inr.inr.inr.inr.inr.number n => exact Or.inr ⟨n, rfl⟩
  all_goals exact Or.inl ⟨fun _ => rfl, fun _ _ => rfl⟩

/-- Once the row limit is set it is never unset. -/
theorem keepsLimit_of_foldl (h : ∀ e ∈ events, KeepsLimit e ∨ ∃ n, e = (·.withLimit n))
    (hlimit : (events.foldl (fun s e => e s) s).limit? = none) :
    s.limit? = none ∧ ∀ e ∈ events, KeepsLimit e := by
  induction events generalizing s with
  | nil => exact ⟨hlimit, List.forall_mem_nil _⟩
  | cons e events ih =>
      obtain ⟨he, hevents⟩ := List.forall_mem_cons.mp h
      obtain ⟨hnone, hkeeps⟩ := ih hevents hlimit
      rcases he with he | ⟨n, rfl⟩
      · exact ⟨(he.limit? s).symm.trans hnone, List.forall_mem_cons.mpr ⟨he, hkeeps⟩⟩
      · cases hnone

theorem foldl_withLimit (h : ∀ e ∈ events, KeepsLimit e) (s : Settings) (n : UInt64) :
    events.foldl (fun s e => e s) (s.withLimit n) =
      (events.foldl (fun s e => e s) s).withLimit n := by
  induction events generalizing s with
  | nil => rfl
  | cons e events ih =>
      obtain ⟨he, hevents⟩ := List.forall_mem_cons.mp h
      rw [List.foldl_cons, List.foldl_cons, he.withLimit, ih hevents]

/-! ## Arguments -/

theorem unsignedValue_of_denotes (h : number.Denotes n.toNat) : unsignedValue number = .ok n := by
  have hnumeral : number.Numeral [] n.toNat :=
    ⟨[], number, [], (List.append_nil number).symm, rfl, h, nofun⟩
  obtain ⟨b, hb, hdigit⟩ := h.head?_append []
  rw [List.append_nil] at hb
  refine unsignedValue_eq_ok_iff.mpr ⟨fun hminus => ?_, Or.inl hnumeral⟩
  cases hb.symm.trans hminus
  cases hdigit

theorem parse_limitName (h : options.Takes before p) (hn : number.Denotes n.toNat)
    (after : List Text) : options.parse (before ++ limitName :: number :: after) =
      p.append ((options.parse after).after (.event (·.withLimit n))) := by
  have hvalue := unsignedValue_of_denotes hn
  rw [h.parse_append]
  rcases OptionTable.parse_number (by decide) action?_limitName number after with
    ⟨x, hx, -⟩ | ⟨m, hm, hparse⟩
  · cases hx.symm.trans hvalue
  · cases hm.symm.trans hvalue
    rw [hparse]

/-- What is asked for, with a row limit. -/
def Invocation.withLimit (n : UInt64) : Invocation → Invocation
  | .done o => .done o
  | .process s d log names => .process (s.withLimit n) d log names

theorem prepare_withLimit (r : Registry) (s : Settings) (n : UInt64) (log : Diagnostics)
    (names : List Text) :
    prepare r (s.withLimit n) log names = (prepare r s log names).withLimit n := by
  have hchosen : chosenDialect r (s.withLimit n) = chosenDialect r s := rfl
  rw [prepare, prepare, hchosen]
  cases chosenDialect r s <;> rfl

theorem invocation_limitName (program : Text) (h : options.Takes before p)
    (hlimit : (settings (options.parse (before ++ after)).events).limit? = none)
    (hn : number.Denotes n.toNat) :
    invocation program (before ++ limitName :: number :: after) =
      (invocation program (before ++ after)).withLimit n := by
  have hkeeps : ∀ e ∈ (options.parse (before ++ after)).events, KeepsLimit e := by
    refine (keepsLimit_of_foldl (fun e he => ?_) hlimit).2
    obtain ⟨o, ho, hcauses⟩ := OptionTable.exists_causes_of_mem_events he
    exact keepsLimit_or_eq ho hcauses
  rw [h.parse_append, ParsedArguments.events_append, List.forall_mem_append] at hkeeps
  -- The later events do the same whether or not there is a row limit by then.
  have hsettings :
      settings (p.append ((options.parse after).after (.event (·.withLimit n)))).events =
        (settings (p.append (options.parse after)).events).withLimit n := by
    rw [ParsedArguments.events_append_event, ParsedArguments.events_append, settings, settings,
      List.foldl_append, List.foldl_append, List.foldl_cons, foldl_withLimit hkeeps.2]
  rw [invocation, invocation, parse_limitName h hn, h.parse_append]
  have herror : (p.append ((options.parse after).after (.event (·.withLimit n)))).error? =
      (p.append (options.parse after)).error? :=
    rfl
  simp only [hsettings, herror, ParsedArguments.messages_append_event,
    ParsedArguments.positional_append_event, prepare_withLimit]
  split
  · rfl
  · rw [apply_ite (Invocation.withLimit n)]
    rfl

theorem settings_of_process (h : invocation program before = .process s d log names) :
    s = settings (options.parse before).events := by
  simp only [invocation, prepare] at h
  split at h
  · cases h
  split at h
  · cases h
  split at h <;> cases h
  rfl

/-! ## Inputs -/

/-- The inputs with every text changed. -/
def Inputs.mapContents (f : Text → Text) (inputs : Inputs) : Inputs where
  stdin := f inputs.stdin
  file name := (inputs.file name).map f

theorem alike_withLimitRecord (hs : s.limit? = none) (hn : number.Denotes n.toNat)
    (contents : Text) :
    Alike (s.withLimit n) s d contents (Format.withLimitRecord number contents) := by
  obtain ⟨r, hr, -⟩ := Format.exists_read Format.standard contents
  obtain ⟨remarks, hr', hcount⟩ := Format.exists_read_withLimitRecord hn hr
  refine ⟨r, _, hr, hr', hcount, ?_⟩
  rw [limited, hs]
  rfl

/-- Without a table the row limit does not come into it. -/
theorem output_of_no_table (s : Settings) (d : Dialect) (limit? : Option UInt64) :
    output s d { limit? } = .error (.sql (.query (.malformed .noTable))) :=
  output_of_error s rfl

theorem alike_nil (hs : s.limit? = none) : Alike (s.withLimit n) s d [] [] := by
  refine ⟨⟨.empty, []⟩, ⟨.empty, []⟩, rfl, rfl, rfl, ?_⟩
  rw [limited, hs]
  exact (output_of_no_table s d none).trans (output_of_no_table _ d (some n)).symm

theorem corresponds_mapContents (hs : s.limit? = none) (hn : number.Denotes n.toNat)
    (inputs : Inputs) : Corresponds (s.withLimit n) s d inputs
      (inputs.mapContents (Format.withLimitRecord number)) where
  empty := alike_nil hs
  stdin := alike_withLimitRecord hs hn inputs.stdin
  file name := by
    cases hfile : inputs.file name with
    | error reason => exact Or.inl ⟨reason, rfl, by simp [Inputs.mapContents, hfile, Except.map]⟩
    | ok contents =>
        refine Or.inr ⟨contents, _, rfl, ?_, alike_withLimitRecord hs hn contents⟩
        simp [Inputs.mapContents, hfile, Except.map]

/-! ## Runs -/

theorem out_processInput_of_rejects (s : Settings) (d : Dialect) (name : Text) (log : Diagnostics)
    (h : ¬2 ^ 32 ∣ (Text.lines contents).countP Format.standard.rejects) :
    ∃ l, processInput s d name contents log = .ok l ∧ l.out = log.out := by
  obtain ⟨l, hl, hstep⟩ := exists_processes s d name contents log
  refine ⟨l, hl, ?_⟩
  have hchanges {r : Reading} (hr : Format.standard.read contents = .ok r) :
      (log.remarks name r.remarks).errors ≠ log.errors := by
    rw [Ne, Diagnostics.errors_remarks_eq_iff, (Format.read_eq_ok_iff.mp hr).countP]
    exact h
  cases hstep with
  | rejected hr _ => exact Diagnostics.out_remarks _ _ _
  | written hr heq => exact absurd heq (hchanges hr)
  | refused hr heq => exact absurd heq (hchanges hr)

/-- An input with so many rejected lines that the counter comes back to where it was is written. -/
theorem processInput_of_dvd {r : Reading} {t : Text} (hr : Format.standard.read contents = .ok r)
    (hdvd : 2 ^ 32 ∣ r.remarks.countP (·.isComplaint))
    (ht : output s d (limited s r.query) = .ok t) :
    processInput s d name contents log = .ok ((log.remarks name r.remarks).print t) :=
  processInput_of_written hr (Diagnostics.errors_remarks_eq_iff.mpr hdvd) ht

theorem perform_of_dvd {r : Reading} {t : Text} (hname : name ≠ stdinName)
    (hfile : inputs.file name = .ok contents) (hr : Format.standard.read contents = .ok r)
    (hdvd : 2 ^ 32 ∣ r.remarks.countP (·.isComplaint))
    (ht : output s d (limited s r.query) = .ok t) (hlog : log.errors = 0) :
    ∃ o, (Invocation.process s d log [name]).perform inputs = .ok o ∧ o.exitCode = 0 ∧
      o.out = log.out ++ t := by
  have hprocess : processInputs s d inputs log [name] =
      .ok ((log.remarks name r.remarks).print t) := by
    rw [processInputs, if_neg hname, hfile]
    dsimp only
    rw [processInput_of_dvd hr hdvd ht]
    rfl
  have herrors : (log.remarks name r.remarks).errors = 0 :=
    (Diagnostics.errors_remarks_eq_iff.mpr hdvd).trans hlog
  refine ⟨_, by rw [Invocation.perform, hprocess]; rfl, ?_, ?_⟩
  · exact if_pos herrors
  · exact congrArg (· ++ t) (Diagnostics.out_remarks _ _ _)

/-- Apart from what goes to the error stream, a row limit given by the option, among others that do
not give one, is the same as a limit record at the end of every input.  Neither way is an input with
rejected lines written, unless there are so many that the counter of errors comes back to where it
was. -/
theorem run_limitOption (program : Text) (inputs : Inputs) (h : options.Takes before p)
    (hlimit : (settings (options.parse (before ++ after)).events).limit? = none)
    (hn : number.Denotes n.toNat) :
    (∃ o o', run program (before ++ limitName :: number :: after) inputs = .ok o ∧
      run program (before ++ after) (inputs.mapContents (Format.withLimitRecord number)) = .ok o' ∧
      o'.out = o.out ∧ o'.exitCode = o.exitCode) ∧
    ∀ contents, ¬2 ^ 32 ∣ (Text.lines contents).countP Format.standard.rejects →
      ∀ s d name log, (∃ l, processInput s d name contents log = .ok l ∧ l.out = log.out) ∧
        ∃ l, processInput s d name (Format.withLimitRecord number contents) log = .ok l ∧
          l.out = log.out := by
  constructor
  · have hinvocation := invocation_limitName program h hlimit hn
    cases hi : invocation program (before ++ after) with
    | done o =>
        rw [hi] at hinvocation
        refine ⟨o, o, ?_, ?_, rfl, rfl⟩
        · rw [run, hinvocation]
          rfl
        · rw [run, hi]
          rfl
    | process s d log names =>
        rw [hi] at hinvocation
        have hs : s.limit? = none := settings_of_process hi ▸ hlimit
        obtain ⟨l, l', hl, hl', hagree⟩ :=
          (corresponds_mapContents hs hn inputs).exists_processInputs (.refl log) names
        refine ⟨outcome l, outcome l', ?_, ?_, hagree.out, hagree.exitCode⟩
        · rw [run, hinvocation, Invocation.withLimit, Invocation.perform, hl]
          rfl
        · rw [run, hi, Invocation.perform, hl']
          rfl
  · intro contents hrejects s d name log
    refine ⟨out_processInput_of_rejects s d name log hrejects, ?_⟩
    rw [← Format.countP_rejects_withLimitRecord hn] at hrejects
    exact out_processInput_of_rejects s d name log hrejects

end CommandLine

namespace Sample

open CommandLine

/-- A query with a row limit of its own, and no line break at the end. -/
def fiveRows : Text := "table|A\nlimit|5"

def badInput : Text := "column|A"

/-- The query stands on standard input and in all files but one, which is malformed. -/
def fiveRowsInputs : Inputs where
  stdin := fiveRows
  file name := .ok (if name = "bad" then badInput else fiveRows)

def optionsBefore : List Text := ["--plan", "--no-such"]

/-- Standard input is named twice. -/
def argumentsAfter : List Text := ["-d", "mssql", "--", "-", "bad", "good", "-"]

/-- The queries on standard input and in one file. -/
def sevenRowsText : Text :=
  Text.ofLines ["SELECT TOP 7", "          *", "FROM", "          A",
    "SELECT TOP 7", "          *", "FROM", "          A"]

theorem out_run_sevenRows :
    (run "qgen" (optionsBefore ++ limitName :: "007" :: argumentsAfter) fiveRowsInputs).toOption.map
      (·.out) = some sevenRowsText := by
  decide +kernel

theorem run_sevenRows : (∃ p, options.Takes optionsBefore p) ∧
    (settings (options.parse (optionsBefore ++ argumentsAfter)).events).limit? = none ∧
    Text.Denotes "007" (7 : UInt64).toNat ∧
    ¬2 ^ 32 ∣ (Text.lines badInput).countP Format.standard.rejects ∧
    (∃ o', run "qgen" (optionsBefore ++ argumentsAfter)
        (fiveRowsInputs.mapContents (Format.withLimitRecord "007")) = .ok o' ∧
      o'.out = sevenRowsText) ∧
    ∀ s d name log, ∃ l, processInput s d name (Format.withLimitRecord "007" badInput) log = .ok l ∧
      l.out = log.out := by
  have htakes : options.Takes optionsBefore
      ⟨[.event ({ · with plan := true }), .unknown "--no-such"], none⟩ :=
    .flag (by decide) rfl (.unregistered (by decide) rfl .nil)
  have hlimit : (settings (options.parse (optionsBefore ++ argumentsAfter)).events).limit? = none :=
    rfl
  have hdenotes : Text.Denotes "007" (7 : UInt64).toNat :=
    Text.denotes_iff_digitsValue.mpr ⟨by decide, rfl, rfl⟩
  have hrejects : ¬2 ^ 32 ∣ (Text.lines badInput).countP Format.standard.rejects := by
    decide +kernel
  obtain ⟨⟨o, o', ho, ho', hout, -⟩, hbad⟩ :=
    run_limitOption "qgen" fiveRowsInputs htakes hlimit hdenotes
  refine ⟨⟨_, htakes⟩, hlimit, hdenotes, hrejects, ⟨o', ho', hout.trans ?_⟩, ?_⟩
  · have hrun := out_run_sevenRows
    rw [ho] at hrun
    exact Option.some.inj hrun
  · exact fun s d name log => (hbad badInput hrejects s d name log).2

def tableLine : Text := "table|A"

/-- A query before so many malformed lines. -/
def manyLines (n : Nat) : Text := Text.ofLines (tableLine :: List.replicate n badInput)

theorem lines_manyLines (n : Nat) :
    Text.lines (manyLines n) = tableLine :: List.replicate n badInput := by
  refine Text.lines_ofLines fun l hl => ?_
  rcases List.mem_cons.mp hl with rfl | hl
  · decide
  · rw [List.eq_of_mem_replicate hl]
    decide

theorem countP_rejects_manyLines (n : Nat) :
    (Text.lines (manyLines n)).countP Format.standard.rejects = n := by
  have htable : Format.standard.rejects tableLine = false := by decide +kernel
  have hbad : Format.standard.rejects badInput = true := by decide +kernel
  rw [lines_manyLines, List.countP_cons, List.countP_replicate, htable, hbad]
  rfl

theorem read_manyLines (n : Nat) : ∃ remarks,
    Format.standard.read (manyLines n) = .ok ⟨{ tables := [tableA] }, remarks⟩ ∧
      remarks.countP (·.isComplaint) = n := by
  have htable : Format.standard.readLine tableLine = .ok (.accepted 1 (.table tableA)) := by
    decide +kernel
  have hbad : Format.standard.readLine badInput =
      .ok (.rejected ⟨1, .unknownKind "column"⟩) := by
    decide +kernel
  have hstep : Format.standard.Step 1 .empty tableLine { tables := [tableA] } [] :=
    .extended htable (.table tableA)
  obtain ⟨remarks, hrun⟩ := Format.exists_run_replicate hbad (1 + 1) { tables := [tableA] } n
  have hread : Format.standard.read (manyLines n) = .ok ⟨{ tables := [tableA] }, remarks⟩ := by
    rw [Format.read_eq_ok_iff, lines_manyLines]
    exact .cons hstep hrun
  refine ⟨remarks, hread, ?_⟩
  rw [← (Format.read_eq_ok_iff.mp hread).countP.symm, countP_rejects_manyLines]

/-- The query in seven rows of standard SQL. -/
def sevenRowsOnly : Text :=
  Text.ofLines ["SELECT", "          *", "FROM", "          A", "FETCH FIRST 7 ROWS ONLY"]

/-- Every file has these lines. -/
def manyInputs (n : Nat) : Inputs := ⟨[], fun _ => .ok (manyLines n)⟩

/-- The messages of a run that has just begun. -/
def begun : Diagnostics := { color := false, err := statusText .ansi }

theorem output_sevenRowsOnly (s : Settings) :
    output s .ansi { tables := [tableA], limit? := some 7 } = .ok sevenRowsOnly := by
  have hsql : Query.toSql { tables := [tableA], limit? := some 7 } .ansi = .ok sevenRowsOnly := by
    decide +kernel
  have hplan : planText s .ansi { tables := [tableA], limit? := some 7 } = .ok [] := by
    simp [planText]
  rw [output, hsql, hplan]
  rfl

theorem run_manyLines {n : Nat} (h : 2 ^ 32 ∣ n) :
    (∃ o, run "qgen" [limitName, "7", "--", "many"] (manyInputs n) = .ok o ∧ o.exitCode = 0 ∧
      o.out = sevenRowsOnly) ∧
    ∃ o, run "qgen" ["--", "many"]
        ((manyInputs n).mapContents (Format.withLimitRecord "7")) = .ok o ∧ o.exitCode = 0 ∧
      o.out = sevenRowsOnly := by
  have hname : Text.ofString "many" ≠ stdinName := by decide
  have hdenotes : Text.Denotes "7" (7 : UInt64).toNat :=
    Text.denotes_iff_digitsValue.mpr ⟨by decide, rfl, rfl⟩
  have hoption : invocation "qgen" [limitName, "7", "--", "many"] =
      .process { limit? := some 7 } .ansi begun ["many"] := rfl
  have hrecord : invocation "qgen" ["--", "many"] = .process {} .ansi begun ["many"] := rfl
  obtain ⟨remarks, hread, hcount⟩ := read_manyLines n
  obtain ⟨more, hread', hcount'⟩ := Format.exists_read_withLimitRecord hdenotes hread
  constructor
  · rw [run, hoption]
    exact perform_of_dvd hname rfl hread (hcount ▸ h) (output_sevenRowsOnly _) rfl
  · rw [run, hrecord]
    exact perform_of_dvd hname rfl hread' (hcount'.trans hcount ▸ h) (output_sevenRowsOnly _) rfl

/-- A query on standard input, and no file. -/
def stdinOnly : Inputs := ⟨tableLine, fun _ => .error "No such file or directory"⟩

def allRows : Text := Text.ofLines ["SELECT", "          *", "FROM", "          A"]

/-- With `2 ^ 32` rejected lines the file is written, with the option and with the record.  And if
no input is named, the option concerns standard input, to which no record was added. -/
theorem limitOption_differs :
    (Text.lines (manyLines (2 ^ 32))).countP Format.standard.rejects = 2 ^ 32 ∧
    (∃ o, run "qgen" [limitName, "7", "--", "many"] (manyInputs (2 ^ 32)) = .ok o ∧
      o.exitCode = 0 ∧ o.out = sevenRowsOnly) ∧
    (∃ o, run "qgen" ["--", "many"]
        ((manyInputs (2 ^ 32)).mapContents (Format.withLimitRecord "7")) = .ok o ∧
      o.exitCode = 0 ∧ o.out = sevenRowsOnly) ∧
    (run "qgen" [limitName, "7"] stdinOnly).toOption.map (·.out) = some sevenRowsOnly ∧
    (run "qgen" [] stdinOnly).toOption.map (·.out) = some allRows := by
  obtain ⟨hoption, hrecord⟩ := run_manyLines (dvd_refl (2 ^ 32))
  refine ⟨countP_rejects_manyLines _, hoption, hrecord, ?_, ?_⟩
  · decide +kernel
  · decide +kernel

end Sample

end SqlQuery
