import SqlQuery.Proofs.CommandLine.Arguments
import SqlQuery.Proofs.CommandLine.Inputs

/-!
# Runs of the program

Every run comes to an end, and nothing but an error that is reported keeps a query from being
written (`only_reported_failures`).  A run with several inputs prints what the runs with one of them
print, one after the other, up to the first input that cannot be opened (`run_inputs`).
-/

namespace SqlQuery.CommandLine

variable {s : Settings} {d : Dialect} {inputs : Inputs} {opts names : List Text}
  {name contents : Text}

/-! ## Every run ends -/

theorem exists_run (program : Text) (arguments : List Text) (inputs : Inputs) :
    ∃ o, run program arguments inputs = .ok o := by
  rw [run]
  cases invocation program arguments with
  | done o => exact ⟨o, rfl⟩
  | process s d log names =>
      obtain ⟨log', hlog', -⟩ := exists_processesAll s d inputs log names
      exact ⟨outcome log', by rw [Invocation.perform, hlog']; rfl⟩

/-- Every file is read, and a query is written unless there is an error to report: the texts,
fields, tables and joins that a step relies on are there, so no check fails, and a query that was
written has a plan to print. -/
theorem only_reported_failures :
    (∀ (f : Format) t, ∃ r, f.read t = .ok r) ∧
    (∀ line, Text.allBlank line = false → Text.trim line ≠ []) ∧
    (∀ (f : Format) line, f.split line ≠ .ok []) ∧
    (∀ kind arguments e, Record.ofFields kind arguments ≠ .error (.failed e)) ∧
    (∀ (q : Query) d, Answered (q.toSql d)) ∧
    (∀ (q : Query) d, q.obstacle? d = none → q.tables ≠ [] ∧ Answered (q.source d) ∧
      (q.limit? = none ∨ d.capabilities.limitStyle ≠ .noLimit)) ∧
    (∀ d edges, edges ≠ [] → Answered (JoinPlan.resolve d edges) ∧
      ∀ p, JoinPlan.resolve d edges = .ok p → p.steps.length = edges.length + 1) ∧
    (∀ s d (q : Query) sql, q.toSql d = .ok sql → ∃ t, planText s d q = .ok t) ∧
    (∀ s d name contents log, ∃ log', processInput s d name contents log = .ok log') ∧
    ∀ program arguments inputs, ∃ o, run program arguments inputs = .ok o := by
  refine ⟨fun f t => ?_, fun line h => ?_, Format.split_ne_nil, Record.ofFields_ne_failed,
    Query.answered_toSql, fun q d h => ?_, fun d edges h => ?_, fun s d q sql h => ?_,
    fun s d name contents log => ?_, exists_run⟩
  · obtain ⟨r, hr, -⟩ := f.exists_read t
    exact ⟨r, hr⟩
  · obtain ⟨b, hb, -⟩ := (Text.framed_trim h).first
    exact List.ne_nil_of_mem (List.mem_of_mem_head? hb)
  · have hne := (Query.valid_of_obstacle? h).tables_ne_nil
    exact ⟨hne, Query.answered_source d hne, Query.limit_of_obstacle? h⟩
  · exact ⟨JoinPlan.answered_resolve d h, fun p hp => JoinPlan.length_steps hp⟩
  · obtain ⟨t, ht, -⟩ := exists_planText s h
    exact ⟨t, ht⟩
  · obtain ⟨log', hlog', -⟩ := exists_processes s d name contents log
    exact ⟨log', hlog'⟩

/-! ## One input -/

/-- The whole text of the query that an input holds is printed, after its plan if that is asked for;
or nothing is, and the run fails.  It does not fail if the input is read without complaint and its
query can be written. -/
structure Outcome.Contributes (s : Settings) (d : Dialect) (contents : Text) (o : Outcome) :
    Prop where
  exitCode_eq : o.exitCode = 0 ∨ o.exitCode = 1
  out_eq_nil_iff : o.out = [] ↔ o.exitCode = 1
  out_eq : o.exitCode = 0 → ∃ r sql t, Format.standard.read contents = .ok r ∧
    r.remarks.countP (·.isComplaint) = 0 ∧ (limited s r.query).toSql d = .ok sql ∧
    Precedes s d (limited s r.query) t ∧ o.out = t ++ sql
  written : ∀ r sql, Format.standard.read contents = .ok r →
    r.remarks.countP (·.isComplaint) = 0 → (limited s r.query).toSql d = .ok sql →
    o.exitCode = 0 ∧ ∃ t, Precedes s d (limited s r.query) t ∧ o.out = t ++ sql

/-- The outcome of a run that comes to a tally. -/
structure Outcome.Reports (o : Outcome) (t : Tally) : Prop where
  exitCode : o.exitCode = if t.errors = 0 then 0 else 1
  out : o.out = t.out

theorem Outcome.Reports.written {o : Outcome} (h : o.Reports (Tally.ofInput s d contents))
    {r : Reading} {sql : Text} (hr : Format.standard.read contents = .ok r)
    (hn : r.remarks.countP (·.isComplaint) = 0) (hsql : (limited s r.query).toSql d = .ok sql) :
    o.exitCode = 0 ∧ ∃ t, Precedes s d (limited s r.query) t ∧ o.out = t ++ sql := by
  obtain ⟨t, ht, hprecedes⟩ := exists_output s hsql
  rw [Tally.ofInput_of_written hr hn ht] at h
  exact ⟨h.exitCode, t, hprecedes, h.out⟩

theorem Outcome.Reports.contributes {o : Outcome} (h : o.Reports (Tally.ofInput s d contents)) :
    o.Contributes s d contents := by
  have hexit := h.exitCode
  have hout := h.out
  rcases Tally.ofInput_cases s d contents with
    ⟨hne, hnil⟩ | ⟨hzero, r, sql, t, hr, hn, hsql, ht, heq⟩
  · rw [if_neg hne] at hexit
    rw [hnil] at hout
    exact ⟨Or.inr hexit, by simp [hexit, hout], by simp [hexit], fun _ _ => h.written⟩
  · rw [if_pos hzero] at hexit
    have hsql' : sql ≠ [] := Query.toSql_ne_nil hsql
    refine ⟨Or.inl hexit, by simp [hexit, hout, heq, hsql'], fun _ => ?_, fun _ _ => h.written⟩
    exact ⟨r, sql, t, hr, hn, hsql, ht, hout.trans heq⟩

/-! ## Several inputs -/

/-- The options ask for no explanation, and for these settings and a known dialect. -/
structure Chooses (opts : List Text) (s : Settings) (d : Dialect) : Prop where
  takes : ∃ p, options.Takes opts p ∧ p.positional = [] ∧ settings p.events = s
  help : s.help = false
  listDialects : s.listDialects = false
  dialect : chosenDialect .standard s = .ok d

theorem Chooses.exists_invocation (h : Chooses opts s d) (program : Text) (hne : names ≠ []) :
    ∃ log, invocation program (opts ++ OptionTable.terminator :: names) = .process s d log names ∧
      log.errors = 0 ∧ log.out = [] := by
  obtain ⟨⟨p, htakes, hpositional, rfl⟩, hhelp, hlist, hdialect⟩ := h
  obtain ⟨herror, hevents, hnames⟩ := htakes.parse_names names
  rw [hpositional, List.nil_append] at hnames
  simp only [invocation, herror, hevents, hnames, hhelp, hlist, prepare, hdialect, if_neg hne]
  refine ⟨_, rfl, ?_, ?_⟩
  · split <;> rfl
  · split <;> rfl

theorem Chooses.exists_run (h : Chooses opts s d) (program : Text) (hne : names ≠ [])
    (hstdin : names.count stdinName ≤ 1)
    (hlt : (Tally.ofInputs s d (names.map inputs.contents?)).errors < 2 ^ 32) :
    ∃ o, run program (opts ++ OptionTable.terminator :: names) inputs = .ok o ∧
      o.Reports (Tally.ofInputs s d (names.map inputs.contents?)) := by
  obtain ⟨log, hlog, herrors, hout⟩ := h.exists_invocation program hne
  obtain ⟨log', hlog', hall⟩ := exists_processesAll s d inputs log names
  have hadds := hall.adds hstdin hlt
  refine ⟨outcome log', by rw [run, hlog, Invocation.perform, hlog']; rfl, ?_, ?_⟩
  · rw [outcome, hadds.errors, herrors, UInt32.zero_add]
    simp only [ofNat_eq_zero_iff hlt]
  · rw [outcome, hadds.out, hout, List.nil_append]

theorem Outcome.Reports.exitCode_eq_zero_iff {o : Outcome} {t : Tally} (h : o.Reports t) :
    o.exitCode = 0 ↔ t.errors = 0 := by
  rw [h.exitCode]
  split <;> simp_all

/-- Each of these runs with one input comes to the tally of that input. -/
def Single (s : Settings) (d : Dialect) (inputs : Inputs) (single : Text → Outcome)
    (names : List Text) : Prop :=
  ∀ name ∈ names, (single name).Reports (Tally.ofInputs s d [inputs.contents? name])

theorem Chooses.exists_single (h : Chooses opts s d) (program : Text) (inputs : Inputs) :
    ∃ single : Text → Outcome,
      (∀ name, run program (opts ++ [OptionTable.terminator, name]) inputs = .ok (single name)) ∧
      ∀ names, (∀ name ∈ names, (inputs.contents? name).isSome) →
        (Tally.ofInputs s d (names.map inputs.contents?)).errors < 2 ^ 32 →
        Single s d inputs single names := by
  choose single hsingle using fun name =>
    CommandLine.exists_run program (opts ++ [OptionTable.terminator, name]) inputs
  refine ⟨single, hsingle, fun names hopen hlt name hname => ?_⟩
  have hlt' :=
    Tally.errors_lt_of_mem (List.forall_mem_map.mpr hopen) (List.mem_map_of_mem hname) hlt
  obtain ⟨o, ho, hreports⟩ :=
    h.exists_run program (List.cons_ne_nil name []) List.count_le_length hlt'
  cases (hsingle name).symm.trans ho
  exact hreports

namespace Single

variable {single : Text → Outcome}

theorem out_eq (h : Single s d inputs single names)
    (hopen : ∀ name ∈ names, (inputs.contents? name).isSome) :
    (Tally.ofInputs s d (names.map inputs.contents?)).out =
      names.flatMap fun name => (single name).out := by
  rw [Tally.out_ofInputs (List.forall_mem_map.mpr hopen), List.flatMap_map]
  exact List.flatMap_congr fun name hname => (h name hname).out.symm

theorem errors_eq_zero_iff (h : Single s d inputs single names)
    (hopen : ∀ name ∈ names, (inputs.contents? name).isSome) :
    (Tally.ofInputs s d (names.map inputs.contents?)).errors = 0 ↔
      ∀ name ∈ names, (single name).exitCode = 0 := by
  rw [Tally.errors_ofInputs_eq_zero_iff (List.forall_mem_map.mpr hopen), List.forall_mem_map]
  exact forall₂_congr fun name hname => (h name hname).exitCode_eq_zero_iff.symm

theorem contributes (h : Single s d inputs single names) (hname : name ∈ names)
    (hcontents : inputs.contents? name = some contents) :
    (single name).Contributes s d contents := by
  have hreports := h name hname
  rw [hcontents, Tally.ofInputs_singleton] at hreports
  exact hreports.contributes

end Single

/-- Inputs that can be opened are processed as if each were alone, and every one of them is printed
as a whole or not at all.  Those after an input that cannot be opened are not processed. -/
theorem run_inputs (program : Text) (h : Chooses opts s d) (hne : names ≠ [])
    (hstdin : names.count stdinName ≤ 1)
    (hlt : (Tally.ofInputs s d (names.map inputs.contents?)).errors < 2 ^ 32) :
    ∃ o, run program (opts ++ OptionTable.terminator :: names) inputs = .ok o ∧
      ∃ single : Text → Outcome,
        (∀ name, run program (opts ++ [OptionTable.terminator, name]) inputs = .ok (single name)) ∧
        ((∀ name ∈ names, (inputs.contents? name).isSome) →
          o.out = names.flatMap (fun name => (single name).out) ∧
          (o.exitCode = 0 ↔ ∀ name ∈ names, (single name).exitCode = 0) ∧
          ∀ name ∈ names, ∀ contents, inputs.contents? name = some contents →
            (single name).Contributes s d contents) ∧
        ∀ before name after, names = before ++ name :: after →
          (∀ n ∈ before, (inputs.contents? n).isSome) → inputs.contents? name = none →
          o.exitCode = 1 ∧ o.out = before.flatMap (fun n => (single n).out) ∧
          (∀ n ∈ before, ∀ contents, inputs.contents? n = some contents →
            (single n).Contributes s d contents) ∧
          (before ≠ [] → ∃ o', o'.out = o.out ∧
            run program (opts ++ OptionTable.terminator :: before) inputs = .ok o') := by
  obtain ⟨o, ho, hreports⟩ := h.exists_run program hne hstdin hlt
  obtain ⟨single, hrun, hsingle⟩ := h.exists_single program inputs
  refine ⟨o, ho, single, hrun, fun hopen => ?_, fun before name after heq hopen hmissing => ?_⟩
  · have hall := hsingle names hopen hlt
    refine ⟨hreports.out.trans (hall.out_eq hopen), ?_, fun name hname contents => ?_⟩
    · rw [hreports.exitCode_eq_zero_iff, hall.errors_eq_zero_iff hopen]
    · exact hall.contributes hname
  · -- The tally ends at the input that cannot be opened, with one more error.
    have htally : Tally.ofInputs s d (names.map inputs.contents?) =
        (Tally.ofInputs s d (before.map inputs.contents?)).append ⟨1, []⟩ := by
      rw [heq, List.map_append, List.map_cons, hmissing,
        Tally.ofInputs_append (List.forall_mem_map.mpr hopen), Tally.ofInputs]
    rw [htally] at hreports hlt
    have hout : o.out = (Tally.ofInputs s d (before.map inputs.contents?)).out :=
      hreports.out.trans (List.append_nil _)
    have hlt' := Tally.left_lt hlt
    have hall := hsingle before hopen hlt'
    refine ⟨hreports.exitCode, hout.trans (hall.out_eq hopen), fun n hn contents => ?_,
      fun hbefore => ?_⟩
    · exact hall.contributes hn
    · rw [heq, List.count_append] at hstdin
      obtain ⟨o', ho', hreports'⟩ :=
        h.exists_run program hbefore (Nat.le_of_add_right_le hstdin) hlt'
      exact ⟨o', hreports'.out.trans hout.symm, ho'⟩

end SqlQuery.CommandLine

namespace SqlQuery.Sample

open CommandLine

/-- Options that ask for the plan and for SQL of another dialect than the default one. -/
def mssqlOptions : List Text := ["--plan", "-d", "mssql"]

def mssqlSettings : Settings := { plan := true, dialect? := some "mssql" }

/-- Two tables and their join. -/
def joined : Query := { tables := [tableA, tableB], joins := [edgeAB] }

def joinedPlan : JoinPlan := ⟨tableA, [⟨tableB, some "A.x = B.x", .inner⟩], []⟩

def joinedSql : Text :=
  Text.ofLines ["SELECT", "          *", "FROM", "          A", "          JOIN B ON ( A.x = B.x )"]

theorem resolve_joined : JoinPlan.resolve .mssql joined.joins = .ok joinedPlan := by
  have horder : JoinEdge.inOrder joined.joins = [edgeAB] := by cbv
  have hgrow : growByReference [edgeAB] = ⟨[⟨edgeAB, .right⟩], none⟩ := by cbv
  rw [JoinPlan.resolve_of_inOrder horder, hgrow]
  rfl

theorem toSql_joined : joined.toSql .mssql = .ok joinedSql := by
  rw [Query.toSql_of_resolve (by decide) (by decide) resolve_joined (by decide)]
  decide

theorem planText_joined : planText mssqlSettings .mssql joined = .ok joinedPlan.toText := by
  rw [planText, resolve_joined]
  rfl

def badFile : Text := "column|A"

/-- A query on standard input, and a malformed file. -/
def twoInputs : Inputs where
  stdin := "table|A\ntable|B\njoin|A||B||A.x = B.x|1"
  file name := if name = "bad" then .ok badFile else .error "No such file or directory"

theorem read_joined : Format.standard.read twoInputs.stdin = .ok ⟨joined, []⟩ := by
  decide +kernel

theorem read_badFile : Format.standard.read badFile =
    .ok ⟨.empty, [⟨1, 1, .complaint (.unknownKind "column")⟩]⟩ := by
  decide +kernel

theorem chooses_mssql : Chooses mssqlOptions mssqlSettings .mssql where
  takes := ⟨_, .flag (by decide) rfl (.text (by decide) rfl .nil), rfl, rfl⟩
  help := rfl
  listDialects := rfl
  dialect := rfl

/-- A malformed file, standard input, and a file that cannot be opened before another one. -/
def fourNames : List Text := ["bad", "-", "gone", "bad"]

theorem tally_badFile : Tally.ofInput mssqlSettings .mssql badFile = ⟨1, []⟩ :=
  Tally.ofInput_of_rejected read_badFile rfl

theorem tally_joined : Tally.ofInput mssqlSettings .mssql twoInputs.stdin =
    ⟨0, joinedPlan.toText ++ joinedSql⟩ := by
  have hout : output mssqlSettings .mssql joined = .ok (joinedPlan.toText ++ joinedSql) := by
    rw [output, toSql_joined, planText_joined]
    rfl
  exact Tally.ofInput_of_written read_joined rfl hout

theorem tally_fourNames :
    (Tally.ofInputs mssqlSettings .mssql (fourNames.map twoInputs.contents?)).errors = 2 := by
  have hcontents : fourNames.map twoInputs.contents? =
      [some badFile, some twoInputs.stdin, none, some badFile] := by
    decide
  rw [hcontents, Tally.ofInputs, Tally.ofInputs, Tally.ofInputs, tally_badFile, tally_joined]
  rfl

/-- The plan and the SQL of the query on standard input. -/
def printedText : Text :=
  Text.ofLines ["JoinPlan", "  anchor A", "  JOIN B ON ( A.x = B.x )", "SELECT", "          *",
    "FROM", "          A", "          JOIN B ON ( A.x = B.x )"]

theorem run_fourNames : Chooses mssqlOptions mssqlSettings .mssql ∧
    fourNames.count stdinName ≤ 1 ∧
    (Tally.ofInputs mssqlSettings .mssql (fourNames.map twoInputs.contents?)).errors < 2 ^ 32 ∧
    ∃ o, run "qgen" (mssqlOptions ++ OptionTable.terminator :: fourNames) twoInputs = .ok o ∧
      o.exitCode = 1 ∧ o.out = printedText ∧
      ∃ bad stdin,
        run "qgen" (mssqlOptions ++ [OptionTable.terminator, "bad"]) twoInputs = .ok bad ∧
        run "qgen" (mssqlOptions ++ [OptionTable.terminator, "-"]) twoInputs = .ok stdin ∧
        bad.exitCode = 1 ∧ bad.out = [] ∧ stdin.exitCode = 0 ∧ stdin.out = printedText := by
  have hstdin : fourNames.count stdinName ≤ 1 := by decide
  have hlt : (Tally.ofInputs mssqlSettings .mssql
      (fourNames.map twoInputs.contents?)).errors < 2 ^ 32 := by
    rw [tally_fourNames]
    decide
  obtain ⟨o, ho, single, hsingle, -, hmissing⟩ :=
    run_inputs "qgen" chooses_mssql (List.cons_ne_nil _ _) hstdin hlt
  obtain ⟨hexit, hout, hcontributes, -⟩ := hmissing ["bad", "-"] "gone" ["bad"] rfl (by decide) rfl
  have hbad := hcontributes "bad" (by decide) badFile rfl
  have hnot : (single "bad").exitCode ≠ 0 := by
    intro hzero
    obtain ⟨r, -, -, hr, hn, -⟩ := hbad.out_eq hzero
    cases hr.symm.trans read_badFile
    cases hn
  have hfails := hbad.exitCode_eq.resolve_left hnot
  have hnil := hbad.out_eq_nil_iff.mpr hfails
  obtain ⟨hzero, t, ht, htext⟩ :=
    (hcontributes "-" (by decide) twoInputs.stdin rfl).written _ _ read_joined rfl toSql_joined
  have hprinted : (single "-").out = printedText := by
    cases ht.planText_eq.symm.trans planText_joined
    exact htext.trans (by decide)
  refine ⟨chooses_mssql, hstdin, hlt, o, ho, hexit, ?_, _, _, hsingle "bad", hsingle "-", hfails,
    hnil, hzero, hprinted⟩
  simpa [hnil, hprinted] using hout

end SqlQuery.Sample
