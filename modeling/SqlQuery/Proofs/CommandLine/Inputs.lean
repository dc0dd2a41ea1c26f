import SqlQuery.Proofs.CommandLine.Failure
import SqlQuery.Proofs.Record.Recovery

/-!
# The inputs of a run

An input is rejected, written, or refused by the dialect (`Processes`), and the inputs are taken one
after the other (`ProcessesAll`).  All of them share one tally of errors, but as long as that does
not overflow, each adds what it comes to by itself (`ProcessesAll.adds`).
-/

namespace SqlQuery

theorem Diagnostics.out_remarks (d : Diagnostics) (name : Text) (rs : List Remark) :
    (d.remarks name rs).out = d.out := by
  induction rs generalizing d with
  | nil => rfl
  | cons r rs ih =>
      refine (ih (remark name d r)).trans ?_
      obtain ⟨line, column, finding⟩ := r
      cases finding <;> rfl

namespace CommandLine

variable {s : Settings} {d : Dialect} {inputs : Inputs} {log log' log'' : Diagnostics}
  {name contents : Text} {names : List Text}

/-! ## Steps -/

/-- What one input does to the messages. -/
inductive Processes (s : Settings) (d : Dialect) (name contents : Text) (log : Diagnostics) :
    Diagnostics → Prop
  | rejected {r : Reading} : Format.standard.read contents = .ok r →
      (log.remarks name r.remarks).errors ≠ log.errors →
      Processes s d name contents log (log.remarks name r.remarks)
  | written {r : Reading} {sql t : Text} : Format.standard.read contents = .ok r →
      (log.remarks name r.remarks).errors = log.errors →
      (limited s r.query).toSql d = .ok sql → Precedes s d (limited s r.query) t →
      output s d (limited s r.query) = .ok (t ++ sql) →
      Processes s d name contents log ((log.remarks name r.remarks).print (t ++ sql))
  | refused {r : Reading} {e : SqlError} : Format.standard.read contents = .ok r →
      (log.remarks name r.remarks).errors = log.errors →
      output s d (limited s r.query) = .error (.sql e) →
      Processes s d name contents log ((log.remarks name r.remarks).reportError
        (name ++ ": " ++ (Failure.sql e).message ++ "\n"))

section Read

variable {r : Reading} (hr : Format.standard.read contents = .ok r)

include hr

theorem processInput_of_rejected (h : (log.remarks name r.remarks).errors ≠ log.errors) :
    processInput s d name contents log = .ok (log.remarks name r.remarks) := by
  rw [processInput, hr]
  simp [bind, Except.bind, pure, Except.pure, h]

theorem processInput_of_written {t : Text} (h : (log.remarks name r.remarks).errors = log.errors)
    (ht : output s d (limited s r.query) = .ok t) :
    processInput s d name contents log = .ok ((log.remarks name r.remarks).print t) := by
  rw [processInput, hr]
  simp [bind, Except.bind, pure, Except.pure, h, ht]

theorem processInput_of_refused {e : SqlError}
    (h : (log.remarks name r.remarks).errors = log.errors)
    (he : output s d (limited s r.query) = .error (.sql e)) :
    processInput s d name contents log = .ok ((log.remarks name r.remarks).reportError
      (name ++ ": " ++ (Failure.sql e).message ++ "\n")) := by
  rw [processInput, hr]
  simp [bind, Except.bind, pure, Except.pure, h, he]

end Read

theorem exists_processes (s : Settings) (d : Dialect) (name contents : Text) (log : Diagnostics) :
    ∃ log', processInput s d name contents log = .ok log' ∧
      Processes s d name contents log log' := by
  obtain ⟨r, hr, -⟩ := Format.exists_read Format.standard contents
  by_cases herrors : (log.remarks name r.remarks).errors = log.errors
  · rcases Query.answered_toSql (limited s r.query) d with ⟨sql, hsql⟩ | ⟨e, he⟩
    · obtain ⟨t, ht, hprecedes⟩ := exists_output s hsql
      exact ⟨_, processInput_of_written hr herrors ht, .written hr herrors hsql hprecedes ht⟩
    · have he' := output_of_error s he
      exact ⟨_, processInput_of_refused hr herrors he', .refused hr herrors he'⟩
  · exact ⟨_, processInput_of_rejected hr herrors, .rejected hr herrors⟩

/-- Processing inputs one by one, up to the first that cannot be opened. -/
inductive ProcessesAll (s : Settings) (d : Dialect) :
    Inputs → Diagnostics → List Text → Diagnostics → Prop
  | nil {inputs : Inputs} {log : Diagnostics} : ProcessesAll s d inputs log [] log
  | stdin {inputs : Inputs} {log log' log'' : Diagnostics} {names : List Text} :
      Processes s d stdinName inputs.stdin log log' →
      ProcessesAll s d { inputs with stdin := [] } log' names log'' →
      ProcessesAll s d inputs log (stdinName :: names) log''
  | file {inputs : Inputs} {log log' log'' : Diagnostics} {name contents : Text}
      {names : List Text} : name ≠ stdinName → inputs.file name = .ok contents →
      Processes s d name contents log log' → ProcessesAll s d inputs log' names log'' →
      ProcessesAll s d inputs log (name :: names) log''
  | missing {inputs : Inputs} {log : Diagnostics} {name reason : Text} {names : List Text} :
      name ≠ stdinName → inputs.file name = .error reason →
      ProcessesAll s d inputs log (name :: names) (log.reportError (openMessage name reason))

theorem exists_processesAll (s : Settings) (d : Dialect) (inputs : Inputs) (log : Diagnostics)
    (names : List Text) : ∃ log', processInputs s d inputs log names = .ok log' ∧
      ProcessesAll s d inputs log names log' := by
  induction names generalizing inputs log with
  | nil => exact ⟨log, rfl, .nil⟩
  | cons name names ih =>
      rw [processInputs]
      by_cases hname : name = stdinName
      · subst hname
        obtain ⟨log', hlog', hstep⟩ := exists_processes s d stdinName inputs.stdin log
        obtain ⟨log'', hlog'', hrest⟩ := ih { inputs with stdin := [] } log'
        refine ⟨log'', ?_, .stdin hstep hrest⟩
        rw [if_pos rfl, hlog']
        exact hlog''
      · rw [if_neg hname]
        cases hfile : inputs.file name with
        | error reason => exact ⟨_, rfl, .missing hname hfile⟩
        | ok contents =>
            obtain ⟨log', hlog', hstep⟩ := exists_processes s d name contents log
            obtain ⟨log'', hlog'', hrest⟩ := ih inputs log'
            refine ⟨log'', ?_, .file hname hfile hstep hrest⟩
            dsimp only
            rw [hlog']
            exact hlog''

/-! ## Tallies -/

/-- How many errors some inputs have, and what is printed for them. -/
structure Tally where
  errors : Nat
  out : Text
  deriving DecidableEq

namespace Tally

def append (t u : Tally) : Tally := ⟨t.errors + u.errors, t.out ++ u.out⟩

theorem append_assoc (t u v : Tally) : (t.append u).append v = t.append (u.append v) := by
  simp only [append, Nat.add_assoc, List.append_assoc]

theorem left_lt {t u : Tally} {n : Nat} (h : (t.append u).errors < n) : t.errors < n :=
  (Nat.le_add_right _ _).trans_lt h

theorem right_lt {t u : Tally} {n : Nat} (h : (t.append u).errors < n) : u.errors < n :=
  (Nat.le_add_left _ _).trans_lt h

/-- What an input comes to by itself: one error for each rejected line or for the query, or else the
text of the query. -/
def ofInput (s : Settings) (d : Dialect) (contents : Text) : Tally :=
  match Format.standard.read contents with
  | .error _ => ⟨0, []⟩ -- never, as every file is read
  | .ok r =>
    match r.remarks.countP (·.isComplaint), output s d (limited s r.query) with
    | 0, .ok t => ⟨0, t⟩
    | 0, .error _ => ⟨1, []⟩
    | n + 1, _ => ⟨n + 1, []⟩

theorem ofInput_of_rejected {r : Reading} {n : Nat} (hr : Format.standard.read contents = .ok r)
    (hn : r.remarks.countP (·.isComplaint) = n + 1) : ofInput s d contents = ⟨n + 1, []⟩ := by
  simp only [ofInput, hr, hn]

theorem ofInput_of_written {r : Reading} {t : Text} (hr : Format.standard.read contents = .ok r)
    (hn : r.remarks.countP (·.isComplaint) = 0) (ht : output s d (limited s r.query) = .ok t) :
    ofInput s d contents = ⟨0, t⟩ := by
  simp only [ofInput, hr, hn, ht]

theorem ofInput_of_refused {r : Reading} {e : Failure} (hr : Format.standard.read contents = .ok r)
    (hn : r.remarks.countP (·.isComplaint) = 0) (he : output s d (limited s r.query) = .error e) :
    ofInput s d contents = ⟨1, []⟩ := by
  simp only [ofInput, hr, hn, he]

/-- What inputs with the given contents come to, up to the first that cannot be opened. -/
def ofInputs (s : Settings) (d : Dialect) : List (Option Text) → Tally
  | [] => ⟨0, []⟩
  | none :: _ => ⟨1, []⟩
  | some contents :: rest => (ofInput s d contents).append (ofInputs s d rest)

theorem ofInput_cases (s : Settings) (d : Dialect) (contents : Text) :
    ((ofInput s d contents).errors ≠ 0 ∧ (ofInput s d contents).out = []) ∨
      (ofInput s d contents).errors = 0 ∧ ∃ r sql t, Format.standard.read contents = .ok r ∧
        r.remarks.countP (·.isComplaint) = 0 ∧ (limited s r.query).toSql d = .ok sql ∧
        Precedes s d (limited s r.query) t ∧ (ofInput s d contents).out = t ++ sql := by
  obtain ⟨r, hr, -⟩ := Format.exists_read Format.standard contents
  cases hn : r.remarks.countP (·.isComplaint) with
  | succ n =>
      rw [ofInput_of_rejected hr hn]
      exact Or.inl ⟨Nat.succ_ne_zero n, rfl⟩
  | zero =>
      rcases Query.answered_toSql (limited s r.query) d with ⟨sql, hsql⟩ | ⟨e, he⟩
      · obtain ⟨t, ht, hprecedes⟩ := exists_output s hsql
        rw [ofInput_of_written hr hn ht]
        exact Or.inr ⟨rfl, r, sql, t, hr, hn, hsql, hprecedes, rfl⟩
      · rw [ofInput_of_refused hr hn (output_of_error s he)]
        exact Or.inl ⟨one_ne_zero, rfl⟩

theorem ofInputs_singleton (contents : Text) :
    ofInputs s d [some contents] = ofInput s d contents := by
  rw [ofInputs, ofInputs, append, Nat.add_zero, List.append_nil]

theorem ofInputs_cons {c : Option Text} (h : c.isSome) (cs : List (Option Text)) :
    ofInputs s d (c :: cs) = (ofInputs s d [c]).append (ofInputs s d cs) := by
  obtain ⟨contents, rfl⟩ := Option.isSome_iff_exists.mp h
  rw [ofInputs_singleton, ofInputs]

variable {cs : List (Option Text)}

theorem ofInputs_append (h : ∀ c ∈ cs, c.isSome) (rest : List (Option Text)) :
    ofInputs s d (cs ++ rest) = (ofInputs s d cs).append (ofInputs s d rest) := by
  induction cs with
  | nil => simp [ofInputs, append]
  | cons c cs ih =>
      obtain ⟨hc, hcs⟩ := List.forall_mem_cons.mp h
      rw [List.cons_append, ofInputs_cons hc (cs ++ rest), ofInputs_cons hc cs, ih hcs,
        append_assoc]

theorem out_ofInputs (h : ∀ c ∈ cs, c.isSome) :
    (ofInputs s d cs).out = cs.flatMap fun c => (ofInputs s d [c]).out := by
  induction cs with
  | nil => rfl
  | cons c cs ih =>
      obtain ⟨hc, hcs⟩ := List.forall_mem_cons.mp h
      rw [ofInputs_cons hc, append, ih hcs, List.flatMap_cons]

theorem errors_ofInputs_eq_zero_iff (h : ∀ c ∈ cs, c.isSome) :
    (ofInputs s d cs).errors = 0 ↔ ∀ c ∈ cs, (ofInputs s d [c]).errors = 0 := by
  induction cs with
  | nil => simp [ofInputs]
  | cons c cs ih =>
      obtain ⟨hc, hcs⟩ := List.forall_mem_cons.mp h
      rw [ofInputs_cons hc, append, Nat.add_eq_zero_iff, ih hcs, List.forall_mem_cons]

theorem errors_lt_of_mem {c : Option Text} {n : Nat} (h : ∀ c ∈ cs, c.isSome) (hmem : c ∈ cs)
    (hlt : (ofInputs s d cs).errors < n) : (ofInputs s d [c]).errors < n := by
  induction cs with
  | nil => cases hmem
  | cons b cs ih =>
      obtain ⟨hb, hcs⟩ := List.forall_mem_cons.mp h
      rw [ofInputs_cons hb] at hlt
      rcases List.mem_cons.mp hmem with rfl | hmem
      · exact left_lt hlt
      · exact ih hcs hmem (right_lt hlt)

end Tally

/-- The messages after some inputs, if there were so many errors and this was printed. -/
structure Adds (log : Diagnostics) (t : Tally) (log' : Diagnostics) : Prop where
  errors : log'.errors = log.errors + UInt32.ofNat t.errors
  out : log'.out = log.out ++ t.out

theorem Adds.append {t u : Tally} (h : Adds log t log') (h' : Adds log' u log'') :
    Adds log (t.append u) log'' := by
  constructor
  · rw [h'.errors, h.errors, Tally.append, UInt32.ofNat_add, UInt32.add_assoc]
  · rw [h'.out, h.out, Tally.append, List.append_assoc]

theorem Adds.reportError (log : Diagnostics) (message : Text) :
    Adds log ⟨1, []⟩ (log.reportError message) :=
  ⟨rfl, (List.append_nil _).symm⟩

theorem Adds.print (log : Diagnostics) (t : Text) : Adds log ⟨0, t⟩ (log.print t) :=
  ⟨(UInt32.add_zero _).symm, rfl⟩

/-! ## What a run adds -/

theorem ofNat_eq_zero_iff {n : Nat} (h : n < 2 ^ 32) : UInt32.ofNat n = 0 ↔ n = 0 := by
  rw [← UInt32.toNat_inj, UInt32.toNat_ofNat_of_lt' h, UInt32.toNat_zero]

theorem countP_le_errors {r : Reading} (hr : Format.standard.read contents = .ok r) :
    r.remarks.countP (·.isComplaint) ≤ (Tally.ofInput s d contents).errors := by
  cases hn : r.remarks.countP (·.isComplaint) with
  | zero => exact Nat.zero_le _
  | succ n => rw [Tally.ofInput_of_rejected hr hn]

/-- The counter shows whether there was a complaint, as it does not come back to where it was. -/
theorem errors_remarks_eq_iff {r : Reading} (hr : Format.standard.read contents = .ok r)
    (hlt : (Tally.ofInput s d contents).errors < 2 ^ 32) :
    (log.remarks name r.remarks).errors = log.errors ↔
      r.remarks.countP (·.isComplaint) = 0 := by
  rw [Diagnostics.errors_remarks_eq_iff]
  have hcount := (countP_le_errors hr).trans_lt hlt
  exact ⟨fun h => Nat.eq_zero_of_dvd_of_lt h hcount, fun h => h ▸ dvd_zero _⟩

theorem adds_remarks {rs : List Remark} {n : Nat} (h : rs.countP (·.isComplaint) = n) :
    Adds log ⟨n, []⟩ (log.remarks name rs) :=
  ⟨by rw [Diagnostics.errors_remarks, h], by rw [Diagnostics.out_remarks, List.append_nil]⟩

theorem Processes.adds (h : Processes s d name contents log log')
    (hlt : (Tally.ofInput s d contents).errors < 2 ^ 32) :
    Adds log (Tally.ofInput s d contents) log' := by
  cases h with
  | rejected hr hne =>
      obtain ⟨n, hn⟩ := Nat.exists_eq_succ_of_ne_zero (mt (errors_remarks_eq_iff hr hlt).mpr hne)
      exact Tally.ofInput_of_rejected hr hn ▸ adds_remarks hn
  | written hr heq _ _ hout =>
      have hn := (errors_remarks_eq_iff hr hlt).mp heq
      exact Tally.ofInput_of_written hr hn hout ▸ (adds_remarks hn).append (.print _ _)
  | refused hr heq hout =>
      have hn := (errors_remarks_eq_iff hr hlt).mp heq
      exact Tally.ofInput_of_refused hr hn hout ▸ (adds_remarks hn).append (.reportError _ _)

/-- What the named input holds, if it can be opened. -/
def Inputs.contents? (inputs : Inputs) (name : Text) : Option Text :=
  if name = stdinName then some inputs.stdin else (inputs.file name).toOption

theorem contents?_stdinName (inputs : Inputs) : inputs.contents? stdinName = some inputs.stdin :=
  if_pos rfl

theorem contents?_of_ne (h : name ≠ stdinName) :
    inputs.contents? name = (inputs.file name).toOption :=
  if_neg h

/-- Whether standard input was read does not matter to other inputs. -/
theorem map_contents?_of_not_mem (h : stdinName ∉ names) (t : Text) :
    names.map { inputs with stdin := t }.contents? = names.map inputs.contents? := by
  refine List.map_congr_left fun name hname => ?_
  have hne : name ≠ stdinName := fun heq => h (heq ▸ hname)
  rw [contents?_of_ne hne, contents?_of_ne hne]

theorem ProcessesAll.adds (h : ProcessesAll s d inputs log names log')
    (hstdin : names.count stdinName ≤ 1)
    (hlt : (Tally.ofInputs s d (names.map inputs.contents?)).errors < 2 ^ 32) :
    Adds log (Tally.ofInputs s d (names.map inputs.contents?)) log' := by
  induction h with
  | nil => exact ⟨(UInt32.add_zero _).symm, (List.append_nil _).symm⟩
  | stdin hstep _ ih =>
      -- From now on standard input is empty, but no later name stands for it.
      rw [List.count_cons_self] at hstdin
      have hmem := List.count_eq_zero.mp (Nat.le_zero.mp (Nat.le_of_succ_le_succ hstdin))
      rw [List.map_cons, contents?_stdinName, Tally.ofInputs] at hlt ⊢
      rw [map_contents?_of_not_mem hmem] at ih
      exact (hstep.adds (Tally.left_lt hlt)).append (ih (by omega) (Tally.right_lt hlt))
  | file hne hfile hstep _ ih =>
      rw [List.count_cons_of_ne hne] at hstdin
      rw [List.map_cons, contents?_of_ne hne, hfile, Except.toOption, Tally.ofInputs] at hlt ⊢
      exact (hstep.adds (Tally.left_lt hlt)).append (ih hstdin (Tally.right_lt hlt))
  | missing hne hfile =>
      rw [List.map_cons, contents?_of_ne hne, hfile, Except.toOption]
      exact .reportError _ _

end CommandLine

end SqlQuery
