import SqlQuery.Proofs.CommandLine.Inputs

/-!
# Runs that agree

Two runs with settings and inputs of their own take the same names in turn.  If each input has as
many rejected lines in the one run as in the other, and its query comes out the same
(`Corresponds`), then both runs print the same and count the same errors
(`Corresponds.exists_processInputs`).  They may warn of different things.
-/

namespace SqlQuery.CommandLine

variable {s s' : Settings} {d : Dialect} {inputs inputs' : Inputs} {log log' : Diagnostics}
  {contents contents' : Text}

theorem answered_output (s : Settings) (d : Dialect) (q : Query) : Answered (output s d q) := by
  rcases Query.answered_toSql q d with ⟨sql, hsql⟩ | ⟨e, he⟩
  · obtain ⟨t, ht, -⟩ := exists_output s hsql
    exact Or.inl ⟨t ++ sql, ht⟩
  · exact Or.inr ⟨e, output_of_error s he⟩

/-! ## Messages -/

/-- The same was printed, and there were as many errors. -/
structure Agree (log log' : Diagnostics) : Prop where
  errors : log'.errors = log.errors
  out : log'.out = log.out

namespace Agree

theorem refl (log : Diagnostics) : Agree log log := ⟨rfl, rfl⟩

theorem print (h : Agree log log') (t : Text) : Agree (log.print t) (log'.print t) :=
  ⟨h.errors, congrArg (· ++ t) h.out⟩

theorem reportError (h : Agree log log') (message : Text) :
    Agree (log.reportError message) (log'.reportError message) :=
  ⟨congrArg (· + 1) h.errors, h.out⟩

theorem remarks {rs rs' : List Remark} (h : Agree log log') (name : Text)
    (hcount : rs'.countP (·.isComplaint) = rs.countP (·.isComplaint)) :
    Agree (log.remarks name rs) (log'.remarks name rs') := by
  constructor
  · rw [Diagnostics.errors_remarks, Diagnostics.errors_remarks, hcount, h.errors]
  · rw [Diagnostics.out_remarks, Diagnostics.out_remarks, h.out]

theorem exitCode (h : Agree log log') : (outcome log').exitCode = (outcome log).exitCode := by
  rw [outcome, outcome, h.errors]

end Agree

/-! ## Inputs -/

/-- Both texts are read with as many complaints, and their queries come out the same under the
settings of the respective run. -/
def Alike (s s' : Settings) (d : Dialect) (contents contents' : Text) : Prop :=
  ∃ r r', Format.standard.read contents = .ok r ∧ Format.standard.read contents' = .ok r' ∧
    r'.remarks.countP (·.isComplaint) = r.remarks.countP (·.isComplaint) ∧
    output s' d (limited s' r'.query) = output s d (limited s r.query)

theorem Alike.exists_processInput (h : Alike s s' d contents contents') (hlog : Agree log log')
    (name : Text) : ∃ l l', processInput s d name contents log = .ok l ∧
      processInput s' d name contents' log' = .ok l' ∧ Agree l l' := by
  obtain ⟨r, r', hr, hr', hcount, hout⟩ := h
  have hread := hlog.remarks name hcount
  -- Either both counters of errors have moved on or none has.
  have hsame : (log'.remarks name r'.remarks).errors = log'.errors ↔
      (log.remarks name r.remarks).errors = log.errors := by
    rw [hread.errors, hlog.errors]
  by_cases herrors : (log.remarks name r.remarks).errors = log.errors
  · have herrors' := hsame.mpr herrors
    rcases answered_output s d (limited s r.query) with ⟨t, ht⟩ | ⟨e, he⟩
    · rw [ht] at hout
      exact ⟨_, _, processInput_of_written hr herrors ht,
        processInput_of_written hr' herrors' hout, hread.print t⟩
    · rw [he] at hout
      exact ⟨_, _, processInput_of_refused hr herrors he,
        processInput_of_refused hr' herrors' hout, hread.reportError _⟩
  · exact ⟨_, _, processInput_of_rejected hr herrors,
      processInput_of_rejected hr' (mt hsame.mp herrors), hread⟩

/-- Everything that can be read in one run can be read in the other, and alike. -/
structure Corresponds (s s' : Settings) (d : Dialect) (inputs inputs' : Inputs) : Prop where
  /-- Standard input is read once and is empty from then on, in both runs. -/
  empty : Alike s s' d [] []
  stdin : Alike s s' d inputs.stdin inputs'.stdin
  file : ∀ name, (∃ reason, inputs.file name = .error reason ∧ inputs'.file name = .error reason) ∨
    ∃ contents contents', inputs.file name = .ok contents ∧ inputs'.file name = .ok contents' ∧
      Alike s s' d contents contents'

theorem Corresponds.exists_processInputs (h : Corresponds s s' d inputs inputs')
    (hlog : Agree log log') (names : List Text) :
    ∃ l l', processInputs s d inputs log names = .ok l ∧
      processInputs s' d inputs' log' names = .ok l' ∧ Agree l l' := by
  induction names generalizing inputs inputs' log log' with
  | nil => exact ⟨log, log', rfl, rfl, hlog⟩
  | cons name names ih =>
      rw [processInputs, processInputs]
      by_cases hname : name = stdinName
      · rw [if_pos hname, if_pos hname]
        obtain ⟨l, l', hl, hl', hstep⟩ := h.stdin.exists_processInput hlog name
        rw [hl, hl']
        exact ih ⟨h.empty, h.empty, h.file⟩ hstep
      · rw [if_neg hname, if_neg hname]
        rcases h.file name with ⟨reason, hfile, hfile'⟩ | ⟨contents, contents', hfile, hfile', ha⟩
        · rw [hfile, hfile']
          exact ⟨_, _, rfl, rfl, hlog.reportError _⟩
        · obtain ⟨l, l', hl, hl', hstep⟩ := ha.exists_processInput hlog name
          rw [hfile, hfile']
          dsimp only
          rw [hl, hl']
          exact ih h hstep

end SqlQuery.CommandLine
