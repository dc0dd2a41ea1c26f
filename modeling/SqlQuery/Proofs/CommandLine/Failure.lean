import SqlQuery.CommandLine.Run
import SqlQuery.Proofs.Query.Outcome
import SqlQuery.Proofs.Record.RoundTrip

/-!
# What can fail

Every file is read, and a query that is not written has an error to report (`Query.answered_toSql`).
Misuse and the internal checks play no part in it, so every run of the program comes to an end
(`CommandLine.only_reported_failures`).
-/

namespace SqlQuery

/-! ## Reading a file -/

theorem Format.split_ne_nil (f : Format) (line : Text) : f.split line ≠ .ok [] :=
  fun h => (split_eq_ok h).1 rfl

theorem Record.ofFields_ne_failed (kind : Field) (arguments : List Field) (e : Failure) :
    ofFields kind arguments ≠ .error (.failed e) := by
  intro h
  have hyields := Yields.ofFields kind arguments
  rw [h] at hyields
  cases hyields

/-! ## Running the program -/

namespace CommandLine

variable {s : Settings} {d : Dialect} {q : Query} {sql : Text}

/-- What is printed before the SQL: the plan of a query with joins, if it is asked for. -/
inductive Precedes (s : Settings) (d : Dialect) (q : Query) : Text → Prop
  | plan {p : JoinPlan} : s.plan = true → q.joins ≠ [] → JoinPlan.resolve d q.joins = .ok p →
      Precedes s d q p.toText
  | nothing : s.plan = false ∨ q.joins = [] → Precedes s d q []

theorem Precedes.planText_eq {t : Text} (h : Precedes s d q t) : planText s d q = .ok t := by
  cases h with
  | plan hplan hj hp => simp [planText, hplan, hj, hp]
  | nothing h => rcases h with h | h <;> simp [planText, h]

/-- The joins of a query that is written can be resolved once more. -/
theorem exists_planText (s : Settings) (h : q.toSql d = .ok sql) :
    ∃ t, planText s d q = .ok t ∧ Precedes s d q t := by
  rw [planText]
  split
  · rename_i hplan
    obtain ⟨hplan, hj⟩ : s.plan = true ∧ q.joins ≠ [] := by simpa using hplan
    obtain ⟨-, _, hs, -⟩ := Query.toSql_eq_ok_iff.mp h
    obtain ⟨p, hp, -, -⟩ := Query.source_of_joins_ne_nil hj hs
    exact ⟨p.toText, by rw [hp]; rfl, .plan hplan hj hp⟩
  · rename_i hplan
    refine ⟨[], rfl, .nothing ?_⟩
    simpa [Classical.or_iff_not_imp_left] using hplan

theorem exists_output (s : Settings) (h : q.toSql d = .ok sql) :
    ∃ t, output s d q = .ok (t ++ sql) ∧ Precedes s d q t := by
  obtain ⟨t, ht, hprecedes⟩ := exists_planText s h
  refine ⟨t, ?_, hprecedes⟩
  rw [output, h, ht]
  rfl

theorem output_of_error {f : Failure} (s : Settings) (h : q.toSql d = .error f) :
    output s d q = .error f := by
  rw [output, h]
  rfl

end CommandLine

end SqlQuery
