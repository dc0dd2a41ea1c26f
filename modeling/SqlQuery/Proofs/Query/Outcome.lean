import SqlQuery.Proofs.Query.Source
import SqlQuery.Proofs.Query.Verdict

/-!
# The outcome of a query

A query is written, or there is an error to report (`Query.answered_toSql`).  The tables of a query
with joins are written in the order of its plan, so the order in which the query has them changes
neither the SQL nor the kind of the error (`Query.toSql_perm_tables`).
-/

namespace SqlQuery

/-- There is a result, or an error that is reported to the user. -/
def Answered {α : Type} (x : Except Failure α) : Prop :=
  (∃ a, x = .ok a) ∨ ∃ e, x = .error (.sql e)

theorem Answered.map {α β : Type} {x : Except Failure α} (h : Answered x) (f : α → β) :
    Answered (f <$> x) := by
  rcases h with ⟨a, rfl⟩ | ⟨e, rfl⟩
  · exact Or.inl ⟨f a, rfl⟩
  · exact Or.inr ⟨e, rfl⟩

/-! ## Writing a query -/

theorem JoinPlan.answered_resolve (d : Dialect) {edges : List JoinEdge} (h : edges ≠ []) :
    Answered (resolve d edges) := by
  obtain ⟨first, rest, hi⟩ := List.exists_cons_of_ne_nil (inOrder_ne_nil h)
  rcases resolve_cases hi d with ⟨u, hu⟩ | ⟨-, hp⟩ | ⟨e, -, he⟩
  · exact Or.inr ⟨.unsupported u, hu⟩
  · exact Or.inl ⟨_, hp⟩
  · exact Or.inr ⟨.query (.path e), he⟩

namespace Query

variable {q : Query} {d : Dialect}

theorem answered_source (d : Dialect) (h : q.tables ≠ []) : Answered (q.source d) := by
  by_cases hj : q.joins = []
  · rw [source, if_pos hj, if_neg h]
    exact Or.inl ⟨_, rfl⟩
  · rw [source, if_neg hj]
    rcases JoinPlan.answered_resolve d hj with ⟨p, hp⟩ | ⟨e, he⟩
    · rw [hp]
      dsimp only
      cases q.tables.find? (!p.uses ·) with
      | some t => exact Or.inr ⟨_, rfl⟩
      | none => exact Or.inl ⟨_, rfl⟩
    · rw [he]
      exact Or.inr ⟨e, rfl⟩

theorem limit_of_obstacle? (h : q.obstacle? d = none) :
    q.limit? = none ∨ d.capabilities.limitStyle ≠ .noLimit := by
  have hvalid := defect?_eq_none_iff.mpr (valid_of_obstacle? h)
  rw [obstacle?, hvalid] at h
  split at h
  · cases h
  · simpa [imp_iff_not_or] using h

theorem answered_toSql (q : Query) (d : Dialect) : Answered (q.toSql d) := by
  rw [toSql]
  cases h : q.obstacle? d with
  | some e => exact Or.inr ⟨e, rfl⟩
  | none => exact (answered_source d (valid_of_obstacle? h).tables_ne_nil).map _

end Query

/-! ## Outcomes that a user does not tell apart -/

/-- The kinds of errors that a user tells apart: constructs by their names, and defects of the query
by their kinds. -/
inductive SqlError.Kind where
  | unsupported (feature : Text)
  | query (kind : QueryError.Kind)
  deriving DecidableEq

def SqlError.kind : SqlError → Kind
  | .unsupported u => .unsupported u.feature
  | .query e => .query e.kind

/-- The same result, or two errors of one kind. -/
inductive SameOutcome {α : Type} : Except Failure α → Except Failure α → Prop
  | result (a : α) : SameOutcome (.ok a) (.ok a)
  | error {e e' : SqlError} : e.kind = e'.kind → SameOutcome (.error (.sql e)) (.error (.sql e'))

theorem SameOutcome.map {α β : Type} {x y : Except Failure α} (h : SameOutcome x y) (f : α → β) :
    SameOutcome (f <$> x) (f <$> y) := by
  cases h with
  | result a => exact .result (f a)
  | error hkind => exact .error hkind

theorem SameOutcome.eq_ok {α : Type} {a : α} {y : Except Failure α} (h : SameOutcome (.ok a) y) :
    y = .ok a := by
  cases h
  rfl

/-! ## The order of the tables -/

namespace Query

variable {q q' : Query} {d : Dialect} {ts : List TableRef}

theorem Rearranges.verdict_eq (h : q.Rearranges q') : q'.verdict = q.verdict := by
  by_cases hs : q.Sound
  · have hs' := h.sound_iff.mpr hs
    by_cases hu : q.Unrepeated
    · rw [verdict_of_unrepeated hs hu, verdict_of_unrepeated hs' (h.unrepeated_iff.mpr hu)]
    · rw [verdict_of_repeated hs hu, verdict_of_repeated hs' (mt h.unrepeated_iff.mp hu)]
  · rw [verdict_of_not_sound hs, verdict_of_not_sound (mt h.sound_iff.mp hs)]

theorem kind_obstacle?_perm_tables (h : ts.Perm q.tables) :
    ({ q with tables := ts }.obstacle? d).map SqlError.kind =
      (q.obstacle? d).map SqlError.kind := by
  have hsame : q.Rearranges { q with tables := ts } := ⟨h, .refl _⟩
  have hverdict := hsame.verdict_eq
  rw [verdict, verdict] at hverdict
  have houter : { q with tables := ts }.hasOuterJoin = q.hasOuterJoin := rfl
  simp only [obstacle?, houter]
  split
  · rfl
  · cases hd : q.defect? with
    | none =>
        rw [hd, Option.map_none, Option.map_eq_none_iff] at hverdict
        rw [hverdict]
    | some e =>
        rw [hd] at hverdict
        obtain ⟨e', hd', hkind⟩ := Option.map_eq_some_iff.mp hverdict
        rw [hd']
        exact congrArg (fun k => some (SqlError.Kind.query k)) hkind

/-- The plan is made from the joins alone, and whether it leaves out a table does not depend on the
order either; only which of several such tables is met first does. -/
theorem source_perm_tables (hj : q.joins ≠ []) (h : ts.Perm q.tables) :
    SameOutcome (q.source d) ({ q with tables := ts }.source d) := by
  rw [source, source, if_neg hj, if_neg hj]
  rcases JoinPlan.answered_resolve d hj with ⟨p, hp⟩ | ⟨e, he⟩
  · rw [hp]
    dsimp only
    cases hfind : q.tables.find? (!p.uses ·) with
    | none =>
        have hfind' : ts.find? (!p.uses ·) = none := by
          rw [List.find?_eq_none] at hfind ⊢
          exact fun t ht => hfind t (h.mem_iff.mp ht)
        rw [hfind']
        exact .result _
    | some t =>
        have ht : t ∈ ts := h.mem_iff.mpr (List.mem_of_find?_eq_some hfind)
        cases hfind' : ts.find? (!p.uses ·) with
        | none =>
            rw [List.find?_eq_none] at hfind'
            exact absurd (List.find?_some hfind) (hfind' t ht)
        | some t' => exact .error rfl
  · rw [he]
    exact .error rfl

/-- With joins, the order of the tables of a query has no influence on its SQL, nor on the kind of
the error if it is not written. -/
theorem toSql_perm_tables (hj : q.joins ≠ []) (h : ts.Perm q.tables) :
    SameOutcome (q.toSql d) ({ q with tables := ts }.toSql d) := by
  have hkind := kind_obstacle?_perm_tables (d := d) h
  rw [toSql, toSql]
  cases ho : q.obstacle? d with
  | none =>
      rw [ho, Option.map_none, Option.map_eq_none_iff] at hkind
      rw [hkind]
      exact (source_perm_tables hj h).map _
  | some e =>
      rw [ho] at hkind
      obtain ⟨e', ho', heq⟩ := Option.map_eq_some_iff.mp hkind
      rw [ho']
      exact .error heq.symm

end Query

namespace Sample

/-- The tables of `query` in another order are written as the same text. -/
theorem query_perm_tables : query.joins ≠ [] ∧ [tableA, tableB, tableC].Perm query.tables ∧
    { query with tables := [tableA, tableB, tableC] }.toSql strict = .ok sqlText := by
  have hj : query.joins ≠ [] := by decide
  have hperm : [tableA, tableB, tableC].Perm query.tables := by decide
  have hsame := Query.toSql_perm_tables (d := strict) hj hperm
  rw [toSql_query] at hsame
  exact ⟨hj, hperm, hsame.eq_ok⟩

/-- The error may name another table. -/
example : { query with tables := [tableA, tableA, tableB, tableB] }.toSql strict =
      .error (.sql (.query (.malformed (.repeatedReference "A")))) ∧
    { query with tables := [tableB, tableB, tableA, tableA] }.toSql strict =
      .error (.sql (.query (.malformed (.repeatedReference "B")))) := by
  decide

end Sample

end SqlQuery
