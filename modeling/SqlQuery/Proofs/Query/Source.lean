import SqlQuery.Proofs.Join.Shape
import SqlQuery.Proofs.Query.Validity
import SqlQuery.Query.Sql

/-!
# The tables of a written query

A query is written only if it is valid and has a source (`toSql_eq_ok_iff`).  The source lists every
table of the query once: without joins in their order, and with joins in the order of a plan whose
edges span the tables (`toSql_lists_tables`).
-/

namespace SqlQuery.Query

variable {d : Dialect} {q : Query} {s : Source} {sql : Text}

/-! ## Queries that are written -/

theorem valid_of_obstacle? (h : q.obstacle? d = none) : q.Valid := by
  rw [obstacle?] at h
  split at h
  · cases h
  · cases hd : q.defect? with
    | none => exact defect?_eq_none_iff.mp hd
    | some e => simp [hd] at h

theorem toSql_eq_ok_iff : q.toSql d = .ok sql ↔
    q.obstacle? d = none ∧ ∃ s, q.source d = .ok s ∧ sql = Text.ofLines (sqlLines d q s) := by
  rw [toSql]
  cases q.obstacle? d with
  | some e => simp
  | none =>
      cases q.source d with
      | error f => simp
      | ok s => simp [eq_comm]

/-- The lines of a query after those of its source. -/
def laterClauses (d : Dialect) (q : Query) (s : Source) : List Text :=
  conjunctionClause "WHERE" (s.deferred ++ q.filters) ++ listClause "GROUP BY" q.groupBy ++
    conjunctionClause "HAVING" q.having ++ listClause "ORDER BY" (q.orderBy.map orderText) ++
    limitClause d q

theorem sqlLines_eq (d : Dialect) (q : Query) (s : Source) :
    sqlLines d q s = selectClause d q ++ fromKeyword :: s.lines ++ laterClauses d q s := by
  simp only [sqlLines, laterClauses, List.append_assoc]

theorem toSql_ne_nil (h : q.toSql d = .ok sql) : sql ≠ [] := by
  obtain ⟨-, s, -, rfl⟩ := toSql_eq_ok_iff.mp h
  simp [sqlLines_eq, Text.ofLines, selectClause]

theorem source_of_joins_eq_nil (hj : q.joins = []) (h : q.source d = .ok s) :
    s = ⟨tableLines d q.tables, []⟩ := by
  rw [source, if_pos hj] at h
  split at h
  · cases h
  · cases h; rfl

theorem source_of_joins_ne_nil (hj : q.joins ≠ []) (h : q.source d = .ok s) :
    ∃ p, JoinPlan.resolve d q.joins = .ok p ∧ (∀ t ∈ q.tables, p.uses t = true) ∧
      s = ⟨planLines p, p.deferred⟩ := by
  rw [source, if_neg hj] at h
  split at h
  · cases h
  · rename_i p hp
    split at h
    · cases h
    · rename_i hfind
      cases h
      exact ⟨p, hp, by simpa using hfind, rfl⟩

theorem toSql_of_resolve {p : JoinPlan} (h : q.obstacle? d = none) (hj : q.joins ≠ [])
    (hp : JoinPlan.resolve d q.joins = .ok p) (huses : ∀ t ∈ q.tables, p.uses t = true) :
    q.toSql d = .ok (Text.ofLines (sqlLines d q ⟨planLines p, p.deferred⟩)) := by
  have hfind : q.tables.find? (!p.uses ·) = none := by simpa using huses
  refine toSql_eq_ok_iff.mpr ⟨h, _, ?_, rfl⟩
  simp only [source, if_neg hj, hp, hfind]

/-! ## Lines that list tables -/

/-- A line lists a table as an item of its own, or joins it to the tables before, perhaps on a
condition. -/
inductive Lists (t : TableRef) : Text → Prop
  | first : Lists t (indent ++ t.reference)
  | next : Lists t (listSeparator ++ t.reference)
  | join (type : JoinType) : Lists t (indent ++ type.keyword ++ " " ++ t.reference)
  | joinOn (type : JoinType) (condition : Text) :
      Lists t (indent ++ type.keyword ++ " " ++ t.reference ++ (" ON ( " ++ condition ++ " )"))

theorem forall₂_lists_tableLines (d : Dialect) (ts : List TableRef) :
    List.Forall₂ Lists ts (tableLines d ts) := by
  cases ts with
  | nil => exact .nil
  | cons t ts =>
      refine .cons .first (List.forall₂_map_right_iff.mpr (List.forall₂_map_right_iff.mpr ?_))
      refine List.forall₂_same.mpr fun u _ => ?_
      cases d.capabilities.commaFrom
      · exact .join .inner
      · exact .next

theorem lists_stepLine (s : JoinStep) : Lists s.table (stepLine s) := by
  obtain ⟨t, condition?, type⟩ := s
  cases condition? with
  | none =>
      simp only [stepLine, List.append_nil]
      exact .join type
  | some c => exact .joinOn type c

theorem forall₂_lists_planLines (p : JoinPlan) :
    List.Forall₂ Lists (p.steps.map (·.table)) (planLines p) := by
  refine .cons .first (List.forall₂_map_left_iff.mpr (List.forall₂_map_right_iff.mpr ?_))
  exact List.forall₂_same.mpr fun s _ => lists_stepLine s

/-! ## Plans that reach every table -/

theorem Valid.references_subset (h : q.Valid) :
    JoinEdge.references q.joins ⊆ q.tables.map (·.reference) := by
  intro t ht
  obtain ⟨e, he, rfl | rfl⟩ := JoinEdge.mem_references.mp ht
  · exact h.endpoint_mem e he .left
  · exact h.endpoint_mem e he .right

/-- The plan has no more tables than the query, and it has all of these. -/
theorem Valid.tables_perm (h : q.Valid) {p : JoinPlan} (hp : JoinPlan.resolve d q.joins = .ok p)
    (huses : ∀ t ∈ q.tables, p.uses t = true) : (p.steps.map (·.table)).Perm q.tables := by
  have hsub : q.tables ⊆ p.steps.map (·.table) := by
    intro t ht
    simpa [JoinPlan.uses] using huses t ht
  have hrefs := JoinPlan.references_perm hp
  have hle : (p.steps.map (·.table)).length ≤ q.tables.length := by
    have hlen :=
      (List.subperm_of_subset (JoinEdge.references_nodup _) h.references_subset).length_le
    rw [← hrefs.length_eq] at hlen
    simpa using hlen
  have hnodup : q.tables.Nodup := .of_map _ h.references_nodup
  exact ((List.subperm_of_subset hnodup hsub).perm_of_length_le hle).symm

theorem mem_vertices_joinGraph {edges : List JoinEdge} {t : Text} :
    t ∈ (joinGraph edges).vertices ↔ t ∈ JoinEdge.references edges := by
  rw [JoinEdge.mem_references]
  constructor
  · rintro ⟨_, hends, ht⟩
    obtain ⟨e, he, rfl⟩ := List.mem_map.mp hends
    exact ⟨e, he, Sym2.mem_iff.mp ht⟩
  · rintro ⟨e, he, ht⟩
    exact ⟨e.ends, ends_mem_joinGraph he, Sym2.mem_iff.mpr ht⟩

/-- The FROM clause of a written query lists every table once, and the other clauses follow it.
Without joins it is in the order of the tables; with joins it is in that of the plan, and the joins
are a spanning tree of the tables. -/
theorem toSql_lists_tables (h : q.toSql d = .ok sql) :
    (q.tables.map (·.reference)).Nodup ∧
      ∃ s, q.source d = .ok s ∧
        sql = Text.ofLines (selectClause d q ++ fromKeyword :: s.lines ++ laterClauses d q s) ∧
        (q.joins = [] → List.Forall₂ Lists q.tables s.lines) ∧
        (q.joins ≠ [] → ∃ p, JoinPlan.resolve d q.joins = .ok p ∧
          List.Forall₂ Lists (p.steps.map (·.table)) s.lines ∧
          (p.steps.map (·.table)).Perm q.tables ∧ q.joins.length + 1 = q.tables.length ∧
          (joinGraph q.joins).IsTree ∧
          ∀ t, t ∈ (joinGraph q.joins).vertices ↔ t ∈ q.tables.map (·.reference)) := by
  obtain ⟨hobstacle, s, hs, rfl⟩ := toSql_eq_ok_iff.mp h
  have hvalid := valid_of_obstacle? hobstacle
  refine ⟨hvalid.references_nodup, s, hs, by rw [sqlLines_eq], fun hj => ?_, fun hj => ?_⟩
  · rw [source_of_joins_eq_nil hj hs]
    exact forall₂_lists_tableLines d q.tables
  · obtain ⟨p, hp, huses, rfl⟩ := source_of_joins_ne_nil hj hs
    have hperm := hvalid.tables_perm hp huses
    refine ⟨p, hp, forall₂_lists_planLines p, hperm, ?_, ?_, fun t => ?_⟩
    · have hlen := hperm.length_eq
      rw [List.length_map, JoinPlan.length_steps hp] at hlen
      omega
    · exact (JoinPlan.exists_plan_iff hj (JoinPlan.supports_of_resolve hp)).mp ⟨p, hp⟩
    · rw [mem_vertices_joinGraph, ← (JoinPlan.references_perm hp).mem_iff,
        ← (hperm.map (·.reference)).mem_iff, List.map_map]
      rfl

end SqlQuery.Query

namespace SqlQuery.Sample

/-- The tables stand in another order than in the plan. -/
def query : Query := { tables := [tableC, tableB, tableA], joins := edges }

def sqlText : Text :=
  Text.ofLines ["SELECT", "          *", "FROM", "          A", "          JOIN C",
    "          LEFT OUTER JOIN B ON ( B.id = A.id )", "WHERE", "          ( A.x < C.x )"]

theorem toSql_query : query.toSql strict = .ok sqlText := by
  rw [Query.toSql_of_resolve (by decide) (by decide) resolve_eq (by decide)]
  decide

theorem query_lists_tables : query.toSql strict = .ok sqlText ∧
    ∃ s, query.source strict = .ok s ∧
      sqlText = Text.ofLines (Query.selectClause strict query ++
        Query.fromKeyword :: s.lines ++ Query.laterClauses strict query s) ∧
      List.Forall₂ Query.Lists (plan.steps.map (·.table)) s.lines ∧
      (plan.steps.map (·.table)).Perm query.tables ∧ (joinGraph query.joins).IsTree := by
  obtain ⟨-, s, hs, hsql, -, hjoins⟩ := Query.toSql_lists_tables toSql_query
  obtain ⟨p, hp, hlines, hperm, -, htree, -⟩ := hjoins (by decide)
  cases resolve_eq.symm.trans hp
  exact ⟨toSql_query, s, hs, hsql, hlines, hperm, htree⟩

end SqlQuery.Sample
