import Mathlib.Data.List.Nodup
import SqlQuery.Proofs.Join.Growth
import SqlQuery.Query.Validity

/-!
# Valid queries

A query has no flaw exactly if it keeps the rules of its tables and of every single join
(`flaw?_eq_none_iff`), and no defect exactly if it keeps every rule (`defect?_eq_none_iff`).
-/

namespace SqlQuery.Query

/-- The rules of a query, each for all tables and joins at once. -/
structure Valid (q : Query) : Prop where
  tables_ne_nil : q.tables ≠ []
  references_nodup : (q.tables.map (·.reference)).Nodup
  aliases_nodup : (q.tables.filterMap (·.alias?)).Nodup
  endpoint_mem : ∀ e ∈ q.joins, ∀ side, (e.endpoint side).reference ∈ q.tables.map (·.reference)
  left_ne_right : ∀ e ∈ q.joins, e.left ≠ e.right
  predicate_ne_nil : ∀ e ∈ q.joins, e.predicate ≠ []
  parallel : q.joins.Pairwise fun e f => e.connectsSameTables f = false

/-! ## Tables -/

theorem clash?_eq_none_iff {earlier : List TableRef} {t : TableRef} :
    clash? earlier t = none ↔
      t.reference ∉ earlier.map (·.reference) ∧
        ∀ a, t.alias? = some a → a ∉ earlier.filterMap (·.alias?) := by
  rw [clash?]
  split
  · rename_i h
    simp only [List.any_eq_true, beq_iff_eq] at h
    obtain ⟨u, hu, heq⟩ := h
    exact ⟨nofun, fun ⟨hr, _⟩ => absurd (List.mem_map.mpr ⟨u, hu, heq⟩) hr⟩
  · rename_i h
    simp only [List.any_eq_true, beq_iff_eq] at h
    have hr : t.reference ∉ earlier.map (·.reference) := by simpa using h
    cases t.alias? <;> simp [hr]

/-- Tables without a clash do not share a reference or an alias with each other or with an earlier
one. -/
theorem tablesFlaw?_eq_none_iff {earlier ts : List TableRef}
    (hr : (earlier.map (·.reference)).Nodup) (ha : (earlier.filterMap (·.alias?)).Nodup) :
    tablesFlaw? earlier ts = none ↔
      ((ts ++ earlier).map (·.reference)).Nodup ∧ ((ts ++ earlier).filterMap (·.alias?)).Nodup := by
  induction ts generalizing earlier with
  | nil => simp [tablesFlaw?, hr, ha]
  | cons t ts ih =>
      have hperm : (t :: ts ++ earlier).Perm (ts ++ t :: earlier) := List.perm_middle.symm
      rw [tablesFlaw?, (hperm.map _).nodup_iff, (hperm.filterMap _).nodup_iff,
        Option.or_eq_none_iff, clash?_eq_none_iff]
      constructor
      · rintro ⟨⟨htr, hta⟩, hts⟩
        have hr' : ((t :: earlier).map (·.reference)).Nodup := List.nodup_cons.mpr ⟨htr, hr⟩
        refine (ih hr' ?_).mp hts
        cases h : t.alias? with
        | none => simpa [h] using ha
        | some a => simpa [h] using ⟨by simpa using hta a h, ha⟩
      · rintro ⟨hnr, hna⟩
        rw [List.map_append] at hnr
        rw [List.filterMap_append] at hna
        have hr' := (List.nodup_append.mp hnr).2.1
        have ha' := (List.nodup_append.mp hna).2.1
        refine ⟨⟨(List.nodup_cons.mp hr').1, fun a h => ?_⟩, (ih hr' ha').mpr ⟨?_, ?_⟩⟩
        · rw [List.filterMap_cons_some h] at ha'
          exact (List.nodup_cons.mp ha').1
        · rwa [List.map_append]
        · rwa [List.filterMap_append]

/-! ## Joins -/

theorem joinFlaw?_eq_none_iff {tables : List TableRef} {e : JoinEdge} :
    joinFlaw? tables e = none ↔
      (∀ side, (e.endpoint side).reference ∈ tables.map (·.reference)) ∧ e.left ≠ e.right ∧
        e.predicate ≠ [] := by
  have hends : (∀ side, (e.endpoint side).reference ∈ tables.map (·.reference)) ↔
      tables.any (·.reference == e.left.reference) = true ∧
        tables.any (·.reference == e.right.reference) = true := by
    constructor
    · exact fun h => ⟨by simpa using h .left, by simpa using h .right⟩
    · rintro ⟨hl, hr⟩ side
      cases side
      · simpa using hl
      · simpa using hr
  rw [hends, joinFlaw?]
  cases tables.any (·.reference == e.left.reference) <;>
    cases tables.any (·.reference == e.right.reference) <;>
    by_cases hne : e.left = e.right <;> simp [hne]

theorem duplicatePath?_eq_none_iff {es : List JoinEdge} :
    duplicatePath? es = none ↔ es.Pairwise fun e f => e.connectsSameTables f = false := by
  induction es with
  | nil => simp [duplicatePath?]
  | cons e es ih =>
      rw [duplicatePath?, List.pairwise_cons]
      split
      · rename_i h
        simp only [List.any_eq_true] at h
        obtain ⟨f, hf, heq⟩ := h
        exact ⟨nofun, fun ⟨hall, _⟩ => by simp [hall f hf] at heq⟩
      · rename_i h
        simp only [List.any_eq_true, not_exists, not_and, Bool.not_eq_true] at h
        exact ih.trans ⟨fun hes => ⟨h, hes⟩, And.right⟩

/-! ## The whole query -/

/-- The rules of a query that do not compare its joins with each other. -/
structure Sound (q : Query) : Prop where
  tables_ne_nil : q.tables ≠ []
  references_nodup : (q.tables.map (·.reference)).Nodup
  aliases_nodup : (q.tables.filterMap (·.alias?)).Nodup
  endpoint_mem : ∀ e ∈ q.joins, ∀ side, (e.endpoint side).reference ∈ q.tables.map (·.reference)
  left_ne_right : ∀ e ∈ q.joins, e.left ≠ e.right
  predicate_ne_nil : ∀ e ∈ q.joins, e.predicate ≠ []

theorem flaw?_eq_none_iff {q : Query} : q.flaw? = none ↔ q.Sound := by
  have htables := @tablesFlaw?_eq_none_iff [] q.tables (by simp) (by simp)
  rw [List.append_nil] at htables
  have hrules : q.flaw? = none ↔ q.tables ≠ [] ∧ tablesFlaw? [] q.tables = none ∧
      ∀ e ∈ q.joins, joinFlaw? q.tables e = none := by
    rw [flaw?]
    split <;> simp_all
  rw [hrules, htables]
  simp only [joinFlaw?_eq_none_iff]
  constructor
  · rintro ⟨hne, ⟨hr, ha⟩, hjoins⟩
    exact ⟨hne, hr, ha, fun e he => (hjoins e he).1, fun e he => (hjoins e he).2.1,
      fun e he => (hjoins e he).2.2⟩
  · intro h
    exact ⟨h.tables_ne_nil, ⟨h.references_nodup, h.aliases_nodup⟩, fun e he =>
      ⟨h.endpoint_mem e he, h.left_ne_right e he, h.predicate_ne_nil e he⟩⟩

theorem defect?_eq_none_iff {q : Query} : q.defect? = none ↔ q.Valid := by
  rw [defect?, Option.or_eq_none_iff, Option.map_eq_none_iff, Option.map_eq_none_iff,
    flaw?_eq_none_iff, duplicatePath?_eq_none_iff]
  constructor
  · rintro ⟨⟨hne, hr, ha, hends, hself, hcond⟩, hpar⟩
    exact ⟨hne, hr, ha, hends, hself, hcond, hpar⟩
  · rintro ⟨hne, hr, ha, hends, hself, hcond, hpar⟩
    exact ⟨⟨hne, hr, ha, hends, hself, hcond⟩, hpar⟩

end SqlQuery.Query
