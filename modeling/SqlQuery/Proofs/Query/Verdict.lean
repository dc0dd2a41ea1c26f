import Mathlib.Data.Sym.Sym2
import SqlQuery.Proofs.Join.Resolution
import SqlQuery.Proofs.Query.Validity

/-!
# The verdict on a query

A query is malformed if one of its tables or joins breaks a rule by itself, and otherwise it has a
duplicate path if two joins connect the same tables.  The verdict is that kind of error
(`Query.verdict_exact`).  It depends neither on the order of the tables and joins nor on the
orientation of a join.
-/

namespace SqlQuery

/-- The kinds of defects that a user tells apart. -/
inductive QueryError.Kind where
  | malformed
  | duplicatePath
  | unreachablePath
  deriving DecidableEq

def QueryError.kind : QueryError → Kind
  | .malformed _ => .malformed
  | .path (.duplicate _ _) => .duplicatePath
  | .path (.unreachable _ _) => .unreachablePath

/-! ## Joins without orientation -/

namespace JoinEdge

variable {e f : JoinEdge}

/-- The two tables of a join in no order, and the condition on which they are joined. -/
def content (e : JoinEdge) : Sym2 TableRef × Text := (s(e.left, e.right), e.predicate)

theorem content_eq_iff : e.content = f.content ↔
    (e.left = f.left ∧ e.right = f.right ∨ e.left = f.right ∧ e.right = f.left) ∧
      e.predicate = f.predicate := by
  rw [content, content, Prod.mk.injEq, Sym2.eq_iff]

theorem exists_endpoint_eq (h : e.content = f.content) (side : Side) :
    ∃ side', e.endpoint side' = f.endpoint side := by
  rcases (content_eq_iff.mp h).1 with ⟨hl, hr⟩ | ⟨hl, hr⟩ <;> cases side
  · exact ⟨.left, hl⟩
  · exact ⟨.right, hr⟩
  · exact ⟨.right, hr⟩
  · exact ⟨.left, hl⟩

theorem connectsSameTables_eq_false_iff :
    e.connectsSameTables f = false ↔ e.content.1 ≠ f.content.1 := by
  rw [← Bool.not_eq_true, content, content, Ne, Sym2.eq_iff]
  simp [connectsSameTables]

end JoinEdge

namespace Query

variable {q q' : Query}

/-! ## The verdict -/

/-- No two joins connect the same tables, in whichever orientation. -/
def Unrepeated (q : Query) : Prop := q.joins.Pairwise fun e f => e.connectsSameTables f = false

/-- The kind of the defect of a query; a valid query has none. -/
def verdict (q : Query) : Option QueryError.Kind := q.defect?.map (·.kind)

theorem kind_of_duplicatePath? {es : List JoinEdge} {e : PathError}
    (h : duplicatePath? es = some e) : QueryError.kind (.path e) = .duplicatePath := by
  induction es with
  | nil => cases h
  | cons f es ih =>
      rw [duplicatePath?] at h
      split at h
      · cases h
        rfl
      · exact ih h

theorem verdict_of_not_sound (h : ¬q.Sound) : q.verdict = some .malformed := by
  rw [← flaw?_eq_none_iff] at h
  obtain ⟨flaw, hflaw⟩ := Option.ne_none_iff_exists'.mp h
  rw [verdict, defect?, hflaw]
  rfl

theorem verdict_of_repeated (h : q.Sound) (hrepeated : ¬q.Unrepeated) :
    q.verdict = some .duplicatePath := by
  rw [Unrepeated, ← duplicatePath?_eq_none_iff] at hrepeated
  obtain ⟨e, he⟩ := Option.ne_none_iff_exists'.mp hrepeated
  rw [verdict, defect?, flaw?_eq_none_iff.mpr h, he]
  exact congrArg some (kind_of_duplicatePath? he)

theorem verdict_of_unrepeated (h : q.Sound) (hu : q.Unrepeated) : q.verdict = none := by
  rw [verdict, defect?, flaw?_eq_none_iff.mpr h, duplicatePath?_eq_none_iff.mpr hu]
  rfl

/-! ## Other presentations of a query -/

/-- The queries have the same tables and the same joins, apart from the order in which these are
given and from the orientation of the joins. -/
structure Rearranges (q q' : Query) : Prop where
  tables : q'.tables.Perm q.tables
  joins : (q'.joins.map JoinEdge.content).Perm (q.joins.map JoinEdge.content)

namespace Rearranges

theorem symm (h : q.Rearranges q') : q'.Rearranges q := ⟨h.tables.symm, h.joins.symm⟩

theorem exists_join (h : q.Rearranges q') {f : JoinEdge} (hf : f ∈ q'.joins) :
    ∃ e ∈ q.joins, e.content = f.content :=
  List.mem_map.mp (h.joins.mem_iff.mp (List.mem_map_of_mem hf))

theorem sound (h : q.Rearranges q') (hq : q.Sound) : q'.Sound := by
  have hreferences := h.tables.map (·.reference)
  refine ⟨fun hnil => ?_, hreferences.nodup_iff.mpr hq.references_nodup,
    (h.tables.filterMap _).nodup_iff.mpr hq.aliases_nodup, fun f hf side => ?_, fun f hf => ?_,
    fun f hf => ?_⟩
  · exact hq.tables_ne_nil (List.nil_perm.mp (hnil ▸ h.tables))
  · obtain ⟨e, he, heq⟩ := h.exists_join hf
    obtain ⟨side', hside⟩ := JoinEdge.exists_endpoint_eq heq side
    rw [hreferences.mem_iff, ← hside]
    exact hq.endpoint_mem e he side'
  · obtain ⟨e, he, heq⟩ := h.exists_join hf
    have hne := hq.left_ne_right e he
    rcases (JoinEdge.content_eq_iff.mp heq).1 with ⟨hl, hr⟩ | ⟨hl, hr⟩
    · rwa [hl, hr] at hne
    · rw [hl, hr] at hne
      exact hne.symm
  · obtain ⟨e, he, heq⟩ := h.exists_join hf
    exact (JoinEdge.content_eq_iff.mp heq).2 ▸ hq.predicate_ne_nil e he

theorem sound_iff (h : q.Rearranges q') : q'.Sound ↔ q.Sound := ⟨h.symm.sound, h.sound⟩

theorem unrepeated_iff (h : q.Rearranges q') : q'.Unrepeated ↔ q.Unrepeated := by
  have hpairs := (h.joins.map Prod.fst).nodup_iff
  simpa [Unrepeated, List.Nodup, List.pairwise_map, JoinEdge.connectsSameTables_eq_false_iff]
    using hpairs

end Rearranges

/-! ## The verdict is exact -/

/-- A query is valid if it is sound and no join is repeated, has a duplicate path if it is sound and
a join is repeated, and is malformed if it is not sound.  Every presentation of the query gets the
same verdict. -/
theorem verdict_exact (h : q.Rearranges q') :
    (q.verdict = none ↔ q.Sound ∧ q.Unrepeated) ∧
      (q.verdict = some .duplicatePath ↔ q.Sound ∧ ¬q.Unrepeated) ∧
      (q.verdict = some .malformed ↔ ¬q.Sound) ∧
      q'.verdict = q.verdict := by
  have hsound := h.sound_iff
  have hunrepeated := h.unrepeated_iff
  by_cases hs : q.Sound
  · by_cases hu : q.Unrepeated
    · have hv := verdict_of_unrepeated hs hu
      have hv' := verdict_of_unrepeated (hsound.mpr hs) (hunrepeated.mpr hu)
      simp [hv, hv', hs, hu]
    · have hv := verdict_of_repeated hs hu
      have hv' := verdict_of_repeated (hsound.mpr hs) (mt hunrepeated.mp hu)
      simp [hv, hv', hs, hu]
  · have hv := verdict_of_not_sound hs
    have hv' := verdict_of_not_sound (mt hsound.mp hs)
    simp [hv, hv', hs]

end Query

namespace Sample

/-- The tables `A` and `B` are joined twice. -/
def twice : Query where
  tables := [tableA, tableB, tableC]
  joins := [edgeAB, edgeBC, ⟨tableB, tableA, "B.w = A.w", [], .left⟩]

def twiceRearranged : Query where
  tables := [tableC, tableA, tableB]
  joins := [⟨tableC, tableB, "B.y = C.y", "3", .inner⟩, ⟨tableA, tableB, "B.w = A.w", [], .right⟩,
    ⟨tableB, tableA, "A.x = B.x", "1", .inner⟩]

theorem twice_rearranges : twice.Rearranges twiceRearranged := ⟨by decide, by decide⟩

theorem twice_verdict : twice.Rearranges twiceRearranged ∧ twice.Sound ∧ ¬twice.Unrepeated ∧
    twiceRearranged.verdict = some .duplicatePath := by
  obtain ⟨-, hrepeated, -, hsame⟩ := Query.verdict_exact twice_rearranges
  have hverdict : twice.verdict = some .duplicatePath := by decide
  obtain ⟨hsound, hnot⟩ := hrepeated.mp hverdict
  exact ⟨twice_rearranges, hsound, hnot, hsame.trans hverdict⟩

end Sample

end SqlQuery
