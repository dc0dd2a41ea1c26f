import Mathlib.Data.List.Find
import SqlQuery.Proofs.Join.Renaming
import SqlQuery.Proofs.Query.Source

/-!
# Reference texts as the identity of tables

The tables of a query are compared by their reference texts in some places, and by name and alias in
others.  Where the two ways agree (`Query.Unequivocal`), a query is told by its reference texts:
other names with the same texts give the same verdict and the same SQL.  Every query that is written
is unequivocal, so one that differs from it in the names alone is written if and only if it is
unequivocal too (`toSql_eq_of_sameReferences`).
-/

namespace SqlQuery

/-! ## Tables named by their reference texts -/

namespace TableRef

theorem reference_ne_nil (t : TableRef) : t.reference ≠ [] := by
  rw [reference]
  cases t.alias? with
  | none => exact t.name_ne_nil
  | some a => simp [t.name_ne_nil]

theorem none_ne_some_nil : (none : Option Text) ≠ some [] := by simp

/-- The table whose name is the whole reference text. -/
def plain (t : TableRef) : TableRef := ⟨t.reference, none, t.reference_ne_nil, none_ne_some_nil⟩

@[simp] theorem reference_plain (t : TableRef) : t.plain.reference = t.reference := rfl

theorem plain_eq_iff {t u : TableRef} : t.plain = u.plain ↔ t.reference = u.reference := by
  simp [plain]

end TableRef

abbrev JoinEdge.plain (e : JoinEdge) : JoinEdge := e.onTables TableRef.plain

abbrev JoinPlan.plain (p : JoinPlan) : JoinPlan := p.onTables TableRef.plain

namespace JoinEdge

/-- The edges differ in the names and aliases of their tables only, and not in the references. -/
structure SameReferences (e f : JoinEdge) : Prop where
  left : e.left.reference = f.left.reference
  right : e.right.reference = f.right.reference
  predicate : e.predicate = f.predicate
  orderKey : e.orderKey = f.orderKey
  type : e.type = f.type

theorem plain_eq_iff {e f : JoinEdge} : e.plain = f.plain ↔ e.SameReferences f := by
  simp only [onTables, JoinEdge.mk.injEq, TableRef.plain_eq_iff]
  constructor
  · rintro ⟨hl, hr, hp, hk, ht⟩
    exact ⟨hl, hr, hp, hk, ht⟩
  · rintro ⟨hl, hr, hp, hk, ht⟩
    exact ⟨hl, hr, hp, hk, ht⟩

theorem ends_eq_iff {e f : JoinEdge} : e.ends = f.ends ↔
    e.plain.connectsSameTables f.plain = true := by
  simp [ends, connectsSameTables, onTables, TableRef.plain_eq_iff]

end JoinEdge

namespace Query

/-- The queries differ in the tables of their joins only, and there not in the references. -/
structure SameReferences (q q' : Query) : Prop where
  joins : List.Forall₂ JoinEdge.SameReferences q.joins q'.joins
  rest : { q with joins := [] } = { q' with joins := [] }

def plain (q : Query) : Query := { q with joins := q.joins.map JoinEdge.plain }

theorem SameReferences.plain_eq {q q' : Query} (h : q.SameReferences q') : q.plain = q'.plain := by
  have hplain := h.joins.imp fun _ _ he => JoinEdge.plain_eq_iff.mpr he
  have hjoins : q.joins.map JoinEdge.plain = q'.joins.map JoinEdge.plain :=
    List.forall₂_eq_eq_eq ▸ List.forall₂_map_left_iff.mpr (List.forall₂_map_right_iff.mpr hplain)
  have hrest := h.rest
  simp only [Query.mk.injEq] at hrest
  simp [plain, hjoins, hrest]

/-- Comparing the tables of a query by their references or by their names and aliases makes no
difference: not for the two sides of a join, not for the pairs that two joins connect, and not for
the tables of the query in the plan of its joins. -/
structure Unequivocal (d : Dialect) (q : Query) : Prop where
  sides : ∀ e ∈ q.joins, e.left.reference = e.right.reference → e.left = e.right
  pairs : q.joins.Pairwise fun e f => e.ends = f.ends → e.connectsSameTables f = true
  plan : ∀ p, JoinPlan.resolve d q.joins = .ok p → ∀ s ∈ p.steps, ∀ t ∈ q.tables,
    s.table.reference = t.reference → s.table = t

variable {d : Dialect} {q q' : Query}

/-! ## Validity -/

theorem joinFlaw?_plain {tables : List TableRef} {e : JoinEdge}
    (h : e.left.reference = e.right.reference → e.left = e.right) :
    joinFlaw? tables e.plain = joinFlaw? tables e := by
  have hself : e.left.plain = e.right.plain ↔ e.left = e.right :=
    TableRef.plain_eq_iff.trans ⟨h, congrArg TableRef.reference⟩
  simp only [joinFlaw?, JoinEdge.onTables, TableRef.reference_plain, hself]

theorem connectsSameTables_plain {e f : JoinEdge}
    (h : e.ends = f.ends → e.connectsSameTables f = true) :
    e.plain.connectsSameTables f.plain = e.connectsSameTables f := by
  rw [Bool.eq_iff_iff, ← JoinEdge.ends_eq_iff]
  refine ⟨h, fun hsame => ?_⟩
  simp only [JoinEdge.connectsSameTables, Bool.or_eq_true, Bool.and_eq_true, beq_iff_eq] at hsame
  rcases hsame with ⟨hl, hr⟩ | ⟨hl, hr⟩
  · rw [JoinEdge.ends, JoinEdge.ends, hl, hr]
  · rw [JoinEdge.ends, JoinEdge.ends, hl, hr, Sym2.eq_swap]

theorem duplicatePath?_plain {es : List JoinEdge}
    (h : es.Pairwise fun e f => e.ends = f.ends → e.connectsSameTables f = true) :
    duplicatePath? (es.map JoinEdge.plain) = duplicatePath? es := by
  induction h with
  | nil => rfl
  | @cons e es he _ ih =>
      have hany : (es.map JoinEdge.plain).any e.plain.connectsSameTables =
          es.any e.connectsSameTables := by
        rw [List.any_map, Bool.eq_iff_iff, List.any_eq_true, List.any_eq_true]
        refine exists_congr fun f => and_congr_right fun hf => ?_
        rw [Function.comp_apply, connectsSameTables_plain (he f hf)]
      simp only [List.map_cons, duplicatePath?, hany, ih]
      rfl

theorem defect?_plain (h : q.Unequivocal d) : q.plain.defect? = q.defect? := by
  have hflaw : (q.joins.map JoinEdge.plain).findSome? (joinFlaw? q.tables) =
      q.joins.findSome? (joinFlaw? q.tables) := by
    rw [List.findSome?_map, ← List.head?_filterMap, ← List.head?_filterMap]
    exact congrArg _ (List.filterMap_congr fun e he => joinFlaw?_plain (h.sides e he))
  simp only [defect?, flaw?, plain, hflaw, duplicatePath?_plain h.pairs]

theorem obstacle?_plain (h : q.Unequivocal d) : q.plain.obstacle? d = q.obstacle? d := by
  have houter : q.plain.hasOuterJoin = q.hasOuterJoin := by
    simp [hasOuterJoin, plain, JoinEdge.onTables, JoinEdge.isOuter, Function.comp_def]
  simp only [obstacle?, houter, defect?_plain h]
  rfl

end Query

/-! ## The source -/

namespace JoinPlan

/-- Whether a table of the plan has the reference of the given one. -/
def reaches (p : JoinPlan) (t : TableRef) : Bool := p.steps.any (·.table.reference == t.reference)

theorem reaches_plain (p : JoinPlan) (t : TableRef) : p.plain.reaches t = p.reaches t := by
  simp [reaches, steps_onTables, JoinStep.onTables, Function.comp_def]

theorem uses_eq_reaches {p : JoinPlan} {t : TableRef}
    (h : ∀ s ∈ p.steps, s.table.reference = t.reference → s.table = t) :
    p.uses t = p.reaches t := by
  rw [Bool.eq_iff_iff, uses, reaches, List.any_eq_true, List.any_eq_true]
  simp only [beq_iff_eq]
  refine exists_congr fun s => and_congr_right fun hs => ?_
  exact ⟨congrArg TableRef.reference, h s hs⟩

end JoinPlan

namespace Query

variable {d : Dialect} {q q' : Query}

theorem planLines_plain (p : JoinPlan) : planLines p.plain = planLines p := by
  simp only [planLines, JoinPlan.onTables, List.map_map]
  rfl

/-- The source that a plan gives, unless a table is left over. -/
def sourceBut (p : JoinPlan) : Option TableRef → Except Failure Source
  | some t => .error (.path (.unreachable p.anchor.reference t.reference))
  | none => .ok ⟨planLines p, p.deferred⟩

/-- The source that a plan gives when tables are compared by their references. -/
def sourceOf (tables : List TableRef) (p : JoinPlan) : Except Failure Source :=
  sourceBut p (tables.find? (!p.reaches ·))

theorem sourceOf_plain (tables : List TableRef) (p : JoinPlan) :
    sourceOf tables p.plain = sourceOf tables p := by
  rw [sourceOf, sourceOf]
  simp only [JoinPlan.reaches_plain]
  cases tables.find? (!p.reaches ·) with
  | some t => rfl
  | none =>
      rw [sourceBut, sourceBut, planLines_plain]
      rfl

theorem source_eq_bind (h : q.Unequivocal d) (hj : q.joins ≠ []) :
    q.source d = (JoinPlan.resolve d q.joins).bind (sourceOf q.tables) := by
  rw [source, if_neg hj]
  cases hp : JoinPlan.resolve d q.joins with
  | error f => rfl
  | ok p =>
      have hfind : q.tables.find? (!p.uses ·) = q.tables.find? (!p.reaches ·) := by
        refine List.find?_congr fun t ht => ?_
        rw [JoinPlan.uses_eq_reaches fun s hs => h.plan p hp s hs t ht]
      exact congrArg (sourceBut p) hfind

theorem source_eq_of_plain_eq (h : q.Unequivocal d) (h' : q'.Unequivocal d)
    (heq : q.plain = q'.plain) : q'.source d = q.source d := by
  have htables : q.tables = q'.tables := congrArg (fun r => r.tables) heq
  have hjoins : q.joins.map JoinEdge.plain = q'.joins.map JoinEdge.plain :=
    congrArg (fun r => r.joins) heq
  by_cases hj : q.joins = []
  · have hj' : q'.joins = [] := by simpa [hj] using hjoins.symm
    rw [source, source, if_pos hj, if_pos hj', htables]
  · have hj' : q'.joins ≠ [] := fun hnil => hj (by simpa [hnil] using hjoins)
    have hresolve := congrArg (JoinPlan.resolve d) hjoins
    rw [JoinPlan.resolve_onTables TableRef.reference_plain,
      JoinPlan.resolve_onTables TableRef.reference_plain] at hresolve
    rw [source_eq_bind h hj, source_eq_bind h' hj', ← htables]
    cases hp : JoinPlan.resolve d q.joins with
    | error f =>
        cases hp' : JoinPlan.resolve d q'.joins with
        | error f' => simpa [hp, hp', Except.map, Except.bind] using hresolve.symm
        | ok p' => simp [hp, hp', Except.map] at hresolve
    | ok p =>
        cases hp' : JoinPlan.resolve d q'.joins with
        | error f' => simp [hp, hp', Except.map] at hresolve
        | ok p' =>
            have hplan : p.plain = p'.plain := by simpa [hp, hp', Except.map] using hresolve
            simp only [Except.bind]
            rw [← sourceOf_plain, ← hplan, sourceOf_plain]

/-! ## Written queries -/

theorem unequivocal_of_toSql {sql : Text} (h : q.toSql d = .ok sql) : q.Unequivocal d := by
  obtain ⟨hobstacle, s, hs, -⟩ := toSql_eq_ok_iff.mp h
  have hvalid := valid_of_obstacle? hobstacle
  by_cases hj : q.joins = []
  · refine ⟨by simp [hj], by simp [hj], fun p hp => ?_⟩
    simp [hj, JoinPlan.resolve, JoinEdge.inOrder] at hp
  · obtain ⟨p, hp, huses, -⟩ := source_of_joins_ne_nil hj hs
    have hacyclic : (joinGraph q.joins).Acyclic := (JoinPlan.isTree_of_resolve hp).acyclic
    refine ⟨fun e he hself => ?_, ?_, fun p' hp' s hs t ht heq => ?_⟩
    · have hloop : s(e.right.reference, e.right.reference) ∈ joinGraph q.joins := by
        have hends := ends_mem_joinGraph he
        rwa [JoinEdge.ends, hself] at hends
      exact absurd (Multigraph.isCycle_of_loop hloop) (hacyclic _ _)
    · have hne : (q.joins.map JoinEdge.ends).Nodup := hacyclic.nodup
      exact (List.pairwise_map.mp hne).imp fun hends heq => absurd heq hends
    · cases hp.symm.trans hp'
      have hmem := (hvalid.tables_perm hp huses).mem_iff.mp (List.mem_map_of_mem hs)
      exact List.inj_on_of_nodup_map hvalid.references_nodup hmem ht heq

/-- Two queries with the same references have the same defect and the same SQL if both are
unequivocal.  If one is written, the other is written, and then as the same text, if and only if it
is unequivocal. -/
theorem toSql_eq_of_sameReferences (h : q.SameReferences q') :
    (q.Unequivocal d → q'.Unequivocal d →
        q'.defect? = q.defect? ∧ q'.toSql d = q.toSql d) ∧
      ∀ sql, q.toSql d = .ok sql → (q'.toSql d = .ok sql ↔ q'.Unequivocal d) := by
  have hsame : q.Unequivocal d → q'.Unequivocal d →
      q'.defect? = q.defect? ∧ q'.toSql d = q.toSql d := by
    intro hq hq'
    have heq := h.plain_eq
    have hobstacle : q'.obstacle? d = q.obstacle? d := by
      rw [← obstacle?_plain hq, ← obstacle?_plain hq', heq]
    have hlines : sqlLines d q' = sqlLines d q := by
      have hplain : sqlLines d q.plain = sqlLines d q'.plain := congrArg _ heq
      exact hplain.symm
    refine ⟨by rw [← defect?_plain hq, ← defect?_plain hq', heq], ?_⟩
    rw [toSql, toSql, hobstacle, hlines, source_eq_of_plain_eq hq hq' heq]
  refine ⟨hsame, fun sql hsql => ⟨unequivocal_of_toSql, fun hq' => ?_⟩⟩
  rw [(hsame (unequivocal_of_toSql hsql) hq').2, hsql]

end Query

namespace Sample

/-- Two tables with the same reference. -/
def spaced : TableRef := ⟨"a b", none, by decide, TableRef.none_ne_some_nil⟩

def aliased : TableRef := ⟨"a", some "b", by decide, by decide⟩

/-- The table `a b` joined to `C`, and `A` joined to a table of the same reference. -/
def joinedTo (t : TableRef) : Query where
  tables := [spaced, tableC, tableA]
  joins := [⟨spaced, tableC, "C.x = 1", [], .inner⟩, ⟨t, tableA, "A.x = 1", [], .inner⟩]

def joinedText : Text :=
  Text.ofLines ["SELECT", "          *", "FROM", "          a b", "          JOIN C ON ( C.x = 1 )",
    "          JOIN A ON ( A.x = 1 )"]

theorem toSql_joinedTo_spaced : (joinedTo spaced).toSql .ansi = .ok joinedText := by
  cbv

theorem toSql_joinedTo_aliased : (joinedTo aliased).toSql .ansi = .ok joinedText := by
  cbv

theorem joinedTo_sameReferences : (joinedTo spaced).SameReferences (joinedTo aliased) :=
  ⟨.cons ⟨rfl, rfl, rfl, rfl, rfl⟩ (.cons ⟨rfl, rfl, rfl, rfl, rfl⟩ .nil), rfl⟩

theorem joinedTo_toSql : joinedTo spaced ≠ joinedTo aliased ∧
    (joinedTo spaced).SameReferences (joinedTo aliased) ∧
    (joinedTo spaced).Unequivocal .ansi ∧ (joinedTo aliased).Unequivocal .ansi ∧
    (joinedTo aliased).defect? = (joinedTo spaced).defect? ∧
    (joinedTo aliased).toSql .ansi = (joinedTo spaced).toSql .ansi := by
  have hspaced := Query.unequivocal_of_toSql toSql_joinedTo_spaced
  have haliased := Query.unequivocal_of_toSql toSql_joinedTo_aliased
  refine ⟨by decide, joinedTo_sameReferences, hspaced, haliased, ?_⟩
  exact (Query.toSql_eq_of_sameReferences joinedTo_sameReferences).1 hspaced haliased

/-- The given table, which has the reference `a b`, joined to `C`. -/
def startingAt (t : TableRef) : Query where
  tables := [spaced, tableC]
  joins := [⟨t, tableC, "C.x = 1", [], .inner⟩]

/-- Both queries are valid, but in the second the plan does not use the table `a b` by its name. -/
theorem startingAt_differs : (startingAt spaced).SameReferences (startingAt aliased) ∧
    (startingAt spaced).defect? = none ∧ (startingAt aliased).defect? = none ∧
    (startingAt spaced).toSql .ansi = .ok (Text.ofLines
      ["SELECT", "          *", "FROM", "          a b", "          JOIN C ON ( C.x = 1 )"]) ∧
    (startingAt aliased).toSql .ansi = .error (.path (.unreachable "a b" "a b")) :=
  ⟨⟨.cons ⟨rfl, rfl, rfl, rfl, rfl⟩ .nil, rfl⟩, by decide, by decide, by cbv, by cbv⟩

end Sample

end SqlQuery
