import SqlQuery.Proofs.Join.Meaning
import SqlQuery.Proofs.Join.Shape

/-!
# Inner joins

A chain of inner joins is a product of tables whose rows are filtered on the way.  It does not
matter when a condition is checked, nor in which order the tables are multiplied, so the plan means
the product of all tables filtered by all predicates (`Interpretation.query`).
-/

namespace SqlQuery

variable {Row : Type}

/-! ## Products of tables -/

namespace Interpretation

variable {I : Interpretation Row}

/-- Each way to take one row from every table. -/
def product (I : Interpretation Row) (references : List Text) : Multiset (JoinRow Row) :=
  references.foldr I.cross {JoinRow.empty}

theorem cross_comm (t u : Text) (L : Multiset (JoinRow Row)) :
    I.cross t (I.cross u L) = I.cross u (I.cross t L) := by
  by_cases h : t = u
  · rw [h]
  · simp only [cross, Multiset.bind_assoc, Multiset.bind_map]
    refine Multiset.bind_congr fun ρ _ => ?_
    rw [Multiset.bind_map_comm]
    simp only [JoinRow.set_comm ρ h]

theorem product_perm {references references' : List Text} (h : references.Perm references') :
    I.product references = I.product references' :=
  h.foldr_eq' (fun t _ u _ L => cross_comm u t L) _

end Interpretation

/-! ## The query of the edges -/

namespace JoinEdge

def unkeyed (e : JoinEdge) : JoinEdge := { e with orderKey := [] }

end JoinEdge

/-- The product of all tables of the edges, filtered by all their predicates. -/
def Interpretation.query (I : Interpretation Row) (edges : List JoinEdge) :
    Multiset (JoinRow Row) :=
  (I.product (JoinEdge.references edges)).filter (I.HoldsAll (edges.map (·.predicate)))

/-! ## A chain of inner joins -/

def conditions (d : Dialect) (as : List Attachment) : List Text :=
  as.flatMap fun a => (a.step d).condition?.toList

theorem eq_of_mem_condition {d : Dialect} {a : Attachment} {q : Text}
    (h : q ∈ (a.step d).condition?.toList) : q = a.edge.predicate := by
  simp only [Attachment.step] at h
  split at h
  · exact List.mem_singleton.mp h
  · cases h

theorem mem_conditions_append {d : Dialect} {as : List Attachment} {q : Text} :
    q ∈ conditions d as ++ deferrals d as ↔ q ∈ as.map (·.edge.predicate) := by
  simp only [conditions, deferrals, List.mem_append, List.mem_flatMap, List.mem_filter]
  constructor
  · rintro (⟨a, ha, hq⟩ | ⟨hq, -⟩)
    · exact List.mem_map.mpr ⟨a, ha, (eq_of_mem_condition hq).symm⟩
    · exact hq
  · intro hq
    cases he : d.eligibleForOn q with
    | false => exact Or.inr ⟨hq, rfl⟩
    | true =>
        obtain ⟨a, ha, rfl⟩ := List.mem_map.mp hq
        exact Or.inl ⟨a, ha, by simp [Attachment.step, he]⟩

section Chain

variable {I : Interpretation Row} {edges : List JoinEdge} {d : Dialect}

/-- One more inner join is one more table in the product and its condition in the filter. -/
theorem join_filter_product {used qs : List Text} {a : Attachment} (hI : I.Local edges)
    (hqs : Settled edges used qs) (ht : a.table.reference ∉ used) (hinner : a.edge.type = .inner) :
    I.join ((I.product used).filter (I.HoldsAll qs)) (a.step d) =
      (I.product (a.table.reference :: used)).filter
        (I.HoldsAll (qs ++ (a.step d).condition?.toList)) := by
  have htype : (a.step d).type = .inner := Attachment.type_of_inner hinner
  have hcross := hqs.filter_cross hI ht (I.product used)
  rw [Interpretation.join_of_inner htype, Interpretation.filter_holdsAll_append]
  simp only [Interpretation.matched, Interpretation.product, List.foldr_cons] at hcross ⊢
  rw [hcross]
  rfl

theorem Chained.foldl_join {used as} (h : Chained used as) (hI : I.Local edges)
    (hsub : ∀ a ∈ as, a.edge ∈ edges) (hinner : ∀ a ∈ as, a.edge.type = .inner) {qs : List Text}
    (hqs : Settled edges used qs) :
    (as.map (·.step d)).foldl I.join ((I.product used).filter (I.HoldsAll qs)) =
      (I.product (reached used as)).filter (I.HoldsAll (qs ++ conditions d as)) := by
  induction h generalizing qs with
  | nil => simp [conditions]
  | @cons used a as hp ht _ ih =>
      obtain ⟨ha, has⟩ := List.forall_mem_cons.mp hsub
      obtain ⟨hai, hasi⟩ := List.forall_mem_cons.mp hinner
      have hsettled := hqs.attach ha hp fun q hq => eq_of_mem_condition (d := d) hq
      rw [List.map_cons, List.foldl_cons, join_filter_product hI hqs ht hai,
        ih has hasi hsettled, reached_cons, List.append_assoc]
      rfl

end Chain

/-! ## The meaning of a plan of inner joins -/

namespace Interpretation

variable {I : Interpretation Row} {edges edges' : List JoinEdge} {d : Dialect} {p : JoinPlan}

theorem holdsAll_congr {qs rs : List Text} (h : ∀ q, q ∈ qs ↔ q ∈ rs) (ρ : JoinRow Row) :
    I.HoldsAll qs ρ ↔ I.HoldsAll rs ρ := by
  simp only [HoldsAll, h]

theorem result_eq_query (h : JoinPlan.resolve d edges = .ok p) (hI : I.Local edges)
    (hinner : ∀ e ∈ edges, e.type = .inner) : I.result p = I.query edges := by
  obtain ⟨first, hfirst, hchain, hperm, -, rfl⟩ := JoinPlan.resolve_eq_ok h
  have hsub := edge_mem_of_perm hperm
  have hmem : first ∈ edges :=
    (JoinPlan.inOrder_perm edges).mem_iff.mp (List.mem_of_head? hfirst)
  have hanchor : first.left.reference ∈ JoinEdge.references edges :=
    JoinEdge.mem_references.mpr ⟨first, hmem, Or.inl rfl⟩
  have hrun := hchain.foldl_join (d := d) hI hsub (fun a ha => hinner _ (hsub a ha)) .nil
  have hstart : (I.product [first.left.reference]).filter (I.HoldsAll []) =
      I.cross first.left.reference {JoinRow.empty} :=
    Multiset.filter_eq_self.mpr fun _ _ => nofun
  rw [hstart, List.nil_append, product_perm (hchain.reached_perm hperm hanchor)] at hrun
  rw [result_ofAttached, hrun, ← filter_holdsAll_append, query]
  refine Multiset.filter_congr fun ρ _ => holdsAll_congr (fun q => ?_) ρ
  rw [mem_conditions_append, ← (hperm.map (·.predicate)).mem_iff, List.map_map]
  rfl

/-! ## The order of the edges -/

theorem exists_of_unkeyed_perm (h : (edges'.map JoinEdge.unkeyed).Perm (edges.map JoinEdge.unkeyed))
    {e : JoinEdge} (he : e ∈ edges') : ∃ f ∈ edges, f.unkeyed = e.unkeyed :=
  List.mem_map.mp (h.mem_iff.mp (List.mem_map_of_mem he))

theorem Local.of_unkeyed_perm (hI : I.Local edges)
    (h : (edges'.map JoinEdge.unkeyed).Perm (edges.map JoinEdge.unkeyed)) : I.Local edges' := by
  intro e he
  obtain ⟨f, hf, heq⟩ := exists_of_unkeyed_perm h he
  simp only [JoinEdge.unkeyed, JoinEdge.mk.injEq] at heq
  obtain ⟨hl, hr, hq, -, -⟩ := heq
  rw [← hl, ← hr, ← hq]
  exact hI f hf

theorem query_eq_of_unkeyed_perm
    (h : (edges'.map JoinEdge.unkeyed).Perm (edges.map JoinEdge.unkeyed)) :
    I.query edges' = I.query edges := by
  have hrefs : (JoinEdge.references edges').Perm (JoinEdge.references edges) := by
    have hflat := h.flatMap_right fun e => [e.left.reference, e.right.reference]
    rw [List.flatMap_map, List.flatMap_map] at hflat
    exact hflat.dedup
  have hqs : (edges'.map (·.predicate)).Perm (edges.map (·.predicate)) := by
    have hmap := h.map (·.predicate)
    rw [List.map_map, List.map_map] at hmap
    exact hmap
  rw [query, query, product_perm hrefs]
  exact Multiset.filter_congr fun ρ _ => holdsAll_congr (fun q => hqs.mem_iff) ρ

end Interpretation

theorem joinGraph_eq_of_unkeyed_perm {edges edges' : List JoinEdge}
    (h : (edges'.map JoinEdge.unkeyed).Perm (edges.map JoinEdge.unkeyed)) :
    joinGraph edges' = joinGraph edges := by
  have hmap := joinGraph_perm h
  simp only [joinGraph, List.map_map] at hmap
  exact hmap

theorem Dialect.supports_of_inner (d : Dialect) {edges : List JoinEdge}
    (h : ∀ e ∈ edges, e.type = .inner) : d.Supports edges := by
  have hinner : ∀ e ∈ edges, e.isOuter = false := by
    intro e he
    rw [JoinEdge.isOuter, h e he]
    rfl
  exact ⟨Or.inr hinner, fun e he ho => by simp [hinner e he] at ho⟩

/-- The plans of inner joins over a tree mean the query of the edges, whatever their order, their
keys and the dialect. -/
theorem resolve_inner_result {d d' : Dialect} {edges edges' : List JoinEdge} (hne : edges ≠ [])
    (hinner : ∀ e ∈ edges, e.type = .inner) (htree : (joinGraph edges).IsTree)
    (h : (edges'.map JoinEdge.unkeyed).Perm (edges.map JoinEdge.unkeyed)) :
    ∃ p p', JoinPlan.resolve d edges = .ok p ∧ JoinPlan.resolve d' edges' = .ok p' ∧
      ∀ (Row : Type) (I : Interpretation Row), I.Local edges →
        I.result p = I.query edges ∧ I.result p' = I.query edges := by
  have hinner' : ∀ e ∈ edges', e.type = .inner := by
    intro e he
    obtain ⟨f, hf, heq⟩ := Interpretation.exists_of_unkeyed_perm h he
    rw [← hinner f hf]
    exact (congrArg JoinEdge.type heq).symm
  have hne' : edges' ≠ [] := by
    rintro rfl
    exact hne (List.map_eq_nil_iff.mp (List.nil_perm.mp h))
  have htree' : (joinGraph edges').IsTree := by rwa [joinGraph_eq_of_unkeyed_perm h]
  obtain ⟨p, hp⟩ := (JoinPlan.exists_plan_iff hne (d.supports_of_inner hinner)).mpr htree
  obtain ⟨p', hp'⟩ := (JoinPlan.exists_plan_iff hne' (d'.supports_of_inner hinner')).mpr htree'
  refine ⟨p, p', hp, hp', fun Row I hI => ⟨I.result_eq_query hp hI hinner, ?_⟩⟩
  rw [← I.query_eq_of_unkeyed_perm h]
  exact I.result_eq_query hp' (hI.of_unkeyed_perm h) hinner'

namespace Sample

def innerEdges : List JoinEdge :=
  [⟨tableA, tableB, "A.id = B.id", [], .inner⟩, ⟨tableB, tableC, "B.x < C.x", [], .inner⟩]

/-- The same edges with keys, which make `B` the anchor. -/
def keyedEdges : List JoinEdge :=
  [⟨tableB, tableC, "B.x < C.x", "1", .inner⟩, ⟨tableA, tableB, "A.id = B.id", "2", .inner⟩]

theorem innerEdges_isTree : (joinGraph innerEdges).IsTree :=
  (JoinPlan.exists_plan_iff (by decide) (Dialect.ansi.supports_of_inner (by decide))).mp
    ⟨⟨tableA, [⟨tableB, some "A.id = B.id", .inner⟩, ⟨tableC, some "B.x < C.x", .inner⟩], []⟩,
      by cbv⟩

theorem keyed_result : innerEdges ≠ [] ∧ (∀ e ∈ innerEdges, e.type = .inner) ∧
    (joinGraph innerEdges).IsTree ∧
    (keyedEdges.map JoinEdge.unkeyed).Perm (innerEdges.map JoinEdge.unkeyed) ∧
    ∃ p p', JoinPlan.resolve .ansi innerEdges = .ok p ∧
      JoinPlan.resolve strict keyedEdges = .ok p' ∧
      ∀ (Row : Type) (I : Interpretation Row), I.Local innerEdges →
        I.result p = I.query innerEdges ∧ I.result p' = I.query innerEdges :=
  ⟨by decide, by decide, innerEdges_isTree, .swap _ _ _,
    resolve_inner_result (by decide) (by decide) innerEdges_isTree (.swap _ _ _)⟩

end Sample

end SqlQuery
