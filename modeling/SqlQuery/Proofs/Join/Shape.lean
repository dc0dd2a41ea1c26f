import SqlQuery.Proofs.Join.Multigraph
import SqlQuery.Proofs.Join.Resolution

/-!
# The shape of the join graph

The edges of a query form a multigraph over the reference texts of its tables.  A resolution grows
the component of its anchor as a tree: it succeeds if that is the whole graph, it finds a second
path if the component has a cycle, and it leaves the edges outside the component unreachable.
-/

namespace SqlQuery

open Multigraph

/-! ## The join graph -/

def JoinEdge.ends (e : JoinEdge) : Sym2 Text := s(e.left.reference, e.right.reference)

def joinGraph (edges : List JoinEdge) : Multigraph Text := edges.map JoinEdge.ends

@[simp] theorem joinGraph_nil : joinGraph [] = 0 := rfl

@[simp] theorem joinGraph_cons (e : JoinEdge) (es : List JoinEdge) :
    joinGraph (e :: es) = e.ends ::ₘ joinGraph es := rfl

@[simp] theorem joinGraph_append (es fs : List JoinEdge) :
    joinGraph (es ++ fs) = joinGraph es + joinGraph fs := by
  simp [joinGraph]

theorem joinGraph_perm {es fs : List JoinEdge} (h : es.Perm fs) : joinGraph es = joinGraph fs :=
  Multiset.coe_eq_coe.mpr (h.map _)

theorem ends_mem_joinGraph {e : JoinEdge} {es : List JoinEdge} (h : e ∈ es) :
    e.ends ∈ joinGraph es :=
  List.mem_map_of_mem h

theorem Attachment.ends_edge (a : Attachment) :
    a.edge.ends = s(a.partner.reference, a.table.reference) := by
  obtain ⟨e, side⟩ := a
  cases side
  · exact Sym2.eq_swap
  · rfl

/-! ## The grown tree -/

/-- The attachments extend a graph without a cycle over the used tables to one over all tables of
the chain. -/
theorem Chained.acyclic {used as} (h : Chained used as) {G : Multigraph Text} (hG : G.Acyclic)
    (hused : ∀ e ∈ G, ∀ t ∈ e, t ∈ used) :
    (joinGraph (as.map (·.edge)) + G).Acyclic ∧
      ∀ e ∈ joinGraph (as.map (·.edge)) + G, ∀ t ∈ e, t ∈ reached used as := by
  induction h generalizing G with
  | nil => simpa using ⟨hG, hused⟩
  | @cons used a as hp ht _ ih =>
      have hne : a.partner.reference ≠ a.table.reference := fun heq => ht (heq ▸ hp)
      have hleaf : ∀ e ∈ G, a.table.reference ∉ e := fun e he hmem => ht (hused e he _ hmem)
      have ih := ih (hG.cons_leaf hleaf hne) ?_
      · rw [← Attachment.ends_edge] at ih
        simpa [Multiset.add_cons, Multiset.cons_add] using ih
      · intro e he t hmem
        rcases Multiset.mem_cons.mp he with rfl | he
        · rcases Sym2.mem_iff.mp hmem with rfl | rfl
          · exact List.mem_cons_of_mem _ hp
          · exact List.mem_cons_self
        · exact List.mem_cons_of_mem _ (hused e he t hmem)

theorem Chained.connected {used as} (h : Chained used as) {G : Multigraph Text} {c : Text}
    (hsub : joinGraph (as.map (·.edge)) ⊆ G) (hused : ∀ t ∈ used, G.Connected c t) :
    ∀ t ∈ reached used as, G.Connected c t := by
  induction h with
  | nil => exact hused
  | @cons used a as hp _ _ ih =>
      rw [List.map_cons, joinGraph_cons, Multiset.cons_subset] at hsub
      obtain ⟨he, hsub⟩ := hsub
      rw [reached_cons]
      refine ih hsub fun t ht => ?_
      rcases List.mem_cons.mp ht with rfl | ht
      · rw [Attachment.ends_edge] at he
        exact (hused _ hp).trans (Connected.of_mem he)
      · exact hused t ht

/-! ## How the growth ends -/

/-- The shape of a graph around a vertex that a growth from there ends with. -/
def Multigraph.EndsWith (G : Multigraph Text) (c : Text) : Option PathError → Prop
  | none => G.IsTree
  | some (.duplicate _ _) => ¬ (G.component c).Acyclic
  | some (.unreachable _ _) => (G.component c).IsTree ∧ ∃ e ∈ G, e ∉ G.component c

/-- The remaining edges do not leave the used tables if none of them has a table there. -/
theorem mem_used_of_connected {T : Multigraph Text} {c t : Text} {used : List Text} {remaining}
    (hin : ∀ e ∈ T, ∀ t ∈ e, t ∈ used) (hd : ∀ f ∈ remaining, f.Detached used) (hc : c ∈ used)
    (h : (T + joinGraph remaining).Connected c t) : t ∈ used := by
  refine h.mem_of_closed (S := {t | t ∈ used}) (fun u v he hu => ?_) hc
  rcases Multiset.mem_add.mp he with he | he
  · exact hin _ he v (Sym2.mem_mk_right u v)
  · obtain ⟨f, hf, hends⟩ := List.mem_map.mp he
    obtain ⟨hl, hr⟩ := hd f hf
    rcases Sym2.mem_iff.mp (hends ▸ Sym2.mem_mk_left u v) with rfl | rfl
    · exact absurd hu hl
    · exact absurd hu hr

/-- A tree over the used tables decides the shape of the graph together with the reason for which
the remaining edges were not attached. -/
theorem Ends.endsWith {used remaining failure?} (h : Ends used remaining failure?)
    {T : Multigraph Text} {c : Text} (hT : T.Acyclic) (hin : ∀ e ∈ T, ∀ t ∈ e, t ∈ used)
    (hc : c ∈ used) (hconn : ∀ t ∈ used, T.Connected c t) :
    (T + joinGraph remaining).EndsWith c failure? := by
  have hle : T ≤ T + joinGraph remaining := Multiset.le_add_right _ _
  cases h with
  | done =>
      refine ⟨?_, by simpa using hT⟩
      rintro u ⟨e, he, hu⟩ v ⟨f, hf, hv⟩
      simp only [joinGraph_nil, add_zero] at he hf ⊢
      exact (hconn u (hin e he u hu)).symm.trans (hconn v (hin f hf v hv))
  | @cycle rest e he hl hr =>
      intro hacyc
      have hlr : T.Connected e.left.reference e.right.reference :=
        (hconn _ hl).symm.trans (hconn _ hr)
      obtain ⟨vs, hcycle⟩ := hlr.exists_isCycle
      have hcle : e.ends ::ₘ T ≤ T + joinGraph remaining := by
        obtain ⟨G, hG⟩ := Multiset.exists_cons_of_mem (ends_mem_joinGraph he)
        rw [hG, Multiset.add_cons]
        exact Multiset.cons_le_cons _ (Multiset.le_add_right _ _)
      have hc := (hconn _ hr).mono (Multiset.subset_of_le hle)
      exact hacyc _ _ ((hcycle.mono hcle).component hc)
  | @stuck e rest hd =>
      have hused : ∀ t, (T + joinGraph (e :: rest)).Connected c t → t ∈ used :=
        fun t ht => mem_used_of_connected hin hd hc ht
      have hout : ∀ f ∈ joinGraph (e :: rest), f ∉ (T + joinGraph (e :: rest)).component c := by
        intro f hf hmem
        obtain ⟨g, hg, rfl⟩ := List.mem_map.mp hf
        exact (hd g hg).1 (hused _ ((mem_component.mp hmem).2 _ (Sym2.mem_mk_left _ _)))
      refine ⟨isTree_component (hT.anti (Multiset.le_iff_count.mpr fun f => ?_)), e.ends, by simp,
        hout _ (by simp)⟩
      by_cases hf : f ∈ (T + joinGraph (e :: rest)).component c
      · have hcount := Multiset.le_iff_count.mp (component_le (T + joinGraph (e :: rest)) c) f
        rwa [Multiset.count_add, Multiset.count_eq_zero.mpr fun hmem => hout f hmem hf,
          add_zero] at hcount
      · rw [Multiset.count_eq_zero.mpr hf]
        exact Nat.zero_le _

namespace Multigraph.EndsWith

variable {G : Multigraph Text} {c : Text} {failure? : Option PathError}

theorem eq_none_iff (h : G.EndsWith c failure?) (hc : c ∈ G.vertices) :
    failure? = none ↔ G.IsTree := by
  match failure?, h with
  | none, htree => exact ⟨fun _ => htree, fun _ => rfl⟩
  | some (.duplicate _ _), hcycle =>
      refine ⟨nofun, fun htree => absurd (htree.acyclic.anti (component_le G c)) hcycle⟩
  | some (.unreachable _ _), ⟨_, e, he, hout⟩ =>
      exact ⟨nofun, fun htree => absurd (htree.mem_component hc he) hout⟩

theorem duplicate_iff (h : G.EndsWith c failure?) :
    (∃ l r, failure? = some (.duplicate l r)) ↔ ¬ (G.component c).Acyclic := by
  match failure?, h with
  | none, htree =>
      exact ⟨nofun, fun hcycle => absurd (htree.acyclic.anti (component_le G c)) hcycle⟩
  | some (.duplicate l r), hcycle => exact ⟨fun _ => hcycle, fun _ => ⟨l, r, rfl⟩⟩
  | some (.unreachable _ _), ⟨htree, _⟩ =>
      exact ⟨nofun, fun hcycle => absurd htree.acyclic hcycle⟩

theorem unreachable_iff (h : G.EndsWith c failure?) (hc : c ∈ G.vertices) :
    (∃ l r, failure? = some (.unreachable l r)) ↔
      (G.component c).IsTree ∧ ∃ e ∈ G, e ∉ G.component c := by
  match failure?, h with
  | none, htree =>
      exact ⟨nofun, fun ⟨_, _, he, hout⟩ => absurd (htree.mem_component hc he) hout⟩
  | some (.duplicate _ _), hcycle =>
      exact ⟨nofun, fun ⟨htree, _⟩ => absurd htree.acyclic hcycle⟩
  | some (.unreachable l r), hout => exact ⟨fun _ => hout, fun _ => ⟨l, r, rfl⟩⟩

end Multigraph.EndsWith

namespace JoinPlan

theorem connected_of_mem_reached {edges : List JoinEdge} {first rest}
    (h : JoinEdge.inOrder edges = first :: rest) {t : Text}
    (ht : t ∈ reached [first.left.reference] (attachments edges)) :
    (joinGraph ((attachments edges).map (·.edge))).Connected first.left.reference t := by
  refine (attachments_chained h).connected (Multiset.Subset.refl _) (fun u hu => ?_) t ht
  rw [List.mem_singleton.mp hu]
  exact .refl

theorem growth_endsWith {edges : List JoinEdge} {first rest}
    (h : JoinEdge.inOrder edges = first :: rest) :
    (joinGraph edges).EndsWith first.left.reference
      (growByNumber (JoinEdge.inOrder edges)).failure? := by
  obtain ⟨remaining, -, hperm, hends⟩ := exists_remaining h
  obtain ⟨hacyc, hin⟩ := (attachments_chained h).acyclic acyclic_zero (by simp)
  rw [add_zero] at hacyc hin
  rw [joinGraph_perm hperm, joinGraph_append]
  exact hends.endsWith hacyc hin (mem_reached_of_mem _ List.mem_cons_self)
    fun t => connected_of_mem_reached h

theorem anchor_mem_vertices {edges : List JoinEdge} {first rest}
    (h : JoinEdge.inOrder edges = first :: rest) :
    first.left.reference ∈ (joinGraph edges).vertices := by
  have hfirst : first ∈ edges := (inOrder_perm edges).mem_iff.mp (h ▸ List.mem_cons_self)
  exact ⟨first.ends, ends_mem_joinGraph hfirst, Sym2.mem_mk_left _ _⟩

/-- Where the dialect supports the edges, they have a plan if and only if their graph is a tree. -/
theorem exists_plan_iff {d : Dialect} {edges : List JoinEdge} (hne : edges ≠ [])
    (hd : d.Supports edges) : (∃ p, resolve d edges = .ok p) ↔ (joinGraph edges).IsTree := by
  obtain ⟨first, rest, h⟩ := List.exists_cons_of_ne_nil (inOrder_ne_nil hne)
  rw [← (growth_endsWith h).eq_none_iff (anchor_mem_vertices h), resolve_of_supports h hd]
  cases (growByNumber (JoinEdge.inOrder edges)).failure? with
  | none => exact ⟨fun _ => rfl, fun _ => ⟨_, rfl⟩⟩
  | some e => exact ⟨nofun, nofun⟩

theorem isTree_of_resolve {d : Dialect} {edges : List JoinEdge} {p : JoinPlan}
    (h : resolve d edges = .ok p) : (joinGraph edges).IsTree := by
  have hne : edges ≠ [] := by
    rintro rfl
    simp [resolve, JoinEdge.inOrder] at h
  exact (exists_plan_iff hne (supports_of_resolve h)).mp ⟨p, h⟩

theorem resolve_eq_error_path_iff {d : Dialect} {edges : List JoinEdge} {first rest}
    (h : JoinEdge.inOrder edges = first :: rest) (hd : d.Supports edges) {e : PathError} :
    resolve d edges = .error (.path e) ↔
      (growByNumber (JoinEdge.inOrder edges)).failure? = some e := by
  rw [resolve_of_supports h hd]
  cases (growByNumber (JoinEdge.inOrder edges)).failure? with
  | none => exact ⟨nofun, nofun⟩
  | some f => simp [Failure.path]

def anchorOf (edges : List JoinEdge) (hne : edges ≠ []) : TableRef :=
  ((JoinEdge.inOrder edges).head (inOrder_ne_nil hne)).left

end JoinPlan

open JoinPlan in
/-- What a resolution comes to is the shape of the join graph, and neither the order of the edges
nor their orientation or keys. -/
theorem resolve_iff_shape {d : Dialect} {edges : List JoinEdge} (hne : edges ≠ [])
    (hd : d.Supports edges) :
    ((∃ p, resolve d edges = .ok p) ↔ (joinGraph edges).IsTree) ∧
      ((∃ l r, resolve d edges = .error (.path (.duplicate l r))) ↔
        ¬ ((joinGraph edges).component (anchorOf edges hne).reference).Acyclic) ∧
      ((∃ l r, resolve d edges = .error (.path (.unreachable l r))) ↔
        ((joinGraph edges).component (anchorOf edges hne).reference).IsTree ∧
          ∃ e ∈ edges, e.ends ∉ (joinGraph edges).component (anchorOf edges hne).reference) ∧
      ∀ d' edges', Dialect.Supports d' edges' → joinGraph edges' = joinGraph edges →
        ((∃ p, resolve d' edges' = .ok p) ↔ ∃ p, resolve d edges = .ok p) := by
  obtain ⟨first, rest, h⟩ := List.exists_cons_of_ne_nil (inOrder_ne_nil hne)
  have hanchor : anchorOf edges hne = first.left := by simp only [anchorOf, h, List.head_cons]
  have hends := growth_endsWith h
  have hmem := anchor_mem_vertices h
  rw [hanchor]
  refine ⟨exists_plan_iff hne hd, ?_, ?_, ?_⟩
  · simp only [resolve_eq_error_path_iff h hd]
    exact hends.duplicate_iff
  · simp only [resolve_eq_error_path_iff h hd, hends.unreachable_iff hmem]
    simp [joinGraph]
  · intro d' edges' hd' hG
    have hne' : edges' ≠ [] := by
      rintro rfl
      exact hne (List.map_eq_nil_iff.mp (Multiset.coe_eq_zero _ |>.mp hG.symm))
    rw [exists_plan_iff hne hd, exists_plan_iff hne' hd', hG]

theorem Sample.supports : Sample.strict.Supports Sample.edges :=
  ⟨Or.inl rfl, by decide⟩

theorem Sample.isTree : Sample.edges ≠ [] ∧ Sample.strict.Supports Sample.edges ∧
    (joinGraph Sample.edges).IsTree :=
  ⟨by decide, Sample.supports,
    (resolve_iff_shape (by decide) Sample.supports).1.mp ⟨_, Sample.resolve_eq⟩⟩

end SqlQuery
