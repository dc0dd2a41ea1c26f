import Mathlib.Data.Multiset.Bind
import Mathlib.Data.Sym.Sym2
import Mathlib.Logic.Relation

/-!
# Multigraphs

A multigraph is the bag of its edges, each the unordered pair of its ends.  A loop is a cycle of one
edge (`isCycle_of_loop`), and two parallel edges are a cycle of two (`isCycle_of_parallel`).

An edge between connected vertices closes a cycle (`Connected.exists_isCycle`), and an edge to a new
vertex closes none (`Acyclic.cons_leaf`): every vertex of a closed walk has an even degree in it.
-/

namespace SqlQuery

abbrev Multigraph (V : Type) := Multiset (Sym2 V)

namespace Multigraph

variable {V : Type} {G H : Multigraph V} {u v w x : V} {vs : List V}

/-! ## Walks, cycles and trees -/

def vertices (G : Multigraph V) : Set V := {v | ∃ e ∈ G, v ∈ e}

/-- Whether a walk along the edges leads from one vertex to the other. -/
def Connected (G : Multigraph V) : V → V → Prop := Relation.ReflTransGen fun u v => s(u, v) ∈ G

/-- The edges of the walk that starts at `u` and visits `vs` in turn. -/
def walkEdges (u : V) : List V → Multigraph V
  | [] => 0
  | v :: vs => s(u, v) ::ₘ walkEdges v vs

/-- The walk from `v` over `vs` returns to `v`, visits no vertex twice, and uses each edge of the
graph once at most. -/
structure IsCycle (G : Multigraph V) (v : V) (vs : List V) : Prop where
  closed : vs.getLast? = some v
  nodup : vs.Nodup
  edges_le : walkEdges v vs ≤ G

def Acyclic (G : Multigraph V) : Prop := ∀ v vs, ¬ G.IsCycle v vs

structure IsTree (G : Multigraph V) : Prop where
  connected : ∀ u ∈ G.vertices, ∀ v ∈ G.vertices, G.Connected u v
  acyclic : G.Acyclic

open Classical in
/-- The connected component of a vertex: the edges between the vertices connected to it. -/
noncomputable def component (G : Multigraph V) (c : V) : Multigraph V :=
  G.filter fun e => ∀ v ∈ e, G.Connected c v

theorem isCycle_of_loop (h : s(v, v) ∈ G) : G.IsCycle v [v] :=
  ⟨rfl, List.nodup_singleton v, by simpa [walkEdges] using h⟩

theorem isCycle_of_parallel (huv : u ≠ v) (h : {s(u, v), s(u, v)} ≤ G) : G.IsCycle v [u, v] := by
  refine ⟨rfl, by simpa using huv, ?_⟩
  simpa [walkEdges, Sym2.eq_swap (a := v)] using h

theorem IsCycle.mono (hle : G ≤ H) (h : G.IsCycle v vs) : H.IsCycle v vs :=
  ⟨h.closed, h.nodup, h.edges_le.trans hle⟩

theorem Acyclic.anti (hle : G ≤ H) (h : H.Acyclic) : G.Acyclic :=
  fun v vs hc => h v vs (hc.mono hle)

theorem acyclic_zero : Acyclic (0 : Multigraph V) := by
  intro v vs hc
  cases vs with
  | nil => cases hc.closed
  | cons w ws => exact Multiset.cons_ne_zero (Multiset.le_zero.mp hc.edges_le)

theorem Acyclic.nodup (h : G.Acyclic) : G.Nodup := by
  refine Multiset.nodup_iff_le.mpr fun e he => ?_
  induction e using Sym2.ind with
  | _ u v =>
      by_cases huv : u = v
      · subst huv
        exact h _ _ (isCycle_of_loop (Multiset.subset_of_le he (Multiset.mem_cons_self _ _)))
      · exact h _ _ (isCycle_of_parallel huv he)

/-! ## Connected vertices -/

theorem Connected.mono (hle : G ⊆ H) (h : G.Connected u v) : H.Connected u v :=
  Relation.ReflTransGen.mono (fun _ _ he => hle he) _ _ h

theorem Connected.symm (h : G.Connected u v) : G.Connected v u := by
  induction h with
  | refl => exact .refl
  | tail _ he ih => exact .head (Sym2.eq_swap ▸ he) ih

theorem Connected.of_mem (h : s(u, v) ∈ G) : G.Connected u v := .single h

theorem Connected.of_mem_edge {e : Sym2 V} (he : e ∈ G) (hu : u ∈ e) (hv : v ∈ e) :
    G.Connected u v := by
  obtain ⟨w, rfl⟩ := hu
  rcases Sym2.mem_iff.mp hv with rfl | rfl
  · exact .refl
  · exact .of_mem he

/-- A set of vertices that no edge leaves holds all that are connected to one of it. -/
theorem Connected.mem_of_closed {S : Set V} (hS : ∀ u v, s(u, v) ∈ G → u ∈ S → v ∈ S)
    (h : G.Connected u v) (hu : u ∈ S) : v ∈ S := by
  induction h with
  | refl => exact hu
  | tail _ he ih => exact hS _ _ he ih

/-! ## Edges of a walk -/

theorem mem_of_mem_walkEdges {e : Sym2 V} (he : e ∈ walkEdges u vs) (hx : x ∈ e) :
    x ∈ u :: vs := by
  induction vs generalizing u with
  | nil => simp [walkEdges] at he
  | cons v vs ih =>
      rcases Multiset.mem_cons.mp he with rfl | he
      · rcases Sym2.mem_iff.mp hx with rfl | rfl <;> simp
      · exact List.mem_cons_of_mem _ (ih he)

theorem nodup_walkEdges (h : (u :: vs).Nodup) : (walkEdges u vs).Nodup := by
  induction vs generalizing u with
  | nil => exact Multiset.nodup_zero
  | cons v vs ih =>
      obtain ⟨hu, hvs⟩ := List.nodup_cons.mp h
      refine Multiset.nodup_cons.mpr ⟨fun he => hu ?_, ih hvs⟩
      exact mem_of_mem_walkEdges he (Sym2.mem_mk_left u v)

theorem walkEdges_subset_append (u w : V) (vs ws : List V) :
    walkEdges w ws ⊆ walkEdges u (vs ++ w :: ws) := by
  induction vs generalizing u with
  | nil => exact Multiset.subset_cons _ _
  | cons v vs ih => exact Multiset.Subset.trans (ih v) (Multiset.subset_cons _ _)

/-- A walk to a vertex can be cut down to one that visits no vertex twice. -/
theorem Connected.exists_path (h : G.Connected u w) :
    ∃ vs, (u :: vs).Nodup ∧ (u :: vs).getLast? = some w ∧ walkEdges u vs ⊆ G := by
  induction h using Relation.ReflTransGen.head_induction_on with
  | refl => exact ⟨[], by simp, rfl, Multiset.zero_subset _⟩
  | @head u v he _ ih =>
      obtain ⟨vs, hnodup, hlast, hsub⟩ := ih
      by_cases hu : u ∈ v :: vs
      · -- the walk returns to `u`, so what it does until then is left out
        obtain ⟨before, after, heq⟩ := List.append_of_mem hu
        rw [heq] at hnodup hlast
        refine ⟨after, (List.nodup_append.mp hnodup).2.1, by simpa using hlast, ?_⟩
        cases before with
        | nil => cases heq; exact hsub
        | cons b before =>
            cases heq
            exact Multiset.Subset.trans (walkEdges_subset_append _ _ _ _) hsub
      · refine ⟨v :: vs, List.nodup_cons.mpr ⟨hu, hnodup⟩, by simpa using hlast, ?_⟩
        exact Multiset.cons_subset.mpr ⟨he, hsub⟩

theorem Connected.exists_isCycle (h : G.Connected u w) :
    ∃ vs, IsCycle (s(u, w) ::ₘ G) w vs := by
  obtain ⟨vs, hnodup, hlast, hsub⟩ := h.exists_path
  refine ⟨u :: vs, hlast, hnodup, ?_⟩
  rw [walkEdges, Sym2.eq_swap]
  exact Multiset.cons_le_cons _ ((Multiset.le_iff_subset (nodup_walkEdges hnodup)).mpr hsub)

theorem connected_of_mem_walk (hsub : walkEdges u vs ⊆ G) (hx : x ∈ u :: vs) :
    G.Connected u x := by
  induction vs generalizing u with
  | nil => cases List.mem_singleton.mp hx; exact .refl
  | cons v vs ih =>
      obtain ⟨he, hsub⟩ := Multiset.cons_subset.mp hsub
      rcases List.mem_cons.mp hx with rfl | hx
      · exact .refl
      · exact .head he (ih hsub hx)

/-! ## Components -/

theorem mem_component {e : Sym2 V} {c : V} :
    e ∈ G.component c ↔ e ∈ G ∧ ∀ v ∈ e, G.Connected c v := by
  classical exact Multiset.mem_filter

theorem le_component {c : V} :
    H ≤ G.component c ↔ H ≤ G ∧ ∀ e ∈ H, ∀ v ∈ e, G.Connected c v := by
  classical exact Multiset.le_filter

theorem component_le (G : Multigraph V) (c : V) : G.component c ≤ G :=
  (le_component.mp le_rfl).1

theorem Connected.component {c : V} (h : G.Connected c u) : (G.component c).Connected c u := by
  induction h with
  | refl => exact .refl
  | @tail u v hu he ih =>
      refine ih.tail (mem_component.mpr ⟨he, fun w hw => ?_⟩)
      exact hu.trans (Connected.of_mem_edge he (Sym2.mem_mk_left u v) hw)

theorem IsCycle.component {c : V} (h : G.IsCycle v vs) (hv : G.Connected c v) :
    (G.component c).IsCycle v vs := by
  refine ⟨h.closed, h.nodup, le_component.mpr ⟨h.edges_le, fun e he w hw => ?_⟩⟩
  exact hv.trans (connected_of_mem_walk (Multiset.subset_of_le h.edges_le)
    (mem_of_mem_walkEdges he hw))

theorem isTree_component {c : V} (h : (G.component c).Acyclic) : (G.component c).IsTree := by
  have hc : ∀ u ∈ (G.component c).vertices, (G.component c).Connected c u := by
    rintro u ⟨e, he, hu⟩
    exact Connected.component ((mem_component.mp he).2 u hu)
  exact ⟨fun u hu v hv => (hc u hu).symm.trans (hc v hv), h⟩

theorem IsTree.mem_component {c : V} (h : G.IsTree) (hc : c ∈ G.vertices) {e : Sym2 V}
    (he : e ∈ G) : e ∈ G.component c :=
  Multigraph.mem_component.mpr ⟨he, fun v hv => h.connected c hc v ⟨e, he, hv⟩⟩

/-! ## Degrees -/

section Degree

variable [DecidableEq V]

/-- How many ends of edges a vertex is; a loop has two. -/
def degree (G : Multigraph V) (x : V) : Nat := (G.bind Sym2.toMultiset).count x

theorem degree_cons (u v x : V) (G : Multigraph V) :
    degree (s(u, v) ::ₘ G) x =
      (if x = u then 1 else 0) + (if x = v then 1 else 0) + G.degree x := by
  have he : s(u, v).toMultiset = {u, v} := rfl
  simp only [degree, Multiset.cons_bind, Multiset.count_add, he, Multiset.insert_eq_cons,
    Multiset.count_cons, Multiset.count_singleton]
  omega

theorem degree_eq_zero (h : ∀ e ∈ G, x ∉ e) : G.degree x = 0 := by
  refine Multiset.count_eq_zero.mpr fun hx => ?_
  obtain ⟨e, he, hxe⟩ := Multiset.mem_bind.mp hx
  exact h e he (Sym2.mem_toMultiset.mp hxe)

/-- A walk leaves a vertex as often as it enters it, its own ends apart. -/
theorem degree_walkEdges_even (h : (u :: vs).getLast? = some w) (x : V) :
    ((walkEdges u vs).degree x + (if x = u then 1 else 0) + (if x = w then 1 else 0)) % 2 = 0 := by
  induction vs generalizing u with
  | nil =>
      simp only [List.getLast?_singleton, Option.some.injEq] at h
      subst h
      split <;> simp [walkEdges, degree]
  | cons v vs ih =>
      have ih := ih (by simpa using h)
      rw [walkEdges, degree_cons]
      omega

theorem IsCycle.degree_even (h : G.IsCycle v vs) (x : V) : (walkEdges v vs).degree x % 2 = 0 := by
  have hlast : (v :: vs).getLast? = some v := by simp [List.getLast?_cons, h.closed]
  have heven := degree_walkEdges_even hlast x
  omega

theorem Acyclic.cons_leaf (h : G.Acyclic) (hw : ∀ e ∈ G, w ∉ e) (hne : u ≠ w) :
    Acyclic (s(u, w) ::ₘ G) := by
  intro v vs hc
  by_cases he : s(u, w) ∈ walkEdges v vs
  · -- the new vertex is met by this edge alone, but a cycle meets it an even number of times
    obtain ⟨rest, hrest⟩ := Multiset.exists_cons_of_mem he
    have hle := hc.edges_le
    have heven := hc.degree_even w
    rw [hrest] at hle heven
    have hsub := Multiset.subset_of_le ((Multiset.cons_le_cons_iff _).mp hle)
    rw [degree_cons, degree_eq_zero fun e he => hw e (hsub he)] at heven
    simp [hne.symm] at heven
  · exact h v vs ⟨hc.closed, hc.nodup, (Multiset.le_cons_of_notMem he).mp hc.edges_le⟩

end Degree

end Multigraph

end SqlQuery
