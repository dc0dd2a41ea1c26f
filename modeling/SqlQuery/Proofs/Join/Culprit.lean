import SqlQuery.Proofs.Join.Placement
import SqlQuery.Proofs.Join.Shape

/-!
# The tables that a failed resolution names

When a growth stops, the tables in the chain are connected to the anchor by the attached edges.
So an edge between two of them closes a cycle, and if no edge leaves them, they are all that the
anchor is connected to (`mem_reached_iff_connected`).  The tables that an error names are therefore
those of the edge that is at fault (`resolve_culprits`).
-/

namespace SqlQuery

open Multigraph

/-- One of the tables of the edge is connected to the anchor. -/
def JoinEdge.ReachedFrom (anchor : Text) (edges : List JoinEdge) (e : JoinEdge) : Prop :=
  (joinGraph edges).Connected anchor e.left.reference ∨
    (joinGraph edges).Connected anchor e.right.reference

/-- The edge that remains first is the first one of all without a table in use. -/
theorem exists_first_detached {used : List Text} {es attached rest : List JoinEdge} {e : JoinEdge}
    (hsub : (e :: rest).Sublist es) (hperm : es.Perm (attached ++ e :: rest))
    (hattached : ∀ f ∈ attached, ¬ f.Detached used) (hd : ∀ f ∈ e :: rest, f.Detached used) :
    ∃ before after, es = before ++ e :: after ∧ ∀ f ∈ before, ¬ f.Detached used := by
  classical
  have hall : (e :: rest).filter (·.Detached used) = e :: rest :=
    List.filter_eq_self.mpr (by simpa using hd)
  have hnone : attached.filter (·.Detached used) = [] :=
    List.filter_eq_nil_iff.mpr (by simpa using hattached)
  have hkept := hsub.filter (·.Detached used)
  have hlen := (hperm.filter (·.Detached used)).length_eq
  rw [List.filter_append, hnone, List.nil_append] at hlen
  have hfilter := (hkept.eq_of_length hlen.symm).symm.trans hall
  obtain ⟨before, after, rfl, hbefore, -, -⟩ := List.filter_eq_cons_iff.mp hfilter
  exact ⟨before, after, rfl, by simpa using hbefore⟩

namespace JoinPlan

variable {edges : List JoinEdge} {first : JoinEdge} {rest : List JoinEdge}

/-- Once no edge can be attached any more, the chain holds all that the anchor is connected to. -/
theorem mem_reached_iff_connected (h : JoinEdge.inOrder edges = first :: rest) {remaining}
    (hperm : edges.Perm ((attachments edges).map (·.edge) ++ remaining))
    (hd : ∀ f ∈ remaining, f.Detached (reached [first.left.reference] (attachments edges)))
    (t : Text) : t ∈ reached [first.left.reference] (attachments edges) ↔
      (joinGraph edges).Connected first.left.reference t := by
  rw [joinGraph_perm hperm, joinGraph_append]
  constructor
  · intro ht
    exact (connected_of_mem_reached h ht).mono (Multiset.subset_of_le (Multiset.le_add_right _ _))
  · intro ht
    obtain ⟨-, hin⟩ := (attachments_chained h).acyclic acyclic_zero (by simp)
    rw [add_zero] at hin
    exact mem_used_of_connected hin hd (mem_reached_of_mem _ List.mem_cons_self) ht

theorem reachedFrom_iff (h : JoinEdge.inOrder edges = first :: rest) {remaining}
    (hperm : edges.Perm ((attachments edges).map (·.edge) ++ remaining))
    (hd : ∀ f ∈ remaining, f.Detached (reached [first.left.reference] (attachments edges)))
    (e : JoinEdge) : e.ReachedFrom first.left.reference edges ↔
      ¬ e.Detached (reached [first.left.reference] (attachments edges)) := by
  rw [JoinEdge.ReachedFrom, ← mem_reached_iff_connected h hperm hd,
    ← mem_reached_iff_connected h hperm hd, JoinEdge.Detached, not_and_or, not_not, not_not]

/-- An edge that closes a cycle has its ends connected by others. -/
theorem exists_cycle (h : JoinEdge.inOrder edges = first :: rest) {a b : Text}
    (hf : (growByNumber (JoinEdge.inOrder edges)).failure? = some (.duplicate a b)) :
    ∃ before e after, edges = before ++ e :: after ∧ e.left.reference = a ∧
      e.right.reference = b ∧ (joinGraph (before ++ after)).Connected a b ∧
      (joinGraph edges).Connected first.left.reference a ∧
      (joinGraph edges).Connected first.left.reference b := by
  obtain ⟨remaining, -, hperm, hends⟩ := exists_remaining h
  rw [hf] at hends
  cases hends with
  | @cycle _ e he hl hr =>
      have hmem : e ∈ edges := hperm.mem_iff.mpr (List.mem_append_right _ he)
      obtain ⟨before, after, hedges⟩ := List.append_of_mem hmem
      have hcons : joinGraph edges = e.ends ::ₘ joinGraph (before ++ after) := by
        rw [hedges, joinGraph_perm List.perm_middle, joinGraph_cons]
      obtain ⟨others, hothers⟩ := Multiset.exists_cons_of_mem (ends_mem_joinGraph he)
      have hrest : joinGraph (before ++ after) =
          joinGraph ((attachments edges).map (·.edge)) + others := by
        have hall := joinGraph_perm hperm
        rw [joinGraph_append, hothers, Multiset.add_cons, hcons] at hall
        exact (Multiset.cons_inj_right _).mp hall
      have ha := (connected_of_mem_reached h hl).mono (H := joinGraph (before ++ after))
        (hrest ▸ Multiset.subset_of_le (Multiset.le_add_right _ _))
      have hb := (connected_of_mem_reached h hr).mono (H := joinGraph (before ++ after))
        (hrest ▸ Multiset.subset_of_le (Multiset.le_add_right _ _))
      have hsub : joinGraph (before ++ after) ⊆ joinGraph edges :=
        hcons ▸ Multiset.subset_cons _ _
      exact ⟨before, e, after, hedges, rfl, rfl, ha.symm.trans hb, ha.mono hsub, hb.mono hsub⟩

/-- The edge that no pass reaches is the first of all that the anchor is not connected to. -/
theorem exists_unreached (h : JoinEdge.inOrder edges = first :: rest) {a b : Text}
    (hf : (growByNumber (JoinEdge.inOrder edges)).failure? = some (.unreachable a b)) :
    ∃ before e after, JoinEdge.inOrder edges = before ++ e :: after ∧ e.left.reference = a ∧
      e.right.reference = b ∧ ¬ e.ReachedFrom first.left.reference edges ∧
      ∀ f ∈ before, f.ReachedFrom first.left.reference edges := by
  obtain ⟨remaining, hsub, hperm, hends⟩ := exists_remaining h
  rw [hf] at hends
  cases hends with
  | @stuck e rest' hd =>
      have hreached := reachedFrom_iff h hperm hd
      have hattached : ∀ f ∈ (attachments edges).map (·.edge),
          ¬ f.Detached (reached [first.left.reference] (attachments edges)) := by
        intro f hf hdetached
        obtain ⟨g, hg, rfl⟩ := List.mem_map.mp hf
        exact hdetached.1 ((attachments_chained h).endpoint_mem hg .left)
      obtain ⟨before, after, hi, hbefore⟩ :=
        exists_first_detached hsub ((inOrder_perm edges).trans hperm) hattached hd
      refine ⟨before, e, after, hi, rfl, rfl, ?_, fun f hf => (hreached f).mpr (hbefore f hf)⟩
      rw [hreached, not_not]
      exact hd e List.mem_cons_self

end JoinPlan

open JoinPlan in
/-- The two tables of a duplicate path are those of an edge whose ends other edges connect already,
and the two of an unreachable path are those of the first edge that the anchor is not connected
to. -/
theorem resolve_culprits (d : Dialect) (edges : List JoinEdge) (a b : Text) :
    (resolve d edges = .error (.path (.duplicate a b)) →
      ∃ first before e after, (JoinEdge.inOrder edges).head? = some first ∧
        edges = before ++ e :: after ∧ e.left.reference = a ∧ e.right.reference = b ∧
        (joinGraph (before ++ after)).Connected a b ∧
        (joinGraph edges).Connected first.left.reference a ∧
        (joinGraph edges).Connected first.left.reference b) ∧
    (resolve d edges = .error (.path (.unreachable a b)) →
      ∃ first before e after, (JoinEdge.inOrder edges).head? = some first ∧
        JoinEdge.inOrder edges = before ++ e :: after ∧
        e.left.reference = a ∧ e.right.reference = b ∧
        ¬ e.ReachedFrom first.left.reference edges ∧
        ∀ f ∈ before, f.ReachedFrom first.left.reference edges) := by
  constructor
  · intro h
    obtain ⟨first, rest, hi⟩ := exists_first (h.trans_ne nofun)
    obtain ⟨before, e, after, hculprit⟩ := exists_cycle hi (failure?_of_path hi h)
    exact ⟨first, before, e, after, by rw [hi, List.head?_cons], hculprit⟩
  · intro h
    obtain ⟨first, rest, hi⟩ := exists_first (h.trans_ne nofun)
    obtain ⟨before, e, after, hculprit⟩ := exists_unreached hi (failure?_of_path hi h)
    exact ⟨first, before, e, after, by rw [hi, List.head?_cons], hculprit⟩

namespace Sample

def edgeCA : JoinEdge := ⟨tableC, tableA, "C.w = A.w", [], .inner⟩

/-- The last edge closes a cycle of three. -/
def cyclic : List JoinEdge := [edgeAB, edgeBC, edgeCA]

def separate : List JoinEdge := [edgeAB, edgeCD]

theorem inOrder_cyclic : JoinEdge.inOrder cyclic = [edgeAB, edgeBC, edgeCA] := by cbv

theorem inOrder_separate : JoinEdge.inOrder separate = [edgeAB, edgeCD] := by cbv

theorem resolve_cyclic : JoinPlan.resolve strict cyclic =
    .error (.path (.duplicate tableC.reference tableA.reference)) := by
  have hgrow : growByReference [edgeAB, edgeBC, edgeCA] =
      ⟨[⟨edgeAB, .right⟩, ⟨edgeBC, .right⟩],
        some (.duplicate tableC.reference tableA.reference)⟩ := by cbv
  rw [JoinPlan.resolve_of_inOrder inOrder_cyclic, hgrow]
  rfl

theorem resolve_separate : JoinPlan.resolve strict separate =
    .error (.path (.unreachable tableC.reference tableD.reference)) := by
  have hgrow : growByReference [edgeAB, edgeCD] =
      ⟨[⟨edgeAB, .right⟩], some (.unreachable tableC.reference tableD.reference)⟩ := by cbv
  rw [JoinPlan.resolve_of_inOrder inOrder_separate, hgrow]
  rfl

theorem culprits_named :
    JoinPlan.resolve strict cyclic =
        .error (.path (.duplicate tableC.reference tableA.reference)) ∧
      (joinGraph cyclic).Connected tableA.reference tableC.reference ∧
      JoinPlan.resolve strict separate =
        .error (.path (.unreachable tableC.reference tableD.reference)) ∧
      ¬ (joinGraph separate).Connected tableA.reference tableC.reference := by
  obtain ⟨first, _, _, _, hfirst, -, -, -, -, hconn, -⟩ :=
    (resolve_culprits strict cyclic _ _).1 resolve_cyclic
  obtain ⟨first', _, e, _, hfirst', -, he, -, hout, -⟩ :=
    (resolve_culprits strict separate _ _).2 resolve_separate
  rw [inOrder_cyclic] at hfirst
  rw [inOrder_separate] at hfirst'
  cases hfirst
  cases hfirst'
  rw [JoinEdge.ReachedFrom, he, not_or] at hout
  exact ⟨resolve_cyclic, hconn, resolve_separate, hout.1⟩

end Sample

end SqlQuery
