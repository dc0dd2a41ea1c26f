import Mathlib.Data.List.Lex
import Mathlib.Order.Bounds.Defs
import SqlQuery.Proofs.Join.Placement
import SqlQuery.Proofs.Join.Position
import SqlQuery.Proofs.Join.Shape

/-!
# The least order of attachment

The keys number the edges by rank.  Of all orders in which each edge joins a new table to those
before it, a resolution takes the one whose ranks are lexicographically least
(`isLeast_attachments`): an edge that a pass skips cannot be attached yet in any order.
-/

namespace SqlQuery

open JoinPlan

/-! ## Ranks -/

namespace JoinEdge

variable {edges : List JoinEdge}

/-- The keys put the first edge before the second, or do not tell them apart and it is given
first. -/
def Earlier (edges : List JoinEdge) (e f : JoinEdge) : Prop :=
  e.precedes f = true ∨ f.precedes e = false ∧ edges.idxOf e < edges.idxOf f

instance (edges : List JoinEdge) (e f : JoinEdge) : Decidable (Earlier edges e f) :=
  inferInstanceAs (Decidable (_ ∨ _))

/-- The number of edges that stand before the edge in the order of the keys. -/
def rank (edges : List JoinEdge) (e : JoinEdge) : Nat := edges.countP (Earlier edges · e)

theorem Earlier.asymm {e f : JoinEdge} (h : Earlier edges e f) : ¬ Earlier edges f e := by
  rintro (hf | ⟨hf, hlt⟩)
  · rcases h with he | ⟨he, -⟩
    · simp [precedes_asymm he] at hf
    · simp [he] at hf
  · rcases h with he | ⟨-, hgt⟩
    · simp [he] at hf
    · exact Nat.lt_asymm hlt hgt

theorem inOrder_pairwise (h : edges.Nodup) : (inOrder edges).Pairwise (Earlier edges) := by
  have hidx : ∀ p ∈ placed edges, edges.idxOf p.1 = p.2 := by
    intro p hp
    have hget := List.mem_zipIdx_iff_getElem?.mp ((placed_perm edges).mem_iff.mp hp)
    obtain ⟨hlt, heq⟩ := List.getElem?_eq_some_iff.mp hget
    rw [← heq]
    exact h.idxOf_getElem _ hlt
  rw [← map_fst_placed, List.pairwise_map]
  refine (placed_pairwise edges).imp_of_mem fun ha hb hab => ?_
  rwa [Earlier, hidx _ ha, hidx _ hb]

/-- The edge with `k` edges before it in the order of the keys has the rank `k`. -/
theorem rank_of_inOrder (h : edges.Nodup) {before e after}
    (hi : inOrder edges = before ++ e :: after) : rank edges e = before.length := by
  have hsorted := inOrder_pairwise h
  rw [hi, List.pairwise_append, List.pairwise_cons] at hsorted
  obtain ⟨-, ⟨hafter, -⟩, hbefore⟩ := hsorted
  have hirrefl : ¬ Earlier edges e e := fun hself => hself.asymm hself
  have hone : before.countP (Earlier edges · e) = before.length :=
    List.countP_eq_length.mpr fun f hf => by simpa using hbefore f hf e List.mem_cons_self
  have hzero : after.countP (Earlier edges · e) = 0 :=
    List.countP_eq_zero.mpr fun f hf => by simpa using (hafter f hf).asymm
  rw [rank, ← (inOrder_perm edges).countP_eq, hi, List.countP_append, List.countP_cons, hone,
    hzero]
  simp [hirrefl]

theorem rank_pairwise (h : edges.Nodup) :
    (inOrder edges).Pairwise (rank edges · < rank edges ·) := by
  have hrank : (inOrder edges).map (rank edges) = List.range (inOrder edges).length := by
    apply List.ext_getElem
    · simp
    · intro k hk _
      rw [List.length_map] at hk
      have hi : inOrder edges =
          (inOrder edges).take k ++ (inOrder edges)[k] :: (inOrder edges).drop (k + 1) := by
        rw [← List.drop_eq_getElem_cons hk, List.take_append_drop]
      rw [List.getElem_map, rank_of_inOrder h hi, List.length_take, List.getElem_range]
      omega
  rw [← List.pairwise_map (R := (· < ·)), hrank]
  exact List.pairwise_lt_range

end JoinEdge

/-! ## Orders of attachment -/

/-- Orders in which each edge has exactly one of its tables among those in use and the tables of
the edges before it. -/
inductive Connects : List Text → List JoinEdge → Prop
  | nil {used} : Connects used []
  | cons {used e es} : Xor (e.left.reference ∈ used) (e.right.reference ∈ used) →
      Connects (e.left.reference :: e.right.reference :: used) es → Connects used (e :: es)

theorem Connects.congr {used used' es} (h : Connects used es) (hu : ∀ t, t ∈ used ↔ t ∈ used') :
    Connects used' es := by
  induction h generalizing used' with
  | nil => exact .nil
  | cons hx _ ih =>
      refine .cons (by rwa [← hu, ← hu]) (ih fun t => ?_)
      simp only [List.mem_cons, hu]

/-- With one table of an edge in use, both are in use once the other one is. -/
theorem Attachment.mem_cons_iff {used : List Text} {a : Attachment}
    (hp : a.partner.reference ∈ used) (t : Text) :
    t ∈ a.table.reference :: used ↔
      t ∈ a.edge.left.reference :: a.edge.right.reference :: used := by
  obtain ⟨e, side⟩ := a
  cases side <;> grind [Attachment.partner, Attachment.table, Side.opposite, JoinEdge.endpoint]

theorem Chained.connects {used as} (h : Chained used as) : Connects used (as.map (·.edge)) := by
  induction h with
  | nil => exact .nil
  | @cons used a as hp ht _ ih =>
      refine .cons ?_ (ih.congr (a.mem_cons_iff hp))
      obtain ⟨e, side⟩ := a
      cases side
      · exact .inr ⟨hp, ht⟩
      · exact .inl ⟨hp, ht⟩

theorem Grows.map_le {r : JoinEdge → Nat} {used edges g} (h : Grows used edges g)
    (hg : g.failure? = none) (hr : edges.Pairwise (r · < r ·)) {es : List JoinEdge}
    (hp : es.Perm edges) (hc : Connects used es) : (g.attached.map (·.edge)).map r ≤ es.map r := by
  induction h generalizing es with
  | cycle => cases hg
  | @stuck used edges _ =>
      rw [Option.map_eq_none_iff, List.head?_eq_none_iff] at hg
      subst hg
      rw [hp.eq_nil]
      exact le_rfl
  | @attach used before after a g hb hpart _ _ ih =>
      cases hc with
      | nil => simp at hp
      | @cons _ f fs hx hc =>
          have hf : f ∈ before ++ a.edge :: after := hp.mem_iff.mp List.mem_cons_self
          rw [List.pairwise_append, List.pairwise_cons] at hr
          obtain ⟨hbefore, ⟨hlater, hafter⟩, hacross⟩ := hr
          simp only [Growth.after, List.map_cons]
          rcases List.mem_append.mp hf with hf | hf
          · -- an edge that the pass has skipped has no table in use
            obtain ⟨hl, hr⟩ := hb f hf
            rcases hx with ⟨hmem, -⟩ | ⟨hmem, -⟩
            · exact absurd hmem hl
            · exact absurd hmem hr
          rcases List.mem_cons.mp hf with rfl | hf
          · have hrest : (before ++ after).Pairwise (r · < r ·) :=
              List.pairwise_append.mpr ⟨hbefore, hafter, fun e he f hf =>
                hacross e he f (List.mem_cons_of_mem _ hf)⟩
            have hfs : fs.Perm (before ++ after) := (hp.trans List.perm_middle).cons_inv
            have hused : Connects (a.table.reference :: used) fs :=
              hc.congr fun t => (a.mem_cons_iff hpart t).symm
            exact List.cons_le_cons _ (ih hg hrest hfs hused)
          · exact le_of_lt (.rel (hlater f hf))

namespace JoinPlan

variable {d : Dialect} {edges : List JoinEdge} {p : JoinPlan}

theorem nodup_of_resolve (h : resolve d edges = .ok p) : edges.Nodup :=
  .of_map JoinEdge.ends (Multiset.coe_nodup.mp (isTree_of_resolve h).acyclic.nodup)

/-- The edges of a plan are distinct, and in the order in which the plan attaches them their ranks
are the least of all orders that connect the edges to the anchor. -/
theorem isLeast_attachments (h : resolve d edges = .ok p) :
    edges.Nodup ∧ ∃ first, (JoinEdge.inOrder edges).head? = some first ∧
      p = ofAttached d first.left (attachments edges) ∧
      IsLeast {ranks | ∃ es : List JoinEdge, es.Perm edges ∧
          Connects [first.left.reference] es ∧ ranks = es.map (JoinEdge.rank edges)}
        ((attachments edges).map fun a => JoinEdge.rank edges a.edge) := by
  have hnodup := nodup_of_resolve h
  obtain ⟨first, hfirst, hchain, hperm, -, hp⟩ := resolve_eq_ok h
  obtain ⟨rest, hi⟩ := List.head?_eq_some_iff.mp hfirst
  refine ⟨hnodup, first, hfirst, hp, ⟨_, hperm, hchain.connects, by simp⟩, ?_⟩
  rintro _ ⟨es, hes, hconnects, rfl⟩
  have hle := (grows_inOrder hi).map_le (failure?_of_ok hi h) (hi ▸ JoinEdge.rank_pairwise hnodup)
    (hes.trans (hi ▸ (inOrder_perm edges).symm)) hconnects
  rwa [List.map_map] at hle

end JoinPlan

namespace Sample

/-- The second edge in the order of the keys has to wait for the third. -/
def waiting : List JoinEdge := [edgeBC, edgeCD, edgeAB]

def waitingPlan : JoinPlan :=
  ⟨tableA, [⟨tableB, some "A.x = B.x", .inner⟩, ⟨tableC, some "B.y = C.y", .inner⟩,
    ⟨tableD, some "C.z = D.z", .inner⟩], []⟩

theorem waiting_isLeast : resolve strict waiting = .ok waitingPlan ∧
    IsLeast {ranks | ∃ es : List JoinEdge, es.Perm waiting ∧
      Connects [tableA.reference] es ∧ ranks = es.map (JoinEdge.rank waiting)} [0, 2, 1] := by
  have horder : JoinEdge.inOrder waiting = [edgeAB, edgeCD, edgeBC] := by cbv
  have hgrow : growByReference [edgeAB, edgeCD, edgeBC] =
      ⟨[⟨edgeAB, .right⟩, ⟨edgeBC, .right⟩, ⟨edgeCD, .right⟩], none⟩ := by cbv
  have hresolve : resolve strict waiting = .ok waitingPlan := by
    rw [resolve_of_inOrder horder, hgrow]
    rfl
  have hranks : (attachments waiting).map (fun a => JoinEdge.rank waiting a.edge) = [0, 2, 1] := by
    rw [attachments, horder, growByNumber_eq, hgrow]
    cbv
  obtain ⟨-, first, hfirst, -, hleast⟩ := isLeast_attachments hresolve
  rw [horder] at hfirst
  cases hfirst
  rw [hranks] at hleast
  exact ⟨hresolve, hleast⟩

end Sample

end SqlQuery
