import SqlQuery.Proofs.Join.Inner
import SqlQuery.Proofs.Join.Position
import SqlQuery.Proofs.Join.Renaming

/-!
# The order that the keys give

Keys are compared byte by byte, and an edge without a key stands after all edges with one.  This is
a strict weak order, so the positions of the edges have exactly one order by their keys that leaves
the rest as it is given (`JoinEdge.inKeyOrder_iff`).  A resolution reads nothing else of the keys
(`JoinPlan.resolve_rekeyed`).
-/

namespace SqlQuery

/-! ## Texts byte by byte -/

namespace Text

/-- The first text is a proper beginning of the second one, or it has the smaller byte, as a number,
where they first differ. -/
def Below (s t : Text) : Prop :=
  (s <+: t ∧ s ≠ t) ∨ ∃ (u : Text) (b c : UInt8) (v w : Text),
    s = u ++ b :: v ∧ t = u ++ c :: w ∧ b.toNat < c.toNat

theorem not_below_nil (s : Text) : ¬ s.Below [] := by
  simp [Below]

theorem nil_below_cons (c : UInt8) (t : Text) : Below [] (c :: t) :=
  .inl ⟨List.nil_prefix, nofun⟩

theorem cons_below_cons {b c : UInt8} {s t : Text} :
    Below (b :: s) (c :: t) ↔ b.toNat < c.toNat ∨ b = c ∧ s.Below t := by
  constructor
  · rintro (⟨hpre, hne⟩ | ⟨u, x, y, v, w, hs, ht, hlt⟩)
    · obtain ⟨rfl, htail⟩ := List.cons_prefix_cons.mp hpre
      exact .inr ⟨rfl, .inl ⟨htail, fun h => hne (congrArg (b :: ·) h)⟩⟩
    · cases u with
      | nil =>
          cases hs
          cases ht
          exact .inl hlt
      | cons z u =>
          cases hs
          cases ht
          exact .inr ⟨rfl, .inr ⟨u, x, y, v, w, rfl, rfl, hlt⟩⟩
  · rintro (hlt | ⟨rfl, ⟨hpre, hne⟩ | ⟨u, x, y, v, w, rfl, rfl, hlt⟩⟩)
    · exact .inr ⟨[], b, c, s, t, rfl, rfl, hlt⟩
    · exact .inl ⟨List.cons_prefix_cons.mpr ⟨rfl, hpre⟩, fun h => hne (List.cons.inj h).2⟩
    · exact .inr ⟨b :: u, x, y, v, w, rfl, rfl, hlt⟩

theorem below_iff_lt {s t : Text} : s.Below t ↔ s < t := by
  induction s generalizing t with
  | nil =>
      cases t with
      | nil => simp [not_below_nil]
      | cons c t => simp [nil_below_cons]
  | cons b s ih =>
      cases t with
      | nil => simp [not_below_nil]
      | cons c t => rw [cons_below_cons, ih, List.cons_lt_cons_iff, UInt8.lt_iff_toNat_lt]

theorem not_below_iff {s t : Text} : ¬ s.Below t ↔ t = s ∨ t.Below s := by
  rw [below_iff_lt, below_iff_lt, List.not_lt, List.le_iff_lt_or_eq, or_comm]

instance (s t : Text) : Decidable (s.Below t) := decidable_of_iff _ below_iff_lt.symm

example : Below "1" "10" ∧ Below "10" "9" ∧ Below "z" "é" := by decide

end Text

namespace JoinEdge

variable {e f : JoinEdge} {edges : List JoinEdge}

/-! ## A strict weak order -/

theorem precedes_iff_below : e.precedes f = true ↔
    e.orderKey ≠ [] ∧ (f.orderKey = [] ∨ e.orderKey.Below f.orderKey) := by
  rw [precedes_iff, Text.below_iff_lt]

theorem precedes_eq_false_iff : f.precedes e = false ↔
    (f.orderKey ≠ [] → e.orderKey ≠ []) ∧ (e.orderKey ≠ [] → f.orderKey ≠ [] →
      e.orderKey = f.orderKey ∨ e.orderKey.Below f.orderKey) := by
  rw [← Bool.not_eq_true, precedes_iff_below]
  constructor
  · intro h
    exact ⟨fun hf he => h ⟨hf, .inl he⟩,
      fun _ hf => Text.not_below_iff.mp fun hb => h ⟨hf, .inr hb⟩⟩
  · rintro ⟨hkeyed, hascending⟩ ⟨hf, he | hb⟩
    · exact hkeyed hf he
    · exact Text.not_below_iff.mpr (hascending (hkeyed hf) hf) hb

theorem not_precedes_iff_orderKey_eq :
    e.precedes f = false ∧ f.precedes e = false ↔ e.orderKey = f.orderKey := by
  rw [precedes_eq_false_iff, precedes_eq_false_iff]
  constructor
  · rintro ⟨⟨hef, hfe⟩, hfe', hef'⟩
    by_cases he : e.orderKey = []
    · rw [he]
      by_contra hf
      exact hfe' (Ne.symm hf) he
    · rcases hef' he (hef he) with heq | hb
      · exact heq
      · rcases hfe (hef he) he with heq | hb'
        · exact heq.symm
        · exact absurd hb (Text.not_below_iff.mpr (.inr hb'))
  · intro h
    rw [h]
    exact ⟨⟨id, fun _ _ => .inl rfl⟩, id, fun _ _ => .inl rfl⟩

theorem isStrictWeakOrder_precedes :
    IsStrictWeakOrder JoinEdge fun e f => e.precedes f = true where
  irrefl e h := by
    have hasymm := precedes_asymm h
    rw [h] at hasymm
    cases hasymm
  trans e f g hef hfg := by
    by_contra hne
    have hfalse := not_precedes_trans (precedes_asymm hfg) (Bool.eq_false_iff.mpr hne)
    rw [hef] at hfalse
    cases hfalse
  incomp_trans e f g := by
    simp only [Bool.not_eq_true]
    rintro ⟨hef, hfe⟩ ⟨hfg, hgf⟩
    exact ⟨not_precedes_trans hfg hef, not_precedes_trans hfe hgf⟩

/-! ## The positions in order -/

/-- The positions of the edges, sorted by the keys. -/
def sortedPositions (edges : List JoinEdge) : List (Fin edges.length) :=
  (List.finRange edges.length).mergeSort fun i j => !(edges.get j).precedes (edges.get i)

/-- The positions are in an order in which the edges with a key come first, their keys ascend, and
those with the same key, or without one, stay in the order in which they are given. -/
structure InKeyOrder (edges : List JoinEdge) (order : List (Fin edges.length)) : Prop where
  perm : order.Perm (List.finRange edges.length)
  keyed_first : order.Pairwise fun i j => edges[j].orderKey ≠ [] → edges[i].orderKey ≠ []
  ascending : order.Pairwise fun i j => edges[i].orderKey ≠ [] → edges[j].orderKey ≠ [] →
    edges[i].orderKey = edges[j].orderKey ∨ edges[i].orderKey.Below edges[j].orderKey
  stable : order.Pairwise fun i j => edges[i].orderKey = edges[j].orderKey → i < j

theorem map_get_sortedPositions (edges : List JoinEdge) :
    (sortedPositions edges).map edges.get = inOrder edges :=
  calc (sortedPositions edges).map edges.get
    _ = ((List.finRange edges.length).map edges.get).mergeSort fun e f => !f.precedes e :=
      List.map_mergeSort fun _ _ _ _ => rfl
    _ = inOrder edges := by rw [List.map_get_finRange, inOrder]

theorem sortedPositions_perm (edges : List JoinEdge) :
    (sortedPositions edges).Perm (List.finRange edges.length) :=
  List.mergeSort_perm _ _

/-- The edge at a position, with the position. -/
def place (edges : List JoinEdge) (i : Fin edges.length) : JoinEdge × Nat := (edges.get i, i)

theorem map_place_finRange (edges : List JoinEdge) :
    (List.finRange edges.length).map (place edges) = edges.zipIdx := by
  apply List.ext_getElem
  · simp
  · intro k _ _
    simp [place]

theorem placed_eq (edges : List JoinEdge) :
    placed edges = (sortedPositions edges).map (place edges) := by
  -- a position is its own index in the list of all positions, so ties are broken alike
  have hidx : ∀ p ∈ (List.finRange edges.length).zipIdx, p.1.val = p.2 := by
    intro p hp
    obtain ⟨hlt, heq⟩ := List.getElem?_eq_some_iff.mp (List.mem_zipIdx_iff_getElem?.mp hp)
    rw [← heq, List.getElem_finRange]
    rfl
  calc placed edges
    _ = ((List.finRange edges.length).zipIdx.map (place edges ∘ Prod.fst)).mergeSort
        (List.zipIdxLE fun e f => !f.precedes e) := by
      rw [← List.map_map, List.zipIdx_map_fst, map_place_finRange, placed]
    _ = ((List.finRange edges.length).zipIdx.mergeSort (List.zipIdxLE fun i j =>
        !(edges.get j).precedes (edges.get i))).map (place edges ∘ Prod.fst) := by
      refine (List.map_mergeSort fun p hp q hq => ?_).symm
      simp [List.zipIdxLE, place, hidx p hp, hidx q hq]
    _ = (sortedPositions edges).map (place edges) := by
      rw [← List.map_map, List.mergeSort_zipIdx, sortedPositions]

theorem inKeyOrder_sortedPositions (edges : List JoinEdge) :
    InKeyOrder edges (sortedPositions edges) := by
  have hplaced := placed_pairwise edges
  rw [placed_eq, List.pairwise_map] at hplaced
  have hsorted : (sortedPositions edges).Pairwise fun i j =>
      edges[j].precedes edges[i] = false := by
    refine hplaced.imp ?_
    rintro i j (h | ⟨h, -⟩)
    · exact precedes_asymm h
    · exact h
  refine ⟨sortedPositions_perm edges, ?_, ?_, ?_⟩
  · exact hsorted.imp fun h => (precedes_eq_false_iff.mp h).1
  · exact hsorted.imp fun h => (precedes_eq_false_iff.mp h).2
  · refine hplaced.imp ?_
    rintro i j (h | ⟨-, h⟩) heq
    · exact absurd h (Bool.eq_false_iff.mp (not_precedes_iff_orderKey_eq.mpr heq).1)
    · exact h

theorem InKeyOrder.pairwise {order : List (Fin edges.length)} (h : InKeyOrder edges order) :
    order.Pairwise fun i j =>
      edges[j].precedes edges[i] = false ∧ (edges[i].orderKey = edges[j].orderKey → i < j) := by
  refine (h.keyed_first.and (h.ascending.and h.stable)).imp ?_
  rintro i j ⟨hkeyed, hascending, hstable⟩
  exact ⟨precedes_eq_false_iff.mpr ⟨hkeyed, hascending⟩, hstable⟩

theorem inKeyOrder_iff {order : List (Fin edges.length)} :
    InKeyOrder edges order ↔ order = sortedPositions edges := by
  constructor
  · intro h
    have hsorted := inKeyOrder_sortedPositions edges
    refine List.Perm.eq_of_pairwise ?_ h.pairwise hsorted.pairwise
      (h.perm.trans hsorted.perm.symm)
    rintro i j - - ⟨hji, hlt⟩ ⟨hij, hgt⟩
    have heq := not_precedes_iff_orderKey_eq.mp ⟨hij, hji⟩
    exact absurd (hgt heq.symm) (Fin.lt_asymm (hlt heq))
  · rintro rfl
    exact inKeyOrder_sortedPositions edges

/-! ## Other keys that compare the same -/

/-- The edges with other keys, one for each position. -/
def rekeyed (edges : List JoinEdge) (key : Fin edges.length → Text) : List JoinEdge :=
  (List.finRange edges.length).map fun i => { edges.get i with orderKey := key i }

/-- Other keys that are empty at the same positions and compare the same. -/
structure ComparesAlike (edges : List JoinEdge) (key : Fin edges.length → Text) : Prop where
  empty_iff : ∀ i, key i = [] ↔ edges[i].orderKey = []
  below_iff : ∀ i j, (key i).Below (key j) ↔ edges[i].orderKey.Below edges[j].orderKey

theorem inOrder_rekeyed {key : Fin edges.length → Text} (h : ComparesAlike edges key) :
    inOrder (rekeyed edges key) =
      (sortedPositions edges).map fun i => { edges.get i with orderKey := key i } := by
  refine (List.map_mergeSort fun i _ j _ => congrArg (!·) ?_).symm
  rw [Bool.eq_iff_iff, precedes_iff_below, precedes_iff_below]
  simp only [ne_eq, h.empty_iff, h.below_iff]
  rfl

theorem map_unkeyed_rekeyed (edges : List JoinEdge) (key : Fin edges.length → Text) :
    (rekeyed edges key).map unkeyed = edges.map unkeyed :=
  calc (rekeyed edges key).map unkeyed
    _ = (List.finRange edges.length).map (unkeyed ∘ edges.get) := List.map_map
    _ = edges.map unkeyed := by rw [← List.map_map, List.map_get_finRange]

theorem map_unkeyed_inOrder_rekeyed {key : Fin edges.length → Text}
    (h : ComparesAlike edges key) :
    (inOrder (rekeyed edges key)).map unkeyed = (inOrder edges).map unkeyed := by
  rw [inOrder_rekeyed h, ← map_get_sortedPositions, List.map_map, List.map_map]
  rfl

end JoinEdge

namespace JoinPlan

variable {d : Dialect} {edges edges' : List JoinEdge}

theorem keepsOutcome_unkeyed : KeepsOutcome JoinEdge.unkeyed :=
  ⟨fun _ => ⟨rfl, rfl⟩, fun _ => rfl, fun _ => rfl⟩

theorem ofGrowth_unkeyed (d : Dialect) (anchor : TableRef) (g : Growth) :
    ofGrowth d anchor (g.onEdge JoinEdge.unkeyed) = ofGrowth d anchor g := by
  have hplan : ∀ as, ofAttached d anchor (as.map (·.onEdge JoinEdge.unkeyed)) =
      id (ofAttached d anchor as) := by
    intro as
    rw [ofAttached, List.map_map, List.map_map]
    rfl
  rw [ofGrowth_onEdge keepsOutcome_unkeyed hplan]
  cases ofGrowth d anchor g <;> rfl

/-- Edges that differ in their keys only come to the same if the keys put them in the same order. -/
theorem resolve_congr (hedges : edges'.map JoinEdge.unkeyed = edges.map JoinEdge.unkeyed)
    (horder : (JoinEdge.inOrder edges').map JoinEdge.unkeyed =
      (JoinEdge.inOrder edges).map JoinEdge.unkeyed) :
    resolve d edges' = resolve d edges := by
  have hmissing : missingOuterJoin? d edges' = missingOuterJoin? d edges := by
    rw [← missingOuterJoin?_onEdge keepsOutcome_unkeyed, hedges,
      missingOuterJoin?_onEdge keepsOutcome_unkeyed]
  have hgrowth : (growByNumber (JoinEdge.inOrder edges')).onEdge JoinEdge.unkeyed =
      (growByNumber (JoinEdge.inOrder edges)).onEdge JoinEdge.unkeyed := by
    rw [← growByNumber_onEdge keepsOutcome_unkeyed.references, horder,
      growByNumber_onEdge keepsOutcome_unkeyed.references]
  cases hi : JoinEdge.inOrder edges with
  | nil =>
      rw [hi, List.map_nil, List.map_eq_nil_iff] at horder
      simp only [resolve, hi, horder]
  | cons first rest =>
      rw [hi] at horder
      obtain ⟨first', rest', hi', hfirst, -⟩ := List.map_eq_cons_iff.mp horder
      have hanchor : first'.left = first.left := (congrArg JoinEdge.left hfirst :)
      cases hm : missingOuterJoin? d edges with
      | some u =>
          rw [hm] at hmissing
          simp only [resolve, hi, hi', hm, hmissing]
      | none =>
          rw [hm] at hmissing
          rw [resolve_eq_ofGrowth hi hm, resolve_eq_ofGrowth hi' hmissing, hanchor,
            ← ofGrowth_unkeyed, hgrowth, ofGrowth_unkeyed]

theorem resolve_rekeyed (d : Dialect) {key : Fin edges.length → Text}
    (h : JoinEdge.ComparesAlike edges key) :
    resolve d (JoinEdge.rekeyed edges key) = resolve d edges :=
  resolve_congr (JoinEdge.map_unkeyed_rekeyed edges key) (JoinEdge.map_unkeyed_inOrder_rekeyed h)

end JoinPlan

open JoinEdge in
/-- The keys give a strict weak order of the edges.  The positions that are sorted by it are the
only ones in the order of the keys, and they tell the order in which a resolution takes the edges;
other keys that compare alike leave its result as it is. -/
theorem keyOrder_exact :
    IsStrictWeakOrder JoinEdge (fun e f => e.precedes f = true) ∧
    (∀ (edges : List JoinEdge) (order : List (Fin edges.length)),
      InKeyOrder edges order ↔ order = sortedPositions edges) ∧
    (∀ edges : List JoinEdge, (sortedPositions edges).map edges.get = inOrder edges) ∧
    ∀ (d : Dialect) (edges : List JoinEdge) (key : Fin edges.length → Text),
      ComparesAlike edges key →
        JoinPlan.resolve d (rekeyed edges key) = JoinPlan.resolve d edges :=
  ⟨isStrictWeakOrder_precedes, fun _ _ => inKeyOrder_iff, map_get_sortedPositions,
    fun d _ _ h => JoinPlan.resolve_rekeyed d h⟩

namespace Sample

def tableE : TableRef := { tableD with name := "E", name_ne_nil := by decide }

def unkeyedCD : JoinEdge := edgeCD.unkeyed
def unkeyedDE : JoinEdge := ⟨tableD, tableE, "D.w = E.w", [], .inner⟩
def accentedBC : JoinEdge := { edgeBC with orderKey := "é" }

/-- Two edges without a key, one with a key beyond ASCII and one with a smaller key. -/
def hinted : List JoinEdge := [unkeyedCD, accentedBC, edgeAB, unkeyedDE]

def hintedOrder : List (Fin hinted.length) := ([2, 1, 0, 3] : List (Fin 4))

/-- Keys that compare alike, one of them a beginning of the other one. -/
def otherKeys : Fin hinted.length → Text := List.get ([[], "zz", "z", []] : List Text)

def hintedPlan : JoinPlan :=
  ⟨tableA, [⟨tableB, some "A.x = B.x", .inner⟩, ⟨tableC, some "B.y = C.y", .inner⟩,
    ⟨tableD, some "C.z = D.z", .inner⟩, ⟨tableE, some "D.w = E.w", .inner⟩], []⟩

theorem resolve_hinted : JoinPlan.resolve strict hinted = .ok hintedPlan := by
  have horder : JoinEdge.inOrder hinted = [edgeAB, accentedBC, unkeyedCD, unkeyedDE] := by cbv
  have hgrow : growByReference [edgeAB, accentedBC, unkeyedCD, unkeyedDE] =
      ⟨[⟨edgeAB, .right⟩, ⟨accentedBC, .right⟩, ⟨unkeyedCD, .right⟩, ⟨unkeyedDE, .right⟩],
        none⟩ := by cbv
  rw [JoinPlan.resolve_of_inOrder horder, hgrow]
  rfl

theorem hinted_keyOrder : JoinEdge.InKeyOrder hinted hintedOrder ∧
    JoinEdge.ComparesAlike hinted otherKeys ∧
    JoinPlan.resolve strict (JoinEdge.rekeyed hinted otherKeys) = .ok hintedPlan := by
  have hsorted : JoinEdge.sortedPositions hinted = hintedOrder := by cbv
  have halike : JoinEdge.ComparesAlike hinted otherKeys := ⟨by decide, by decide⟩
  obtain ⟨-, horder, -, hresolve⟩ := keyOrder_exact
  refine ⟨(horder hinted hintedOrder).mpr hsorted.symm, halike, ?_⟩
  rw [hresolve strict hinted otherKeys halike, resolve_hinted]

end Sample

end SqlQuery
