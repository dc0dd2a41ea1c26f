import Mathlib.Data.List.Nodup
import SqlQuery.Join.Order

/-!
# Edges and their positions

Two edges of a list may be equal, so which of them comes first is told by the positions at which
they are given.  Sorting by the keys permutes the positions and keeps the order of those that the
keys do not tell apart (`JoinEdge.placed_pairwise`), and a change of one edge that keeps its key
leaves them where they are (`JoinEdge.placed_modify`).
-/

namespace SqlQuery.JoinEdge

variable {e f g : JoinEdge} {edges : List JoinEdge}

/-! ## The order of the keys -/

theorem precedes_iff : e.precedes f = true ↔
    e.orderKey ≠ [] ∧ (f.orderKey = [] ∨ e.orderKey < f.orderKey) := by
  simp [precedes]

theorem precedes_asymm (h : e.precedes f = true) : f.precedes e = false := by
  rw [← Bool.not_eq_true, precedes_iff]
  rintro ⟨hf, he | hlt⟩
  · exact (precedes_iff.mp h).1 he
  · rcases (precedes_iff.mp h).2 with hnil | hgt
    · exact hf hnil
    · exact List.lt_asymm hgt hlt

theorem not_precedes_trans (h₁ : f.precedes e = false) (h₂ : g.precedes f = false) :
    g.precedes e = false := by
  rw [← Bool.not_eq_true, precedes_iff] at h₁ h₂ ⊢
  rintro ⟨hg, he | hlt⟩
  · have hf : f.orderKey ≠ [] := fun hf => h₂ ⟨hg, .inl hf⟩
    exact h₁ ⟨hf, .inl he⟩
  · have hf : f.orderKey ≠ [] := fun hf => h₂ ⟨hg, .inl hf⟩
    have hfg : f.orderKey ≤ g.orderKey := fun hlt => h₂ ⟨hg, .inr hlt⟩
    exact h₁ ⟨hf, .inr (List.lt_of_le_of_lt hfg hlt)⟩

/-! ## Sorting with positions -/

/-- The edges in the order of their keys and positions, each with the position at which it is
given. -/
def placed (edges : List JoinEdge) : List (JoinEdge × Nat) :=
  edges.zipIdx.mergeSort (List.zipIdxLE fun e f => !f.precedes e)

/-- The positions of the edges in the order of their keys. -/
def positions (edges : List JoinEdge) : List Nat := (placed edges).map Prod.snd

theorem map_fst_placed (edges : List JoinEdge) : (placed edges).map Prod.fst = inOrder edges :=
  List.mergeSort_zipIdx

theorem placed_perm (edges : List JoinEdge) : (placed edges).Perm edges.zipIdx :=
  List.mergeSort_perm _ _

theorem positions_perm (edges : List JoinEdge) :
    (positions edges).Perm (List.range edges.length) := by
  have h := (placed_perm edges).map Prod.snd
  rwa [List.zipIdx_map_snd, ← List.range_eq_range'] at h

theorem positions_nodup (edges : List JoinEdge) : (positions edges).Nodup :=
  (positions_perm edges).nodup_iff.mpr List.nodup_range

/-- Edges that their keys do not tell apart keep the order in which they are given. -/
theorem placed_pairwise (edges : List JoinEdge) :
    (placed edges).Pairwise fun a b =>
      a.1.precedes b.1 = true ∨ b.1.precedes a.1 = false ∧ a.2 < b.2 := by
  have htrans : ∀ e f g : JoinEdge, (!f.precedes e) = true → (!g.precedes f) = true →
      (!g.precedes e) = true := by
    simpa using fun e f g => not_precedes_trans (e := e) (f := f) (g := g)
  have htotal : ∀ e f : JoinEdge, (!f.precedes e || !e.precedes f) = true := by
    intro e f
    cases h : f.precedes e with
    | false => rfl
    | true => simp [precedes_asymm h]
  have hsorted := List.pairwise_mergeSort (List.zipIdxLE_trans htrans)
    (List.zipIdxLE_total htotal) edges.zipIdx
  have hne : (placed edges).Pairwise (·.2 ≠ ·.2) := List.pairwise_map.mp (positions_nodup edges)
  refine hsorted.imp₂ (fun a b hle hab => ?_) hne
  cases hp : a.1.precedes b.1 with
  | true => exact .inl rfl
  | false =>
      have hle : b.1.precedes a.1 = false ∧ a.2 ≤ b.2 := by simpa [List.zipIdxLE, hp] using hle
      exact .inr ⟨hle.1, Nat.lt_of_le_of_ne hle.2 hab⟩

/-! ## Changing one edge -/

/-- Changes the edge that is given at the position. -/
def changeAt (i : Nat) (f : JoinEdge → JoinEdge) (p : JoinEdge × Nat) : JoinEdge × Nat :=
  (if p.2 = i then f p.1 else p.1, p.2)

theorem zipIdx_modify (edges : List JoinEdge) (i : Nat) (f : JoinEdge → JoinEdge) :
    (edges.modify i f).zipIdx = edges.zipIdx.map (changeAt i f) := by
  apply List.ext_getElem?
  intro k
  simp only [List.getElem?_zipIdx, List.getElem?_modify, List.getElem?_map]
  cases edges[k]? with
  | none => rfl
  | some e => simp [changeAt, eq_comm (a := k)]

theorem placed_modify {f : JoinEdge → JoinEdge} (hf : ∀ e, (f e).orderKey = e.orderKey)
    (edges : List JoinEdge) (i : Nat) :
    placed (edges.modify i f) = (placed edges).map (changeAt i f) := by
  have hkey : ∀ p, (changeAt i f p).1.orderKey = p.1.orderKey := by
    intro p
    rw [changeAt]
    split
    · exact hf p.1
    · rfl
  rw [placed, placed, zipIdx_modify]
  refine (List.map_mergeSort fun a _ b _ => ?_).symm
  simp only [List.zipIdxLE, precedes, hkey]
  rfl

end SqlQuery.JoinEdge
