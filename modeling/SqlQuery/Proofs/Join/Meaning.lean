import Mathlib.Data.Multiset.Bind
import SqlQuery.Proofs.Join.Resolution

/-!
# The meaning of a join plan

Each table is a bag of rows.  A chain of tables is a bag of rows too, each of which has the row of
every table that it has a partner in and none of the others.  The plan is evaluated from left to
right, and its deferred predicates filter the rows of the whole chain (`Interpretation.result`).
-/

namespace SqlQuery

variable {Row : Type}

/-! ## Rows of a chain -/

/-- The row of each table by its reference text, if there is one. -/
abbrev JoinRow (Row : Type) := Text → Option Row

namespace JoinRow

def empty : JoinRow Row := fun _ => none

def set (ρ : JoinRow Row) (t : Text) (r : Row) : JoinRow Row := Function.update ρ t (some r)

@[simp] theorem set_self (ρ : JoinRow Row) (t : Text) (r : Row) : ρ.set t r t = some r :=
  Function.update_self ..

theorem set_of_ne (ρ : JoinRow Row) {t u : Text} (h : u ≠ t) (r : Row) : ρ.set t r u = ρ u :=
  Function.update_of_ne h ..

theorem set_ne_none {ρ : JoinRow Row} {t u : Text} {r : Row} (h : u = t ∨ ρ u ≠ none) :
    ρ.set t r u ≠ none := by
  by_cases heq : u = t
  · rw [heq, set_self]
    exact nofun
  · rw [set_of_ne ρ heq]
    exact h.resolve_left heq

theorem set_comm (ρ : JoinRow Row) {t u : Text} (h : t ≠ u) (r s : Row) :
    (ρ.set t r).set u s = (ρ.set u s).set t r :=
  Function.update_comm h ..

end JoinRow

/-! ## Evaluation -/

/-- The predicates that the dialect leaves for WHERE. -/
def deferrals (d : Dialect) (as : List Attachment) : List Text :=
  (as.map (·.edge.predicate)).filter (!d.eligibleForOn ·)

structure Interpretation (Row : Type) where
  rows : Text → Multiset Row
  holds : Text → JoinRow Row → Bool

namespace Interpretation

variable (I : Interpretation Row)

def HoldsAll (predicates : List Text) (ρ : JoinRow Row) : Prop :=
  ∀ q ∈ predicates, I.holds q ρ = true

instance (predicates : List Text) : DecidablePred (I.HoldsAll predicates) := fun ρ =>
  inferInstanceAs (Decidable (∀ q ∈ predicates, I.holds q ρ = true))

/-- Each row of the chain with each row of the table. -/
def cross (t : Text) (chain : Multiset (JoinRow Row)) : Multiset (JoinRow Row) :=
  chain.bind fun ρ => (I.rows t).map (ρ.set t)

def matched (s : JoinStep) (chain : Multiset (JoinRow Row)) : Multiset (JoinRow Row) :=
  (I.cross s.table.reference chain).filter (I.HoldsAll s.condition?.toList)

def unmatchedLeft (s : JoinStep) (chain : Multiset (JoinRow Row)) : Multiset (JoinRow Row) :=
  chain.filter fun ρ => ∀ r ∈ I.rows s.table.reference,
    ¬ I.HoldsAll s.condition?.toList (ρ.set s.table.reference r)

def unmatchedRight (s : JoinStep) (chain : Multiset (JoinRow Row)) : Multiset (JoinRow Row) :=
  ((I.rows s.table.reference).filter fun r => ∀ ρ ∈ chain,
    ¬ I.HoldsAll s.condition?.toList (ρ.set s.table.reference r)).map
      (JoinRow.empty.set s.table.reference)

/-- Joins one more table; without a condition every row is a partner of every other one. -/
def join (chain : Multiset (JoinRow Row)) (s : JoinStep) : Multiset (JoinRow Row) :=
  I.matched s chain +
    (if s.type.keeps .left then I.unmatchedLeft s chain else 0) +
    (if s.type.keeps .right then I.unmatchedRight s chain else 0)

def chain (p : JoinPlan) : Multiset (JoinRow Row) :=
  p.joins.foldl I.join (I.cross p.anchor.reference {JoinRow.empty})

def result (p : JoinPlan) : Multiset (JoinRow Row) := (I.chain p).filter (I.HoldsAll p.deferred)

theorem result_ofAttached (d : Dialect) (anchor : TableRef) (as : List Attachment) :
    I.result (.ofAttached d anchor as) =
      ((as.map (·.step d)).foldl I.join (I.cross anchor.reference {JoinRow.empty})).filter
        (I.HoldsAll (deferrals d as)) :=
  rfl

/-! ## What a predicate may depend on -/

/-- A predicate depends on nothing but the rows of the two tables of each edge that carries it. -/
def Local (edges : List JoinEdge) : Prop :=
  ∀ e ∈ edges, ∀ ρ σ : JoinRow Row, ρ e.left.reference = σ e.left.reference →
    ρ e.right.reference = σ e.right.reference → I.holds e.predicate ρ = I.holds e.predicate σ

/-- A predicate is false where one of the two tables has no row. -/
def RejectsNull (edges : List JoinEdge) : Prop :=
  ∀ e ∈ edges, ∀ ρ : JoinRow Row, ρ e.left.reference = none ∨ ρ e.right.reference = none →
    I.holds e.predicate ρ = false

variable {I}

theorem Local.of_endpoint {edges : List JoinEdge} (hI : I.Local edges) {e} (he : e ∈ edges)
    {ρ σ : JoinRow Row} (h : ∀ side, ρ (e.endpoint side).reference = σ (e.endpoint side).reference) :
    I.holds e.predicate ρ = I.holds e.predicate σ :=
  hI e he ρ σ (h .left) (h .right)

theorem RejectsNull.of_endpoint {edges : List JoinEdge} (hN : I.RejectsNull edges) {e}
    (he : e ∈ edges) {ρ : JoinRow Row} {side : Side} (h : ρ (e.endpoint side).reference = none) :
    I.holds e.predicate ρ = false := by
  cases side
  · exact hN e he ρ (Or.inl h)
  · exact hN e he ρ (Or.inr h)

theorem RejectsNull.ne_none {edges : List JoinEdge} (hN : I.RejectsNull edges) {e} (he : e ∈ edges)
    {ρ : JoinRow Row} (h : I.holds e.predicate ρ = true) (side : Side) :
    ρ (e.endpoint side).reference ≠ none := by
  intro hnone
  rw [hN.of_endpoint he hnone] at h
  cases h

theorem holdsAll_append {qs rs : List Text} {ρ : JoinRow Row} :
    I.HoldsAll (qs ++ rs) ρ ↔ I.HoldsAll qs ρ ∧ I.HoldsAll rs ρ :=
  List.forall_mem_append

theorem join_of_inner {s : JoinStep} (h : s.type = .inner) (L : Multiset (JoinRow Row)) :
    I.join L s = I.matched s L := by
  simp [join, h, JoinType.keeps]

theorem mem_cross {t : Text} {L : Multiset (JoinRow Row)} {σ : JoinRow Row} :
    σ ∈ I.cross t L ↔ ∃ ρ ∈ L, ∃ r ∈ I.rows t, ρ.set t r = σ := by
  simp only [cross, Multiset.mem_bind, Multiset.mem_map]

theorem mem_join {s : JoinStep} {L : Multiset (JoinRow Row)} {σ : JoinRow Row} :
    σ ∈ I.join L s ↔ σ ∈ I.matched s L ∨ (s.type.keeps .left = true ∧ σ ∈ I.unmatchedLeft s L) ∨
      (s.type.keeps .right = true ∧ σ ∈ I.unmatchedRight s L) := by
  simp only [join, Multiset.mem_add, or_assoc]
  cases s.type.keeps .left <;> cases s.type.keeps .right <;> simp

/-- A condition that does not look at a table can be checked before the table is added. -/
theorem filter_cross {t : Text} {P : JoinRow Row → Prop} [DecidablePred P]
    (hP : ∀ ρ r, P (JoinRow.set ρ t r) ↔ P ρ) (L : Multiset (JoinRow Row)) :
    (I.cross t L).filter P = I.cross t (L.filter P) := by
  rw [cross, cross, Multiset.filter_bind, Multiset.bind_filter]
  refine Multiset.bind_congr fun ρ _ => ?_
  rw [Multiset.filter_map]
  by_cases hρ : P ρ
  · rw [if_pos hρ]
    congr 1
    exact Multiset.filter_eq_self.mpr fun r _ => (hP ρ r).mpr hρ
  · have hnone : (I.rows t).filter (P ∘ ρ.set t) = 0 :=
      Multiset.filter_eq_nil.mpr fun r _ h => hρ ((hP ρ r).mp h)
    rw [if_neg hρ, hnone, Multiset.map_zero]

theorem filter_holdsAll_append (qs rs : List Text) (L : Multiset (JoinRow Row)) :
    L.filter (I.HoldsAll (qs ++ rs)) = (L.filter (I.HoldsAll qs)).filter (I.HoldsAll rs) := by
  rw [Multiset.filter_filter]
  refine Multiset.filter_congr fun ρ _ => ?_
  rw [holdsAll_append, and_comm]

end Interpretation

theorem Attachment.type_of_inner {a : Attachment} (h : a.edge.type = .inner) : a.type = .inner := by
  obtain ⟨e, side⟩ := a
  cases side <;> simp_all [type, JoinType.flip]

theorem Attachment.keeps_of_inner {a : Attachment} (h : a.edge.type = .inner) (side : Side) :
    a.type.keeps side = false := by
  rw [type_of_inner h]
  cases side <;> rfl

/-! ## Predicates of the tables in the chain -/

/-- Each predicate is that of an edge with both tables in the chain. -/
def Settled (edges : List JoinEdge) (used predicates : List Text) : Prop :=
  ∀ q ∈ predicates, ∃ e ∈ edges, e.predicate = q ∧
    e.left.reference ∈ used ∧ e.right.reference ∈ used

namespace Settled

variable {edges : List JoinEdge} {used qs : List Text} {I : Interpretation Row}

theorem nil : Settled edges used [] := nofun

theorem cons (h : Settled edges used qs) (t : Text) : Settled edges (t :: used) qs := by
  intro q hq
  obtain ⟨e, he, rfl, hl, hr⟩ := h q hq
  exact ⟨e, he, rfl, List.mem_cons_of_mem _ hl, List.mem_cons_of_mem _ hr⟩

theorem attach (h : Settled edges used qs) {a : Attachment} (ha : a.edge ∈ edges)
    (hp : a.partner.reference ∈ used) {rs : List Text} (hrs : ∀ q ∈ rs, q = a.edge.predicate) :
    Settled edges (a.table.reference :: used) (qs ++ rs) := by
  intro q hq
  rcases List.mem_append.mp hq with hq | hq
  · exact h.cons _ q hq
  · exact ⟨a.edge, ha, (hrs q hq).symm, Attachment.endpoint_mem_cons hp .left,
      Attachment.endpoint_mem_cons hp .right⟩

theorem holdsAll_set (h : Settled edges used qs) (hI : I.Local edges) {t : Text} (ht : t ∉ used)
    (ρ : JoinRow Row) (r : Row) : I.HoldsAll qs (ρ.set t r) ↔ I.HoldsAll qs ρ := by
  refine forall₂_congr fun q hq => ?_
  obtain ⟨e, he, rfl, hl, hr⟩ := h q hq
  have hleft := JoinRow.set_of_ne ρ (ne_of_mem_of_not_mem hl ht) r
  have hright := JoinRow.set_of_ne ρ (ne_of_mem_of_not_mem hr ht) r
  rw [hI e he _ _ hleft hright]

theorem filter_cross (h : Settled edges used qs) (hI : I.Local edges) {t : Text} (ht : t ∉ used)
    (L : Multiset (JoinRow Row)) :
    (I.cross t L).filter (I.HoldsAll qs) = I.cross t (L.filter (I.HoldsAll qs)) :=
  Interpretation.filter_cross (h.holdsAll_set hI ht) L

end Settled

end SqlQuery
