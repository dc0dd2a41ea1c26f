import SqlQuery.Proofs.Join.Meaning

/-!
# Deferred predicates

A deferred predicate filters the rows of the whole chain, where the plan without deferral drops them
on the way.  The rows that pass are the same (`Interpretation.result_eq_filter`), but a right or full
join after the deferral adds rows without a partner, which the deferred predicate then rejects.  The
two plans mean the same if and only if none of these rows lives to the end of the chain.
-/

namespace SqlQuery

variable {Row : Type}

/-! ## The plan without deferral -/

def Attachment.ownStep (a : Attachment) : JoinStep := ⟨a.table, some a.edge.predicate, a.type⟩

/-- The chain of the attachments with every predicate after ON. -/
def JoinPlan.undeferred (anchor : TableRef) (as : List Attachment) : JoinPlan :=
  ⟨anchor, as.map (·.ownStep), []⟩

theorem Interpretation.result_undeferred (I : Interpretation Row) (anchor : TableRef)
    (as : List Attachment) : I.result (.undeferred anchor as) =
      (as.map (·.ownStep)).foldl I.join (I.cross anchor.reference {JoinRow.empty}) :=
  Multiset.filter_eq_self.mpr fun _ _ => nofun

theorem step_of_eligible {d : Dialect} {a : Attachment}
    (h : d.eligibleForOn a.edge.predicate = true) : a.step d = a.ownStep := by
  simp [Attachment.step, Attachment.ownStep, h]

theorem deferrals_of_eligible {d : Dialect} {a : Attachment}
    (h : d.eligibleForOn a.edge.predicate = true) (as : List Attachment) :
    deferrals d (a :: as) = deferrals d as := by
  simp [deferrals, h]

theorem deferrals_of_ineligible {d : Dialect} {a : Attachment}
    (h : d.eligibleForOn a.edge.predicate = false) (as : List Attachment) :
    deferrals d (a :: as) = a.edge.predicate :: deferrals d as := by
  simp [deferrals, h]

/-! ## Filtering on the way -/

section Filter

variable {I : Interpretation Row} {edges : List JoinEdge} {used qs : List Text} {s : JoinStep}
  {L L' : Multiset (JoinRow Row)}

theorem Settled.filter_matched (hqs : Settled edges used qs) (hI : I.Local edges)
    (ht : s.table.reference ∉ used) :
    (I.matched s L).filter (I.HoldsAll qs) = I.matched s (L.filter (I.HoldsAll qs)) := by
  rw [Interpretation.matched, Interpretation.matched, Multiset.filter_comm,
    hqs.filter_cross hI ht]

theorem Settled.filter_unmatchedRight (hqs : Settled edges used qs) (hN : I.RejectsNull edges)
    (ht : s.table.reference ∉ used) (hne : qs ≠ []) :
    (I.unmatchedRight s L).filter (I.HoldsAll qs) = 0 := by
  refine Multiset.filter_eq_nil.mpr fun ρ hρ hall => ?_
  obtain ⟨r, -, rfl⟩ := Multiset.mem_map.mp hρ
  obtain ⟨q, hq⟩ := List.exists_mem_of_ne_nil qs hne
  obtain ⟨e, he, rfl, hl, -⟩ := hqs q hq
  exact hN.ne_none he (hall _ hq) .left (JoinRow.set_of_ne _ (ne_of_mem_of_not_mem hl ht) r)

theorem Settled.filter_join (hqs : Settled edges used qs) (hI : I.Local edges)
    (hN : I.RejectsNull edges) (ht : s.table.reference ∉ used)
    (hL : L.filter (I.HoldsAll qs) = L'.filter (I.HoldsAll qs)) :
    (I.join L s).filter (I.HoldsAll qs) = (I.join L' s).filter (I.HoldsAll qs) := by
  by_cases hne : qs = []
  · have hall : ∀ M : Multiset (JoinRow Row), M.filter (I.HoldsAll qs) = M := fun M =>
      Multiset.filter_eq_self.mpr fun _ _ => by rw [hne]; exact nofun
    rw [hall, hall] at hL
    rw [hL]
  · have hleft : ∀ M : Multiset (JoinRow Row), (I.unmatchedLeft s M).filter (I.HoldsAll qs) =
        I.unmatchedLeft s (M.filter (I.HoldsAll qs)) := fun M => Multiset.filter_comm ..
    have hright := fun M => hqs.filter_unmatchedRight (L := M) hN ht hne
    simp only [Interpretation.join, Multiset.filter_add, apply_ite (Multiset.filter _),
      hqs.filter_matched hI ht, hleft, hright, Multiset.filter_zero, hL]

/-- An inner join may check its condition now or later. -/
theorem Settled.filter_join_deferred {a : Attachment} (hqs : Settled edges used qs)
    (hI : I.Local edges) (ht : a.table.reference ∉ used) (hinner : a.edge.type = .inner)
    (hL : L.filter (I.HoldsAll qs) = L'.filter (I.HoldsAll qs)) :
    (I.join L ⟨a.table, none, a.type⟩).filter (I.HoldsAll (qs ++ [a.edge.predicate])) =
      (I.join L' a.ownStep).filter (I.HoldsAll (qs ++ [a.edge.predicate])) := by
  have htype := Attachment.type_of_inner hinner
  have hcross : I.matched ⟨a.table, none, a.type⟩ (L.filter (I.HoldsAll qs)) =
      I.cross a.table.reference (L.filter (I.HoldsAll qs)) :=
    Multiset.filter_eq_self.mpr fun _ _ => nofun
  have hown : (I.matched a.ownStep (L'.filter (I.HoldsAll qs))).filter
      (I.HoldsAll [a.edge.predicate]) = I.matched a.ownStep (L'.filter (I.HoldsAll qs)) :=
    Multiset.filter_eq_self.mpr fun _ hρ => (Multiset.mem_filter.mp hρ).2
  rw [Interpretation.join_of_inner htype, Interpretation.join_of_inner htype,
    Interpretation.filter_holdsAll_append, Interpretation.filter_holdsAll_append,
    hqs.filter_matched hI ht, hqs.filter_matched hI ht, hown, hcross, hL]
  rfl

end Filter

/-! ## The law of deferral -/

section Law

variable {I : Interpretation Row} {edges : List JoinEdge} {d : Dialect}

theorem Chained.filter_foldl_join {used as} (h : Chained used as) (hI : I.Local edges)
    (hN : I.RejectsNull edges) (hsub : ∀ a ∈ as, a.edge ∈ edges)
    (hplaced : ∀ a ∈ as, JoinPlan.misplaced d a.edge = false) {qs : List Text}
    (hqs : Settled edges used qs) {L L' : Multiset (JoinRow Row)}
    (hL : L.filter (I.HoldsAll qs) = L'.filter (I.HoldsAll qs)) :
    ((as.map (·.step d)).foldl I.join L).filter (I.HoldsAll (qs ++ deferrals d as)) =
      ((as.map (·.ownStep)).foldl I.join L').filter (I.HoldsAll (qs ++ deferrals d as)) := by
  induction h generalizing qs L L' with
  | nil => simpa [deferrals] using hL
  | @cons used a as hp ht _ ih =>
      obtain ⟨ha, has⟩ := List.forall_mem_cons.mp hsub
      obtain ⟨hpa, hpas⟩ := List.forall_mem_cons.mp hplaced
      simp only [List.map_cons, List.foldl_cons]
      cases he : d.eligibleForOn a.edge.predicate with
      | true =>
          rw [deferrals_of_eligible he, step_of_eligible he]
          exact ih has hpas (hqs.cons _) (hqs.filter_join hI hN ht hL)
      | false =>
          have hinner := JoinPlan.inner_of_not_misplaced hpa he
          have hstep : a.step d = ⟨a.table, none, a.type⟩ := by simp [Attachment.step, he]
          have hsettled : Settled edges (a.table.reference :: used) (qs ++ [a.edge.predicate]) :=
            hqs.attach ha hp fun q hq => List.mem_singleton.mp hq
          rw [deferrals_of_ineligible he, hstep, List.append_cons]
          exact ih has hpas hsettled (hqs.filter_join_deferred hI ht hinner hL)

/-- The rows of a plan are those of the plan without deferral on which the deferred predicates
hold. -/
theorem Interpretation.result_eq_filter {p : JoinPlan} (h : JoinPlan.resolve d edges = .ok p)
    (hI : I.Local edges) (hN : I.RejectsNull edges) :
    I.result p = (I.result (.undeferred p.anchor (JoinPlan.attachments edges))).filter
      (I.HoldsAll p.deferred) := by
  obtain ⟨first, -, hchain, hperm, hplaced, rfl⟩ := JoinPlan.resolve_eq_ok h
  have hlaw := hchain.filter_foldl_join hI hN (edge_mem_of_perm hperm) hplaced .nil
    (Eq.refl ((I.cross first.left.reference {JoinRow.empty}).filter (I.HoldsAll [])))
  rw [List.nil_append, ← I.result_undeferred] at hlaw
  exact hlaw

end Law

end SqlQuery
