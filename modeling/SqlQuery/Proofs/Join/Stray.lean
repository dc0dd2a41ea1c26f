import SqlQuery.Proofs.Join.Survival

/-!
# When a deferral changes the result

A stray row is one that a right or full join adds after a deferral and that lives to the end of the
chain.  The deferred predicate rejects it, and the plan without deferral keeps it
(`Chained.exists_rejected`), so the two plans mean the same if and only if no row strays.
-/

namespace SqlQuery

variable {Row : Type}

/-! ## A stray row lives to the end -/

section Survivor

variable {I : Interpretation Row} {all : List Attachment}

def Interpretation.HoldsWhereCarried (I : Interpretation Row) (all as : List Attachment) : Prop :=
  ∀ a ∈ as, (carriers all a.edge.predicate).length = 1 → ∀ ρ : JoinRow Row,
    ρ a.partner.reference ≠ none → ρ a.table.reference ≠ none → I.holds a.edge.predicate ρ = true

theorem set_mem_join {a : Attachment} {L : Multiset (JoinRow Row)} {ρ : JoinRow Row} (hρ : ρ ∈ L)
    {r : Row} (hr : r ∈ I.rows a.table.reference)
    (h : I.holds a.edge.predicate (ρ.set a.table.reference r) = true) :
    ρ.set a.table.reference r ∈ I.join L a.ownStep := by
  refine Interpretation.mem_join.mpr (Or.inl (Multiset.mem_filter.mpr ⟨?_, fun q hq => ?_⟩))
  · exact Interpretation.mem_cross.mpr ⟨ρ, hρ, r, hr, rfl⟩
  · rw [List.mem_singleton.mp hq]
    exact h

/-- A join that keeps rows without a partner has the row itself or with a row of the new table. -/
theorem exists_mem_join {a : Attachment} {L : Multiset (JoinRow Row)} {ρ : JoinRow Row} (hρ : ρ ∈ L)
    (hkeeps : a.type.keeps .left = true) :
    ∃ σ ∈ I.join L a.ownStep, σ = ρ ∨ ∃ r, σ = ρ.set a.table.reference r := by
  by_cases hmatch : ∃ r ∈ I.rows a.table.reference,
      I.holds a.edge.predicate (ρ.set a.table.reference r) = true
  · obtain ⟨r, hr, hholds⟩ := hmatch
    exact ⟨_, set_mem_join hρ hr hholds, Or.inr ⟨r, rfl⟩⟩
  · refine ⟨ρ, Interpretation.mem_join.mpr (Or.inr (Or.inl ⟨hkeeps, ?_⟩)), Or.inl rfl⟩
    refine Multiset.mem_filter.mpr ⟨hρ, fun r hr hall => hmatch ⟨r, hr, ?_⟩⟩
    exact hall _ List.mem_cons_self

/-- The next row agrees with this one on the tables so far and has the tables held by then. -/
theorem exists_next {used held : List Text} {a : Attachment} {as : List Attachment}
    (ht : a.table.reference ∉ used) (hrows : ∀ t, ∃ r, r ∈ I.rows t)
    (hmatch : (carriers all a.edge.predicate).length = 1 → ∀ ρ : JoinRow Row,
      ρ a.partner.reference ≠ none → ρ a.table.reference ≠ none →
        I.holds a.edge.predicate ρ = true)
    (hs : survives all held (a :: as) = true) {L : Multiset (JoinRow Row)} {ρ : JoinRow Row}
    (hρ : ρ ∈ L) (hheld : ∀ t ∈ held, ρ t ≠ none) :
    ∃ σ ∈ I.join L a.ownStep, (∀ t ∈ used, σ t = ρ t) ∧
      ∃ held, (∀ t ∈ held, σ t ≠ none) ∧ survives all held as = true := by
  rw [survives] at hs
  split at hs
  · rename_i hcan
    simp only [canMatch, Bool.and_eq_true, List.contains_iff_mem, beq_iff_eq] at hcan
    obtain ⟨hpartner, hcarry⟩ := hcan
    obtain ⟨r, hr⟩ := hrows a.table.reference
    have hholds : I.holds a.edge.predicate (ρ.set a.table.reference r) = true := by
      refine hmatch hcarry _ ?_ (JoinRow.set_ne_none (Or.inl rfl))
      exact JoinRow.set_ne_none (Or.inr (hheld _ hpartner))
    refine ⟨_, set_mem_join hρ hr hholds, fun t hmem => ?_, _, fun t hmem => ?_, hs⟩
    · exact JoinRow.set_of_ne ρ (ne_of_mem_of_not_mem hmem ht) r
    · exact JoinRow.set_ne_none (List.mem_cons.mp hmem |>.imp_right (hheld t))
  · obtain ⟨hkeeps, hs⟩ := Bool.and_eq_true_iff.mp hs
    obtain ⟨σ, hσ, rfl | ⟨r, rfl⟩⟩ := exists_mem_join (I := I) hρ hkeeps
    · exact ⟨σ, hσ, fun _ _ => rfl, held, hheld, hs⟩
    · refine ⟨_, hσ, fun t hmem => ?_, held, fun t hmem => ?_, hs⟩
      · exact JoinRow.set_of_ne ρ (ne_of_mem_of_not_mem hmem ht) r
      · exact JoinRow.set_ne_none (Or.inr (hheld t hmem))

theorem Chained.exists_survivor {used as} (h : Chained used as) (hrows : ∀ t, ∃ r, r ∈ I.rows t)
    (hmatch : I.HoldsWhereCarried all as) {held : List Text} (hs : survives all held as = true)
    {L : Multiset (JoinRow Row)} {ρ : JoinRow Row} (hρ : ρ ∈ L) (hheld : ∀ t ∈ held, ρ t ≠ none) :
    ∃ σ ∈ (as.map (·.ownStep)).foldl I.join L, ∀ t ∈ used, σ t = ρ t := by
  induction h generalizing held L ρ with
  | nil => exact ⟨ρ, hρ, fun _ _ => rfl⟩
  | @cons used a as _ ht _ ih =>
      obtain ⟨hma, hmas⟩ := List.forall_mem_cons.mp hmatch
      obtain ⟨σ, hσ, hagree, held, hheld, hs⟩ := exists_next ht hrows hma hs hρ hheld
      obtain ⟨τ, hτ, hlast⟩ := ih hmas hs hσ hheld
      refine ⟨τ, hτ, fun t hmem => ?_⟩
      rw [hlast t (List.mem_cons_of_mem _ hmem), hagree t hmem]

theorem Chained.exists_stray {used before a after} (h : Chained used (before ++ a :: after))
    (hkeeps : a.type.keeps .right = true) (hs : survives all [a.table.reference] after = true)
    (hrows : ∀ t, ∃ r, r ∈ I.rows t) (hnever : ∀ ρ, I.holds a.edge.predicate ρ = false)
    (hmatch : I.HoldsWhereCarried all after) (L : Multiset (JoinRow Row)) :
    ∃ σ ∈ ((before ++ a :: after).map (·.ownStep)).foldl I.join L,
      ∀ t ∈ reached used before, σ t = none := by
  obtain ⟨-, hchain⟩ := h.of_append
  obtain - | ⟨-, ht, hafter⟩ := hchain
  obtain ⟨r, hr⟩ := hrows a.table.reference
  have hstray : JoinRow.empty.set a.table.reference r ∈
      I.join ((before.map (·.ownStep)).foldl I.join L) a.ownStep := by
    refine Interpretation.mem_join.mpr (Or.inr (Or.inr ⟨hkeeps, Multiset.mem_map.mpr ⟨r, ?_, rfl⟩⟩))
    refine Multiset.mem_filter.mpr ⟨hr, fun τ _ hall => ?_⟩
    have hown := hall a.edge.predicate List.mem_cons_self
    rw [hnever] at hown
    cases hown
  obtain ⟨σ, hσ, hagree⟩ := hafter.exists_survivor hrows hmatch hs hstray (by simp)
  refine ⟨σ, ?_, fun t hmem => ?_⟩
  · rw [List.map_append, List.foldl_append]
    exact hσ
  · rw [hagree t (List.mem_cons_of_mem _ hmem)]
    exact JoinRow.set_of_ne _ (ne_of_mem_of_not_mem hmem ht) r

theorem predicate_ne_of_carriers {before after : List Attachment} {a c : Attachment}
    (hc : c ∈ after) (hcarry : (carriers (before ++ a :: after) c.edge.predicate).length = 1) :
    c.edge.predicate ≠ a.edge.predicate := by
  intro heq
  have hpos := List.length_pos_of_mem (mem_carriers hc)
  simp only [carriers, heq, List.filter_append, List.filter_cons, beq_self_eq_true, if_true,
    List.length_append, List.length_cons] at hcarry hpos
  omega

end Survivor

/-! ## Where a row strays -/

theorem exists_of_strays {d : Dialect} {all : List Attachment} {deferred : Bool}
    {as : List Attachment} (h : strays d all deferred as = true) :
    ∃ before a after, as = before ++ a :: after ∧
      (deferred = true ∨ ∃ b ∈ before, d.eligibleForOn b.edge.predicate = false) ∧
      a.type.keeps .right = true ∧ survives all [a.table.reference] after = true := by
  induction as generalizing deferred with
  | nil => cases h
  | cons a as ih =>
      rw [strays, Bool.or_eq_true] at h
      rcases h with h | h
      · simp only [Bool.and_eq_true] at h
        obtain ⟨⟨hdeferred, hkeeps⟩, hs⟩ := h
        exact ⟨[], a, as, rfl, Or.inl hdeferred, hkeeps, hs⟩
      · obtain ⟨before, b, after, rfl, hdeferred, hkeeps, hs⟩ := ih h
        refine ⟨a :: before, b, after, rfl, ?_, hkeeps, hs⟩
        rcases hdeferred with hdeferred | ⟨c, hc, he⟩
        · rcases Bool.or_eq_true_iff.mp hdeferred with hdeferred | he
          · exact Or.inl hdeferred
          · exact Or.inr ⟨a, List.mem_cons_self, by simpa using he⟩
        · exact Or.inr ⟨c, List.mem_cons_of_mem _ hc, he⟩

/-- One row in every table.  A predicate that one attachment alone carries holds on the rows that
have its two tables, but `never` does not hold at all. -/
def lenient (all : List Attachment) (never : Text) : Interpretation Unit where
  rows _ := {()}
  holds q ρ :=
    match carriers all q with
    | [a] => q != never && (ρ a.partner.reference).isSome && (ρ a.table.reference).isSome
    | _ => false

section Lenient

variable {all : List Attachment} {never : Text}

theorem lenient_holds {a : Attachment} (ha : a ∈ all) (ρ : JoinRow Unit) :
    (lenient all never).holds a.edge.predicate ρ =
      ((carriers all a.edge.predicate).length == 1 && (a.edge.predicate != never &&
        (ρ a.partner.reference).isSome && (ρ a.table.reference).isSome)) := by
  have hmem := mem_carriers ha
  simp only [lenient]
  match hc : carriers all a.edge.predicate with
  | [] =>
      rw [hc] at hmem
      cases hmem
  | [b] =>
      rw [hc] at hmem
      cases List.mem_singleton.mp hmem
      simp
  | _ :: _ :: _ => simp

theorem lenient_local {edges : List JoinEdge} (hperm : (all.map (·.edge)).Perm edges) :
    (lenient all never).Local edges := by
  intro e he ρ σ hl hr
  obtain ⟨a, ha, rfl⟩ := List.mem_map.mp (hperm.mem_iff.mpr he)
  have hside : ∀ side, ρ (a.edge.endpoint side).reference = σ (a.edge.endpoint side).reference := by
    intro side
    cases side
    · exact hl
    · exact hr
  rw [lenient_holds ha, lenient_holds ha, a.table_eq_endpoint, Attachment.partner, hside, hside]

theorem lenient_rejectsNull {edges : List JoinEdge} (hperm : (all.map (·.edge)).Perm edges) :
    (lenient all never).RejectsNull edges := by
  intro e he ρ h
  obtain ⟨a, ha, rfl⟩ := List.mem_map.mp (hperm.mem_iff.mpr he)
  rw [lenient_holds ha]
  obtain ⟨e, side⟩ := a
  cases side <;> rcases h with h | h <;>
    simp_all [Attachment.partner, Attachment.table, JoinEdge.endpoint, Side.opposite]

end Lenient

/-! ## When a deferral changes the result -/

section Change

variable {edges : List JoinEdge} {d : Dialect} {anchor : TableRef} {as : List Attachment}

/-- A stray row is rejected where all rows are alike and the condition of its own join never
holds. -/
theorem Chained.exists_rejected (h : Chained [anchor.reference] as)
    (hperm : (as.map (·.edge)).Perm edges) (hstrays : strays d as false as = true) :
    ∃ I : Interpretation Unit, I.Local edges ∧ I.RejectsNull edges ∧
      ∃ σ ∈ I.result (.undeferred anchor as), ¬ I.HoldsAll (deferrals d as) σ := by
  obtain ⟨before, a, after, rfl, hdeferred, hkeeps, hs⟩ := exists_of_strays hstrays
  obtain ⟨b, hb, he⟩ := hdeferred.resolve_left nofun
  generalize hall : before ++ a :: after = all at *
  have ha : a ∈ all := by simp [← hall]
  have hbmem : b ∈ all := by simp [← hall, hb]
  have hN : (lenient all a.edge.predicate).RejectsNull edges := lenient_rejectsNull hperm
  have hnever : ∀ ρ, (lenient all a.edge.predicate).holds a.edge.predicate ρ = false := by
    intro ρ
    rw [lenient_holds ha]
    simp
  have hmatch : (lenient all a.edge.predicate).HoldsWhereCarried all after := by
    intro c hc hcarry ρ hpartner htable
    have hcmem : c ∈ all := by simp [← hall, hc]
    have hne : c.edge.predicate ≠ a.edge.predicate := predicate_ne_of_carriers hc (hall ▸ hcarry)
    rw [lenient_holds hcmem]
    simp [hcarry, hne, Option.isSome_iff_ne_none, hpartner, htable]
  refine ⟨lenient all a.edge.predicate, lenient_local hperm, hN, ?_⟩
  rw [Interpretation.result_undeferred]
  subst hall
  obtain ⟨σ, hσ, hnone⟩ := h.exists_stray hkeeps hs (fun t => ⟨(), Multiset.mem_singleton_self ()⟩)
    hnever hmatch _
  refine ⟨σ, hσ, fun hdefer => ?_⟩
  have hbq : b.edge.predicate ∈ deferrals d (before ++ a :: after) :=
    List.mem_filter.mpr ⟨List.mem_map_of_mem hbmem, by simp [he]⟩
  exact hN.ne_none (edge_mem_of_perm hperm b hbmem) (hdefer _ hbq) .left
    (hnone _ (h.of_append.1.endpoint_mem hb .left))

end Change

theorem result_eq_undeferred_iff {d : Dialect} {edges : List JoinEdge} {p : JoinPlan}
    (h : JoinPlan.resolve d edges = .ok p) :
    (∀ (Row : Type) (I : Interpretation Row), I.Local edges → I.RejectsNull edges →
      I.result p = I.result (.undeferred p.anchor (JoinPlan.attachments edges))) ↔
        strays d (JoinPlan.attachments edges) false (JoinPlan.attachments edges) = false := by
  obtain ⟨first, -, hchain, hperm, hplaced, hp⟩ := JoinPlan.resolve_eq_ok h
  have hdeferred : p.deferred = deferrals d (JoinPlan.attachments edges) := by rw [hp]; rfl
  have hanchor : p.anchor = first.left := by rw [hp]; rfl
  rw [← hanchor] at hchain
  constructor
  · intro hall
    by_contra hstrays
    rw [Bool.not_eq_false] at hstrays
    obtain ⟨I, hI, hN, σ, hσ, hrejected⟩ := hchain.exists_rejected hperm hstrays
    rw [← hall Unit I hI hN, I.result_eq_filter h hI hN, hdeferred] at hσ
    exact hrejected (Multiset.mem_filter.mp hσ).2
  · intro hstrays Row I hI hN
    rw [I.result_eq_filter h hI hN, hdeferred]
    exact Multiset.filter_eq_self.mpr (hchain.holdsAll_result hperm hI hN hplaced hstrays)

/-- The deferred predicates drop rows from the result of the plan without deferral, and they drop
none, whatever the tables hold, if and only if no row strays. -/
theorem resolve_deferral {d : Dialect} {edges : List JoinEdge} {p : JoinPlan}
    (h : JoinPlan.resolve d edges = .ok p) :
    p = .ofAttached d p.anchor (JoinPlan.attachments edges) ∧
      (∀ (Row : Type) (I : Interpretation Row), I.Local edges → I.RejectsNull edges →
        I.result p = (I.result (.undeferred p.anchor (JoinPlan.attachments edges))).filter
          (I.HoldsAll p.deferred)) ∧
      ((∀ (Row : Type) (I : Interpretation Row), I.Local edges → I.RejectsNull edges →
        I.result p = I.result (.undeferred p.anchor (JoinPlan.attachments edges))) ↔
          strays d (JoinPlan.attachments edges) false (JoinPlan.attachments edges) = false) := by
  refine ⟨?_, fun _ I hI hN => I.result_eq_filter h hI hN, result_eq_undeferred_iff h⟩
  obtain ⟨first, -, -, -, -, rfl⟩ := JoinPlan.resolve_eq_ok h
  rfl

namespace Sample

/-- The left join comes after the deferral, but it adds no row. -/
theorem plan_deferral : JoinPlan.resolve strict edges = .ok plan ∧
    ∀ (Row : Type) (I : Interpretation Row), I.Local edges → I.RejectsNull edges →
      I.result plan = I.result (.undeferred plan.anchor (JoinPlan.attachments edges)) := by
  have hattached : JoinPlan.attachments edges = [⟨innerEdge, .right⟩, ⟨outerEdge, .left⟩] := by cbv
  refine ⟨resolve_eq, (resolve_deferral resolve_eq).2.2.mpr ?_⟩
  rw [hattached]
  decide

/-- A row of `C` without a partner is kept by the right join, but not by the deferred predicate. -/
def lossyEdges : List JoinEdge :=
  [⟨tableA, tableB, "A.x < B.x", [], .inner⟩, ⟨tableB, tableC, "B.id = C.id", [], .right⟩]

def lossyPlan : JoinPlan :=
  ⟨tableA, [⟨tableB, none, .inner⟩, ⟨tableC, some "B.id = C.id", .right⟩], ["A.x < B.x"]⟩

theorem lossyPlan_differs : JoinPlan.resolve strict lossyEdges = .ok lossyPlan ∧
    ¬ ∀ (Row : Type) (I : Interpretation Row), I.Local lossyEdges → I.RejectsNull lossyEdges →
      I.result lossyPlan =
        I.result (.undeferred lossyPlan.anchor (JoinPlan.attachments lossyEdges)) := by
  have horder : JoinEdge.inOrder lossyEdges = lossyEdges := by cbv
  have hgrow : growByNumber (JoinEdge.inOrder lossyEdges) =
      ⟨lossyEdges.map fun e => ⟨e, .right⟩, none⟩ := by cbv
  have hresolve : JoinPlan.resolve strict lossyEdges = .ok lossyPlan := by
    rw [JoinPlan.resolve_eq_ofGrowth horder rfl, hgrow]
    rfl
  refine ⟨hresolve, fun hall => ?_⟩
  have hstrays := (result_eq_undeferred_iff hresolve).mp hall
  rw [JoinPlan.attachments, hgrow] at hstrays
  revert hstrays
  decide

end Sample

end SqlQuery
