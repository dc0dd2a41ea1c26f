import SqlQuery.Proofs.Join.Deferral

/-!
# Rows without a partner

A right or full join adds a row that has no partner in the chain.  It lives to the end of the chain
if each later join finds it a partner or keeps it without one (`survives`).  A row that is added
after a deferral and lives to the end strays (`strays`).  If no row does, the deferred predicates
hold on all rows of the plan without deferral (`Chained.holdsAll_result`).
-/

namespace SqlQuery

variable {Row : Type}

/-! ## Which rows live -/

def carriers (all : List Attachment) (q : Text) : List Attachment :=
  all.filter (·.edge.predicate == q)

/-- Whether the condition of the attachment can hold on a row that has the tables in `held`.  Two
edges that carry the same predicate leave it no table to look at, so it never holds. -/
def canMatch (all : List Attachment) (held : List Text) (a : Attachment) : Bool :=
  held.contains a.partner.reference && (carriers all a.edge.predicate).length == 1

/-- Whether a row that has the tables in `held` can live through the attachments. -/
def survives (all : List Attachment) (held : List Text) : List Attachment → Bool
  | [] => true
  | a :: as =>
    if canMatch all held a then survives all (a.table.reference :: held) as
    else a.type.keeps .left && survives all held as

/-- Whether a row can be added after a deferral and live to the end of the chain. -/
def strays (d : Dialect) (all : List Attachment) (deferred : Bool) : List Attachment → Bool
  | [] => false
  | a :: as =>
    (deferred && a.type.keeps .right && survives all [a.table.reference] as) ||
      strays d all (deferred || !d.eligibleForOn a.edge.predicate) as

theorem mem_carriers {all : List Attachment} {a : Attachment} (ha : a ∈ all) :
    a ∈ carriers all a.edge.predicate :=
  List.mem_filter.mpr ⟨ha, beq_self_eq_true _⟩

/-! ## Predicates that never hold -/

/-- Two edges of a chain share one table at most, and a predicate of both cannot depend on it. -/
theorem Chained.holds_eq_false_of_repeated {I : Interpretation Row} {edges : List JoinEdge}
    {used all} (h : Chained used all) (hI : I.Local edges) (hN : I.RejectsNull edges)
    (hsub : ∀ a ∈ all, a.edge ∈ edges) {a} (ha : a ∈ all)
    (hcarry : (carriers all a.edge.predicate).length ≠ 1) (ρ : JoinRow Row) :
    I.holds a.edge.predicate ρ = false := by
  have hmem := mem_carriers ha
  have hpair : (carriers all a.edge.predicate).Pairwise _ := h.pairwise.sublist List.filter_sublist
  have hedge : ∀ b ∈ carriers all a.edge.predicate,
      b.edge ∈ edges ∧ b.edge.predicate = a.edge.predicate := by
    intro b hb
    obtain ⟨hb, heq⟩ := List.mem_filter.mp hb
    exact ⟨hsub b hb, eq_of_beq heq⟩
  match hc : carriers all a.edge.predicate with
  | [] =>
      rw [hc] at hmem
      cases hmem
  | [_] =>
      rw [hc] at hcarry
      exact absurd rfl hcarry
  | x :: y :: rest =>
      rw [hc] at hpair hedge
      obtain ⟨hx, hxq⟩ := hedge x List.mem_cons_self
      obtain ⟨hy, hyq⟩ := hedge y (List.mem_cons_of_mem _ List.mem_cons_self)
      have hxy := (List.pairwise_cons.mp hpair).1 y List.mem_cons_self
      -- the row of the later table does not matter to the earlier edge, but without it the later
      -- edge has its predicate false
      have hlocal : I.holds x.edge.predicate ρ =
          I.holds x.edge.predicate (Function.update ρ y.table.reference none) :=
        hI.of_endpoint hx fun side => (Function.update_of_ne (hxy side) ..).symm
      have hnone : Function.update ρ y.table.reference none
          (y.edge.endpoint y.newSide).reference = none := by
        rw [← Attachment.table_eq_endpoint]
        exact Function.update_self ..
      rw [← hxq, hlocal, hxq, ← hyq]
      exact hN.of_endpoint hy hnone

/-! ## Rows that are dropped -/

section Passing

variable {I : Interpretation Row} {edges : List JoinEdge} {d : Dialect} {all : List Attachment}

def Interpretation.NeverRepeated (I : Interpretation Row) (all as : List Attachment) : Prop :=
  ∀ a ∈ as, (carriers all a.edge.predicate).length ≠ 1 → ∀ ρ, I.holds a.edge.predicate ρ = false

/-- A row that cannot live through the attachments. -/
def Doomed (all as : List Attachment) (ρ : JoinRow Row) : Prop :=
  ∃ held, (∀ t, ρ t ≠ none → t ∈ held) ∧ survives all held as = false

theorem not_doomed_nil (ρ : JoinRow Row) : ¬ Doomed all [] ρ := by
  rintro ⟨held, -, hs⟩
  cases hs

theorem Doomed.matched {a : Attachment} {as} {ρ : JoinRow Row} {r : Row}
    (h : Doomed all (a :: as) ρ) (hN : I.RejectsNull edges) (ha : a.edge ∈ edges)
    (hne : a.partner.reference ≠ a.table.reference)
    (hrep : (carriers all a.edge.predicate).length ≠ 1 → ∀ σ, I.holds a.edge.predicate σ = false)
    (hholds : I.holds a.edge.predicate (ρ.set a.table.reference r) = true) :
    Doomed all as (ρ.set a.table.reference r) := by
  obtain ⟨held, hheld, hs⟩ := h
  have hpartner : a.partner.reference ∈ held := by
    refine hheld _ fun hnone => ?_
    exact hN.ne_none ha hholds a.newSide.opposite ((JoinRow.set_of_ne ρ hne r).trans hnone)
  have hcarry : (carriers all a.edge.predicate).length = 1 := by
    by_contra hcarry
    rw [hrep hcarry] at hholds
    cases hholds
  have hcan : canMatch all held a = true := by simp [canMatch, hpartner, hcarry]
  rw [survives, if_pos hcan] at hs
  refine ⟨_, fun t ht => ?_, hs⟩
  by_cases heq : t = a.table.reference
  · exact heq ▸ List.mem_cons_self
  · rw [JoinRow.set_of_ne ρ heq] at ht
    exact List.mem_cons_of_mem _ (hheld t ht)

theorem Doomed.unmatched {a : Attachment} {as} {ρ : JoinRow Row} (h : Doomed all (a :: as) ρ)
    (hkeeps : a.type.keeps .left = true) : Doomed all as ρ := by
  obtain ⟨held, hheld, hs⟩ := h
  rw [survives] at hs
  split at hs
  · exact ⟨_, fun t ht => List.mem_cons_of_mem _ (hheld t ht), hs⟩
  · rw [hkeeps, Bool.true_and] at hs
    exact ⟨held, hheld, hs⟩

def Passing (I : Interpretation Row) (all : List Attachment) (qs : List Text)
    (as : List Attachment) (ρ : JoinRow Row) : Prop :=
  I.HoldsAll qs ρ ∨ Doomed all as ρ

theorem deferrals_of_keeps {a : Attachment} {side : Side}
    (hplaced : JoinPlan.misplaced d a.edge = false) (h : a.type.keeps side = true) :
    deferrals d [a] = [] := by
  cases he : d.eligibleForOn a.edge.predicate with
  | true =>
      rw [deferrals_of_eligible he]
      rfl
  | false =>
      rw [Attachment.keeps_of_inner (JoinPlan.inner_of_not_misplaced hplaced he)] at h
      cases h

theorem passing_join {used qs : List Text} {a : Attachment} {as : List Attachment}
    {L : Multiset (JoinRow Row)} {deferred : Bool} (hqs : Settled edges used qs)
    (hI : I.Local edges) (hN : I.RejectsNull edges) (ha : a.edge ∈ edges)
    (hp : a.partner.reference ∈ used) (ht : a.table.reference ∉ used)
    (hrep : (carriers all a.edge.predicate).length ≠ 1 → ∀ σ, I.holds a.edge.predicate σ = false)
    (hplaced : JoinPlan.misplaced d a.edge = false) (hdeferred : deferred = false → qs = [])
    (hstray : (deferred && a.type.keeps .right && survives all [a.table.reference] as) = false)
    (hL : ∀ ρ ∈ L, Passing I all qs (a :: as) ρ) :
    ∀ σ ∈ I.join L a.ownStep, Passing I all (qs ++ deferrals d [a]) as σ := by
  intro σ hσ
  rcases Interpretation.mem_join.mp hσ with hσ | ⟨hkeeps, hσ⟩ | ⟨hkeeps, hσ⟩
  · obtain ⟨hσ, hown⟩ := Multiset.mem_filter.mp hσ
    obtain ⟨ρ, hρ, r, -, rfl⟩ := Interpretation.mem_cross.mp hσ
    have hholds := hown a.edge.predicate List.mem_cons_self
    rcases hL ρ hρ with hall | hdoomed
    · refine Or.inl (Interpretation.holdsAll_append.mpr ⟨?_, fun q hq => ?_⟩)
      · exact (hqs.holdsAll_set hI ht ρ r).mpr hall
      · rw [List.mem_singleton.mp (List.mem_of_mem_filter hq)]
        exact hholds
    · exact Or.inr (hdoomed.matched hN ha (ne_of_mem_of_not_mem hp ht) hrep hholds)
  · rw [deferrals_of_keeps hplaced hkeeps, List.append_nil]
    rcases hL σ (Multiset.mem_of_mem_filter hσ) with hall | hdoomed
    · exact Or.inl hall
    · exact Or.inr (hdoomed.unmatched hkeeps)
  · rw [deferrals_of_keeps hplaced hkeeps, List.append_nil]
    cases deferred with
    | false =>
        rw [hdeferred rfl]
        exact Or.inl nofun
    | true =>
        obtain ⟨r, -, rfl⟩ := Multiset.mem_map.mp hσ
        have hkeeps : a.type.keeps .right = true := hkeeps
        rw [hkeeps, Bool.true_and, Bool.true_and] at hstray
        refine Or.inr ⟨_, fun t hnone => ?_, hstray⟩
        by_contra hmem
        have hne : t ≠ a.table.reference := fun heq => hmem (List.mem_singleton.mpr heq)
        exact hnone (JoinRow.set_of_ne _ hne r)

theorem Chained.holdsAll_deferrals {used as} (h : Chained used as) (hI : I.Local edges)
    (hN : I.RejectsNull edges) (hsub : ∀ a ∈ as, a.edge ∈ edges) (hrep : I.NeverRepeated all as)
    (hplaced : ∀ a ∈ as, JoinPlan.misplaced d a.edge = false) {qs : List Text}
    (hqs : Settled edges used qs) {deferred : Bool} (hdeferred : deferred = false → qs = [])
    (hstrays : strays d all deferred as = false) {L : Multiset (JoinRow Row)}
    (hL : ∀ ρ ∈ L, Passing I all qs as ρ) :
    ∀ σ ∈ (as.map (·.ownStep)).foldl I.join L, I.HoldsAll (qs ++ deferrals d as) σ := by
  induction h generalizing qs deferred L with
  | nil =>
      intro σ hσ
      rw [deferrals, List.map_nil, List.filter_nil, List.append_nil]
      exact (hL σ hσ).resolve_right (not_doomed_nil σ)
  | @cons used a as hp ht _ ih =>
      obtain ⟨ha, has⟩ := List.forall_mem_cons.mp hsub
      obtain ⟨hra, hras⟩ := List.forall_mem_cons.mp hrep
      obtain ⟨hpa, hpas⟩ := List.forall_mem_cons.mp hplaced
      rw [strays, Bool.or_eq_false_iff] at hstrays
      obtain ⟨hstray, hstrays⟩ := hstrays
      have hstep := passing_join hqs hI hN ha hp ht hra hpa hdeferred hstray hL
      have hcons : deferrals d (a :: as) = deferrals d [a] ++ deferrals d as := by
        rw [deferrals, deferrals, deferrals, ← List.filter_append, ← List.map_append]
        rfl
      have hsettled : Settled edges (a.table.reference :: used) (qs ++ deferrals d [a]) :=
        hqs.attach ha hp fun q hq => List.mem_singleton.mp (List.mem_of_mem_filter hq)
      rw [hcons, ← List.append_assoc, List.map_cons, List.foldl_cons]
      refine ih has hras hpas hsettled (fun hfalse => ?_) hstrays hstep
      obtain ⟨hdef, he⟩ := Bool.or_eq_false_iff.mp hfalse
      rw [hdeferred hdef, deferrals_of_eligible (by simpa using he)]
      rfl

theorem Chained.holdsAll_result {anchor : TableRef} {as : List Attachment}
    (h : Chained [anchor.reference] as) (hperm : (as.map (·.edge)).Perm edges) (hI : I.Local edges)
    (hN : I.RejectsNull edges) (hplaced : ∀ a ∈ as, JoinPlan.misplaced d a.edge = false)
    (hstrays : strays d as false as = false) :
    ∀ σ ∈ I.result (.undeferred anchor as), I.HoldsAll (deferrals d as) σ := by
  have hsub := edge_mem_of_perm hperm
  have hrep : I.NeverRepeated as as := fun a ha hcarry =>
    h.holds_eq_false_of_repeated hI hN hsub ha hcarry
  have hrun := h.holdsAll_deferrals hI hN hsub hrep hplaced .nil (fun _ => rfl) hstrays
    (L := I.cross anchor.reference {JoinRow.empty}) fun _ _ => Or.inl nofun
  rw [List.nil_append] at hrun
  rw [I.result_undeferred]
  exact hrun

end Passing

end SqlQuery
