import Mathlib.Data.List.Dedup
import Mathlib.Data.List.Permutation
import SqlQuery.Join.Plan
import SqlQuery.Proofs.Join.Numbering

/-!
# What a resolution yields

A resolution succeeds exactly when the chain grows by every edge and no condition of an outer join
is misplaced; its plan is then the plan of the attachments (`resolve_eq_ok`).  Such a plan follows
its edges one by one (`resolve_faithful`).
-/

namespace SqlQuery

/-- The dialect has the outer joins of the edges and a place for their conditions. -/
structure Dialect.Supports (d : Dialect) (edges : List JoinEdge) : Prop where
  outerJoin : d.capabilities.outerJoin = true ∨ ∀ e ∈ edges, e.isOuter = false
  eligible : ∀ e ∈ edges, e.isOuter = true → d.eligibleForOn e.predicate = true

namespace JoinPlan

variable {d : Dialect} {edges : List JoinEdge}

/-! ## The growth of the ordered edges -/

/-- The edges in the order of their attachment. -/
def attachments (edges : List JoinEdge) : List Attachment :=
  (growByNumber (JoinEdge.inOrder edges)).attached

theorem inOrder_perm (edges : List JoinEdge) : (JoinEdge.inOrder edges).Perm edges :=
  List.mergeSort_perm _ _

theorem inOrder_ne_nil (h : edges ≠ []) : JoinEdge.inOrder edges ≠ [] := by
  intro hnil
  have hp := inOrder_perm edges
  rw [hnil] at hp
  exact h (List.nil_perm.mp hp)

theorem grows_inOrder {first rest} (h : JoinEdge.inOrder edges = first :: rest) :
    Grows [first.left.reference] (first :: rest) (growByNumber (JoinEdge.inOrder edges)) := by
  rw [h, growByNumber_eq]
  exact grows_grow _ _

theorem attachments_chained {first rest} (h : JoinEdge.inOrder edges = first :: rest) :
    Chained [first.left.reference] (attachments edges) :=
  (grows_inOrder h).chained

/-- The edges are attached or remain, and the growth ends by those that remain. -/
theorem exists_remaining {first rest} (h : JoinEdge.inOrder edges = first :: rest) :
    ∃ remaining, remaining.Sublist (JoinEdge.inOrder edges) ∧
      edges.Perm ((attachments edges).map (·.edge) ++ remaining) ∧
      Ends (reached [first.left.reference] (attachments edges)) remaining
        (growByNumber (JoinEdge.inOrder edges)).failure? := by
  obtain ⟨remaining, hsub, hperm, hends⟩ := (grows_inOrder h).exists_rest
  rw [← h] at hsub hperm
  exact ⟨remaining, hsub, (inOrder_perm edges).symm.trans hperm, hends⟩

theorem attachments_perm (h : (growByNumber (JoinEdge.inOrder edges)).failure? = none) :
    ((attachments edges).map (·.edge)).Perm edges := by
  cases hi : JoinEdge.inOrder edges with
  | nil =>
      have hp := inOrder_perm edges
      rw [hi] at hp
      rw [attachments, hi, List.nil_perm.mp hp]
      exact .refl _
  | cons first rest =>
      obtain ⟨remaining, -, hperm, hends⟩ := exists_remaining hi
      rw [h] at hends
      cases hends
      rw [List.append_nil] at hperm
      exact hperm.symm

/-! ## The plan of the attachments -/

theorem ofGrowth_eq_ok {anchor g p} (h : ofGrowth d anchor g = .ok p) :
    (∀ a ∈ g.attached, misplaced d a.edge = false) ∧ g.failure? = none ∧
      p = ofAttached d anchor g.attached := by
  rw [ofGrowth] at h
  split at h
  · cases h
  · cases h
  · rename_i hfind hfail
    cases h
    refine ⟨fun a ha => ?_, hfail, rfl⟩
    exact Bool.eq_false_iff.mpr (List.find?_eq_none.mp hfind a ha)

theorem inner_of_not_misplaced {e : JoinEdge} (h : misplaced d e = false)
    (he : d.eligibleForOn e.predicate = false) : e.type = .inner := by
  cases ht : e.type <;> simp_all [misplaced, JoinEdge.isOuter, JoinType.isOuter]

/-- The last check of a resolution never fails. -/
theorem resolve_eq_ofGrowth {first rest} (h : JoinEdge.inOrder edges = first :: rest)
    (hm : missingOuterJoin? d edges = none) :
    resolve d edges = ofGrowth d first.left (growByNumber (JoinEdge.inOrder edges)) := by
  simp only [resolve, h, hm]
  rw [← h]
  cases hg : ofGrowth d first.left (growByNumber (JoinEdge.inOrder edges)) with
  | error f => rfl
  | ok p =>
      obtain ⟨-, hfail, rfl⟩ := ofGrowth_eq_ok hg
      have hlen := (attachments_perm hfail).length_eq
      simp only [List.length_map, attachments] at hlen
      simp [bind, Except.bind, pure, Except.pure, steps, ofAttached, hlen]

theorem resolve_of_inOrder {first rest} (h : JoinEdge.inOrder edges = first :: rest) :
    resolve d edges = match missingOuterJoin? d edges with
      | some u => .error (.unsupported u)
      | none => ofGrowth d first.left (growByReference (first :: rest)) := by
  cases hm : missingOuterJoin? d edges with
  | some u => simp [resolve, h, hm]
  | none => rw [resolve_eq_ofGrowth h hm, h, growByNumber_eq]

theorem missingOuterJoin?_eq_none (h : d.Supports edges) : missingOuterJoin? d edges = none := by
  rw [missingOuterJoin?]
  rcases h.outerJoin with hcap | hinner
  · rw [if_pos hcap]
  · rw [List.find?_eq_none.mpr fun e he => by simp [hinner e he]]
    split <;> rfl

theorem misplaced_eq_false (h : d.Supports edges) {e} (he : e ∈ edges) : misplaced d e = false := by
  cases ho : e.isOuter with
  | false => simp [misplaced, ho]
  | true => simp [misplaced, h.eligible e he ho]

/-- Where the dialect supports the edges, only the growth of the chain can fail. -/
theorem resolve_of_supports {first rest} (h : JoinEdge.inOrder edges = first :: rest)
    (hd : d.Supports edges) :
    resolve d edges = match (growByNumber (JoinEdge.inOrder edges)).failure? with
      | none => .ok (ofAttached d first.left (attachments edges))
      | some e => .error (.path e) := by
  have hplaced : (attachments edges).find? (misplaced d ·.edge) = none := by
    refine List.find?_eq_none.mpr fun a ha => ?_
    obtain ⟨remaining, -, hperm, -⟩ := exists_remaining h
    have hmem := hperm.mem_iff.mpr (List.mem_append_left _ (List.mem_map_of_mem ha))
    simp [misplaced_eq_false hd hmem]
  rw [resolve_eq_ofGrowth h (missingOuterJoin?_eq_none hd), ofGrowth, ← attachments, hplaced]
  cases (growByNumber (JoinEdge.inOrder edges)).failure? <;> rfl

/-- Either the dialect refuses the edges, or they come to what their growth comes to. -/
theorem resolve_cases {first rest} (h : JoinEdge.inOrder edges = first :: rest) (d : Dialect) :
    (∃ u, resolve d edges = .error (.unsupported u)) ∨
      ((growByNumber (JoinEdge.inOrder edges)).failure? = none ∧
        resolve d edges = .ok (ofAttached d first.left (attachments edges))) ∨
      ∃ e, (growByNumber (JoinEdge.inOrder edges)).failure? = some e ∧
        resolve d edges = .error (.path e) := by
  cases hm : missingOuterJoin? d edges with
  | some u => exact Or.inl ⟨u, by simp [resolve, h, hm]⟩
  | none =>
      rw [resolve_eq_ofGrowth h hm, ofGrowth, ← attachments]
      cases (attachments edges).find? (misplaced d ·.edge) with
      | some a => exact Or.inl ⟨_, rfl⟩
      | none =>
          cases (growByNumber (JoinEdge.inOrder edges)).failure? with
          | none => exact Or.inr (Or.inl ⟨rfl, rfl⟩)
          | some e => exact Or.inr (Or.inr ⟨e, rfl, rfl⟩)

theorem resolve_eq_ok {p} (h : resolve d edges = .ok p) :
    ∃ first, (JoinEdge.inOrder edges).head? = some first ∧
      Chained [first.left.reference] (attachments edges) ∧
      ((attachments edges).map (·.edge)).Perm edges ∧
      (∀ a ∈ attachments edges, misplaced d a.edge = false) ∧
      p = ofAttached d first.left (attachments edges) := by
  cases hi : JoinEdge.inOrder edges with
  | nil => simp [resolve, hi] at h
  | cons first rest =>
      cases hm : missingOuterJoin? d edges with
      | some u => simp [resolve, hi, hm] at h
      | none =>
          rw [resolve_eq_ofGrowth hi hm] at h
          obtain ⟨hplaced, hfail, hp⟩ := ofGrowth_eq_ok h
          exact ⟨first, rfl, attachments_chained hi, attachments_perm hfail, hplaced, hp⟩

end JoinPlan

/-! ## The tables of a plan -/

namespace JoinEdge

/-- The reference texts of all tables of the edges, each once. -/
def references (edges : List JoinEdge) : List Text :=
  (edges.flatMap fun e => [e.left.reference, e.right.reference]).dedup

theorem references_nodup (edges : List JoinEdge) : (references edges).Nodup := List.nodup_dedup _

theorem mem_references {edges : List JoinEdge} {t : Text} :
    t ∈ references edges ↔ ∃ e ∈ edges, t = e.left.reference ∨ t = e.right.reference := by
  simp [references]

end JoinEdge

theorem Chained.nodup {used as} (h : Chained used as) (hused : used.Nodup) :
    (reached used as).Nodup := by
  induction h with
  | nil => exact hused
  | cons _ ht _ ih =>
      rw [reached_cons]
      exact ih (List.nodup_cons.mpr ⟨ht, hused⟩)

theorem Chained.reached_perm {c : Text} {as} (h : Chained [c] as) {edges : List JoinEdge}
    (hperm : (as.map (·.edge)).Perm edges) (hc : c ∈ JoinEdge.references edges) :
    (reached [c] as).Perm (JoinEdge.references edges) := by
  have hnodup := h.nodup (List.nodup_singleton c)
  refine (List.perm_ext_iff_of_nodup hnodup (List.nodup_dedup _)).mpr fun t => ?_
  constructor
  · intro ht
    rcases List.mem_append.mp ht with ht | ht
    · simp only [List.mem_reverse, List.mem_map] at ht
      obtain ⟨a, ha, rfl⟩ := ht
      have he := hperm.mem_iff.mp (List.mem_map_of_mem ha)
      refine JoinEdge.mem_references.mpr ⟨a.edge, he, ?_⟩
      rw [a.table_eq_endpoint]
      cases a.newSide
      · exact Or.inl rfl
      · exact Or.inr rfl
    · rw [List.mem_singleton.mp ht]
      exact hc
  · intro ht
    obtain ⟨e, he, hte⟩ := JoinEdge.mem_references.mp ht
    obtain ⟨a, ha, rfl⟩ := List.mem_map.mp (hperm.mem_iff.mpr he)
    rcases hte with rfl | rfl
    · exact h.endpoint_mem ha .left
    · exact h.endpoint_mem ha .right

namespace JoinPlan

variable {d : Dialect} {edges : List JoinEdge} {p : JoinPlan}

/-- A plan has every table of its edges once. -/
theorem references_perm (h : resolve d edges = .ok p) :
    (p.steps.map (·.table.reference)).Perm (JoinEdge.references edges) := by
  obtain ⟨first, hfirst, hchain, hperm, -, rfl⟩ := resolve_eq_ok h
  have hmem : first ∈ edges := (inOrder_perm edges).mem_iff.mp (List.mem_of_head? hfirst)
  have hanchor : first.left.reference ∈ JoinEdge.references edges :=
    JoinEdge.mem_references.mpr ⟨first, hmem, Or.inl rfl⟩
  refine List.Perm.trans ?_ (hchain.reached_perm hperm hanchor)
  have hsteps : (ofAttached d first.left (attachments edges)).steps.map (·.table.reference) =
      first.left.reference :: (attachments edges).map (·.table.reference) := by
    simp [steps, ofAttached, Attachment.step]
  rw [hsteps, reached]
  exact ((List.reverse_perm _).symm.cons _).trans (List.perm_append_singleton _ _).symm

theorem length_steps (h : resolve d edges = .ok p) : p.steps.length = edges.length + 1 := by
  obtain ⟨_, _, _, hperm, _, rfl⟩ := resolve_eq_ok h
  rw [← hperm.length_eq]
  simp [steps, ofAttached]

theorem supports_of_resolve (h : resolve d edges = .ok p) : d.Supports edges := by
  obtain ⟨first, hfirst, -, hperm, hplaced, -⟩ := resolve_eq_ok h
  have hmissing : missingOuterJoin? d edges = none := by
    cases hi : JoinEdge.inOrder edges with
    | nil => simp [hi] at hfirst
    | cons _ _ =>
        cases hm : missingOuterJoin? d edges with
        | none => rfl
        | some u => simp [resolve, hi, hm] at h
  constructor
  · rw [missingOuterJoin?] at hmissing
    split at hmissing
    · exact Or.inl ‹_›
    · exact Or.inr (by simpa using hmissing)
  · intro e he ho
    obtain ⟨a, ha, rfl⟩ := List.mem_map.mp (hperm.mem_iff.mpr he)
    simpa [misplaced, ho] using hplaced a ha

end JoinPlan

/-! ## A plan follows its edges -/

/-- Whether a join keeps the rows without a partner of the table on the given side. -/
def JoinType.keeps : JoinType → Side → Bool
  | .left, .left => true
  | .right, .right => true
  | .full, _ => true
  | _, _ => false

/-- A step after the earlier ones joins the table on one side of an edge to the other one. -/
structure JoinStep.Follows (d : Dialect) (earlier : List JoinStep) (e : JoinEdge) (s : JoinStep) :
    Prop where
  joins : ∃ side : Side, s.table = e.endpoint side ∧
    (e.endpoint side.opposite).reference ∈ earlier.map (·.table.reference) ∧
    s.type = (match side with | .right => e.type | .left => e.type.flip) ∧
    s.type.keeps .right = e.type.keeps side ∧ s.type.keeps .left = e.type.keeps side.opposite
  isNew : s.table.reference ∉ earlier.map (·.table.reference)
  condition_of_eligible : d.eligibleForOn e.predicate = true → s.condition? = some e.predicate
  inner_of_ineligible : d.eligibleForOn e.predicate = false →
    s.condition? = none ∧ e.type = .inner

/-- The plan starts with the left table of the first edge, and each later step follows one edge of
its own, given the steps before it; the predicates that the dialect rejects are deferred. -/
structure JoinPlan.Faithful (d : Dialect) (edges : List JoinEdge) (p : JoinPlan) : Prop where
  anchor_eq : ∃ first, (JoinEdge.inOrder edges).head? = some first ∧
    p.steps.head? = some ⟨first.left, none, .inner⟩
  follows : ∃ attached : List JoinEdge, attached.Perm edges ∧ p.steps.length = attached.length + 1 ∧
    (∀ k e s, attached[k]? = some e → p.steps[k + 1]? = some s →
      s.Follows d (p.steps.take (k + 1)) e) ∧
    p.deferred = (attached.map (·.predicate)).filter (!d.eligibleForOn ·)

theorem JoinPlan.mem_references_take {d : Dialect} {anchor : TableRef} {as : List Attachment}
    {k : Nat} {t : Text} :
    t ∈ ((ofAttached d anchor as).steps.take (k + 1)).map (·.table.reference) ↔
      t ∈ reached [anchor.reference] (as.take k) := by
  simp [steps, ofAttached, reached, Attachment.step, Function.comp_def, or_comm]

theorem Attachment.step_follows {d : Dialect} {a : Attachment} {earlier : List JoinStep}
    (hp : a.partner.reference ∈ earlier.map (·.table.reference))
    (ht : a.table.reference ∉ earlier.map (·.table.reference))
    (hd : JoinPlan.misplaced d a.edge = false) : (a.step d).Follows d earlier a.edge := by
  refine ⟨⟨a.newSide, a.table_eq_endpoint, hp, ?_, ?_, ?_⟩, ht, fun he => ?_, fun he => ⟨?_, ?_⟩⟩
  · obtain ⟨_, side⟩ := a
    cases side <;> rfl
  · obtain ⟨⟨_, _, _, _, type⟩, side⟩ := a
    cases side <;> cases type <;> rfl
  · obtain ⟨⟨_, _, _, _, type⟩, side⟩ := a
    cases side <;> cases type <;> rfl
  · simp [step, he]
  · simp [step, he]
  · exact JoinPlan.inner_of_not_misplaced hd he

theorem resolve_faithful {d : Dialect} {edges : List JoinEdge} {p : JoinPlan}
    (h : JoinPlan.resolve d edges = .ok p) : p.Faithful d edges := by
  obtain ⟨first, hfirst, hchain, hperm, hplaced, rfl⟩ := JoinPlan.resolve_eq_ok h
  refine ⟨⟨first, hfirst, rfl⟩, _, hperm, by simp [JoinPlan.steps, JoinPlan.ofAttached], ?_, ?_⟩
  · intro k e s he hs
    simp only [JoinPlan.steps, JoinPlan.ofAttached, List.getElem?_cons_succ, List.getElem?_map,
      Option.map_eq_some_iff] at he hs
    obtain ⟨a, ha, rfl⟩ := he
    obtain ⟨b, hb, rfl⟩ := hs
    rw [ha, Option.some.injEq] at hb
    subst hb
    obtain ⟨hp, ht⟩ := hchain.of_getElem? ha
    exact Attachment.step_follows (JoinPlan.mem_references_take.mpr hp)
      (fun hmem => ht (JoinPlan.mem_references_take.mp hmem))
      (hplaced a (List.mem_of_getElem? ha))
  · simp [JoinPlan.ofAttached, List.map_map, Function.comp_def]

namespace Sample

/-- A dialect with outer joins that accepts equalities only after ON. -/
def strict : Dialect := ⟨"strict", {}, Dialect.equalityOnly, by decide⟩

def tableA : TableRef := ⟨"A", none, by decide, nofun⟩
def tableB : TableRef := ⟨"B", none, by decide, nofun⟩
def tableC : TableRef := ⟨"C", none, by decide, nofun⟩
def tableD : TableRef := ⟨"D", none, by decide, nofun⟩

def outerEdge : JoinEdge := ⟨tableB, tableA, "B.id = A.id", [], .right⟩
def innerEdge : JoinEdge := ⟨tableA, tableC, "A.x < C.x", "1", .inner⟩

def edgeAB : JoinEdge := ⟨tableA, tableB, "A.x = B.x", "1", .inner⟩
def edgeCD : JoinEdge := ⟨tableC, tableD, "C.z = D.z", "2", .inner⟩
def edgeBC : JoinEdge := ⟨tableB, tableC, "B.y = C.y", "3", .inner⟩

/-- The key of the second edge makes `A` the anchor, so the first one is attached in reverse. -/
def edges : List JoinEdge := [outerEdge, innerEdge]

def plan : JoinPlan :=
  ⟨tableA, [⟨tableC, none, .inner⟩, ⟨tableB, some "B.id = A.id", .left⟩], ["A.x < C.x"]⟩

theorem resolve_eq : JoinPlan.resolve strict edges = .ok plan := by
  have horder : JoinEdge.inOrder edges = [innerEdge, outerEdge] := by cbv
  have hgrow : growByNumber (JoinEdge.inOrder edges) =
      ⟨[⟨innerEdge, .right⟩, ⟨outerEdge, .left⟩], none⟩ := by cbv
  rw [JoinPlan.resolve_eq_ofGrowth horder rfl, hgrow]
  rfl

theorem plan_faithful : JoinPlan.resolve strict edges = .ok plan ∧ plan.Faithful strict edges :=
  ⟨resolve_eq, resolve_faithful resolve_eq⟩

end Sample

end SqlQuery
