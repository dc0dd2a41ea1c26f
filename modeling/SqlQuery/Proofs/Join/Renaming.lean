import SqlQuery.Proofs.Join.Resolution

/-!
# Edges and tables with the same references

The growth of a chain reads nothing of an edge but the reference texts of its tables, so it commutes
with any change of the edges that keeps these (`grow_onEdge`), and a change that also keeps what the
dialect asks of an edge makes no difference to what the growth comes to
(`JoinPlan.ofGrowth_onEdge`).  A resolution commutes with any change of the tables that keeps their
reference texts (`JoinPlan.resolve_onTables`).
-/

namespace SqlQuery

/-! ## Growth with other edges -/

section Growth

variable {κ σ : Type} (c : JoinEdge → JoinEdge)

def Link.onEdge (l : Link κ) : Link κ := { l with edge := c l.edge }

def Attachment.onEdge (a : Attachment) : Attachment := { a with edge := c a.edge }

def Pass.onEdge : Pass κ → Pass κ
  | .attach a k rest => .attach (a.onEdge c) k (rest.map (Link.onEdge c))
  | .cycle e => .cycle (c e)
  | .stuck => .stuck

def Growth.onEdge (g : Growth) : Growth := { g with attached := g.attached.map (·.onEdge c) }

def KeepsReferences : Prop :=
  ∀ e, (c e).left.reference = e.left.reference ∧ (c e).right.reference = e.right.reference

variable {c}

theorem KeepsReferences.link (hc : KeepsReferences c) (e : JoinEdge) :
    (c e).link = e.link.onEdge c := by
  simp [JoinEdge.link, Link.onEdge, (hc e).1, (hc e).2]

theorem Pass.onEdge_skip (l : Link κ) (p : Pass κ) :
    (p.skip l).onEdge c = (p.onEdge c).skip (l.onEdge c) := by
  cases p <;> rfl

theorem scan_onEdge (used : κ → Bool) (links : List (Link κ)) :
    scan used (links.map (Link.onEdge c)) = (scan used links).onEdge c := by
  induction links with
  | nil => rfl
  | cons l ls ih =>
      simp only [List.map_cons, scan, Link.onEdge]
      cases used l.left <;> cases used l.right
      · rw [Pass.onEdge_skip, ← ih]; rfl
      · rfl
      · rfl
      · rfl

theorem grow_onEdge [TableSet σ κ] (hc : KeepsReferences c) (s : σ) (links : List (Link κ)) :
    grow s (links.map (Link.onEdge c)) = (grow s links).onEdge c := by
  have hscan := scan_onEdge (c := c) (TableSet.contains s) links
  cases h : scan (TableSet.contains s) links with
  | attach a k rest =>
      rw [h] at hscan
      have hlt := length_of_scan_eq_attach h
      rw [grow_of_attach hscan, grow_of_attach h, grow_onEdge hc _ rest]
      rfl
  | cycle e =>
      rw [h] at hscan
      rw [grow_of_cycle hscan, grow_of_cycle h, (hc e).1, (hc e).2]
      rfl
  | stuck =>
      rw [h] at hscan
      rw [grow_of_stuck hscan, grow_of_stuck h]
      cases links with
      | nil => rfl
      | cons l ls => simp [Growth.onEdge, Link.onEdge, (hc l.edge).1, (hc l.edge).2]
termination_by links.length

theorem growByNumber_onEdge (hc : KeepsReferences c) (edges : List JoinEdge) :
    growByNumber (edges.map c) = (growByNumber edges).onEdge c := by
  rw [growByNumber_eq, growByNumber_eq]
  cases edges with
  | nil => rfl
  | cons e es =>
      have hlinks : ((e :: es).map c).map JoinEdge.link =
          ((e :: es).map JoinEdge.link).map (Link.onEdge c) := by
        simp only [List.map_map, Function.comp_def, hc.link]
      rw [List.map_cons] at hlinks
      rw [List.map_cons, growByReference, growByReference, hlinks, (hc e).1]
      exact grow_onEdge hc _ _

end Growth

/-! ## Plans with other edges -/

/-- A change of the edges that keeps all that decides whether they have a plan. -/
structure KeepsOutcome (c : JoinEdge → JoinEdge) : Prop where
  references : KeepsReferences c
  predicate : ∀ e, (c e).predicate = e.predicate
  isOuter : ∀ e, (c e).isOuter = e.isOuter

namespace JoinPlan

variable {d : Dialect} {c : JoinEdge → JoinEdge}

theorem missingOuterJoin?_onEdge (hc : KeepsOutcome c) (edges : List JoinEdge) :
    missingOuterJoin? d (edges.map c) = missingOuterJoin? d edges := by
  have houter : JoinEdge.isOuter ∘ c = JoinEdge.isOuter := funext hc.isOuter
  rw [missingOuterJoin?, missingOuterJoin?, List.find?_map, Option.map_map, houter]
  simp [Function.comp_def, (hc.references _).1, (hc.references _).2]

theorem ofGrowth_onEdge (hc : KeepsOutcome c) {anchor anchor' : TableRef}
    {onPlan : JoinPlan → JoinPlan} (hplan : ∀ as,
      ofAttached d anchor' (as.map (·.onEdge c)) = onPlan (ofAttached d anchor as)) (g : Growth) :
    ofGrowth d anchor' (g.onEdge c) = (ofGrowth d anchor g).map onPlan := by
  have hmisplaced : (misplaced d ·.edge) ∘ Attachment.onEdge c = (misplaced d ·.edge) := by
    funext a
    simp [Attachment.onEdge, misplaced, hc.predicate, hc.isOuter]
  simp only [ofGrowth, Growth.onEdge, List.find?_map, hmisplaced]
  cases g.attached.find? (misplaced d ·.edge) with
  | some a =>
      simp [Attachment.onEdge, (hc.references _).1, (hc.references _).2, Except.map]
  | none =>
      cases g.failure? with
      | some e => rfl
      | none => simp [hplan, Except.map]

end JoinPlan

/-! ## Resolutions with other tables -/

section Tables

variable (f : TableRef → TableRef)

def JoinEdge.onTables (e : JoinEdge) : JoinEdge := { e with left := f e.left, right := f e.right }

def JoinStep.onTables (s : JoinStep) : JoinStep := { s with table := f s.table }

def JoinPlan.onTables (p : JoinPlan) : JoinPlan :=
  { p with anchor := f p.anchor, joins := p.joins.map (·.onTables f) }

variable {f}

theorem keepsOutcome_onTables (hf : ∀ t, (f t).reference = t.reference) :
    KeepsOutcome (JoinEdge.onTables f) :=
  ⟨fun e => ⟨hf e.left, hf e.right⟩, fun _ => rfl, fun _ => rfl⟩

theorem JoinEdge.inOrder_onTables (edges : List JoinEdge) :
    inOrder (edges.map (onTables f)) = (inOrder edges).map (onTables f) := by
  have hmap : ((inOrder edges).map (onTables f)) = inOrder (edges.map (onTables f)) :=
    List.map_mergeSort fun _ _ _ _ => rfl
  exact hmap.symm

theorem Attachment.step_onEdge (d : Dialect) (a : Attachment) :
    (a.onEdge (JoinEdge.onTables f)).step d = (a.step d).onTables f := by
  obtain ⟨e, side⟩ := a
  cases side <;> rfl

namespace JoinPlan

variable {d : Dialect}

theorem steps_onTables (p : JoinPlan) : (p.onTables f).steps = p.steps.map (·.onTables f) := rfl

theorem ofAttached_onTables (anchor : TableRef) (as : List Attachment) :
    ofAttached d (f anchor) (as.map (·.onEdge (JoinEdge.onTables f))) =
      (ofAttached d anchor as).onTables f := by
  have hsteps : (as.map (·.onEdge (JoinEdge.onTables f))).map (·.step d) =
      (as.map (·.step d)).map (·.onTables f) := by
    simp only [List.map_map, Function.comp_def, Attachment.step_onEdge]
  have hpredicates : (as.map (·.onEdge (JoinEdge.onTables f))).map (·.edge.predicate) =
      as.map (·.edge.predicate) := by
    rw [List.map_map]; rfl
  rw [ofAttached, hsteps, hpredicates]
  rfl

theorem resolve_onTables (hf : ∀ t, (f t).reference = t.reference) (edges : List JoinEdge) :
    resolve d (edges.map (JoinEdge.onTables f)) = (resolve d edges).map (onTables f) := by
  have horder := JoinEdge.inOrder_onTables (f := f) edges
  have hmissing := missingOuterJoin?_onEdge (d := d) (keepsOutcome_onTables hf) edges
  cases hi : JoinEdge.inOrder edges with
  | nil =>
      rw [hi] at horder
      simp [resolve, hi, horder, Except.map]
  | cons first rest =>
      rw [hi] at horder
      cases hm : missingOuterJoin? d edges with
      | some u =>
          rw [hm] at hmissing
          simp [resolve, hi, horder, hm, hmissing, Except.map]
      | none =>
          rw [hm] at hmissing
          rw [resolve_eq_ofGrowth hi hm, resolve_eq_ofGrowth horder hmissing, horder, ← hi,
            growByNumber_onEdge (keepsOutcome_onTables hf).references]
          exact ofGrowth_onEdge (keepsOutcome_onTables hf) (ofAttached_onTables first.left) _

end JoinPlan

end Tables

end SqlQuery
