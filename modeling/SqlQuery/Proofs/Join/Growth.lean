import SqlQuery.Join.Chain

/-!
# How a chain grows

Growth as a relation with one rule for each finding of a pass (`Grows`), and what a whole growth
leaves behind: attachments that each join a new table to the chain (`Chained`), and the edges that
remain, with the reason why none of them was attached (`Ends`).
-/

namespace SqlQuery

/-! ## The two sides of an edge -/

def Side.opposite : Side → Side
  | .left => .right
  | .right => .left

namespace JoinEdge

def endpoint (e : JoinEdge) : Side → TableRef
  | .left => e.left
  | .right => e.right

@[simp] theorem endpoint_left (e : JoinEdge) : e.endpoint .left = e.left := rfl

@[simp] theorem endpoint_right (e : JoinEdge) : e.endpoint .right = e.right := rfl

def Detached (used : List Text) (e : JoinEdge) : Prop :=
  e.left.reference ∉ used ∧ e.right.reference ∉ used

end JoinEdge

/-- The table of the chain that the new one is joined to. -/
def Attachment.partner (a : Attachment) : TableRef := a.edge.endpoint a.newSide.opposite

theorem Attachment.table_eq_endpoint (a : Attachment) : a.table = a.edge.endpoint a.newSide := by
  obtain ⟨e, side⟩ := a
  cases side <;> rfl

/-! ## One pass -/

section Pass

variable {κ : Type} {used : κ → Bool}

def Idle (used : κ → Bool) (links : List (Link κ)) : Prop :=
  ∀ l ∈ links, used l.left = false ∧ used l.right = false

theorem Idle.cons {l : Link κ} {links} (hl : used l.left = false) (hr : used l.right = false)
    (h : Idle used links) : Idle used (l :: links) := by
  intro m hm
  rcases List.mem_cons.mp hm with rfl | hm
  · exact ⟨hl, hr⟩
  · exact h m hm

/-- What a pass finds, by the first link with a key in use. -/
inductive Scans (used : κ → Bool) : List (Link κ) → Pass κ → Prop
  | cycle {before l after} : Idle used before → used l.left = true → used l.right = true →
      Scans used (before ++ l :: after) (.cycle l.edge)
  | attachRight {before l after} : Idle used before → used l.left = true → used l.right = false →
      Scans used (before ++ l :: after) (.attach ⟨l.edge, .right⟩ l.right (before ++ after))
  | attachLeft {before l after} : Idle used before → used l.left = false → used l.right = true →
      Scans used (before ++ l :: after) (.attach ⟨l.edge, .left⟩ l.left (before ++ after))
  | stuck {links} : Idle used links → Scans used links .stuck

theorem Scans.skip {l : Link κ} {links p} (hl : used l.left = false) (hr : used l.right = false)
    (h : Scans used links p) : Scans used (l :: links) (p.skip l) := by
  cases h with
  | cycle hb h₁ h₂ => exact .cycle (hb.cons hl hr) h₁ h₂
  | attachRight hb h₁ h₂ => exact .attachRight (hb.cons hl hr) h₁ h₂
  | attachLeft hb h₁ h₂ => exact .attachLeft (hb.cons hl hr) h₁ h₂
  | stuck hb => exact .stuck (hb.cons hl hr)

theorem scans_scan (used : κ → Bool) (links : List (Link κ)) :
    Scans used links (scan used links) := by
  induction links with
  | nil => exact .stuck (by intro l hl; cases hl)
  | cons l ls ih =>
      have hnil : Idle used ([] : List (Link κ)) := by intro l hl; cases hl
      cases hl : used l.left <;> cases hr : used l.right <;> simp only [scan, hl, hr]
      · exact ih.skip hl hr
      · exact .attachLeft hnil hl hr
      · exact .attachRight hnil hl hr
      · exact .cycle hnil hl hr

end Pass

/-! ## The whole growth -/

inductive Grows : List Text → List JoinEdge → Growth → Prop
  | attach {used before after a g} : (∀ e ∈ before, e.Detached used) →
      a.partner.reference ∈ used → a.table.reference ∉ used →
      Grows (a.table.reference :: used) (before ++ after) g →
      Grows used (before ++ a.edge :: after) (g.after a)
  | cycle {used before e after} : (∀ e ∈ before, e.Detached used) →
      e.left.reference ∈ used → e.right.reference ∈ used →
      Grows used (before ++ e :: after)
        ⟨[], some (.duplicate e.left.reference e.right.reference)⟩
  | stuck {used edges} : (∀ e ∈ edges, e.Detached used) →
      Grows used edges
        ⟨[], edges.head?.map fun e => .unreachable e.left.reference e.right.reference⟩

theorem ReferenceSet.contains_eq_true {used : List Text} {t : Text} :
    TableSet.contains (ReferenceSet.mk used) t = true ↔ t ∈ used := by
  simp [TableSet.contains]

theorem ReferenceSet.contains_eq_false {used : List Text} {t : Text} :
    TableSet.contains (ReferenceSet.mk used) t = false ↔ t ∉ used := by
  simp [TableSet.contains]

theorem Idle.detached {used : List Text} {edges : List JoinEdge}
    (h : Idle (TableSet.contains (ReferenceSet.mk used)) (edges.map JoinEdge.link)) :
    ∀ e ∈ edges, e.Detached used := by
  intro e he
  have hl := h e.link (List.mem_map_of_mem he)
  exact ⟨ReferenceSet.contains_eq_false.mp hl.1, ReferenceSet.contains_eq_false.mp hl.2⟩

theorem map_link_eq_append_cons {edges : List JoinEdge} {before l after}
    (h : edges.map JoinEdge.link = before ++ l :: after) :
    ∃ es e es', edges = es ++ e :: es' ∧ before = es.map JoinEdge.link ∧ l = e.link ∧
      after = es'.map JoinEdge.link := by
  obtain ⟨es, _, rfl, rfl, hrest⟩ := List.map_eq_append_iff.mp h
  obtain ⟨e, es', rfl, rfl, rfl⟩ := List.map_eq_cons_iff.mp hrest
  exact ⟨es, e, es', rfl, rfl, rfl, rfl⟩

theorem grows_grow (used : List Text) (edges : List JoinEdge) :
    Grows used edges (grow (ReferenceSet.mk used) (edges.map JoinEdge.link)) := by
  have hs := scans_scan (TableSet.contains (ReferenceSet.mk used)) (edges.map JoinEdge.link)
  generalize hlinks : edges.map JoinEdge.link = links at hs
  rw [grow]
  split <;> rename_i hp <;> rw [hp] at hs
  · cases hs with
    | attachRight hb hl hr =>
        obtain ⟨es, e, es', rfl, rfl, rfl, rfl⟩ := map_link_eq_append_cons hlinks
        rw [← List.map_append]
        exact .attach (a := ⟨e, .right⟩) hb.detached (ReferenceSet.contains_eq_true.mp hl)
          (ReferenceSet.contains_eq_false.mp hr) (grows_grow _ _)
    | attachLeft hb hl hr =>
        obtain ⟨es, e, es', rfl, rfl, rfl, rfl⟩ := map_link_eq_append_cons hlinks
        rw [← List.map_append]
        exact .attach (a := ⟨e, .left⟩) hb.detached (ReferenceSet.contains_eq_true.mp hr)
          (ReferenceSet.contains_eq_false.mp hl) (grows_grow _ _)
  · cases hs with
    | cycle hb hl hr =>
        obtain ⟨es, e, es', rfl, rfl, rfl, rfl⟩ := map_link_eq_append_cons hlinks
        exact .cycle hb.detached (ReferenceSet.contains_eq_true.mp hl)
          (ReferenceSet.contains_eq_true.mp hr)
  · cases hs with
    | stuck hb =>
        subst hlinks
        rw [List.head?_map, Option.map_map]
        exact .stuck hb.detached
termination_by edges.length

theorem edge_mem_of_perm {as : List Attachment} {edges : List JoinEdge}
    (h : (as.map (·.edge)).Perm edges) : ∀ a ∈ as, a.edge ∈ edges :=
  fun _ ha => h.mem_iff.mp (List.mem_map_of_mem ha)

/-! ## What the growth leaves behind -/

/-- Attachments that each join a new table to one that is in the chain by then. -/
inductive Chained : List Text → List Attachment → Prop
  | nil {used} : Chained used []
  | cons {used a as} : a.partner.reference ∈ used → a.table.reference ∉ used →
      Chained (a.table.reference :: used) as → Chained used (a :: as)

/-- The tables in the chain after the attachments, the last one first. -/
def reached (used : List Text) (as : List Attachment) : List Text :=
  (as.map (·.table.reference)).reverse ++ used

@[simp] theorem reached_nil (used : List Text) : reached used [] = used := rfl

@[simp] theorem reached_cons (used : List Text) (a : Attachment) (as : List Attachment) :
    reached used (a :: as) = reached (a.table.reference :: used) as := by
  simp [reached]

theorem mem_reached_of_mem {used : List Text} {t : Text} (as : List Attachment) (h : t ∈ used) :
    t ∈ reached used as :=
  List.mem_append_right _ h

theorem Attachment.endpoint_mem_cons {used : List Text} {a : Attachment}
    (hp : a.partner.reference ∈ used) (side : Side) :
    (a.edge.endpoint side).reference ∈ a.table.reference :: used := by
  obtain ⟨e, newSide⟩ := a
  cases side <;> cases newSide
  · exact List.mem_cons_self
  · exact List.mem_cons_of_mem _ hp
  · exact List.mem_cons_of_mem _ hp
  · exact List.mem_cons_self

theorem Chained.of_append {used as bs} (h : Chained used (as ++ bs)) :
    Chained used as ∧ Chained (reached used as) bs := by
  induction as generalizing used with
  | nil => exact ⟨.nil, h⟩
  | cons a as ih =>
      cases h with
      | cons hp ht h =>
          obtain ⟨has, hbs⟩ := ih h
          rw [reached_cons]
          exact ⟨.cons hp ht has, hbs⟩

theorem Chained.endpoint_mem {used as} (h : Chained used as) {a} (ha : a ∈ as) (side : Side) :
    (a.edge.endpoint side).reference ∈ reached used as := by
  induction h with
  | nil => cases ha
  | @cons used b as hp _ _ ih =>
      rw [reached_cons]
      rcases List.mem_cons.mp ha with rfl | ha
      · exact mem_reached_of_mem as (Attachment.endpoint_mem_cons hp side)
      · exact ih ha

theorem Chained.table_not_mem {used as} (h : Chained used as) {a} (ha : a ∈ as) :
    a.table.reference ∉ used := by
  induction h with
  | nil => cases ha
  | @cons used b as _ ht _ ih =>
      rcases List.mem_cons.mp ha with rfl | ha
      · exact ht
      · exact fun hmem => ih ha (List.mem_cons_of_mem _ hmem)

/-- The table of a later attachment is on neither side of an earlier edge. -/
theorem Chained.pairwise {used as} (h : Chained used as) :
    as.Pairwise fun a b => ∀ side, (a.edge.endpoint side).reference ≠ b.table.reference := by
  induction h with
  | nil => exact .nil
  | cons hp _ h ih =>
      refine .cons (fun b hb side heq => h.table_not_mem hb ?_) ih
      rw [← heq]
      exact Attachment.endpoint_mem_cons hp side

/-- The table that the `k`-th attachment adds is new then, and its partner is not. -/
theorem Chained.of_getElem? {used as} (h : Chained used as) {k a} (ha : as[k]? = some a) :
    a.partner.reference ∈ reached used (as.take k) ∧
      a.table.reference ∉ reached used (as.take k) := by
  induction h generalizing k with
  | nil => cases ha
  | @cons used b as hp ht _ ih =>
      cases k with
      | zero =>
          rw [List.getElem?_cons_zero, Option.some.injEq] at ha
          subst ha
          exact ⟨hp, ht⟩
      | succ k =>
          rw [List.getElem?_cons_succ] at ha
          simpa only [List.take_succ_cons, reached_cons] using ih ha

/-- Why a growth ends: the tables that are used by then and the edges that remain. -/
inductive Ends (used : List Text) : List JoinEdge → Option PathError → Prop
  | done : Ends used [] none
  | cycle {rest e} : e ∈ rest → e.left.reference ∈ used → e.right.reference ∈ used →
      Ends used rest (some (.duplicate e.left.reference e.right.reference))
  | stuck {e rest} : (∀ f ∈ e :: rest, f.Detached used) →
      Ends used (e :: rest) (some (.unreachable e.left.reference e.right.reference))

theorem Grows.chained {used edges g} (h : Grows used edges g) : Chained used g.attached := by
  induction h with
  | attach _ hp ht _ ih => exact .cons hp ht ih
  | cycle _ _ _ => exact .nil
  | stuck _ => exact .nil

/-- Every edge is attached once or remains, and those that remain keep their order. -/
theorem Grows.exists_rest {used edges g} (h : Grows used edges g) :
    ∃ rest, rest.Sublist edges ∧ edges.Perm (g.attached.map (·.edge) ++ rest) ∧
      Ends (reached used g.attached) rest g.failure? := by
  induction h with
  | @attach used before after a g _ _ _ _ ih =>
      obtain ⟨rest, hsub, hperm, hends⟩ := ih
      refine ⟨rest, hsub.trans ((List.sublist_cons_self _ _).append_left _), ?_, ?_⟩
      · exact List.perm_middle.trans (hperm.cons a.edge)
      · simpa only [Growth.after, reached_cons] using hends
  | @cycle used before e after _ hl hr =>
      exact ⟨_, .refl _, .refl _, .cycle (by simp) hl hr⟩
  | @stuck used edges hd =>
      refine ⟨edges, .refl _, .refl _, ?_⟩
      cases edges with
      | nil => exact .done
      | cons e rest => exact .stuck hd

end SqlQuery
