import SqlQuery.Proofs.Join.Position
import SqlQuery.Proofs.Join.Resolution

/-!
# Edges written the other way round

An edge may be written with its tables exchanged and its type flipped.  Lists that differ in this
only grow in step (`grow_turned`), and if the first edge is turned, the other anchor makes no
difference after the first attachment (`growByReference_reverse_cons`).  So the orientation of an
edge shows in a plan only where the first edge is concerned (`resolve_modify_reverse`).
-/

namespace SqlQuery

/-! ## Turned and not turned -/

/-- The same thing, turned or not. -/
def UpTo {α : Type} (turn : α → α) (a b : α) : Prop := b = a ∨ b = turn a

namespace UpTo

variable {α β : Type} {turn : α → α} {a b : α}

theorem refl (a : α) : UpTo turn a a := Or.inl rfl

theorem map {turn' : β → β} {f : α → β} (hf : ∀ a, f (turn a) = turn' (f a))
    (h : UpTo turn a b) : UpTo turn' (f a) (f b) := by
  rcases h with rfl | rfl
  · exact Or.inl rfl
  · exact Or.inr (hf a)

theorem eq {f : α → β} (hf : ∀ a, f (turn a) = f a) (h : UpTo turn a b) : f b = f a := by
  rcases h with rfl | rfl
  · rfl
  · exact hf a

theorem map_eq {f : α → β} (hf : ∀ a, f (turn a) = f a) {as bs : List α}
    (h : List.Forall₂ (UpTo turn) as bs) : bs.map f = as.map f := by
  induction h with
  | nil => rfl
  | cons hab _ ih => rw [List.map_cons, List.map_cons, hab.eq hf, ih]

end UpTo

def JoinEdge.reverse (e : JoinEdge) : JoinEdge :=
  ⟨e.right, e.left, e.predicate, e.orderKey, e.type.flip⟩

theorem JoinEdge.isOuter_reverse (e : JoinEdge) : e.reverse.isOuter = e.isOuter := by
  obtain ⟨_, _, _, _, type⟩ := e
  cases type <;> rfl

def PathError.reverse : PathError → PathError
  | .duplicate l r => .duplicate r l
  | .unreachable l r => .unreachable r l

def Attachment.reverse (a : Attachment) : Attachment := ⟨a.edge.reverse, a.newSide.opposite⟩

theorem Attachment.step_reverse (d : Dialect) (a : Attachment) : a.reverse.step d = a.step d := by
  obtain ⟨e, side⟩ := a
  cases side with
  | left => rfl
  | right =>
      show (⟨e.right, _, e.type.flip.flip⟩ : JoinStep) = _
      rw [JoinType.flip_flip]
      rfl

/-! ## Growth in step -/

section Growth

variable {κ σ : Type}

def Link.reverse (l : Link κ) : Link κ := ⟨l.edge.reverse, l.right, l.left⟩

inductive Pass.Turned : Pass κ → Pass κ → Prop
  | attach {a a' k rest rest'} : UpTo Attachment.reverse a a' →
      List.Forall₂ (UpTo Link.reverse) rest rest' →
      Turned (.attach a k rest) (.attach a' k rest')
  | cycle {e e'} : UpTo JoinEdge.reverse e e' → Turned (.cycle e) (.cycle e')
  | stuck : Turned .stuck .stuck

theorem Pass.Turned.skip {l l' : Link κ} {p p' : Pass κ} (hl : UpTo Link.reverse l l')
    (h : p.Turned p') : (p.skip l).Turned (p'.skip l') := by
  cases h with
  | attach ha hrest => exact .attach ha (.cons hl hrest)
  | cycle he => exact .cycle he
  | stuck => exact .stuck

theorem scan_turned (used : κ → Bool) {links links' : List (Link κ)}
    (h : List.Forall₂ (UpTo Link.reverse) links links') :
    (scan used links).Turned (scan used links') := by
  induction h with
  | nil => exact .stuck
  | @cons l l' ls ls' hl hls ih =>
      rcases hl with rfl | rfl
      · cases hu : used l'.left <;> cases hv : used l'.right <;> simp only [scan, hu, hv]
        · exact ih.skip (.refl l')
        · exact .attach (.refl _) hls
        · exact .attach (.refl _) hls
        · exact .cycle (.refl _)
      · cases hu : used l.left <;> cases hv : used l.right <;>
          simp only [scan, Link.reverse, hu, hv]
        · exact ih.skip (Or.inr rfl)
        · exact .attach (Or.inr rfl) hls
        · exact .attach (Or.inr rfl) hls
        · exact .cycle (Or.inr rfl)

structure Growth.Turned (g g' : Growth) : Prop where
  attached : List.Forall₂ (UpTo Attachment.reverse) g.attached g'.attached
  failure : Option.Rel (UpTo PathError.reverse) g.failure? g'.failure?

theorem grow_turned [TableSet σ κ] (s : σ) {links links' : List (Link κ)}
    (h : List.Forall₂ (UpTo Link.reverse) links links') :
    (grow s links).Turned (grow s links') := by
  have hscan := scan_turned (TableSet.contains s) h
  generalize hp : scan (TableSet.contains s) links = p at hscan
  generalize hp' : scan (TableSet.contains s) links' = p' at hscan
  cases hscan with
  | @attach _ _ k _ _ ha hrest =>
      have hlt := length_of_scan_eq_attach hp
      have ih := grow_turned (TableSet.insert s k) hrest
      rw [grow_of_attach hp, grow_of_attach hp']
      exact ⟨.cons ha ih.attached, ih.failure⟩
  | cycle he =>
      rw [grow_of_cycle hp, grow_of_cycle hp']
      rcases he with rfl | rfl
      · exact ⟨.nil, .some (.refl _)⟩
      · exact ⟨.nil, .some (Or.inr rfl)⟩
  | stuck =>
      rw [grow_of_stuck hp, grow_of_stuck hp']
      cases h with
      | nil => exact ⟨.nil, .none⟩
      | cons hl _ =>
          rcases hl with rfl | rfl
          · exact ⟨.nil, .some (.refl _)⟩
          · exact ⟨.nil, .some (Or.inr rfl)⟩
termination_by links.length

end Growth

theorem growByReference_turned (e : JoinEdge) {es es' : List JoinEdge}
    (h : List.Forall₂ (UpTo JoinEdge.reverse) es es') :
    (growByReference (e :: es)).Turned (growByReference (e :: es')) := by
  have hlink : ∀ e : JoinEdge, e.reverse.link = e.link.reverse := fun _ => rfl
  apply grow_turned
  rw [List.forall₂_map_left_iff, List.forall₂_map_right_iff]
  exact .cons (.refl _) (h.imp fun _ _ he => he.map hlink)

/-! ## The first edge -/

/-- A growth depends on the used tables only as a set. -/
theorem grow_congr {t s : ReferenceSet} (h : ∀ k, k ∈ t.references ↔ k ∈ s.references)
    (links : List (Link Text)) : grow t links = grow s links := by
  have hrename := @grow_rename Text Text id ReferenceSet ReferenceSet _ _ (fun _ => True)
    (fun t s => ∀ k, k ∈ t.references ↔ k ∈ s.references)
    (fun {t s k} hts _ => by simp [TableSet.contains, hts k])
    (fun {t s k} hts _ => by simp [TableSet.insert, hts]) t s links h (by simp)
  rwa [List.map_id''] at hrename
  exact fun _ => rfl

theorem growByReference_cons (e : JoinEdge) (es : List JoinEdge) :
    growByReference (e :: es) =
      if e.left.reference = e.right.reference then
        ⟨[], some (.duplicate e.left.reference e.right.reference)⟩
      else (grow (ReferenceSet.mk [e.right.reference, e.left.reference])
        (es.map JoinEdge.link)).after ⟨e, .right⟩ := by
  rw [growByReference, List.map_cons]
  by_cases h : e.left.reference = e.right.reference
  · rw [if_pos h]
    apply grow_of_cycle
    simp [scan, JoinEdge.link, TableSet.contains, h]
  · rw [if_neg h]
    apply grow_of_attach
    simp [scan, JoinEdge.link, TableSet.contains, Ne.symm h]

/-- Turning the first edge makes the other table the anchor, and the chain grows on as before. -/
theorem growByReference_reverse_cons (e : JoinEdge) (es : List JoinEdge) :
    (∃ g : Growth, growByReference (e :: es) = g.after ⟨e, .right⟩ ∧
      growByReference (e.reverse :: es) = g.after ⟨e.reverse, .right⟩) ∨
    ∃ x : PathError, growByReference (e :: es) = ⟨[], some x⟩ ∧
      growByReference (e.reverse :: es) = ⟨[], some x.reverse⟩ := by
  rw [growByReference_cons, growByReference_cons]
  by_cases h : e.left.reference = e.right.reference
  · have h' : e.reverse.left.reference = e.reverse.right.reference := h.symm
    rw [if_pos h, if_pos h']
    exact Or.inr ⟨_, rfl, rfl⟩
  · have h' : e.reverse.left.reference ≠ e.reverse.right.reference := Ne.symm h
    rw [if_neg h, if_neg h']
    refine Or.inl ⟨_, rfl, congrArg (Growth.after _) (grow_congr (fun k => ?_) _)⟩
    simp [JoinEdge.reverse, or_comm]

/-- Growths that attach the same edges, turned or not, and end for the same reason. -/
structure Growth.InStep (g g' : Growth) : Prop where
  edges : List.Forall₂ (fun a a' => UpTo JoinEdge.reverse a.edge a'.edge) g.attached g'.attached
  failure : Option.Rel (UpTo PathError.reverse) g.failure? g'.failure?

theorem Growth.Turned.inStep {g g' : Growth} (h : g.Turned g') : g.InStep g' := by
  have hedge : ∀ a : Attachment, a.reverse.edge = a.edge.reverse := fun _ => rfl
  exact ⟨h.attached.imp fun _ _ ha => ha.map hedge, h.failure⟩

theorem Growth.after_inStep_reverse (g : Growth) (e : JoinEdge) :
    (g.after ⟨e, .right⟩).InStep (g.after ⟨e.reverse, .right⟩) := by
  refine ⟨.cons (Or.inr rfl) (List.forall₂_same.mpr fun a _ => .refl a.edge), ?_⟩
  rw [after, after]
  cases g.failure? with
  | none => exact .none
  | some x => exact .some (.refl x)

/-! ## Turned lists -/

namespace JoinEdge

theorem turned_modify (edges : List JoinEdge) (i : Nat) :
    List.Forall₂ (UpTo reverse) edges (edges.modify i reverse) := by
  induction edges generalizing i with
  | nil => simp
  | cons e es ih =>
      cases i with
      | zero =>
          rw [List.modify_zero_cons]
          exact .cons (Or.inr rfl) (List.forall₂_same.mpr fun e _ => .refl e)
      | succ i =>
          rw [List.modify_succ_cons]
          exact .cons (.refl e) (ih i)

/-- In the order of the keys, the turned edge keeps its place. -/
theorem inOrder_modify_reverse (edges : List JoinEdge) (i : Nat) :
    inOrder (edges.modify i reverse) = (placed edges).map fun p => (changeAt i reverse p).1 := by
  have hkey : ∀ e : JoinEdge, e.reverse.orderKey = e.orderKey := fun _ => rfl
  rw [← map_fst_placed, placed_modify hkey, List.map_map]
  rfl

/-- The first edge of two lists that differ in one edge is the same, or it alone is turned. -/
theorem inOrder_cons_cases {edges : List JoinEdge} {first rest}
    (h : inOrder edges = first :: rest) (i : Nat) :
    ((positions edges).head? = some i ∧
      inOrder (edges.modify i reverse) = first.reverse :: rest) ∨
    (positions edges).head? ≠ some i ∧ ∃ rest', List.Forall₂ (UpTo reverse) rest rest' ∧
      inOrder (edges.modify i reverse) = first :: rest' := by
  have hnodup := positions_nodup edges
  rw [inOrder_modify_reverse]
  rw [← map_fst_placed] at h
  rw [positions] at hnodup ⊢
  obtain ⟨⟨e, k⟩, ps, hplaced, rfl, rfl⟩ := List.map_eq_cons_iff.mp h
  rw [hplaced] at hnodup ⊢
  simp only [List.map_cons, List.head?_cons, Option.some.injEq, List.nodup_cons, ne_eq]
    at hnodup ⊢
  by_cases hk : k = i
  · subst hk
    refine Or.inl ⟨rfl, ?_⟩
    have hrest : ∀ p ∈ ps, (changeAt k reverse p).1 = p.1 := by
      intro p hp
      rw [changeAt, if_neg]
      rintro rfl
      exact hnodup.1 (List.mem_map_of_mem hp)
    rw [List.map_congr_left hrest]
    simp [changeAt]
  · refine Or.inr ⟨hk, ps.map fun p => (changeAt i reverse p).1, ?_, by simp [changeAt, hk]⟩
    rw [List.forall₂_map_left_iff, List.forall₂_map_right_iff, List.forall₂_same]
    intro p _
    rw [changeAt]
    split
    · exact Or.inr rfl
    · exact .refl _

end JoinEdge

/-! ## Errors in turned lists -/

/-- The same error, but for where it is needed or the order in which it names two tables. -/
inductive Failure.Alike : Failure → Failure → Prop
  | unsupported {u u'} : u.feature = u'.feature → Alike (.unsupported u) (.unsupported u')
  | path {e e'} : UpTo PathError.reverse e e' → Alike (.path e) (.path e')
  | misuse {m} : Alike (.misuse m) (.misuse m)

theorem forall₂_find? {α β : Type} {R : α → β → Prop} {p : α → Bool} {q : β → Bool}
    (hR : ∀ a b, R a b → q b = p a) {as : List α} {bs : List β} (h : List.Forall₂ R as bs) :
    Option.Rel R (as.find? p) (bs.find? q) := by
  induction h with
  | nil => exact .none
  | @cons a b as bs hab _ ih =>
      rw [List.find?_cons, List.find?_cons, hR a b hab]
      cases p a with
      | true => exact .some hab
      | false => exact ih

namespace JoinPlan

variable {d : Dialect} {edges edges' : List JoinEdge}

theorem missingOuterJoin?_turned (d : Dialect)
    (h : List.Forall₂ (UpTo JoinEdge.reverse) edges edges') :
    Option.Rel (fun u u' => u.feature = u'.feature) (missingOuterJoin? d edges)
      (missingOuterJoin? d edges') := by
  rw [missingOuterJoin?, missingOuterJoin?]
  split
  · exact .none
  · have hfind := forall₂_find? (fun _ _ he => UpTo.eq JoinEdge.isOuter_reverse he) h
    generalize edges.find? (·.isOuter) = x at hfind ⊢
    generalize edges'.find? (·.isOuter) = x' at hfind ⊢
    cases hfind with
    | none => exact .none
    | some _ => exact .some rfl

/-- Growths in step come to plans of their own attachments, or to errors alike. -/
theorem ofGrowth_inStep (d : Dialect) (anchor anchor' : TableRef) {g g' : Growth}
    (h : g.InStep g') :
    (ofGrowth d anchor g = .ok (ofAttached d anchor g.attached) ∧
        ofGrowth d anchor' g' = .ok (ofAttached d anchor' g'.attached)) ∨
      ∃ f f', ofGrowth d anchor g = .error f ∧ ofGrowth d anchor' g' = .error f' ∧ f.Alike f' := by
  obtain ⟨hedges, hfailure⟩ := h
  have hreverse : ∀ e : JoinEdge, misplaced d e.reverse = misplaced d e := by
    intro e
    rw [misplaced, JoinEdge.isOuter_reverse]
    rfl
  have hmisplaced : ∀ a a' : Attachment, UpTo JoinEdge.reverse a.edge a'.edge →
      misplaced d a'.edge = misplaced d a.edge := fun _ _ ha => ha.eq hreverse
  have hfind := forall₂_find? hmisplaced hedges
  rw [ofGrowth, ofGrowth]
  generalize g.attached.find? (misplaced d ·.edge) = x at hfind ⊢
  generalize g'.attached.find? (misplaced d ·.edge) = x' at hfind ⊢
  cases hfind with
  | some _ => exact Or.inr ⟨_, _, rfl, rfl, .unsupported rfl⟩
  | none =>
      generalize g.failure? = y at hfailure ⊢
      generalize g'.failure? = y' at hfailure ⊢
      cases hfailure with
      | some he => exact Or.inr ⟨_, _, rfl, rfl, .path he⟩
      | none => exact Or.inl ⟨rfl, rfl⟩

theorem ofAttached_turned (d : Dialect) (anchor : TableRef) {as as' : List Attachment}
    (h : List.Forall₂ (UpTo Attachment.reverse) as as') :
    ofAttached d anchor as' = ofAttached d anchor as := by
  have hsteps := UpTo.map_eq (Attachment.step_reverse d) h
  have hpredicate : ∀ a : Attachment, a.reverse.edge.predicate = a.edge.predicate := fun _ => rfl
  have hpredicates := UpTo.map_eq (f := (·.edge.predicate)) hpredicate h
  rw [ofAttached, hsteps, hpredicates]
  rfl

/-- The same plan, but the first table is joined to the second one. -/
def Exchanged (p p' : JoinPlan) : Prop :=
  ∃ s ss, p.joins = s :: ss ∧
    p' = { p with anchor := s.table, joins := ⟨p.anchor, s.condition?, s.type.flip⟩ :: ss }

theorem exchanged_ofAttached (d : Dialect) (e : JoinEdge) (as : List Attachment) :
    (ofAttached d e.left (⟨e, .right⟩ :: as)).Exchanged
      (ofAttached d e.right (⟨e.reverse, .right⟩ :: as)) :=
  ⟨_, _, rfl, rfl⟩

/-- What a resolution comes to when one edge is turned. -/
inductive Turned (first : Prop) : Except Failure JoinPlan → Except Failure JoinPlan → Prop
  | same {p} : ¬ first → Turned first (.ok p) (.ok p)
  | exchanged {p p'} : first → p.Exchanged p' → Turned first (.ok p) (.ok p')
  | failed {f f'} : f.Alike f' → Turned first (.error f) (.error f')

theorem turned_of_ne {first : Prop} (hfirst : ¬ first) {anchor : TableRef} {g g' : Growth}
    (h : g.Turned g') : Turned first (ofGrowth d anchor g) (ofGrowth d anchor g') := by
  rcases ofGrowth_inStep d anchor anchor h.inStep with ⟨hp, hp'⟩ | ⟨f, f', hf, hf', h⟩
  · rw [hp, hp', ofAttached_turned d anchor h.attached]
    exact .same hfirst
  · rw [hf, hf']
    exact .failed h

theorem turned_of_eq {first : Prop} (hfirst : first) (e : JoinEdge) (es : List JoinEdge) :
    Turned first (ofGrowth d e.left (growByReference (e :: es)))
      (ofGrowth d e.right (growByReference (e.reverse :: es))) := by
  rcases growByReference_reverse_cons e es with ⟨g, hg, hg'⟩ | ⟨x, hx, hx'⟩
  · rw [hg, hg']
    rcases ofGrowth_inStep d e.left e.right (g.after_inStep_reverse e) with
      ⟨hp, hp'⟩ | ⟨f, f', hf, hf', h⟩
    · rw [hp, hp']
      exact .exchanged hfirst (exchanged_ofAttached d e g.attached)
    · rw [hf, hf']
      exact .failed h
  · rw [hx, hx']
    exact .failed (.path (Or.inr rfl))

theorem Turned.resolve {P : Prop} {first first' rest rest'}
    (hedges : List.Forall₂ (UpTo JoinEdge.reverse) edges edges')
    (hi : JoinEdge.inOrder edges = first :: rest) (hi' : JoinEdge.inOrder edges' = first' :: rest')
    (h : Turned P (ofGrowth d first.left (growByReference (first :: rest)))
      (ofGrowth d first'.left (growByReference (first' :: rest')))) :
    Turned P (resolve d edges) (JoinPlan.resolve d edges') := by
  have hmissing := missingOuterJoin?_turned d hedges
  rw [resolve_of_inOrder hi, resolve_of_inOrder hi']
  generalize missingOuterJoin? d edges = m at hmissing ⊢
  generalize missingOuterJoin? d edges' = m' at hmissing ⊢
  cases hmissing with
  | some hu => exact .failed (.unsupported hu)
  | none => exact h

theorem turned_resolve (d : Dialect) (edges : List JoinEdge) (i : Nat) :
    Turned ((JoinEdge.positions edges).head? = some i) (resolve d edges)
      (resolve d (edges.modify i JoinEdge.reverse)) := by
  have hedges := JoinEdge.turned_modify edges i
  cases hi : JoinEdge.inOrder edges with
  | nil =>
      have hnil : edges = [] := by
        by_contra hne
        exact inOrder_ne_nil hne hi
      subst hnil
      rw [List.modify_nil, resolve, hi]
      exact .failed .misuse
  | cons first rest =>
      rcases JoinEdge.inOrder_cons_cases hi i with ⟨hfirst, hi'⟩ | ⟨hfirst, rest', hrest, hi'⟩
      · exact (turned_of_eq hfirst first rest).resolve hedges hi hi'
      · have hgrowth := growByReference_turned first hrest
        exact (turned_of_ne hfirst hgrowth).resolve hedges hi hi'

end JoinPlan

open JoinPlan in
/-- The orientation of an edge shows in a plan only if the edge is the first one: then the other
table is the anchor.  In an error it shows only in the order of the two tables. -/
theorem resolve_modify_reverse (d : Dialect) (edges : List JoinEdge) (i : Nat) :
    let turned := edges.modify i JoinEdge.reverse
    ((∃ p, resolve d edges = .ok p) ↔ ∃ p, resolve d turned = .ok p) ∧
      (∀ p p', resolve d edges = .ok p → resolve d turned = .ok p' →
        ((JoinEdge.positions edges).head? ≠ some i → p' = p) ∧
        ((JoinEdge.positions edges).head? = some i → p.Exchanged p')) ∧
      ∀ f f', resolve d edges = .error f → resolve d turned = .error f' → f.Alike f' := by
  intro turned
  have h := turned_resolve d edges i
  generalize resolve d edges = x at h ⊢
  generalize resolve d turned = y at h ⊢
  cases h with
  | same hfirst =>
      refine ⟨by simp, ?_, nofun⟩
      rintro _ _ ⟨⟩ ⟨⟩
      exact ⟨fun _ => rfl, fun h => absurd h hfirst⟩
  | exchanged hfirst hp =>
      refine ⟨by simp, ?_, nofun⟩
      rintro _ _ ⟨⟩ ⟨⟩
      exact ⟨fun h => absurd hfirst h, fun _ => hp⟩
  | failed hf =>
      refine ⟨by simp, nofun, ?_⟩
      rintro _ _ ⟨⟩ ⟨⟩
      exact hf

namespace Sample

/-- The outer join comes first here, and `B` is the anchor. -/
def keyedOuterEdge : JoinEdge := { outerEdge with orderKey := "0" }

def outerFirst : List JoinEdge := [innerEdge, keyedOuterEdge]

def outerFirstPlan : JoinPlan :=
  ⟨tableB, [⟨tableA, some "B.id = A.id", .right⟩, ⟨tableC, none, .inner⟩], ["A.x < C.x"]⟩

def turnedPlan : JoinPlan :=
  ⟨tableA, [⟨tableB, some "B.id = A.id", .left⟩, ⟨tableC, none, .inner⟩], ["A.x < C.x"]⟩

theorem resolve_outerFirst : JoinPlan.resolve strict outerFirst = .ok outerFirstPlan := by
  have horder : JoinEdge.inOrder outerFirst = [keyedOuterEdge, innerEdge] := by cbv
  have hgrow : growByReference [keyedOuterEdge, innerEdge] =
      ⟨[⟨keyedOuterEdge, .right⟩, ⟨innerEdge, .right⟩], none⟩ := by cbv
  rw [JoinPlan.resolve_of_inOrder horder, hgrow]
  rfl

theorem resolve_outerFirst_turned :
    JoinPlan.resolve strict (outerFirst.modify 1 JoinEdge.reverse) = .ok turnedPlan := by
  have horder : JoinEdge.inOrder (outerFirst.modify 1 JoinEdge.reverse) =
      [keyedOuterEdge.reverse, innerEdge] := by cbv
  have hgrow : growByReference [keyedOuterEdge.reverse, innerEdge] =
      ⟨[⟨keyedOuterEdge.reverse, .right⟩, ⟨innerEdge, .right⟩], none⟩ := by cbv
  rw [JoinPlan.resolve_of_inOrder horder, hgrow]
  rfl

theorem outerFirst_exchanged : (JoinEdge.positions outerFirst).head? = some 1 ∧
    JoinPlan.resolve strict outerFirst = .ok outerFirstPlan ∧
    JoinPlan.resolve strict (outerFirst.modify 1 JoinEdge.reverse) = .ok turnedPlan ∧
    outerFirstPlan.Exchanged turnedPlan := by
  have hfirst : (JoinEdge.positions outerFirst).head? = some 1 := by cbv
  obtain ⟨-, hplans, -⟩ := resolve_modify_reverse strict outerFirst 1
  have hexchanged := (hplans _ _ resolve_outerFirst resolve_outerFirst_turned).2 hfirst
  exact ⟨hfirst, resolve_outerFirst, resolve_outerFirst_turned, hexchanged⟩

end Sample

end SqlQuery
