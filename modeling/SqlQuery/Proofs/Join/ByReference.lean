import Mathlib.Data.List.TakeWhile
import SqlQuery.Proofs.Join.Resolution

/-!
# Resolution without numbers

The plain way to join the edges keeps the reference texts of the tables in the chain and compares
with them the tables of every edge that a scan comes to (`JoinPlan.resolveByReference`).  Numbering
the tables changes nothing but the cost: the result is the same, and every number whose bit is
looked up or set is within the bitmap (`JoinPlan.resolve_eq_resolveByReference`).
-/

namespace SqlQuery

/-! ## The plain way -/

/-- Whether a table of the edge is among those with the given reference texts. -/
def JoinEdge.touches (used : List Text) (e : JoinEdge) : Bool :=
  used.contains e.left.reference || used.contains e.right.reference

namespace JoinPlan

/-- The plan with one more join at its end. -/
def attach (d : Dialect) (p : JoinPlan) (a : Attachment) : JoinPlan where
  anchor := p.anchor
  joins := p.joins ++ [a.step d]
  deferred :=
    if d.eligibleForOn a.edge.predicate then p.deferred else p.deferred ++ [a.edge.predicate]

/-- Attaches the remaining edges to a plan whose tables have the reference texts in `used`.  Each
scan starts over from the first remaining edge and stops at one that touches the plan. -/
def extend (d : Dialect) (used : List Text) (p : JoinPlan) (remaining : List JoinEdge) :
    Except Failure JoinPlan :=
  match _h : remaining.dropWhile (!·.touches used) with
  | [] =>
    match remaining with
    | [] => .ok p
    | e :: _ => .error (.path (.unreachable e.left.reference e.right.reference))
  | e :: after =>
    if used.contains e.left.reference && used.contains e.right.reference then
      .error (.path (.duplicate e.left.reference e.right.reference))
    else if misplaced d e then
      .error (.unsupported (.outerJoinCondition e.left.reference e.right.reference))
    else
      let a : Attachment := ⟨e, if used.contains e.left.reference then .right else .left⟩
      extend d (a.table.reference :: used) (p.attach d a)
        (remaining.takeWhile (!·.touches used) ++ after)
termination_by remaining.length
decreasing_by
  have hlen := congrArg List.length
    (List.takeWhile_append_dropWhile (p := (!·.touches used)) (l := remaining))
  rw [_h] at hlen
  simp only [List.length_append, List.length_cons] at hlen ⊢
  omega

/-- Joins all edges in one chain, telling tables apart by their reference texts. -/
def resolveByReference (d : Dialect) (edges : List JoinEdge) : Except Failure JoinPlan :=
  match JoinEdge.inOrder edges with
  | [] => .error (.misuse .noJoins)
  | first :: rest =>
    match missingOuterJoin? d edges with
    | some u => .error (.unsupported u)
    | none => extend d [first.left.reference] ⟨first.left, [], []⟩ (first :: rest)

/-! ## Extending a plan by a growth -/

variable {d : Dialect} {used : List Text} {p : JoinPlan} {edges : List JoinEdge}

/-- The joins of both plans, from the anchor of the first one. -/
def append (p p' : JoinPlan) : JoinPlan :=
  ⟨p.anchor, p.joins ++ p'.joins, p.deferred ++ p'.deferred⟩

theorem attach_append (p : JoinPlan) (a : Attachment) (as : List Attachment) :
    (p.attach d a).append (ofAttached d p.anchor as) =
      p.append (ofAttached d p.anchor (a :: as)) := by
  cases h : d.eligibleForOn a.edge.predicate <;> simp [attach, append, ofAttached, h]

theorem ofGrowth_after (h : misplaced d a.edge = false) (p : JoinPlan) (g : Growth) :
    (ofGrowth d p.anchor (g.after a)).map p.append =
      (ofGrowth d (p.attach d a).anchor g).map (p.attach d a).append := by
  have hfind : (g.after a).attached.find? (misplaced d ·.edge) =
      g.attached.find? (misplaced d ·.edge) := by
    simp [Growth.after, h]
  rw [ofGrowth, ofGrowth, hfind]
  cases g.attached.find? (misplaced d ·.edge) with
  | some b => rfl
  | none =>
      cases hf : g.failure? with
      | some e => simp [Growth.after, hf, Except.map]
      | none =>
          simp only [Growth.after, hf, Except.map]
          rw [← attach_append]
          rfl

/-! ## Following the growth -/

theorem touches_eq_false {e : JoinEdge} (h : e.Detached used) : e.touches used = false := by
  simp [JoinEdge.touches, h.1, h.2]

theorem dropWhile_eq_nil (h : ∀ e ∈ edges, e.Detached used) :
    edges.dropWhile (!·.touches used) = [] :=
  List.dropWhile_eq_nil_iff.mpr fun e he => by simp [touches_eq_false (h e he)]

theorem dropWhile_append_cons {before : List JoinEdge} {e : JoinEdge}
    (h : ∀ e ∈ before, e.Detached used) (he : e.touches used = true) (after : List JoinEdge) :
    (before ++ e :: after).dropWhile (!·.touches used) = e :: after ∧
      (before ++ e :: after).takeWhile (!·.touches used) = before := by
  have hbefore : ∀ e ∈ before, (!e.touches used) = true :=
    fun e he => by simp [touches_eq_false (h e he)]
  rw [List.dropWhile_append_of_pos hbefore, List.takeWhile_append_of_pos hbefore]
  simp [he]

theorem extend_of_stuck (h : edges.dropWhile (!·.touches used) = []) (p : JoinPlan) :
    extend d used p edges = match edges with
      | [] => .ok p
      | e :: _ => .error (.path (.unreachable e.left.reference e.right.reference)) := by
  rw [extend]
  split
  · rfl
  · simp_all

theorem extend_of_touches {e : JoinEdge} {after : List JoinEdge}
    (h : edges.dropWhile (!·.touches used) = e :: after) (p : JoinPlan) :
    extend d used p edges =
      if used.contains e.left.reference && used.contains e.right.reference then
        .error (.path (.duplicate e.left.reference e.right.reference))
      else if misplaced d e then
        .error (.unsupported (.outerJoinCondition e.left.reference e.right.reference))
      else
        let a : Attachment := ⟨e, if used.contains e.left.reference then .right else .left⟩
        extend d (a.table.reference :: used) (p.attach d a)
          (edges.takeWhile (!·.touches used) ++ after) := by
  rw [extend]
  split
  · simp_all
  · rename_i heq
    rw [h] at heq
    cases heq
    rfl

/-- An edge that is attached has one table in the plan, and it is told which. -/
theorem sides_of_attachment {a : Attachment} (hp : a.partner.reference ∈ used)
    (ht : a.table.reference ∉ used) : a.edge.touches used = true ∧
      (used.contains a.edge.left.reference && used.contains a.edge.right.reference) = false ∧
      (⟨a.edge, if used.contains a.edge.left.reference then .right else .left⟩ : Attachment) =
        a := by
  obtain ⟨e, side⟩ := a
  cases side with
  | left =>
      have hr : e.right.reference ∈ used := hp
      have hl : e.left.reference ∉ used := ht
      simp [JoinEdge.touches, hl, hr]
  | right =>
      have hl : e.left.reference ∈ used := hp
      have hr : e.right.reference ∉ used := ht
      simp [JoinEdge.touches, hl, hr]

theorem extend_eq {g : Growth} (h : Grows used edges g) (p : JoinPlan) :
    extend d used p edges = (ofGrowth d p.anchor g).map p.append := by
  induction h generalizing p with
  | @attach used before after a g hb hp ht _ ih =>
      obtain ⟨htouches, hcycle, hside⟩ := sides_of_attachment hp ht
      obtain ⟨hdrop, htake⟩ := dropWhile_append_cons hb htouches after
      rw [extend_of_touches hdrop, hcycle, htake, hside]
      cases hm : misplaced d a.edge with
      | true => simp [ofGrowth, Growth.after, hm, Except.map]
      | false =>
          rw [ofGrowth_after hm, ← ih]
          rfl
  | @cycle used before e after hb hl hr =>
      have htouches : e.touches used = true := by simp [JoinEdge.touches, hl]
      obtain ⟨hdrop, -⟩ := dropWhile_append_cons hb htouches after
      rw [extend_of_touches hdrop]
      simp [ofGrowth, hl, hr, Except.map]
  | @stuck used edges hd =>
      rw [extend_of_stuck (dropWhile_eq_nil hd)]
      cases edges with
      | nil => simp [ofGrowth, ofAttached, append, Except.map]
      | cons e es => rfl

end JoinPlan

/-! ## Bits within the bitmap -/

namespace Bitmap

/-- The bit of a number, if the bitmap has one. -/
def bit? (s : Bitmap) (i : Nat) : Option Bool := s.bits[i]?

/-- The bitmap with the bit of a number set, if it has one. -/
def insert? (s : Bitmap) (i : Nat) : Option Bitmap :=
  if i < s.bits.size then some (TableSet.insert s i) else none

/-- Looks for the first edge with a table in the chain; nothing comes of a number without a bit. -/
def scan? (s : Bitmap) : List (Link Nat) → Option (Pass Nat)
  | [] => some .stuck
  | l :: ls =>
    match s.bit? l.left, s.bit? l.right with
    | some true, some true => some (.cycle l.edge)
    | some true, some false => some (.attach ⟨l.edge, .right⟩ l.right ls)
    | some false, some true => some (.attach ⟨l.edge, .left⟩ l.left ls)
    | some false, some false => (s.scan? ls).map (.skip l)
    | _, _ => none

variable {s : Bitmap} {links : List (Link Nat)} {p : Pass Nat} {i : Nat} {b : Bool}

theorem contains_of_bit? (h : s.bit? i = some b) : TableSet.contains s i = b := by
  simp only [bit?] at h
  simp [TableSet.contains, h]

theorem scan_of_scan? (h : s.scan? links = some p) : scan (TableSet.contains s) links = p := by
  induction links generalizing p with
  | nil => exact Option.some.inj h
  | cons l ls ih =>
      rw [scan?] at h
      split at h <;> rename_i hl hr
      · rw [scan, contains_of_bit? hl, contains_of_bit? hr]
        exact Option.some.inj h
      · rw [scan, contains_of_bit? hl, contains_of_bit? hr]
        exact Option.some.inj h
      · rw [scan, contains_of_bit? hl, contains_of_bit? hr]
        exact Option.some.inj h
      · rw [scan, contains_of_bit? hl, contains_of_bit? hr]
        obtain ⟨q, hq, rfl⟩ := Option.map_eq_some_iff.mp h
        rw [ih hq]
      · cases h

/-- Grows the chain of the tables in the bitmap; nothing comes of a number without a bit. -/
def grow? (s : Bitmap) (links : List (Link Nat)) : Option Growth :=
  match _h : s.scan? links with
  | some (.attach a k rest) =>
    match s.insert? k with
    | some s' => (s'.grow? rest).map (.after a)
    | none => none
  | some (.cycle e) => some ⟨[], some (.duplicate e.left.reference e.right.reference)⟩
  | some .stuck => some ⟨[], links.head?.map fun l =>
      .unreachable l.edge.left.reference l.edge.right.reference⟩
  | none => none
termination_by links.length
decreasing_by have := length_of_scan_eq_attach (scan_of_scan? _h); omega

/-- Every number of a link has a bit. -/
def Covers (s : Bitmap) (links : List (Link Nat)) : Prop :=
  ∀ l ∈ links, l.left < s.bits.size ∧ l.right < s.bits.size

theorem size_insert (s : Bitmap) (i : Nat) : (TableSet.insert s i).bits.size = s.bits.size := by
  simp [TableSet.insert]

theorem Covers.insert (h : s.Covers links) (i : Nat) : (TableSet.insert s i).Covers links := by
  intro l hl
  rw [size_insert]
  exact h l hl

theorem bit?_eq (h : i < s.bits.size) : s.bit? i = some (TableSet.contains s i) := by
  simp [bit?, TableSet.contains, h]

theorem scan?_eq (h : s.Covers links) :
    s.scan? links = some (scan (TableSet.contains s) links) := by
  induction links with
  | nil => rfl
  | cons l ls ih =>
      obtain ⟨⟨hl, hr⟩, hls⟩ := List.forall_mem_cons.mp h
      rw [scan?, scan, bit?_eq hl, bit?_eq hr, ih hls]
      cases TableSet.contains s l.left <;> cases TableSet.contains s l.right <;> rfl

theorem insert?_eq (h : i < s.bits.size) : s.insert? i = some (TableSet.insert s i) := if_pos h

theorem grow?_of_attach {a k rest} (h : s.scan? links = some (.attach a k rest))
    (hk : k < s.bits.size) :
    s.grow? links = ((TableSet.insert s k).grow? rest).map (.after a) := by
  rw [grow?]
  split <;> simp_all [insert?_eq hk]

theorem grow?_of_cycle {e} (h : s.scan? links = some (.cycle e)) :
    s.grow? links = some ⟨[], some (.duplicate e.left.reference e.right.reference)⟩ := by
  rw [grow?]
  split <;> simp_all

theorem grow?_of_stuck (h : s.scan? links = some .stuck) :
    s.grow? links = some ⟨[], links.head?.map fun l =>
      .unreachable l.edge.left.reference l.edge.right.reference⟩ := by
  rw [grow?]
  split <;> simp_all

/-- Bits for all numbers at the start are enough: nothing is looked up or set without a bit. -/
theorem grow?_eq (s : Bitmap) (links : List (Link Nat)) (h : s.Covers links) :
    s.grow? links = some (grow s links) := by
  have hscan := scan?_eq h
  cases hp : scan (TableSet.contains s) links with
  | attach a k rest =>
      obtain ⟨⟨l, hl, hk⟩, hrest⟩ := mem_of_scan_eq_attach hp
      have hk : k < s.bits.size := by
        rcases hk with rfl | rfl
        · exact (h l hl).1
        · exact (h l hl).2
      have hcovers : s.Covers rest := fun m hm => h m (hrest hm)
      have hlt := length_of_scan_eq_attach hp
      rw [hp] at hscan
      rw [grow?_of_attach hscan hk, grow_of_attach hp, grow?_eq _ rest (hcovers.insert k)]
      rfl
  | cycle e =>
      rw [hp] at hscan
      rw [grow?_of_cycle hscan, grow_of_cycle hp]
  | stuck =>
      rw [hp] at hscan
      rw [grow?_of_stuck hscan, grow_of_stuck hp]
termination_by links.length

end Bitmap

/-! ## Numbers in the order in which the edges are given -/

/-- Whether the order keys let the first link stand before the second. -/
def Link.inPlace {κ : Type} (l m : Link κ) : Bool := !m.edge.precedes l.edge

/-- Grows a chain from the left table of the first edge.  The tables are numbered in the order in
which the edges are given, the numbered edges are then put in the order of their keys, and nothing
comes of a number without a bit. -/
def growWithin (edges : List JoinEdge) : Option Growth :=
  let (links, n) := Numbering.links .empty edges
  match links.mergeSort Link.inPlace with
  | [] => some ⟨[], none⟩
  | l :: ls =>
    match (Bitmap.empty n.size).insert? l.left with
    | some s => s.grow? (l :: ls)
    | none => none

theorem map_rename_mergeSort {n : Numbering} {links : List (Link Nat)} {edges : List JoinEdge}
    (h : links.map (Link.rename n.reference) = edges.map JoinEdge.link) :
    (links.mergeSort Link.inPlace).map (Link.rename n.reference) =
      (JoinEdge.inOrder edges).map JoinEdge.link :=
  calc (links.mergeSort Link.inPlace).map (Link.rename n.reference)
    _ = (links.map (Link.rename n.reference)).mergeSort Link.inPlace :=
      List.map_mergeSort fun _ _ _ _ => rfl
    _ = (edges.map JoinEdge.link).mergeSort Link.inPlace := by rw [h]
    _ = (JoinEdge.inOrder edges).map JoinEdge.link :=
      (List.map_mergeSort (f := JoinEdge.link) (s := Link.inPlace) fun _ _ _ _ => rfl).symm

theorem growWithin_eq (edges : List JoinEdge) :
    growWithin edges = some (growByNumber (JoinEdge.inOrder edges)) := by
  have hspec := Numbering.links_spec (n := .empty) edges List.nodup_nil
  rw [growWithin, growByNumber_eq]
  generalize Numbering.links .empty edges = out at hspec
  obtain ⟨links, n⟩ := out
  obtain ⟨-, hn, hlt, hmap⟩ := hspec
  have hsorted := map_rename_mergeSort hmap
  have hsub : links.mergeSort Link.inPlace ⊆ links := (List.mergeSort_perm _ _).subset
  dsimp only
  generalize links.mergeSort Link.inPlace = sorted at hsorted hsub
  cases sorted with
  | nil =>
      rw [List.map_nil, eq_comm, List.map_eq_nil_iff] at hsorted
      rw [hsorted]
      rfl
  | cons l ls =>
      have hlt : ∀ m ∈ l :: ls, m.left < n.size ∧ m.right < n.size := fun m hm => hlt m (hsub hm)
      have hcovers : (Bitmap.empty n.size).Covers (l :: ls) := by
        simpa [Bitmap.Covers, Bitmap.empty] using hlt
      rw [← grow_bitmap_eq hn hlt hsorted]
      simp only [Bitmap.insert?_eq (hcovers l List.mem_cons_self).1]
      exact Bitmap.grow?_eq _ _ (hcovers.insert l.left)

/-! ## Numbers are an optimisation -/

namespace JoinPlan

theorem map_append_ofGrowth (d : Dialect) (anchor : TableRef) (g : Growth) :
    (ofGrowth d anchor g).map (append ⟨anchor, [], []⟩) = ofGrowth d anchor g := by
  rw [ofGrowth]
  split <;> rfl

/-- Resolution gives the same plan or the same failure without numbers, and with numbers it never
comes to one without a bit. -/
theorem resolve_eq_resolveByReference (d : Dialect) (edges : List JoinEdge) :
    resolve d edges = resolveByReference d edges ∧
      growWithin edges = some (growByNumber (JoinEdge.inOrder edges)) := by
  refine ⟨?_, growWithin_eq edges⟩
  rw [resolveByReference]
  cases hi : JoinEdge.inOrder edges with
  | nil => simp [resolve, hi]
  | cons first rest =>
      cases hm : missingOuterJoin? d edges with
      | some u => simp [resolve, hi, hm]
      | none =>
          have hextend := extend_eq (d := d) (grows_inOrder hi) ⟨first.left, [], []⟩
          rw [resolve_eq_ofGrowth hi hm]
          exact (map_append_ofGrowth d first.left _).symm.trans hextend.symm

end JoinPlan

end SqlQuery
