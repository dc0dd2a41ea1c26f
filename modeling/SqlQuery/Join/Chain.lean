import SqlQuery.Join.Order

/-!
# Growing a join chain

A chain of tables starts at an anchor and grows by one edge at a time.  Each pass looks through the
remaining edges in order and takes the first that has exactly one table in the chain; the next pass
starts over from the first remaining edge.  An edge between two tables of the chain that is met on
the way is a cycle, and edges that no pass reaches are not connected to the anchor.

Growth asks of the tables only whether they are in the chain, so it is written for any way to name
tables by keys and to keep the set of keys in use.
-/

namespace SqlQuery

/-! ## Sets of tables in use -/

/-- A way to keep the set of the keys in use. -/
class TableSet (σ : Type) (κ : outParam Type) where
  contains : σ → κ → Bool
  insert : σ → κ → σ

/-- A set of tables kept as the list of their reference texts. -/
structure ReferenceSet where
  references : List Text

instance : TableSet ReferenceSet Text where
  contains s t := s.references.contains t
  insert s t := ⟨t :: s.references⟩

/-- An edge with the keys of its two tables. -/
structure Link (κ : Type) where
  edge : JoinEdge
  left : κ
  right : κ

/-- The edge whose tables are named by their reference texts. -/
def JoinEdge.link (e : JoinEdge) : Link Text := ⟨e, e.left.reference, e.right.reference⟩

/-! ## One attachment -/

/-- The side of an edge on which a table stands. -/
inductive Side where
  | left
  | right
  deriving DecidableEq

/-- An edge in the chain, with the side of the table that it adds. -/
structure Attachment where
  edge : JoinEdge
  newSide : Side
  deriving DecidableEq

namespace Attachment

/-- The table that is added to the chain. -/
def table (a : Attachment) : TableRef :=
  match a.newSide with
  | .left => a.edge.left
  | .right => a.edge.right

/-- The type of the join when the added table stands on the right. -/
def type (a : Attachment) : JoinType :=
  match a.newSide with
  | .left => a.edge.type.flip
  | .right => a.edge.type

end Attachment

/-! ## One pass -/

/-- What a pass over the remaining edges finds. -/
inductive Pass (κ : Type) where
  /-- An edge adds the table with the given key; the other edges remain. -/
  | attach (found : Attachment) (key : κ) (remaining : List (Link κ))
  /-- The edge joins two tables of the chain. -/
  | cycle (edge : JoinEdge)
  /-- No edge has a table in the chain. -/
  | stuck

/-- The same finding when an edge that is not connected yet stands before the others. -/
def Pass.skip {κ : Type} (l : Link κ) : Pass κ → Pass κ
  | .attach a k ls => .attach a k (l :: ls)
  | p => p

/-- Looks for the first edge with a table in the chain. -/
def scan {κ : Type} (used : κ → Bool) : List (Link κ) → Pass κ
  | [] => .stuck
  | l :: ls =>
    match used l.left, used l.right with
    | true, true => .cycle l.edge
    | true, false => .attach ⟨l.edge, .right⟩ l.right ls
    | false, true => .attach ⟨l.edge, .left⟩ l.left ls
    | false, false => (scan used ls).skip l

theorem length_of_scan_eq_attach {κ : Type} {used : κ → Bool} {links : List (Link κ)}
    {a : Attachment} {k : κ} {rest : List (Link κ)} (h : scan used links = .attach a k rest) :
    links.length = rest.length + 1 := by
  induction links generalizing rest with
  | nil => simp [scan] at h
  | cons l ls ih =>
    rw [scan] at h
    split at h
    · simp at h
    · simp at h; simp [h.2.2]
    · simp at h; simp [h.2.2]
    · cases hs : scan used ls with
      | attach a' k' rest' =>
        simp [hs, Pass.skip] at h
        obtain ⟨rfl, rfl, rfl⟩ := h
        simp [ih hs]
      | cycle e => simp [hs, Pass.skip] at h
      | stuck => simp [hs, Pass.skip] at h

/-! ## The whole growth -/

/-- How far a chain grows: the edges in the order of attachment, and why it stopped short of the
last edge, if it did. -/
structure Growth where
  attached : List Attachment
  failure? : Option PathError
  deriving DecidableEq

/-- The growth with one more attachment before it. -/
def Growth.after (a : Attachment) (g : Growth) : Growth := ⟨a :: g.attached, g.failure?⟩

/-- Grows the chain of the tables in `used` by the given edges. -/
def grow {σ κ : Type} [TableSet σ κ] (used : σ) (links : List (Link κ)) : Growth :=
  match _h : scan (TableSet.contains used) links with
  | .attach a k rest => (grow (TableSet.insert used k) rest).after a
  | .cycle e => ⟨[], some (.duplicate e.left.reference e.right.reference)⟩
  | .stuck => ⟨[], links.head?.map fun l =>
      .unreachable l.edge.left.reference l.edge.right.reference⟩
termination_by links.length
decreasing_by have := length_of_scan_eq_attach _h; omega

/-- Grows a chain from the left table of the first edge, tables named by their reference texts. -/
def growByReference : List JoinEdge → Growth
  | [] => ⟨[], none⟩
  | e :: es => grow (ReferenceSet.mk [e.left.reference]) ((e :: es).map JoinEdge.link)

end SqlQuery
