import SqlQuery.Join.Chain

/-!
# Tables by number

The distinct tables of the edges are numbered once, in the order in which they are first met, so
that growing the chain compares numbers and keeps one bit per table.
-/

namespace SqlQuery

/-- A set of numbered tables, one bit for each. -/
structure Bitmap where
  bits : Array Bool

namespace Bitmap

/-- The set without any of the first `n` numbers. -/
def empty (n : Nat) : Bitmap := ⟨Array.replicate n false⟩

instance : TableSet Bitmap Nat where
  contains s i := s.bits.getD i false
  insert s i := ⟨s.bits.setIfInBounds i true⟩

end Bitmap

/-- The numbers of reference texts: the place of each in a list without repetition. -/
structure Numbering where
  references : List Text
  deriving DecidableEq

namespace Numbering

def empty : Numbering := ⟨[]⟩

def size (n : Numbering) : Nat := n.references.length

/-- The number of a reference text, a new one if it has none yet. -/
def number (n : Numbering) (reference : Text) : Nat × Numbering :=
  match n.references.idxOf? reference with
  | some i => (i, n)
  | none => (n.size, ⟨n.references ++ [reference]⟩)

/-- Numbers the tables of the edges, the left one of each edge first. -/
def links (n : Numbering) : List JoinEdge → List (Link Nat) × Numbering
  | [] => ([], n)
  | e :: es =>
    let (l, n) := n.number e.left.reference
    let (r, n) := n.number e.right.reference
    let (ls, n) := links n es
    (⟨e, l, r⟩ :: ls, n)

end Numbering

/-- Grows a chain from the left table of the first edge, tables named by their numbers. -/
def growByNumber (edges : List JoinEdge) : Growth :=
  match Numbering.links .empty edges with
  | ([], _) => ⟨[], none⟩
  | (l :: ls, n) => grow (TableSet.insert (Bitmap.empty n.size) l.left) (l :: ls)

end SqlQuery
