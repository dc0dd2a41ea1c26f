import SqlQuery.Join.Numbering
import SqlQuery.Proofs.Join.Growth

/-!
# Numbers stand for tables

Growth depends on the keys of the tables only through the set of the keys in use, so renaming the
keys does not change it (`grow_rename`).  The numbers that a list of edges is given name its
reference texts one to one, hence growing by number is growing by reference (`growByNumber_eq`).
-/

namespace SqlQuery

/-! ## Renaming the keys -/

section Rename

variable {κ ι : Type} (f : κ → ι)

def Link.rename (l : Link κ) : Link ι := ⟨l.edge, f l.left, f l.right⟩

def Pass.rename : Pass κ → Pass ι
  | .attach a k rest => .attach a (f k) (rest.map (Link.rename f))
  | .cycle e => .cycle e
  | .stuck => .stuck

theorem Pass.rename_skip (l : Link κ) (p : Pass κ) :
    (p.skip l).rename f = (p.rename f).skip (l.rename f) := by
  cases p <;> rfl

variable {f}

theorem scan_rename {used : κ → Bool} {used' : ι → Bool} {links : List (Link κ)}
    (h : ∀ l ∈ links, used' (f l.left) = used l.left ∧ used' (f l.right) = used l.right) :
    scan used' (links.map (Link.rename f)) = (scan used links).rename f := by
  induction links with
  | nil => rfl
  | cons l ls ih =>
      obtain ⟨hl, hr⟩ := h l (by simp)
      have ih := ih fun m hm => h m (List.mem_cons_of_mem _ hm)
      simp only [List.map_cons, scan, Link.rename, hl, hr]
      cases used l.left <;> cases used l.right
      · rw [Pass.rename_skip, ← ih]; rfl
      · rfl
      · rfl
      · rfl

/-- A pass attaches a key of one of the links, and only links that it was given remain. -/
theorem mem_of_scan_eq_attach {used : κ → Bool} {links : List (Link κ)} {a k rest}
    (h : scan used links = .attach a k rest) :
    (∃ l ∈ links, k = l.left ∨ k = l.right) ∧ rest ⊆ links := by
  have hs := scans_scan used links
  rw [h] at hs
  cases hs with
  | attachRight _ _ _ => exact ⟨⟨_, by simp, Or.inr rfl⟩, by simp⟩
  | attachLeft _ _ _ => exact ⟨⟨_, by simp, Or.inl rfl⟩, by simp⟩

section Findings

variable {σ : Type} [TableSet σ κ] {s : σ} {links : List (Link κ)}

theorem grow_of_attach {a k rest} (h : scan (TableSet.contains s) links = .attach a k rest) :
    grow s links = (grow (TableSet.insert s k) rest).after a := by
  rw [grow]
  split <;> simp_all

theorem grow_of_cycle {e} (h : scan (TableSet.contains s) links = .cycle e) :
    grow s links = ⟨[], some (.duplicate e.left.reference e.right.reference)⟩ := by
  rw [grow]
  split <;> simp_all

theorem grow_of_stuck (h : scan (TableSet.contains s) links = .stuck) :
    grow s links = ⟨[], links.head?.map fun l =>
      .unreachable l.edge.left.reference l.edge.right.reference⟩ := by
  rw [grow]
  split <;> simp_all

end Findings

/-- Growth stays the same when the keys are renamed and the new set of keys in use stands for the
old one on the keys that occur. -/
theorem grow_rename {σ τ : Type} [TableSet σ κ] [TableSet τ ι] {valid : κ → Prop}
    {stands : τ → σ → Prop}
    (hcontains : ∀ {t s k}, stands t s → valid k →
      TableSet.contains t (f k) = TableSet.contains s k)
    (hinsert : ∀ {t s k}, stands t s → valid k →
      stands (TableSet.insert t (f k)) (TableSet.insert s k))
    (t : τ) (s : σ) (links : List (Link κ)) (hst : stands t s)
    (hlinks : ∀ l ∈ links, valid l.left ∧ valid l.right) :
    grow t (links.map (Link.rename f)) = grow s links := by
  have hscan : scan (TableSet.contains t) (links.map (Link.rename f)) =
      (scan (TableSet.contains s) links).rename f :=
    scan_rename fun l hl => ⟨hcontains hst (hlinks l hl).1, hcontains hst (hlinks l hl).2⟩
  cases h : scan (TableSet.contains s) links with
  | attach a k rest =>
      rw [h] at hscan
      obtain ⟨⟨l, hl, hk⟩, hrest⟩ := mem_of_scan_eq_attach h
      have hlt := length_of_scan_eq_attach h
      have hk : valid k := by
        rcases hk with rfl | rfl
        · exact (hlinks l hl).1
        · exact (hlinks l hl).2
      rw [grow_of_attach hscan, grow_of_attach h,
        grow_rename hcontains hinsert _ _ rest (hinsert hst hk) fun m hm => hlinks m (hrest hm)]
  | cycle e =>
      rw [h] at hscan
      rw [grow_of_cycle hscan, grow_of_cycle h]
  | stuck =>
      rw [h] at hscan
      rw [grow_of_stuck hscan, grow_of_stuck h, List.head?_map, Option.map_map]
      rfl
termination_by links.length

end Rename

/-! ## The numbers of reference texts -/

namespace Numbering

variable {n n' : Numbering}

def reference (n : Numbering) (i : Nat) : Text := n.references.getD i []

def Extends (n n' : Numbering) : Prop := n.references <+: n'.references

theorem Extends.reference_eq {i : Nat} (h : n.Extends n') (hi : i < n.size) :
    n'.reference i = n.reference i := by
  obtain ⟨more, hmore⟩ := h
  simp only [reference, ← hmore, List.getD_eq_getElem?_getD]
  rw [List.getElem?_append_left hi]

theorem Extends.size_le (h : n.Extends n') : n.size ≤ n'.size := h.length_le

theorem Extends.trans {n'' : Numbering} (h : n.Extends n') (h' : n'.Extends n'') :
    n.Extends n'' := List.IsPrefix.trans h h'

theorem reference_inj (h : n.references.Nodup) {i j : Nat} (hi : i < n.size) (hj : j < n.size) :
    n.reference i = n.reference j ↔ i = j := by
  have heq : ∀ {k}, k < n.size → n.references[k]? = some (n.reference k) := by
    intro k hk
    rw [reference, List.getD_eq_getElem?_getD, List.getElem?_eq_getElem hk, Option.getD_some]
  rw [← List.getElem?_inj hi h, heq hi, heq hj, Option.some.injEq]

/-- What a numbering gives to a reference text is its number from then on. -/
theorem number_spec (h : n.references.Nodup) (r : Text) :
    n.Extends (n.number r).2 ∧ (n.number r).2.references.Nodup ∧
      (n.number r).1 < (n.number r).2.size ∧
      (n.number r).2.reference (n.number r).1 = r := by
  cases hi : n.references.idxOf? r with
  | some i =>
      simp only [number, hi]
      obtain ⟨hlt, hr, _⟩ := List.idxOf?_eq_some_iff.mp hi
      refine ⟨List.prefix_refl _, h, hlt, ?_⟩
      simpa [reference, hlt] using hr
  | none =>
      simp only [number, hi]
      have hr := List.idxOf?_eq_none_iff.mp hi
      refine ⟨List.prefix_append _ _, ?_, by simp [size], by simp [reference, size]⟩
      exact List.nodup_append.mpr ⟨h, by simp, by rintro a ha b hb rfl; simp_all⟩

/-- The links of a list of edges are its edges with numbers for their reference texts. -/
theorem links_spec (edges : List JoinEdge) {n : Numbering} (h : n.references.Nodup) :
    n.Extends (n.links edges).2 ∧ (n.links edges).2.references.Nodup ∧
      (∀ l ∈ (n.links edges).1,
        l.left < (n.links edges).2.size ∧ l.right < (n.links edges).2.size) ∧
      (n.links edges).1.map (Link.rename (n.links edges).2.reference) =
        edges.map JoinEdge.link := by
  induction edges generalizing n with
  | nil => exact ⟨List.prefix_refl _, h, by simp [links], rfl⟩
  | cons e es ih =>
      obtain ⟨hx₁, hn₁, hl, hrl⟩ := number_spec h e.left.reference
      obtain ⟨hx₂, hn₂, hr, hrr⟩ := number_spec hn₁ e.right.reference
      obtain ⟨hx₃, hn₃, hlt, hmap⟩ := ih hn₂
      simp only [links]
      have hl₂ := Nat.lt_of_lt_of_le hl hx₂.size_le
      refine ⟨hx₁.trans (hx₂.trans hx₃), hn₃, ?_, ?_⟩
      · intro l hm
        rcases List.mem_cons.mp hm with rfl | hm
        · exact ⟨Nat.lt_of_lt_of_le hl₂ hx₃.size_le, Nat.lt_of_lt_of_le hr hx₃.size_le⟩
        · exact hlt l hm
      · simp only [List.map_cons, hmap, Link.rename, JoinEdge.link]
        rw [hx₃.reference_eq hl₂, hx₂.reference_eq hl, hrl, hx₃.reference_eq hr, hrr]

end Numbering

/-! ## Bits stand for reference texts -/

/-- A set of reference texts holds those whose numbers are in the bitmap. -/
def ReferenceSet.Holds (n : Numbering) (t : ReferenceSet) (s : Bitmap) : Prop :=
  s.bits.size = n.size ∧
    ∀ i < n.size, TableSet.contains t (n.reference i) = TableSet.contains s i

theorem ReferenceSet.Holds.empty (n : Numbering) :
    ReferenceSet.Holds n ⟨[]⟩ (Bitmap.empty n.size) := by
  constructor
  · simp [Bitmap.empty]
  · intro i hi
    simp [TableSet.contains, Bitmap.empty, hi]

theorem ReferenceSet.Holds.insert {n : Numbering} (hn : n.references.Nodup) {t : ReferenceSet}
    {s : Bitmap} {k : Nat} (h : ReferenceSet.Holds n t s) (hk : k < n.size) :
    ReferenceSet.Holds n (TableSet.insert t (n.reference k)) (TableSet.insert s k) := by
  obtain ⟨hsize, hmem⟩ := h
  constructor
  · simpa [TableSet.insert] using hsize
  · intro i hi
    have hmem := hmem i hi
    have hinj := Numbering.reference_inj hn hi hk
    have hk' : k < s.bits.size := by omega
    by_cases hik : i = k
    · subst hik
      simp [TableSet.contains, TableSet.insert, hk']
    · have hne : n.reference i ≠ n.reference k := fun heq => hik (hinj.mp heq)
      simpa [TableSet.contains, TableSet.insert, hne, Ne.symm hik] using hmem

/-- Growing by numbers is growing by the reference texts that they stand for. -/
theorem grow_bitmap_eq {n : Numbering} (hn : n.references.Nodup) {l : Link Nat}
    {ls : List (Link Nat)} (hlt : ∀ m ∈ l :: ls, m.left < n.size ∧ m.right < n.size)
    {edges : List JoinEdge}
    (hmap : (l :: ls).map (Link.rename n.reference) = edges.map JoinEdge.link) :
    grow (TableSet.insert (Bitmap.empty n.size) l.left) (l :: ls) = growByReference edges := by
  cases edges with
  | nil => cases hmap
  | cons e es =>
      have hl : n.reference l.left = e.left.reference := by
        simp only [List.map_cons, List.cons.injEq] at hmap
        exact congrArg Link.left hmap.1
      rw [growByReference, ← hmap]
      have hstart := (ReferenceSet.Holds.empty n).insert hn (hlt l List.mem_cons_self).1
      simp only [hl] at hstart
      exact (grow_rename (fun h hk => h.2 _ hk) (fun h hk => h.insert hn hk) _ _ _
        hstart hlt).symm

theorem growByNumber_eq (edges : List JoinEdge) : growByNumber edges = growByReference edges := by
  have hspec := Numbering.links_spec (n := .empty) edges List.nodup_nil
  rw [growByNumber]
  generalize Numbering.links .empty edges = out at hspec
  obtain ⟨links, n⟩ := out
  obtain ⟨-, hn, hlt, hmap⟩ := hspec
  cases links with
  | nil =>
      rw [List.map_nil, eq_comm, List.map_eq_nil_iff] at hmap
      rw [hmap]
      rfl
  | cons l ls => exact grow_bitmap_eq hn hlt hmap

end SqlQuery
