import SqlQuery.Text.Basic

/-!
# Lines of a text

Texts without line feeds are the lines of the text that they are written to (`lines_ofLines`).  The
lines of a text are its parts between line feeds, apart from an empty part after the last one
(`exists_splitOn_eq`).
-/

namespace SqlQuery.Text

/-- The text with each part between line feeds replaced. -/
def mapLines (g : Text → Text) (t : Text) : Text :=
  [lineFeed].intercalate ((t.splitOn lineFeed).map g)

theorem lines_append_lineFeed {l : Text} (h : lineFeed ∉ l) (t : Text) :
    lines (l ++ lineFeed :: t) = l :: lines t := by
  induction l with
  | nil => simp [lines]
  | cons b l ih =>
      obtain ⟨hb, hl⟩ := not_or.mp (mt List.mem_cons.mpr h)
      simp [lines, ih hl, Ne.symm hb]

theorem lines_ofLines {ls : List Text} (h : ∀ l ∈ ls, lineFeed ∉ l) : lines (ofLines ls) = ls := by
  induction ls with
  | nil => rfl
  | cons l ls ih =>
      obtain ⟨hl, hls⟩ := List.forall_mem_cons.mp h
      simp only [ofLines, List.flatMap_cons, List.append_assoc, List.singleton_append] at ih ⊢
      rw [lines_append_lineFeed hl, ih hls]

theorem lines_replicate_append (n : Nat) (t : Text) :
    lines (List.replicate n lineFeed ++ t) = List.replicate n [] ++ lines t := by
  induction n with
  | zero => rfl
  | succ n ih => simp [List.replicate_succ, lines, ih]

theorem exists_splitOn_eq (t : Text) :
    ∃ rest, t.splitOn lineFeed = lines t ++ rest ∧ (rest = [] ∨ rest = [[]]) := by
  induction t with
  | nil => exact ⟨[[]], rfl, Or.inr rfl⟩
  | cons b t ih =>
      obtain ⟨rest, heq, hrest⟩ := ih
      rw [List.splitOn_cons_eq_if_modifyHead, lines, heq]
      split
      · exact ⟨rest, rfl, hrest⟩
      · cases hl : lines t with
        | cons l ls => exact ⟨rest, rfl, hrest⟩
        | nil =>
            rcases hrest with rfl | rfl
            · simp [hl] at heq
            · exact ⟨[], rfl, Or.inl rfl⟩

/-- What follows a line feed adds its lines to the parts before it. -/
theorem lines_append_cons (s t : Text) :
    lines (s ++ lineFeed :: t) = s.splitOn lineFeed ++ lines t := by
  induction s with
  | nil => simp [lines]
  | cons b s ih =>
      rw [List.cons_append, lines, List.splitOn_cons_eq_if_modifyHead, ih]
      split
      · rfl
      · obtain ⟨l, ls, hl⟩ := List.exists_cons_of_ne_nil (List.splitOn_ne_nil lineFeed s)
        rw [hl]
        rfl

theorem not_mem_of_mem_splitOn {b : UInt8} {l t : Text} (h : l ∈ t.splitOn b) : b ∉ l := by
  induction t generalizing l with
  | nil =>
      rw [List.splitOn_nil] at h
      simp [List.mem_singleton.mp h]
  | cons c t ih =>
      rw [List.splitOn_cons_eq_if_modifyHead] at h
      split at h
      · rcases List.mem_cons.mp h with rfl | h
        · simp
        · exact ih h
      · rename_i hc
        cases hs : t.splitOn b with
        | nil => simp [hs] at h
        | cons l' ls =>
            rw [hs] at h ih
            rcases List.mem_cons.mp h with rfl | h
            · simpa [Ne.symm (by simpa using hc)] using ih List.mem_cons_self
            · exact ih (List.mem_cons_of_mem _ h)

theorem not_mem_of_mem_lines {l t : Text} (h : l ∈ lines t) : lineFeed ∉ l := by
  obtain ⟨rest, heq, -⟩ := exists_splitOn_eq t
  exact not_mem_of_mem_splitOn (heq ▸ List.mem_append_left rest h)

theorem subset_of_mem_splitOn {b : UInt8} {l t : Text} (h : l ∈ t.splitOn b) : l ⊆ t := by
  induction t generalizing l with
  | nil =>
      rw [List.splitOn_nil] at h
      simp [List.mem_singleton.mp h]
  | cons c t ih =>
      rw [List.splitOn_cons_eq_if_modifyHead] at h
      split at h
      · rcases List.mem_cons.mp h with rfl | h
        · exact List.nil_subset _
        · exact List.subset_cons_of_subset _ (ih h)
      · cases hs : t.splitOn b with
        | nil => simp [hs] at h
        | cons l' ls =>
            rw [hs] at h ih
            rcases List.mem_cons.mp h with rfl | h
            · exact List.cons_subset_cons c (ih List.mem_cons_self)
            · exact List.subset_cons_of_subset _ (ih (List.mem_cons_of_mem _ h))

theorem subset_of_mem_lines {l t : Text} (h : l ∈ lines t) : l ⊆ t := by
  obtain ⟨rest, heq, -⟩ := exists_splitOn_eq t
  exact subset_of_mem_splitOn (heq ▸ List.mem_append_left rest h)

theorem length_splitOn (b : UInt8) (t : Text) : (t.splitOn b).length = t.count b + 1 := by
  induction t with
  | nil => simp
  | cons c t ih =>
      rw [List.splitOn_cons_eq_if_modifyHead, List.count_cons]
      split <;> simp_all

theorem splitOn_mapLines {g : Text → Text} (hg : ∀ l, lineFeed ∉ l → lineFeed ∉ g l) (t : Text) :
    (mapLines g t).splitOn lineFeed = (t.splitOn lineFeed).map g := by
  refine List.splitOn_intercalate lineFeed (fun l hl => ?_) ?_
  · obtain ⟨l', hl', rfl⟩ := List.mem_map.mp hl
    exact hg l' (not_mem_of_mem_splitOn hl')
  · simp [List.splitOn_ne_nil]

/-- The lines of the replaced text are the replaced lines, up to an empty line at the end. -/
theorem exists_lines_mapLines {g : Text → Text} (hg : ∀ l, lineFeed ∉ l → lineFeed ∉ g l)
    (hnil : g [] = []) (t : Text) : ∃ rest rest', (rest = [] ∨ rest = [[]]) ∧
      (rest' = [] ∨ rest' = [[]]) ∧ lines (mapLines g t) ++ rest = (lines t).map g ++ rest' := by
  obtain ⟨rest, heq, hrest⟩ := exists_splitOn_eq (mapLines g t)
  obtain ⟨rest', heq', hrest'⟩ := exists_splitOn_eq t
  refine ⟨rest, rest'.map g, hrest, ?_, ?_⟩
  · rcases hrest' with rfl | rfl
    · exact Or.inl rfl
    · exact Or.inr (by simp [hnil])
  · rw [← heq, splitOn_mapLines hg, heq', List.map_append]

end SqlQuery.Text
