import Mathlib.Data.List.DropRight
import Mathlib.Data.List.TakeWhile
import SqlQuery.Text.Basic

/-!
# Blanks at the ends of a text

A text that is not blank begins and ends with a byte that is not blank once it is trimmed
(`framed_trim`); such a text is left alone by trimming (`Framed.trim_eq`).
-/

namespace SqlQuery.Text

theorem dropWhile_isBlank {t : Text} {b : UInt8} (hb : b ∈ t.head?) (hblank : isBlank b = false) :
    t.dropWhile isBlank = t := by
  cases t with
  | nil => rfl
  | cons c t => simp_all

theorem trimLeft_cons {b : UInt8} (h : isBlank b = false) (t : Text) :
    trimLeft (b :: t) = b :: t :=
  dropWhile_isBlank rfl h

/-- A text whose first and last bytes are not blank. -/
structure Framed (t : Text) : Prop where
  first : ∃ b ∈ t.head?, isBlank b = false
  last : ∃ b ∈ t.getLast?, isBlank b = false

namespace Framed

variable {s t : Text}

theorem append_append (hs : s.Framed) (u : Text) (ht : t.Framed) : (s ++ u ++ t).Framed := by
  obtain ⟨b, hb, hblank⟩ := hs.first
  obtain ⟨c, hc, hblank'⟩ := ht.last
  exact ⟨⟨b, by simp_all, hblank⟩, ⟨c, by simp_all, hblank'⟩⟩

theorem trim_eq (ht : t.Framed) : trim t = t := by
  obtain ⟨b, hb, hblank⟩ := ht.first
  obtain ⟨c, hc, hblank'⟩ := ht.last
  have hright : t.reverse.dropWhile isBlank = t.reverse :=
    dropWhile_isBlank (by simpa using hc) hblank'
  rw [trim, trimRight, trimLeft, dropWhile_isBlank hb hblank, hright, List.reverse_reverse]

theorem allBlank_eq_false (ht : t.Framed) : allBlank t = false := by
  obtain ⟨b, hb, hblank⟩ := ht.first
  exact List.all_eq_false.mpr ⟨b, List.mem_of_mem_head? hb, by simp [hblank]⟩

end Framed

/-! ## Trimming -/

variable {t : Text}

theorem exists_head_dropWhile (h : allBlank t = false) :
    ∃ b ∈ (t.dropWhile isBlank).head?, isBlank b = false := by
  induction t with
  | nil => cases h
  | cons b t ih =>
      cases hb : isBlank b with
      | true =>
          rw [List.dropWhile_cons_of_pos hb]
          exact ih (by simpa [allBlank, hb] using h)
      | false =>
          rw [dropWhile_isBlank rfl hb]
          exact ⟨b, rfl, hb⟩

theorem exists_head_reverse_trimLeft (h : allBlank t = false) :
    ∃ b ∈ ((trimLeft t).reverse.dropWhile isBlank).head?, isBlank b = false := by
  obtain ⟨b, hb, hblank⟩ := exists_head_dropWhile h
  refine exists_head_dropWhile ?_
  rw [allBlank, List.all_reverse, List.all_eq_false]
  exact ⟨b, List.mem_of_mem_head? hb, by simp [hblank]⟩

/-- What is dropped at the end leaves the first byte alone. -/
theorem head?_trim (h : allBlank t = false) : (trim t).head? = (trimLeft t).head? := by
  obtain ⟨b, hb, -⟩ := exists_head_reverse_trimLeft h
  have hne := List.ne_nil_of_mem (List.mem_of_mem_head? hb)
  rw [trim, trimRight, List.head?_reverse, List.getLast?_eq_some_getLast hne,
    (List.dropWhile_suffix _).getLast hne, ← List.getLast?_eq_some_getLast, List.getLast?_reverse]

theorem framed_trim (h : allBlank t = false) : (trim t).Framed := by
  refine ⟨?_, ?_⟩
  · rw [head?_trim h]
    exact exists_head_dropWhile h
  · rw [trim, trimRight, List.getLast?_reverse]
    exact exists_head_reverse_trimLeft h

theorem trim_of_allBlank (h : allBlank t = true) : trim t = [] := by
  have hleft : trimLeft t = [] := List.dropWhile_eq_nil_iff.mpr (List.all_eq_true.mp h)
  rw [trim, hleft]
  rfl

theorem trim_eq_nil_iff : trim t = [] ↔ allBlank t = true := by
  refine ⟨fun h => ?_, trim_of_allBlank⟩
  rw [← Bool.not_eq_false]
  intro hblank
  obtain ⟨b, hb, -⟩ := (framed_trim hblank).first
  rw [h] at hb
  cases hb

theorem trimLeft_append_of_allBlank {s : Text} (h : allBlank s = true) (t : Text) :
    trimLeft (s ++ t) = trimLeft t :=
  List.dropWhile_append_of_pos (List.all_eq_true.mp h)

theorem exists_allBlank_append (t : Text) : ∃ s, allBlank s = true ∧ s ++ trimLeft t = t :=
  ⟨t.takeWhile isBlank, List.all_eq_true.mpr fun _ => List.mem_takeWhile_imp,
    List.takeWhile_append_dropWhile⟩

theorem trim_trimLeft (t : Text) : trim (trimLeft t) = trim t := by
  rw [trim, trim, trimLeft, trimLeft, List.dropWhile_idempotent]

/-- Empty, or without a blank at either end. -/
def Trimmed (t : Text) : Prop := t ≠ [] → t.Framed

theorem trimmed_trim (t : Text) : (trim t).Trimmed := by
  cases h : allBlank t with
  | true => exact fun hne => absurd (trim_of_allBlank h) hne
  | false => exact fun _ => framed_trim h

end SqlQuery.Text
