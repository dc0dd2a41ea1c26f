import Mathlib.Data.List.Infix
import SqlQuery.Text.Basic

/-!
# Searching a text

The search finds exactly the contiguous parts of a text (`occursIn_iff`), and without regard to case
the parts that are the needle in capitals (`containsAnyCase_iff`).  A separator with no end in
common with the needle keeps what stands on its sides apart: the needle occurs in the whole exactly
if it occurs on one of the sides (`infix_separated_iff`).
-/

namespace SqlQuery.Text

variable {needle separator s t u : Text}

theorem occursIn_iff : occursIn needle t = true ↔ needle <:+: t := by
  induction t with
  | nil => simp [occursIn]
  | cons b t ih =>
      rw [occursIn, Bool.or_eq_true, ih, List.isPrefixOf_iff_prefix, List.infix_cons_iff]

/-! ## Capitals -/

theorem upper_append (s t : Text) : upper (s ++ t) = upper s ++ upper t := List.map_append

theorem upperByte_upperByte (b : UInt8) : upperByte (upperByte b) = upperByte b := by
  simp only [upperByte]
  grind

theorem upperByte_lowerByte (b : UInt8) : upperByte (lowerByte b) = upperByte b := by
  simp only [upperByte, lowerByte]
  grind

/-- The bytes are the same letter, or the same byte. -/
def SameLetter (b c : UInt8) : Prop := c = b ∨ c = upperByte b ∨ c = lowerByte b

instance (b c : UInt8) : Decidable (SameLetter b c) :=
  inferInstanceAs (Decidable (c = b ∨ _))

theorem SameLetter.upperByte_eq {b c : UInt8} (h : SameLetter b c) :
    upperByte b = upperByte c := by
  rcases h with rfl | rfl | rfl
  · rfl
  · rw [upperByte_upperByte]
  · rw [upperByte_lowerByte]

theorem upper_eq_of_sameLetter (h : List.Forall₂ SameLetter s t) : upper s = upper t := by
  induction h with
  | nil => rfl
  | cons hb _ ih => exact congrArg₂ List.cons hb.upperByte_eq ih

/-- The text at the given offset is the needle, up to the case of letters. -/
def AnyCaseAt (needle t : Text) (i : Nat) : Prop :=
  upper ((t.drop i).take needle.length) = upper needle

theorem infix_iff_exists_take : s <:+: t ↔ ∃ i, (t.drop i).take s.length = s := by
  constructor
  · intro h
    obtain ⟨e, hprefix, hsuffix⟩ := List.infix_iff_prefix_suffix.mp h
    refine ⟨t.length - e.length, ?_⟩
    rw [← List.suffix_iff_eq_drop.mp hsuffix]
    exact (List.prefix_iff_eq_take.mp hprefix).symm
  · rintro ⟨i, hi⟩
    rw [← hi]
    exact (List.take_prefix _ _).isInfix.trans (List.drop_suffix i t).isInfix

theorem containsAnyCase_iff : t.containsAnyCase needle = true ↔ ∃ i, AnyCaseAt needle t i := by
  have hlength : (upper needle).length = needle.length := List.length_map _
  rw [containsAnyCase, occursIn_iff, infix_iff_exists_take, hlength]
  simp only [AnyCaseAt, upper, List.map_take, List.map_drop]

/-! ## Separators -/

/-- An occurrence of `u` could begin within `t`: some end of `t` and `u` agree as far as both go. -/
def RunsInto (t u : Text) : Prop := ∃ e ∈ t.tails, e ≠ [] ∧ (e <+: u ∨ u <+: e)

instance (t u : Text) : Decidable (RunsInto t u) :=
  inferInstanceAs (Decidable (∃ e ∈ t.tails, _))

theorem infix_of_not_runsInto (h : ¬separator.RunsInto needle)
    (hocc : needle <:+: separator ++ t) : needle <:+: t := by
  rcases List.infix_append_iff.mp hocc with hleft | hright | ⟨a, b, rfl, ha, hb⟩
  · obtain ⟨e, hprefix, hsuffix⟩ := List.infix_iff_prefix_suffix.mp hleft
    by_cases he : e = []
    · rw [he] at hprefix
      rw [List.prefix_nil.mp hprefix]
      exact List.nil_infix
    · exact absurd ⟨e, (List.mem_tails _ _).mpr hsuffix, he, Or.inr hprefix⟩ h
  · exact hright
  · by_cases hne : a = []
    · rw [hne, List.nil_append]
      exact hb.isInfix
    · exact absurd ⟨a, (List.mem_tails _ _).mpr ha, hne, Or.inl (List.prefix_append a b)⟩ h

theorem infix_separated_iff (h : ¬needle.RunsInto separator) (h' : ¬separator.RunsInto needle) :
    needle <:+: s ++ separator ++ t ↔ needle <:+: s ∨ needle <:+: t := by
  constructor
  · intro hocc
    rw [List.append_assoc] at hocc
    rcases List.infix_append_iff.mp hocc with hleft | hright | ⟨a, b, rfl, ha, hb⟩
    · exact Or.inl hleft
    · exact Or.inr (infix_of_not_runsInto h' hright)
    · -- The needle begins on the left side, and its end `b` would meet the separator.
      by_cases hne : b = []
      · rw [hne, List.append_nil]
        exact Or.inl ha.isInfix
      · have hmeet := List.prefix_or_prefix_of_prefix hb (List.prefix_append separator t)
        exact absurd ⟨b, (List.mem_tails _ _).mpr (List.suffix_append a b), hne, hmeet⟩ h
  · rintro (hleft | hright)
    · exact hleft.trans ((List.prefix_append s separator).trans (List.prefix_append _ t)).isInfix
    · exact hright.trans (List.suffix_append _ t).isInfix

theorem containsAnyCase_separated (hupper : upper separator = separator)
    (h : ¬(upper needle).RunsInto separator) (h' : ¬separator.RunsInto (upper needle)) :
    (s ++ separator ++ t).containsAnyCase needle =
      (s.containsAnyCase needle || t.containsAnyCase needle) := by
  rw [Bool.eq_iff_iff, Bool.or_eq_true]
  simp only [containsAnyCase, occursIn_iff, upper_append, hupper]
  exact infix_separated_iff h h'

end SqlQuery.Text
