import Mathlib.Data.List.Induction
import Mathlib.Data.Nat.Digits.Defs
import SqlQuery.Text.Decimal

/-!
# Reading what is written in decimal

The decimal text of a number consists of digits with that number as their value, so reading it gives
the number again (`toUInt64?_ofNat`).  What is read is any run of digits with a value below `2 ^ 64`
(`toUInt64?_eq_some_iff`), which is the decimal text of its value after zeros (`denotes_iff_zeros`).
-/

namespace SqlQuery.Text

theorem toNat_digit {d : Nat} (h : d < 10) : (digit d).toNat = 48 + d := by
  rw [digit, UInt8.toNat_ofNat']
  omega

theorem isDigit_iff {b : UInt8} : isDigit b = true ↔ 48 ≤ b.toNat ∧ b.toNat ≤ 57 := by
  simp only [isDigit, Bool.and_eq_true, decide_eq_true_eq, UInt8.le_iff_toNat_le]
  rfl

theorem isDigit_digit {d : Nat} (h : d < 10) : isDigit (digit d) = true := by
  rw [isDigit_iff, toNat_digit h]
  omega

theorem digit_toNat_sub {b : UInt8} (h : isDigit b = true) : digit (b.toNat - 48) = b := by
  rw [digit, Nat.add_sub_cancel' (isDigit_iff.mp h).1, UInt8.ofNat_toNat]

theorem isBlank_eq_false_of_isDigit {b : UInt8} (h : isDigit b = true) : isBlank b = false := by
  obtain ⟨hbound, -⟩ := isDigit_iff.mp h
  have hspace : b ≠ 32 := by
    rintro rfl
    exact absurd hbound (by decide)
  have hcontrol : ¬ b ≤ 13 := fun hb => by
    have : b.toNat ≤ 13 := UInt8.le_iff_toNat_le.mp hb
    omega
  simp [isBlank, hspace, hcontrol]

theorem digitsValue_append_singleton (t : Text) (b : UInt8) :
    digitsValue (t ++ [b]) = 10 * digitsValue t + (b.toNat - 48) := by
  simp [digitsValue]

theorem digitsValue_append_digit (t : Text) {d : Nat} (h : d < 10) :
    digitsValue (t ++ [digit d]) = 10 * digitsValue t + d := by
  rw [digitsValue_append_singleton, toNat_digit h, Nat.add_sub_cancel_left]

theorem ofNat_ne_nil (n : Nat) : ofNat n ≠ [] := by
  rw [ofNat]
  split <;> simp

theorem all_isDigit_ofNat (n : Nat) : (ofNat n).all isDigit = true := by
  fun_induction ofNat n with
  | case1 n h => simp [isDigit_digit h]
  | case2 n _ ih => simp [ih, isDigit_digit (Nat.mod_lt n (by decide : 10 > 0))]

theorem digitsValue_ofNat (n : Nat) : digitsValue (ofNat n) = n := by
  fun_induction ofNat n with
  | case1 n h => simpa [digitsValue] using digitsValue_append_digit [] h
  | case2 n _ ih =>
      rw [digitsValue_append_digit _ (Nat.mod_lt n (by decide)), ih]
      omega

theorem toUInt64?_ofNat (n : UInt64) : toUInt64? (ofNat n.toNat) = some n := by
  have hne := ofNat_ne_nil n.toNat
  simp [toUInt64?, hne, all_isDigit_ofNat, digitsValue_ofNat, n.toNat_lt_size]

variable {t : Text} {n : Nat}

/-! ## Numerals -/

/-- One or more digits, whose places make up the number. -/
structure Denotes (t : Text) (n : Nat) : Prop where
  ne_nil : t ≠ []
  digits : ∀ b ∈ t, 48 ≤ b ∧ b ≤ 57
  value : Nat.ofDigits 10 (t.reverse.map fun b => b.toNat - 48) = n

theorem digitsValue_eq_ofDigits (t : Text) :
    digitsValue t = Nat.ofDigits 10 (t.reverse.map fun b => b.toNat - 48) := by
  induction t using List.reverseRecOn with
  | nil => rfl
  | append_singleton t b ih =>
      rw [digitsValue_append_singleton, ih, List.reverse_append, List.reverse_singleton,
        List.singleton_append, List.map_cons, Nat.ofDigits_cons, Nat.add_comm]

theorem denotes_iff_digitsValue :
    t.Denotes n ↔ t ≠ [] ∧ t.all isDigit = true ∧ digitsValue t = n := by
  have hdigits : t.all isDigit = true ↔ ∀ b ∈ t, 48 ≤ b ∧ b ≤ 57 := by
    simp [isDigit]
  rw [hdigits, digitsValue_eq_ofDigits]
  constructor
  · rintro ⟨hne, hall, hvalue⟩
    exact ⟨hne, hall, hvalue⟩
  · rintro ⟨hne, hall, hvalue⟩
    exact ⟨hne, hall, hvalue⟩

/-- A numeral is read as its number if that is below `2 ^ 64`, and nothing else is read. -/
theorem toUInt64?_eq_some_iff {n : UInt64} : toUInt64? t = some n ↔ t.Denotes n.toNat := by
  rw [denotes_iff_digitsValue, toUInt64?]
  constructor
  · intro h
    split at h
    · rename_i hdigits
      simp only [Bool.and_eq_true, Bool.not_eq_true', decide_eq_true_eq] at hdigits
      obtain ⟨⟨hne, hall⟩, hlt⟩ := hdigits
      cases h
      exact ⟨by simpa using hne, hall, (UInt64.toNat_ofNat_of_lt' hlt).symm⟩
    · cases h
  · rintro ⟨hne, hall, hvalue⟩
    simp [hne, hall, hvalue, n.toNat_lt_size]

theorem toUInt64?_eq_none_iff : toUInt64? t = none ↔ ∀ n : UInt64, ¬t.Denotes n.toNat := by
  rw [Option.eq_none_iff_forall_ne_some]
  exact forall_congr' fun n => not_congr toUInt64?_eq_some_iff

theorem ofNat_of_lt {d : Nat} (h : d < 10) : ofNat d = [digit d] := by
  rw [ofNat, if_pos h]

theorem ofNat_append_digit {m d : Nat} (hm : m ≠ 0) (hd : d < 10) :
    ofNat (10 * m + d) = ofNat m ++ [digit d] := by
  have hdiv : (10 * m + d) / 10 = m := by omega
  have hmod : (10 * m + d) % 10 = d := by omega
  rw [ofNat, if_neg (by omega), hdiv, hmod]

/-- Digits are zeros before the decimal text of their value. -/
theorem exists_zeros_append (hne : t ≠ []) (h : t.all isDigit = true) :
    ∃ zeros, t = List.replicate zeros 48 ++ ofNat (digitsValue t) := by
  induction t using List.reverseRecOn with
  | nil => exact absurd rfl hne
  | append_singleton t b ih =>
      obtain ⟨ht, hb⟩ : t.all isDigit = true ∧ isDigit b = true := by simpa using h
      have hlt : b.toNat - 48 < 10 := by
        obtain ⟨-, hupper⟩ := isDigit_iff.mp hb
        omega
      rw [digitsValue_append_singleton]
      by_cases hnil : t = []
      · refine ⟨0, ?_⟩
        simp [hnil, digitsValue, ofNat_of_lt hlt, digit_toNat_sub hb]
      · obtain ⟨zeros, ht'⟩ := ih hnil ht
        by_cases hzero : digitsValue t = 0
        · -- The digits before are zeros, the last one of which the decimal text of zero.
          refine ⟨zeros + 1, ?_⟩
          rw [hzero, ofNat_of_lt (by decide : 0 < 10)] at ht'
          rw [hzero, Nat.mul_zero, Nat.zero_add, ofNat_of_lt hlt, digit_toNat_sub hb,
            List.replicate_succ', ht']
          rfl
        · refine ⟨zeros, ?_⟩
          rw [ofNat_append_digit hzero hlt, digit_toNat_sub hb, ← List.append_assoc, ← ht']

theorem digitsValue_zeros_append (zeros : Nat) (t : Text) :
    digitsValue (List.replicate zeros 48 ++ t) = digitsValue t := by
  induction zeros with
  | zero => rfl
  | succ zeros ih =>
      rw [List.replicate_succ, List.cons_append, ← ih]
      rfl

/-- The texts that denote a number are its decimal text and those with zeros before it. -/
theorem denotes_iff_zeros : t.Denotes n ↔ ∃ zeros, t = List.replicate zeros 48 ++ ofNat n := by
  rw [denotes_iff_digitsValue]
  constructor
  · rintro ⟨hne, hall, rfl⟩
    exact exists_zeros_append hne hall
  · rintro ⟨zeros, rfl⟩
    refine ⟨by simp [ofNat_ne_nil], ?_, ?_⟩
    · rw [List.all_append, all_isDigit_ofNat, Bool.and_true, List.all_replicate]
      simp [isDigit]
    · rw [digitsValue_zeros_append, digitsValue_ofNat]

end SqlQuery.Text
