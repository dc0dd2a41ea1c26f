import SqlQuery.CommandLine.Run
import SqlQuery.Proofs.Text.Blank
import SqlQuery.Proofs.Text.Decimal

/-!
# Values of unsigned options

The value of an unsigned option is a numeral after blanks and an optional sign, and anything may
follow it (`unsignedValue_eq_ok_iff`).  A minus is refused in the first place only, so a minus
behind blanks is overlooked and wraps the number.  Apart from the texts that hide a minus in this
way, no negative number becomes a value (`OptionTable.refusesNegatives_iff`).
-/

namespace SqlQuery

namespace Text

variable {t sign rest : Text} {n m : Nat}

def plus : UInt8 := 43

def minus : UInt8 := 45

/-- The text is a numeral of the given sign after blanks; no digit follows it. -/
def Numeral (t sign : Text) (n : Nat) : Prop :=
  ∃ blanks digits rest, t = blanks ++ (sign ++ (digits ++ rest)) ∧ allBlank blanks = true ∧
    digits.Denotes n ∧ ∀ b ∈ rest.head?, isDigit b = false

/-- The text is a number below `2 ^ 64` with a minus that stands behind blanks. -/
def HidesMinus (t : Text) : Prop :=
  t.head? ≠ some minus ∧ ∃ m, m < UInt64.size ∧ t.Numeral [minus] m

theorem takeWhile_digits (h : t.Denotes n) (hrest : ∀ b ∈ rest.head?, isDigit b = false) :
    (t ++ rest).takeWhile isDigit = t := by
  obtain ⟨-, hall, -⟩ := denotes_iff_digitsValue.mp h
  rw [List.takeWhile_append_of_pos (List.all_eq_true.mp hall)]
  cases rest with
  | nil => exact List.append_nil t
  | cons b rest => simp [hrest b rfl]

theorem Denotes.head?_append (h : t.Denotes n) (rest : Text) :
    ∃ b, (t ++ rest).head? = some b ∧ isDigit b = true := by
  obtain ⟨hne, hall, -⟩ := denotes_iff_digitsValue.mp h
  obtain ⟨b, u, rfl⟩ := List.exists_cons_of_ne_nil hne
  exact ⟨b, rfl, List.all_eq_true.mp hall b List.mem_cons_self⟩

/-- A numeral is what begins after the blanks of a text. -/
theorem numeral_iff (hsign : ∀ b ∈ sign, isBlank b = false) : t.Numeral sign n ↔
    ∃ u, trimLeft t = sign ++ u ∧ Denotes (u.takeWhile isDigit) n := by
  constructor
  · rintro ⟨blanks, digits, rest, rfl, hblanks, hdigits, hrest⟩
    refine ⟨digits ++ rest, ?_, by rwa [takeWhile_digits hdigits hrest]⟩
    rw [trimLeft_append_of_allBlank hblanks]
    cases sign with
    | nil =>
        obtain ⟨b, hb, hdigit⟩ := hdigits.head?_append rest
        exact dropWhile_isBlank hb (isBlank_eq_false_of_isDigit hdigit)
    | cons b sign => exact trimLeft_cons (hsign b List.mem_cons_self) _
  · rintro ⟨u, hu, hdigits⟩
    obtain ⟨blanks, hblanks, ht⟩ := exists_allBlank_append t
    refine ⟨blanks, u.takeWhile isDigit, u.dropWhile isDigit, ?_, hblanks, hdigits, ?_⟩
    · rw [List.takeWhile_append_dropWhile, ← hu, ht]
    · intro b hb
      have hnot := List.head?_dropWhile_not isDigit u
      rw [Option.mem_def.mp hb] at hnot
      simpa using hnot

theorem numeral_nil_iff : t.Numeral [] n ↔ Denotes ((trimLeft t).takeWhile isDigit) n := by
  rw [numeral_iff (List.forall_mem_nil _)]
  constructor
  · rintro ⟨u, hu, hdigits⟩
    rwa [hu]
  · intro hdigits
    exact ⟨_, rfl, hdigits⟩

theorem numeral_plus_iff : t.Numeral [plus] n ↔
    ∃ u, trimLeft t = plus :: u ∧ Denotes (u.takeWhile isDigit) n :=
  numeral_iff (List.forall_mem_singleton.mpr rfl)

theorem numeral_minus_iff : t.Numeral [minus] n ↔
    ∃ u, trimLeft t = minus :: u ∧ Denotes (u.takeWhile isDigit) n :=
  numeral_iff (List.forall_mem_singleton.mpr rfl)

end Text

open Text

variable {t u rest : Text} {n : UInt64} {negative : Bool}

/-! ## The value of a text -/

theorem splitSign_cases (t : Text) :
    (∃ u, t = plus :: u ∧ splitSign t = (false, u)) ∨
    (∃ u, t = minus :: u ∧ splitSign t = (true, u)) ∨
    t.head? ≠ some minus ∧ splitSign t = (false, t) := by
  unfold splitSign
  split
  · exact Or.inl ⟨_, rfl, rfl⟩
  · exact Or.inr (Or.inl ⟨_, rfl, rfl⟩)
  · rename_i hminus
    refine Or.inr (Or.inr ⟨fun hhead => ?_, rfl⟩)
    obtain ⟨u, rfl⟩ := List.head?_eq_some_iff.mp hhead
    exact hminus u rfl

theorem splitSign_of_digits {m : Nat} (h : Denotes (t.takeWhile isDigit) m) :
    splitSign t = (false, t) := by
  obtain ⟨b, hb, hdigit⟩ := h.head?_append (t.dropWhile isDigit)
  rw [List.takeWhile_append_dropWhile] at hb
  obtain ⟨u, rfl⟩ := List.head?_eq_some_iff.mp hb
  rcases splitSign_cases (b :: u) with ⟨v, heq, -⟩ | ⟨v, heq, -⟩ | ⟨-, hsplit⟩
  · cases heq
    cases hdigit
  · cases heq
    cases hdigit
  · exact hsplit

theorem unsignedValue_of_head? (h : t.head? = some minus) :
    unsignedValue t = .error .negative := by
  rw [unsignedValue]
  exact if_pos h

theorem unsignedValue_of_splitSign (hhead : t.head? ≠ some minus)
    (hsplit : splitSign (trimLeft t) = (negative, u)) : unsignedValue t = .ok n ↔
      ∃ m, m < UInt64.size ∧ Denotes (u.takeWhile isDigit) m ∧
        n = if negative then 0 - UInt64.ofNat m else UInt64.ofNat m := by
  have hdenotes (m : Nat) : Denotes (u.takeWhile isDigit) m ↔
      u.takeWhile isDigit ≠ [] ∧ digitsValue (u.takeWhile isDigit) = m := by
    simp [denotes_iff_digitsValue, List.all_takeWhile]
  have hvalue : unsignedValue t =
      if u.takeWhile isDigit = [] then .error .notANumber
      else if UInt64.size ≤ digitsValue (u.takeWhile isDigit) then .error .outOfRange
      else
        let n := UInt64.ofNat (digitsValue (u.takeWhile isDigit))
        .ok (if negative then 0 - n else n) := by
    rw [unsignedValue, if_neg (show ¬t.head? = some 45 from hhead), hsplit]
  simp only [hdenotes]
  rw [hvalue]
  by_cases hnil : u.takeWhile isDigit = []
  · simp [hnil]
  rw [if_neg hnil]
  by_cases hsize : UInt64.size ≤ digitsValue (u.takeWhile isDigit)
  · rw [if_pos hsize]
    constructor
    · rintro ⟨⟩
    · rintro ⟨m, hlt, ⟨-, rfl⟩, -⟩
      exact absurd hlt (Nat.not_lt.mpr hsize)
  · rw [if_neg hsize]
    constructor
    · rintro ⟨⟩
      exact ⟨_, Nat.lt_of_not_le hsize, ⟨hnil, rfl⟩, rfl⟩
    · rintro ⟨m, -, ⟨-, rfl⟩, rfl⟩
      rfl

/-- The value of a text is its numeral, and the wrapped one behind a minus that is not the first
byte. -/
theorem unsignedValue_eq_ok_iff : unsignedValue t = .ok n ↔ t.head? ≠ some minus ∧
    (t.Numeral [] n.toNat ∨ t.Numeral [plus] n.toNat ∨
      ∃ m, m < UInt64.size ∧ t.Numeral [minus] m ∧ n = 0 - UInt64.ofNat m) := by
  constructor
  · intro h
    have hhead : t.head? ≠ some minus := fun hhead => by
      rw [unsignedValue_of_head? hhead] at h
      cases h
    refine ⟨hhead, ?_⟩
    rcases splitSign_cases (trimLeft t) with ⟨u, hu, hsplit⟩ | ⟨u, hu, hsplit⟩ | ⟨-, hsplit⟩
    · obtain ⟨m, hlt, hdigits, rfl⟩ := (unsignedValue_of_splitSign hhead hsplit).mp h
      rw [← UInt64.toNat_ofNat_of_lt' hlt] at hdigits
      exact Or.inr (Or.inl (numeral_plus_iff.mpr ⟨u, hu, hdigits⟩))
    · obtain ⟨m, hlt, hdigits, rfl⟩ := (unsignedValue_of_splitSign hhead hsplit).mp h
      exact Or.inr (Or.inr ⟨m, hlt, numeral_minus_iff.mpr ⟨u, hu, hdigits⟩, rfl⟩)
    · obtain ⟨m, hlt, hdigits, rfl⟩ := (unsignedValue_of_splitSign hhead hsplit).mp h
      rw [← UInt64.toNat_ofNat_of_lt' hlt] at hdigits
      exact Or.inl (numeral_nil_iff.mpr hdigits)
  · rintro ⟨hhead, hn | hn | ⟨m, hlt, hn, rfl⟩⟩
    · have hdigits := numeral_nil_iff.mp hn
      exact (unsignedValue_of_splitSign hhead (splitSign_of_digits hdigits)).mpr
        ⟨n.toNat, n.toNat_lt_size, hdigits, UInt64.ofNat_toNat.symm⟩
    · obtain ⟨u, hu, hdigits⟩ := numeral_plus_iff.mp hn
      have hsplit : splitSign (trimLeft t) = (false, u) := by rw [hu]; rfl
      exact (unsignedValue_of_splitSign hhead hsplit).mpr
        ⟨n.toNat, n.toNat_lt_size, hdigits, UInt64.ofNat_toNat.symm⟩
    · obtain ⟨u, hu, hdigits⟩ := numeral_minus_iff.mp hn
      have hsplit : splitSign (trimLeft t) = (true, u) := by rw [hu]; rfl
      exact (unsignedValue_of_splitSign hhead hsplit).mpr ⟨m, hlt, hdigits, rfl⟩

theorem numeral_of_unsignedValue (h : unsignedValue t = .ok n) (hhides : ¬t.HidesMinus) :
    t.Numeral [] n.toNat ∨ t.Numeral [plus] n.toNat := by
  obtain ⟨hhead, hnil | hplus | ⟨m, hlt, hm, -⟩⟩ := unsignedValue_eq_ok_iff.mp h
  · exact Or.inl hnil
  · exact Or.inr hplus
  · exact absurd ⟨hhead, m, hlt, hm⟩ hhides

theorem head?_trimLeft_ne_minus {m : Nat} (h : t.Numeral [] m ∨ t.Numeral [plus] m) :
    (trimLeft t).head? ≠ some minus := by
  intro hminus
  rcases h with hnil | hplus
  · obtain ⟨u, hu⟩ := List.head?_eq_some_iff.mp hminus
    have hsplit := splitSign_of_digits (numeral_nil_iff.mp hnil)
    rw [hu] at hsplit
    cases hsplit
  · obtain ⟨u, hu, -⟩ := numeral_plus_iff.mp hplus
    rw [hu] at hminus
    cases hminus

/-! ## The option -/

namespace OptionTable

variable {α : Type} {t : OptionTable α} {name v : Text} {event : UInt64 → α}

/-- The name of an unsigned option stands before `v`: if a minus is the first byte of `v` after
blanks, the arguments are refused before any event; and if there is an event, it is that of the
number that `v` begins with, after blanks and an optional plus. -/
structure RefusesNegatives (t : OptionTable α) (name : Text) (event : UInt64 → α) (v : Text) :
    Prop where
  negative : (trimLeft v).head? = some minus →
    ∀ rest, ∃ x, t.parse (name :: v :: rest) = ⟨[], some x⟩
  value : ∀ rest, (∃ x, t.parse (name :: v :: rest) = ⟨[], some x⟩) ∨
    ∃ n : UInt64, (v.Numeral [] n.toNat ∨ v.Numeral [plus] n.toNat) ∧
      t.parse (name :: v :: rest) = (t.parse rest).after (.event (event n))

theorem parse_number (hname : name ≠ terminator) (haction : t.action? name = some (.number event))
    (v : Text) (rest : List Text) :
    (∃ x, unsignedValue v = .error x ∧ t.parse (name :: v :: rest) = ⟨[], some x⟩) ∨
      ∃ n, unsignedValue v = .ok n ∧
        t.parse (name :: v :: rest) = (t.parse rest).after (.event (event n)) := by
  rw [parse, if_neg hname, haction]
  cases hv : unsignedValue v with
  | error x => exact Or.inl ⟨x, rfl, by simp only [hv]⟩
  | ok n => exact Or.inr ⟨n, rfl, by simp only [hv]⟩

/-- Negative numbers are refused exactly where no minus hides behind blanks; one that hides is
taken, as the number that it wraps to. -/
theorem refusesNegatives_iff (hname : name ≠ terminator)
    (haction : t.action? name = some (.number event)) (v : Text) :
    (t.RefusesNegatives name event v ↔ ¬v.HidesMinus) ∧
      ∀ m, m < UInt64.size → v.head? ≠ some minus → v.Numeral [minus] m → ∀ rest,
        t.parse (name :: v :: rest) =
          (t.parse rest).after (.event (event (0 - UInt64.ofNat m))) := by
  have htaken (m : Nat) (hlt : m < UInt64.size) (hhead : v.head? ≠ some minus)
      (hm : v.Numeral [minus] m) (rest : List Text) : t.parse (name :: v :: rest) =
        (t.parse rest).after (.event (event (0 - UInt64.ofNat m))) := by
    have hv := unsignedValue_eq_ok_iff.mpr ⟨hhead, Or.inr (Or.inr ⟨m, hlt, hm, rfl⟩)⟩
    rcases parse_number hname haction v rest with ⟨x, hx, -⟩ | ⟨n, hn, hparse⟩
    · cases hx.symm.trans hv
    · cases hn.symm.trans hv
      exact hparse
  refine ⟨⟨?_, fun hhides => ⟨fun hminus rest => ?_, fun rest => ?_⟩⟩, htaken⟩
  · rintro ⟨hnegative, -⟩ ⟨hhead, m, hlt, hm⟩
    obtain ⟨u, hu, -⟩ := numeral_minus_iff.mp hm
    obtain ⟨x, hx⟩ := hnegative (by rw [hu]; rfl) []
    cases hx.symm.trans (htaken m hlt hhead hm [])
  · rcases parse_number hname haction v rest with ⟨x, -, hparse⟩ | ⟨n, hn, -⟩
    · exact ⟨x, hparse⟩
    · exact absurd hminus (head?_trimLeft_ne_minus (numeral_of_unsignedValue hn hhides))
  · rcases parse_number hname haction v rest with ⟨x, -, hparse⟩ | ⟨n, hn, hparse⟩
    · exact Or.inl ⟨x, hparse⟩
    · exact Or.inr ⟨n, numeral_of_unsignedValue hn hhides, hparse⟩

end OptionTable

namespace CommandLine

/-- The settings with a row limit. -/
def Settings.withLimit (s : Settings) (n : UInt64) : Settings := { s with limit? := some n }

def limitName : Text := "--limit"

theorem action?_limitName :
    options.action? limitName = some (.number fun n s => s.withLimit n) :=
  rfl

end CommandLine

namespace Sample

open CommandLine OptionTable

/-- Blanks, a plus, a zero in front and a letter behind. -/
def plusSeven : Text := "\t +07x"

theorem plusSeven_taken : limitName ≠ terminator ∧
    options.action? limitName = some (.number fun n s => s.withLimit n) ∧
    ¬plusSeven.HidesMinus ∧
    options.RefusesNegatives limitName (fun n s => s.withLimit n) plusSeven ∧
    (" -1" : Text).Numeral [minus] 1 ∧ options.parse [limitName, " -1", "--plan"] =
      (options.parse ["--plan"]).after (.event fun s => s.withLimit (0 - UInt64.ofNat 1)) := by
  have hhides : ¬plusSeven.HidesMinus := by
    rintro ⟨-, m, -, hm⟩
    obtain ⟨u, hu, -⟩ := numeral_minus_iff.mp hm
    cases hu
  have hm : (" -1" : Text).Numeral [minus] 1 :=
    ⟨" ", "1", [], rfl, rfl, denotes_iff_digitsValue.mpr ⟨by decide, rfl, rfl⟩, nofun⟩
  refine ⟨by decide, action?_limitName, hhides, ?_, hm, ?_⟩
  · exact (refusesNegatives_iff (by decide) action?_limitName plusSeven).1.mpr hhides
  · exact (refusesNegatives_iff (by decide) action?_limitName " -1").2 1 (by decide) (by decide)
      hm _

/-- A minus behind a blank: the argument is taken, as the greatest row limit. -/
theorem minusOne_taken : (trimLeft " -1").head? = some minus ∧
    (options.parse [limitName, " -1"]).error? = none ∧
    settings (options.parse [limitName, " -1"]).events =
      { limit? := some 18446744073709551615 } ∧
    ¬options.RefusesNegatives limitName (fun n s => s.withLimit n) " -1" := by
  refine ⟨rfl, rfl, by decide, fun h => ?_⟩
  obtain ⟨x, hx⟩ := h.negative rfl []
  cases hx

end Sample

end SqlQuery
