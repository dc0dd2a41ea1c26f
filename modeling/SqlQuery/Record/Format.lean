import SqlQuery.Error
import SqlQuery.Record.Remark

/-!
# Fields of a line

A line is a list of fields separated by a delimiter.  A plain field is trimmed and reaches to the
next delimiter.  A quoted field may contain the delimiter; within it the escape takes the next byte
as it is, and only blanks may stand between the closing quote and the delimiter.  An escape that no
byte follows stands for itself, unless it is also the quote and so closes the field.
-/

namespace SqlQuery

/-- The bytes with a meaning of their own in a file of records. -/
structure Format where
  delimiter : UInt8
  quote : UInt8
  escape : UInt8
  comment : UInt8
  delimiter_ne_quote : delimiter ≠ quote
  delimiter_ne_escape : delimiter ≠ escape
  deriving DecidableEq

/-- A field with the column that it starts in, counted from one. -/
structure Field where
  text : Text
  column : UInt32
  deriving DecidableEq

namespace Format

/-- Chooses the bytes; the delimiter must not be the quote or the escape. -/
def make (delimiter quote escape comment : UInt8) : Except Failure Format :=
  if hq : delimiter = quote then .error (.misuse .delimiterIsQuote)
  else if he : delimiter = escape then .error (.misuse .delimiterIsEscape)
  else .ok ⟨delimiter, quote, escape, comment, hq, he⟩

/-- Fields between `|`, quoted by `"`, escaped by `\`; comments start with `#`. -/
def standard : Format where
  delimiter := 124
  quote := 34
  escape := 92
  comment := 35
  delimiter_ne_quote := by decide
  delimiter_ne_escape := by decide

/-- Reads the body of a quoted field; gives its text and what follows the closing quote. -/
def quoted (f : Format) : Text → Option (Text × Text)
  | [] => none
  | [b] => if b = f.quote then some ([], []) else none
  | b :: c :: t =>
    if b = f.escape then (quoted f t).map fun (s, r) => (c :: s, r)
    else if b = f.quote then some ([], c :: t)
    else (quoted f (c :: t)).map fun (s, r) => (b :: s, r)

/-- The column in which the rest of a line of the given length starts. -/
def columnOf (length : Nat) (rest : Text) : UInt32 := UInt32.ofNat (length - rest.length + 1)

/-- A plain field, up to the next delimiter or the end. -/
def plainField (f : Format) (column : UInt32) (t : Text) : Field × Text :=
  (⟨Text.trim (t.takeWhile (· != f.delimiter)), column⟩, t.dropWhile (· != f.delimiter))

/-- A quoted field whose opening quote is read. -/
def quotedField (f : Format) (length : Nat) (column : UInt32) (body : Text) :
    Except Rejection (Field × Text) :=
  match f.quoted body with
  | none => .error ⟨column, .unterminatedQuote⟩
  | some (text, after) =>
    match Text.trimLeft after with
    | [] => .ok (⟨text, column⟩, [])
    | b :: t =>
      if b = f.delimiter then .ok (⟨text, column⟩, b :: t)
      else .error ⟨columnOf length (b :: t), .textAfterQuote f.delimiter⟩

/-- The field at the start of the rest of a line, and what follows it: nothing or a delimiter. -/
def field (f : Format) (length : Nat) (rest : Text) : Except Rejection (Field × Text) :=
  match Text.trimLeft rest with
  | [] => .ok (f.plainField (columnOf length []) [])
  | b :: t =>
    if b = f.quote then f.quotedField length (columnOf length (b :: t)) t
    else .ok (f.plainField (columnOf length (b :: t)) (b :: t))

theorem length_of_quoted_eq_some {f : Format} {t s r : Text} (h : f.quoted t = some (s, r)) :
    r.length ≤ t.length := by
  fun_induction quoted f t generalizing s with
  | case1 => simp at h
  | case2 => simp at h; simp [h.2]
  | case3 => simp at h
  | case4 c t ih =>
    simp only [Option.map_eq_some_iff, Prod.exists, Prod.mk.injEq] at h
    obtain ⟨s', r', hq, _, rfl⟩ := h
    have := ih hq
    simp; omega
  | case5 => simp at h; simp [h.2]
  | case6 b c t _ _ ih =>
    simp only [Option.map_eq_some_iff, Prod.exists, Prod.mk.injEq] at h
    obtain ⟨s', r', hq, _, rfl⟩ := h
    have := ih hq
    simp at this ⊢; omega

theorem length_trimLeft_le (t : Text) : (Text.trimLeft t).length ≤ t.length :=
  (List.dropWhile_sublist _).length_le

theorem length_of_field_eq_ok {f : Format} {n : Nat} {t r : Text} {x : Field}
    (h : f.field n t = .ok (x, r)) : r.length ≤ t.length := by
  have ht := length_trimLeft_le t
  rw [field] at h
  split at h
  · simp [plainField] at h; simp [h.2]
  · rename_i b s hs
    rw [hs] at ht
    split at h
    · rw [quotedField] at h
      split at h
      · simp at h
      · rename_i text after hq
        have hl := length_of_quoted_eq_some hq
        have hr := length_trimLeft_le after
        simp at ht
        split at h
        · simp at h; simp [h.2]
        · rename_i c u hu
          rw [hu] at hr
          split at h
          · simp only [Except.ok.injEq, Prod.mk.injEq] at h
            rw [← h.2]; omega
          · simp at h
    · simp only [Except.ok.injEq, plainField, Prod.mk.injEq] at h
      rw [← h.2]
      exact Nat.le_trans (List.dropWhile_sublist _).length_le ht

/-- The fields of the rest of a line of the given length. -/
def fields (f : Format) (length : Nat) (rest : Text) : Except Rejection (List Field) :=
  match _h : f.field length rest with
  | .error r => .error r
  | .ok (x, []) => .ok [x]
  | .ok (x, _ :: t) => (x :: ·) <$> fields f length t
termination_by rest.length
decreasing_by have := length_of_field_eq_ok _h; simp at this; omega

/-- The fields of a line. -/
def split (f : Format) (line : Text) : Except Rejection (List Field) := f.fields line.length line

end Format

end SqlQuery
