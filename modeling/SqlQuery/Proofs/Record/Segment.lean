import SqlQuery.Proofs.Text.Blank
import SqlQuery.Record.Format

/-!
# Segments of a line

What stands between two delimiters of a line is plain or quoted.  Where no byte of the format is
ambiguous, a segment before a delimiter or the end of the line is read as its content
(`field_writeSegment`), nothing else is read (`exists_segment`), and no two segments are written
alike (`writeSegment_append_inj`).
-/

namespace SqlQuery

/-- A byte between quotes, perhaps with an escape before it. -/
structure BodyByte where
  byte : UInt8
  escaped : Bool
  deriving DecidableEq

/-- What stands between two delimiters of a line. -/
inductive Segment where
  | plain (text : Text)
  /-- A body between quotes, with blanks before and after them. -/
  | quoted (before : Text) (body : List BodyByte) (after : Text)
  deriving DecidableEq

/-- The text of the field: a plain one is trimmed, and a quoted one is taken without the escapes. -/
def Segment.content : Segment → Text
  | .plain t => Text.trim t
  | .quoted _ body _ => body.map (·.byte)

namespace Format

/-! ## Writing -/

def writeByte (f : Format) (b : BodyByte) : Text :=
  if b.escaped then [f.escape, b.byte] else [b.byte]

def writeBody (f : Format) (body : List BodyByte) : Text := body.flatMap f.writeByte

def writeSegment (f : Format) : Segment → Text
  | .plain t => t
  | .quoted before body after => before ++ f.quote :: (f.writeBody body ++ f.quote :: after)

/-- Every quote and every escape of the body has an escape before it. -/
def AdmitsBody (f : Format) (body : List BodyByte) : Prop :=
  ∀ b ∈ body, b.escaped = false → b.byte ≠ f.quote ∧ b.byte ≠ f.escape

/-- A plain segment has no delimiter and does not begin with a quote after its blanks. -/
def Admits (f : Format) : Segment → Prop
  | .plain t => f.delimiter ∉ t ∧ (Text.trimLeft t).head? ≠ some f.quote
  | .quoted before body after =>
    Text.allBlank before = true ∧ f.AdmitsBody body ∧ Text.allBlank after = true

/-! ## Formats without ambiguity -/

/-- The quote and the delimiter are no blanks, and the quote is not the escape. -/
structure Unambiguous (f : Format) : Prop where
  delimiter_not_blank : Text.isBlank f.delimiter = false
  quote_not_blank : Text.isBlank f.quote = false
  quote_ne_escape : f.quote ≠ f.escape

theorem unambiguous_standard : standard.Unambiguous :=
  ⟨by decide, by decide, by decide⟩

variable {f : Format} {n : Nat} {t rest rest' : Text}

/-- What follows a field: nothing or a delimiter. -/
def EndsField (f : Format) : Text → Prop
  | [] => True
  | b :: _ => b = f.delimiter

theorem EndsField.trimLeft (hf : f.Unambiguous) (h : f.EndsField rest) :
    Text.trimLeft rest = rest := by
  cases rest with
  | nil => rfl
  | cons b t =>
      rw [EndsField] at h
      subst h
      exact Text.trimLeft_cons hf.delimiter_not_blank t

/-! ## Bodies -/

theorem quoted_escape (b : UInt8) (t : Text) :
    f.quoted (f.escape :: b :: t) = (f.quoted t).map fun (s, r) => (b :: s, r) := by
  rw [quoted, if_pos rfl]

theorem quoted_quote (h : f.quote ≠ f.escape) (t : Text) :
    f.quoted (f.quote :: t) = some ([], t) := by
  cases t with
  | nil => rw [quoted, if_pos rfl]
  | cons b t => rw [quoted, if_neg h, if_pos rfl]

theorem quoted_of_ne {b : UInt8} (hq : b ≠ f.quote) (he : b ≠ f.escape) (t : Text) :
    f.quoted (b :: t) = (f.quoted t).map fun (s, r) => (b :: s, r) := by
  cases t with
  | nil => simp [quoted, hq]
  | cons c t => rw [quoted, if_neg he, if_neg hq]

theorem writeBody_cons (b : BodyByte) (body : List BodyByte) :
    f.writeBody (b :: body) = f.writeByte b ++ f.writeBody body := List.flatMap_cons

/-- A body is read up to the quote that has no escape before it. -/
theorem quoted_writeBody (h : f.quote ≠ f.escape) {body : List BodyByte} (hb : f.AdmitsBody body)
    (rest : Text) :
    f.quoted (f.writeBody body ++ f.quote :: rest) = some (body.map (·.byte), rest) := by
  induction body with
  | nil => exact quoted_quote h rest
  | cons b body ih =>
      obtain ⟨hb, hbody⟩ := List.forall_mem_cons.mp hb
      obtain ⟨b, escaped⟩ := b
      rw [writeBody_cons, List.append_assoc]
      cases escaped with
      | true =>
          simp only [writeByte, ↓reduceIte, List.cons_append, List.nil_append]
          rw [quoted_escape, ih hbody]
          rfl
      | false =>
          obtain ⟨hq, he⟩ := hb rfl
          simp only [writeByte, Bool.false_eq_true, ↓reduceIte, List.cons_append, List.nil_append]
          rw [quoted_of_ne hq he, ih hbody]
          rfl

theorem exists_body {s : Text} (h : f.quoted t = some (s, rest)) : ∃ body, f.AdmitsBody body ∧
    t = f.writeBody body ++ f.quote :: rest ∧ s = body.map (·.byte) := by
  have hnil : f.AdmitsBody [] := fun b hb => absurd hb List.not_mem_nil
  fun_induction quoted f t generalizing s with
  | case1 => cases h
  | case2 =>
      cases h
      exact ⟨[], hnil, rfl, rfl⟩
  | case3 => cases h
  | case4 c t ih =>
      simp only [Option.map_eq_some_iff, Prod.exists, Prod.mk.injEq] at h
      obtain ⟨s, r, hs, rfl, rfl⟩ := h
      obtain ⟨body, hbody, rfl, rfl⟩ := ih hs
      have hc : f.AdmitsBody (⟨c, true⟩ :: body) :=
        List.forall_mem_cons.mpr ⟨fun hplain => absurd hplain (by simp), hbody⟩
      exact ⟨⟨c, true⟩ :: body, hc, rfl, rfl⟩
  | case5 =>
      cases h
      exact ⟨[], hnil, rfl, rfl⟩
  | case6 b c t he hq ih =>
      simp only [Option.map_eq_some_iff, Prod.exists, Prod.mk.injEq] at h
      obtain ⟨s, r, hs, rfl, rfl⟩ := h
      obtain ⟨body, hbody, ht, rfl⟩ := ih hs
      have hb : f.AdmitsBody (⟨b, false⟩ :: body) :=
        List.forall_mem_cons.mpr ⟨fun _ => ⟨hq, he⟩, hbody⟩
      refine ⟨⟨b, false⟩ :: body, hb, ?_, rfl⟩
      rw [ht]
      rfl

theorem writeByte_append_inj {b c : BodyByte} (hb : b.escaped = false → b.byte ≠ f.escape)
    (hc : c.escaped = false → c.byte ≠ f.escape)
    (h : f.writeByte b ++ rest = f.writeByte c ++ rest') : b = c ∧ rest = rest' := by
  obtain ⟨b, escaped⟩ := b
  obtain ⟨c, escaped'⟩ := c
  cases escaped <;> cases escaped' <;> simp only [writeByte, Bool.false_eq_true, ↓reduceIte,
    List.cons_append, List.nil_append, List.cons.injEq] at h
  · exact ⟨by rw [h.1], h.2⟩
  · exact absurd h.1 (hb rfl)
  · exact absurd h.1.symm (hc rfl)
  · exact ⟨by rw [h.2.1], h.2.2⟩

theorem writeByte_ne_nil (b : BodyByte) : f.writeByte b ≠ [] := by
  rw [writeByte]
  split <;> exact List.cons_ne_nil _ _

theorem writeBody_inj {body body' : List BodyByte} (hb : f.AdmitsBody body)
    (hb' : f.AdmitsBody body') (h : f.writeBody body = f.writeBody body') : body = body' := by
  induction body generalizing body' with
  | nil =>
      cases body' with
      | nil => rfl
      | cons c body' =>
          rw [writeBody_cons] at h
          exact absurd (List.append_eq_nil_iff.mp h.symm).1 (writeByte_ne_nil c)
  | cons b body ih =>
      cases body' with
      | nil =>
          rw [writeBody_cons] at h
          exact absurd (List.append_eq_nil_iff.mp h).1 (writeByte_ne_nil b)
      | cons c body' =>
          obtain ⟨hb, hbody⟩ := List.forall_mem_cons.mp hb
          obtain ⟨hc, hbody'⟩ := List.forall_mem_cons.mp hb'
          rw [writeBody_cons, writeBody_cons] at h
          obtain ⟨heq, h⟩ := writeByte_append_inj (fun hp => (hb hp).2) (fun hp => (hc hp).2) h
          rw [heq, ih hbody hbody' h]

/-! ## One segment -/

theorem EndsField.trimLeft_append (hf : f.Unambiguous) (h : f.EndsField rest) (t : Text) :
    Text.trimLeft (t ++ rest) = Text.trimLeft t ++ rest := by
  rw [Text.trimLeft, List.dropWhile_append]
  split
  · rename_i hblank
    rw [Text.trimLeft, List.isEmpty_iff.mp hblank]
    exact h.trimLeft hf
  · rfl

theorem EndsField.head?_append (h : f.EndsField rest) (ht : t.head? ≠ some f.quote) :
    (t ++ rest).head? ≠ some f.quote := by
  cases t with
  | cons b t => exact ht
  | nil =>
      cases rest with
      | nil => exact ht
      | cons b r => exact fun heq => f.delimiter_ne_quote (h.symm.trans (Option.some.inj heq))

theorem field_of_plain (h : (Text.trimLeft t).head? ≠ some f.quote) :
    f.field n t = .ok (f.plainField (columnOf n (Text.trimLeft t)) (Text.trimLeft t)) := by
  rw [field]
  cases ht : Text.trimLeft t with
  | nil => rfl
  | cons b u =>
      rw [ht] at h
      exact if_neg fun heq => h (congrArg some heq)

theorem field_of_quote {u : Text} (h : Text.trimLeft t = f.quote :: u) :
    f.field n t = f.quotedField n (columnOf n (Text.trimLeft t)) u := by
  rw [field, h]
  exact if_pos rfl

/-- A field is quoted if a quote is its first byte, and plain otherwise. -/
theorem field_cases (f : Format) (n : Nat) (t : Text) :
    (∃ u, Text.trimLeft t = f.quote :: u ∧
      f.field n t = f.quotedField n (columnOf n (Text.trimLeft t)) u) ∨
    (Text.trimLeft t).head? ≠ some f.quote ∧
      f.field n t = .ok (f.plainField (columnOf n (Text.trimLeft t)) (Text.trimLeft t)) := by
  by_cases hquote : (Text.trimLeft t).head? = some f.quote
  · obtain ⟨u, hu⟩ := List.head?_eq_some_iff.mp hquote
    exact Or.inl ⟨u, hu, field_of_quote hu⟩
  · exact Or.inr ⟨hquote, field_of_plain hquote⟩

/-- A quoted field is not closed, or ends where a field may end, or text follows it. -/
theorem quotedField_cases (f : Format) (n : Nat) (column : UInt32) (t : Text) :
    (f.quoted t = none ∧ f.quotedField n column t = .error ⟨column, .unterminatedQuote⟩) ∨
    ∃ text after, f.quoted t = some (text, after) ∧
      (f.EndsField (Text.trimLeft after) ∧
          f.quotedField n column t = .ok (⟨text, column⟩, Text.trimLeft after) ∨
        ∃ b rest, Text.trimLeft after = b :: rest ∧ b ≠ f.delimiter ∧
          f.quotedField n column t =
            .error ⟨columnOf n (b :: rest), .textAfterQuote f.delimiter⟩) := by
  rw [quotedField]
  cases hq : f.quoted t with
  | none => exact Or.inl ⟨rfl, rfl⟩
  | some p =>
      refine Or.inr ⟨p.1, p.2, rfl, ?_⟩
      cases hafter : Text.trimLeft p.2 with
      | nil => exact Or.inl ⟨trivial, by simp [hafter]⟩
      | cons b rest =>
          by_cases hb : b = f.delimiter
          · exact Or.inl ⟨hb, by simp [hafter, hb]⟩
          · exact Or.inr ⟨b, rest, rfl, hb, by simp [hafter, hb]⟩

theorem plainField_append {column : UInt32} (ht : f.delimiter ∉ t) (hrest : f.EndsField rest) :
    f.plainField column (t ++ rest) = (⟨Text.trim t, column⟩, rest) := by
  have hall : ∀ b ∈ t, (b != f.delimiter) = true := by
    intro b hb
    simpa using fun heq : b = f.delimiter => ht (heq ▸ hb)
  rw [plainField, List.takeWhile_append_of_pos hall, List.dropWhile_append_of_pos hall]
  cases rest with
  | nil => simp
  | cons b r =>
      rw [EndsField] at hrest
      simp [hrest]

theorem quotedField_append {column : UInt32} (hf : f.Unambiguous) {body : List BodyByte}
    {after : Text} (hb : f.AdmitsBody body) (ha : Text.allBlank after = true)
    (hrest : f.EndsField rest) :
    f.quotedField n column (f.writeBody body ++ f.quote :: (after ++ rest)) =
      .ok (⟨body.map (·.byte), column⟩, rest) := by
  have htrim : Text.trimLeft (after ++ rest) = rest := by
    rw [Text.trimLeft_append_of_allBlank ha, hrest.trimLeft hf]
  rw [quotedField, quoted_writeBody hf.quote_ne_escape hb]
  simp only [htrim]
  cases rest with
  | nil => rfl
  | cons b r => exact if_pos hrest

theorem trimLeft_quoted (hf : f.Unambiguous) {before : Text} (hb : Text.allBlank before = true)
    (t : Text) : Text.trimLeft (before ++ f.quote :: t) = f.quote :: t := by
  rw [Text.trimLeft_append_of_allBlank hb, Text.trimLeft_cons hf.quote_not_blank]

/-- Before a delimiter or the end of the line, a segment is read as its content. -/
theorem field_writeSegment (hf : f.Unambiguous) {s : Segment} (hs : f.Admits s)
    (hrest : f.EndsField rest) : f.field n (f.writeSegment s ++ rest) =
      .ok (⟨s.content, columnOf n (Text.trimLeft (f.writeSegment s ++ rest))⟩, rest) := by
  cases s with
  | plain t =>
      obtain ⟨ht, hquote⟩ := hs
      have htrim := hrest.trimLeft_append hf t
      have hsub : f.delimiter ∉ Text.trimLeft t := fun hmem =>
        ht ((List.dropWhile_sublist _).subset hmem)
      have hhead := hrest.head?_append hquote
      rw [← htrim] at hhead
      rw [writeSegment, field_of_plain hhead, htrim, plainField_append hsub hrest,
        Text.trim_trimLeft]
      rfl
  | quoted before body after =>
      obtain ⟨hbefore, hbody, hafter⟩ := hs
      have hwritten : f.writeSegment (.quoted before body after) ++ rest =
          before ++ f.quote :: (f.writeBody body ++ f.quote :: (after ++ rest)) := by
        simp [writeSegment]
      rw [hwritten, field_of_quote (trimLeft_quoted hf hbefore _)]
      exact quotedField_append hf hbody hafter hrest

theorem endsField_dropWhile (t : Text) : f.EndsField (t.dropWhile (· != f.delimiter)) := by
  have hhead := List.head?_dropWhile_not (· != f.delimiter) t
  cases h : t.dropWhile (· != f.delimiter) with
  | nil => trivial
  | cons b r =>
      have hb : b = f.delimiter := by simpa [h] using hhead
      exact hb

theorem quotedField_eq_ok {column : UInt32} {x : Field}
    (h : f.quotedField n column t = .ok (x, rest)) : ∃ body after, f.AdmitsBody body ∧
      Text.allBlank after = true ∧ t = f.writeBody body ++ f.quote :: (after ++ rest) ∧
      x.text = body.map (·.byte) ∧ f.EndsField rest := by
  rcases f.quotedField_cases n column t with
    ⟨-, hfield⟩ | ⟨text, after, hq, ⟨hend, hfield⟩ | ⟨b, r, -, -, hfield⟩⟩
  · cases hfield.symm.trans h
  · cases hfield.symm.trans h
    obtain ⟨body, hbody, rfl, rfl⟩ := exists_body hq
    obtain ⟨blanks, hblanks, hafter⟩ := Text.exists_allBlank_append after
    exact ⟨body, blanks, hbody, hblanks, by rw [hafter], rfl, hend⟩
  · cases hfield.symm.trans h

theorem delimiter_not_mem_of_allBlank (hf : f.Unambiguous) (h : Text.allBlank t = true) :
    f.delimiter ∉ t := by
  intro hmem
  have hblank := List.all_eq_true.mp h _ hmem
  rw [hf.delimiter_not_blank] at hblank
  cases hblank

theorem plainField_eq (hf : f.Unambiguous) {column : UInt32} {x : Field}
    (hquote : (Text.trimLeft t).head? ≠ some f.quote)
    (h : f.plainField column (Text.trimLeft t) = (x, rest)) :
    ∃ u, f.Admits (.plain u) ∧ t = u ++ rest ∧ x.text = Text.trim u ∧ f.EndsField rest := by
  obtain ⟨blanks, hblanks, ht⟩ := Text.exists_allBlank_append t
  have hend := f.endsField_dropWhile (Text.trimLeft t)
  have hnot : f.delimiter ∉ (Text.trimLeft t).takeWhile (· != f.delimiter) := fun hmem =>
    absurd (List.mem_takeWhile_imp hmem) (by simp)
  have happend := (Text.trimLeft t).takeWhile_append_dropWhile (p := (· != f.delimiter))
  cases h
  generalize (Text.trimLeft t).takeWhile (· != f.delimiter) = u at hnot happend
  have hline : t = blanks ++ u ++ (Text.trimLeft t).dropWhile (· != f.delimiter) := by
    rw [List.append_assoc, happend, ht]
  refine ⟨blanks ++ u, ⟨?_, fun hhead => hquote ?_⟩, hline, ?_, hend⟩
  · rw [List.mem_append, not_or]
    exact ⟨delimiter_not_mem_of_allBlank hf hblanks, hnot⟩
  · have htrim := hend.trimLeft_append hf (blanks ++ u)
    rw [← hline] at htrim
    rw [htrim, List.head?_append, hhead]
    rfl
  · simp only [Text.trim, Text.trimLeft_append_of_allBlank hblanks]

/-- What is read as a field is a segment with that content, up to a delimiter or the end. -/
theorem exists_segment (hf : f.Unambiguous) {x : Field} (h : f.field n t = .ok (x, rest)) :
    ∃ s, f.Admits s ∧ t = f.writeSegment s ++ rest ∧ x.text = s.content ∧ f.EndsField rest := by
  rcases f.field_cases n t with ⟨u, hu, hfield⟩ | ⟨hquote, hfield⟩
  · obtain ⟨body, after, hbody, hafter, rfl, hx, hend⟩ := quotedField_eq_ok (hfield.symm.trans h)
    obtain ⟨blanks, hblanks, ht⟩ := Text.exists_allBlank_append t
    refine ⟨.quoted blanks body after, ⟨hblanks, hbody, hafter⟩, ?_, hx, hend⟩
    rw [← ht, hu]
    simp [writeSegment]
  · obtain ⟨u, hu, ht, hx, hend⟩ := plainField_eq hf hquote (Except.ok.inj (hfield.symm.trans h))
    exact ⟨.plain u, hu, ht, hx, hend⟩

/-! ## Segments that are written alike -/

theorem writeSegment_quoted_inj (hf : f.Unambiguous) {before before' after after' : Text}
    {body body' : List BodyByte} (hs : f.Admits (.quoted before body after))
    (hs' : f.Admits (.quoted before' body' after'))
    (h : f.writeSegment (.quoted before body after) =
      f.writeSegment (.quoted before' body' after')) :
    Segment.quoted before body after = .quoted before' body' after' := by
  obtain ⟨hbefore, hbody, -⟩ := hs
  obtain ⟨hbefore', hbody', -⟩ := hs'
  simp only [writeSegment] at h
  -- The blanks end at the opening quote, and the body ends where it is read to.
  have hopened := congrArg Text.trimLeft h
  rw [trimLeft_quoted hf hbefore, trimLeft_quoted hf hbefore'] at hopened
  rw [hopened] at h
  have hclosed := congrArg f.quoted (List.cons.inj hopened).2
  rw [quoted_writeBody hf.quote_ne_escape hbody,
    quoted_writeBody hf.quote_ne_escape hbody'] at hclosed
  have hafter : after = after' := congrArg Prod.snd (Option.some.inj hclosed)
  subst hafter
  have hwritten := List.append_cancel_right (List.cons.inj hopened).2
  rw [List.append_cancel_right h, writeBody_inj hbody hbody' hwritten]

theorem writeSegment_plain_ne_quoted (hf : f.Unambiguous) {before after : Text}
    {body : List BodyByte} (h : f.Admits (.plain t)) (h' : f.Admits (.quoted before body after)) :
    f.writeSegment (.plain t) ≠ f.writeSegment (.quoted before body after) := by
  intro heq
  have hhead := h.2
  simp only [writeSegment] at heq
  rw [heq, trimLeft_quoted hf h'.1] at hhead
  exact hhead rfl

theorem writeSegment_inj (hf : f.Unambiguous) {s s' : Segment} (hs : f.Admits s)
    (hs' : f.Admits s') (h : f.writeSegment s = f.writeSegment s') : s = s' := by
  cases s with
  | plain t =>
      cases s' with
      | plain t' => exact congrArg Segment.plain h
      | quoted before body after => exact absurd h (writeSegment_plain_ne_quoted hf hs hs')
  | quoted before body after =>
      cases s' with
      | plain t' => exact absurd h.symm (writeSegment_plain_ne_quoted hf hs' hs)
      | quoted before' body' after' => exact writeSegment_quoted_inj hf hs hs' h

/-- A segment before a delimiter or the end of the line can be told from what is written. -/
theorem writeSegment_append_inj (hf : f.Unambiguous) {s s' : Segment} (hs : f.Admits s)
    (hs' : f.Admits s') (hrest : f.EndsField rest) (hrest' : f.EndsField rest')
    (h : f.writeSegment s ++ rest = f.writeSegment s' ++ rest') : s = s' ∧ rest = rest' := by
  -- Both are read up to the same place, so the same follows them.
  have hread := field_writeSegment (n := 0) hf hs hrest
  rw [h, field_writeSegment hf hs' hrest'] at hread
  have heq : rest' = rest := congrArg Prod.snd (Except.ok.inj hread)
  subst heq
  exact ⟨writeSegment_inj hf hs hs' (List.append_cancel_right h), rfl⟩

end Format

end SqlQuery
