import Mathlib.Data.List.Forall2
import SqlQuery.Proofs.Record.Content
import SqlQuery.Proofs.Record.Fields
import SqlQuery.Record.Reader

/-!
# Lines of a file

Reading a line never fails, and a record that it accepts is drawn from the fields of the line
(`exists_readLine`).  A complete record is read from the line that it is written on
(`readLine_writtenFields`).
-/

namespace SqlQuery

/-! ## The ends of a line -/

theorem Text.Framed.dropReturn_eq {t : Text} (ht : t.Framed) : Format.dropReturn t = t := by
  obtain ⟨c, hc, hblank⟩ := ht.last
  refine if_neg fun h => ?_
  cases h.symm.trans hc
  exact absurd hblank (by decide)

namespace Format

variable {f : Format} {t : Text}

theorem framed_writeField (hf : f.Unambiguous) {x : WrittenField} (hx : x.Legible f) :
    (f.writeField x).Framed := by
  cases x with
  | word t => exact IsWord.framed hx
  | quoted t =>
      have hquote : Text.Framed [f.quote] :=
        ⟨⟨_, rfl, hf.quote_not_blank⟩, ⟨_, rfl, hf.quote_not_blank⟩⟩
      exact hquote.append_append (f.escaped t) hquote

theorem framed_writeLine (hf : f.Unambiguous) {x : WrittenField} {xs : List WrittenField}
    (h : ∀ y ∈ x :: xs, y.Legible f) : (f.writeLine (x :: xs)).Framed := by
  induction xs generalizing x with
  | nil => simpa [writeLine] using framed_writeField hf (h x List.mem_cons_self)
  | cons y xs ih =>
      obtain ⟨hx, hxs⟩ := List.forall_mem_cons.mp h
      have hframed := (framed_writeField hf hx).append_append [f.delimiter] (ih hxs)
      rwa [List.append_assoc, List.singleton_append, ← writeLine_cons_cons] at hframed

theorem head?_writeLine (ht : t ≠ []) (xs : List WrittenField) :
    (f.writeLine (.word t :: xs)).head? = t.head? := by
  cases xs with
  | nil => simp [writeLine, writeField]
  | cons x xs =>
      cases t with
      | nil => exact absurd rfl ht
      | cons b t => simp [writeLine_cons_cons, writeField]

/-! ## The bytes of a line -/

variable {b : UInt8}

theorem mem_writeField {x : WrittenField} (h : b ∈ f.writeField x) :
    b = f.quote ∨ b = f.escape ∨ b ∈ x.content := by
  cases x with
  | word t => exact Or.inr (Or.inr h)
  | quoted t =>
      simp only [writeField, escaped, List.mem_cons, List.mem_append, List.mem_flatMap,
        List.not_mem_nil, or_false] at h
      rcases h with rfl | ⟨c, hc, hb⟩ | rfl
      · exact Or.inl rfl
      · have hb : b = f.escape ∨ b = c := by
          split at hb <;> simp_all
        rcases hb with rfl | rfl
        · exact Or.inr (Or.inl rfl)
        · exact Or.inr (Or.inr hc)
      · exact Or.inl rfl

theorem not_mem_writeLine (hd : b ≠ f.delimiter) (hq : b ≠ f.quote) (he : b ≠ f.escape)
    {xs : List WrittenField} (h : ∀ x ∈ xs, b ∉ x.content) : b ∉ f.writeLine xs := by
  have hfield : ∀ x ∈ xs, b ∉ f.writeField x := fun x hx hb =>
    (mem_writeField hb).elim hq fun hb => hb.elim he (h x hx)
  clear h
  induction xs with
  | nil => simp [writeLine]
  | cons x xs ih =>
      obtain ⟨hx, hxs⟩ := List.forall_mem_cons.mp hfield
      cases xs with
      | nil => simpa [writeLine] using hx
      | cons y xs => simp [writeLine_cons_cons, hx, hd, ih hxs]

end Format

/-! ## The line of a record -/

namespace Format

theorem isWord_keyword (k : Record.Kind) : standard.IsWord k.keyword := by
  cases k <;> exact .of_all (by decide) (by decide) (by decide)

theorem isWord_joinTypeName (t : JoinType) : standard.IsWord (Record.joinTypeName t) := by
  cases t <;> exact .of_all (by decide) (by decide) (by decide)

theorem isWord_directionName (a : Bool) : standard.IsWord (Record.directionName a) := by
  cases a <;> exact .of_all (by decide) (by decide) (by decide)

theorem isWord_of_digits {t : Text} (hne : t ≠ []) (h : t.all Text.isDigit = true) :
    standard.IsWord t := by
  have hdigit : ∀ b ∈ t, Text.isDigit b = true := List.all_eq_true.mp h
  refine ⟨hne, fun h => ?_, fun b hb h => ?_, fun b hb => ?_⟩
  · exact absurd (hdigit _ (List.mem_of_mem_head? h)) (by decide)
  · exact absurd (h ▸ hdigit b hb) (by decide)
  · exact Text.isBlank_eq_false_of_isDigit (hdigit b hb)

theorem isWord_ofNat (n : Nat) : standard.IsWord (Text.ofNat n) :=
  isWord_of_digits (Text.ofNat_ne_nil n) (Text.all_isDigit_ofNat n)

end Format

namespace Record

/-- A field of a record is a word of the format, or it quotes nothing or a text of the record. -/
inductive Writes (r : Record) : WrittenField → Prop
  | word {t : Text} : Format.standard.IsWord t → Writes r (.word t)
  | nothing : Writes r (.quoted [])
  | text {t : Text} : t ∈ r.texts → Writes r (.quoted t)

variable {r : Record}

theorem writes_optional {t? : Option Text} (h : t?.toList ⊆ r.texts) : r.Writes (.optional t?) := by
  cases t? with
  | none => exact .nothing
  | some t => exact .text (h (List.mem_singleton_self t))

theorem writes_tableArguments {t : TableRef} (h : t.texts ⊆ r.texts) :
    ∀ x ∈ tableArguments t, r.Writes x := by
  obtain ⟨hname, halias⟩ := List.cons_subset.mp h
  simpa [tableArguments] using ⟨.text hname, writes_optional halias⟩

theorem writes_of_mem_arguments : ∀ x ∈ r.arguments, r.Writes x := by
  cases r with
  | distinct => simp [arguments]
  | selection s =>
      simpa [arguments] using ⟨.text (by simp [texts]), writes_optional (by simp [texts])⟩
  | table t => exact writes_tableArguments (List.Subset.refl _)
  | join e =>
      have hleft := writes_tableArguments (r := .join e) (t := e.left) (by simp [texts])
      have hright := writes_tableArguments (r := .join e) (t := e.right) (by simp [texts])
      simpa [arguments, or_imp, forall_and] using ⟨hleft, hright, .text (by simp [texts]),
        .text (by simp [texts]), .word (Format.isWord_joinTypeName _)⟩
  | filter p | group e | having p => simpa [arguments] using .text (by simp [texts])
  | order i =>
      simpa [arguments] using ⟨.text (by simp [texts]), .word (Format.isWord_directionName _)⟩
  | limit n => simpa [arguments] using .word (Format.isWord_ofNat _)

theorem writes_of_mem_writtenFields : ∀ x ∈ r.writtenFields, r.Writes x :=
  List.forall_mem_cons.mpr ⟨.word (Format.isWord_keyword _), writes_of_mem_arguments⟩

theorem Writes.legible {x : WrittenField} (h : r.Writes x) : x.Legible Format.standard := by
  cases h with
  | word h => exact h
  | nothing => trivial
  | text => trivial

theorem Writes.not_mem_content {x : WrittenField} (h : r.Writes x)
    (hr : ∀ t ∈ r.texts, Text.lineFeed ∉ t) : Text.lineFeed ∉ x.content := by
  cases h with
  | word h => exact fun hmem => absurd (h.not_blank _ hmem) (by decide)
  | nothing => exact List.not_mem_nil
  | text h => exact hr _ h

theorem legible_writtenFields : ∀ x ∈ r.writtenFields, x.Legible Format.standard :=
  fun x hx => (writes_of_mem_writtenFields x hx).legible

end Record

/-! ## Reading a line -/

namespace Format

variable {f : Format} {line : Text} {xs : List Field} {r : Record}

theorem readLine_of_skipped (h : f.isSkipped (dropReturn line) = true) :
    f.readLine line = .ok .skipped := by
  simp [readLine, h]

theorem readLine_of_error (h : f.isSkipped (dropReturn line) = false) {r : Rejection}
    (hsplit : f.split (dropReturn line) = .error r) : f.readLine line = .ok (.rejected r) := by
  simp [readLine, h, hsplit]

theorem readLine_of_fields (h : f.isSkipped (dropReturn line) = false)
    (hsplit : f.split (dropReturn line) = .ok xs) : f.readLine line = readFields xs := by
  simp [readLine, h, hsplit]

/-- A line is skipped, or it does not split and is rejected, or its fields are read. -/
theorem readLine_cases (f : Format) (line : Text) :
    (f.isSkipped (dropReturn line) = true ∧ f.readLine line = .ok .skipped) ∨
    (∃ r, f.split (dropReturn line) = .error r ∧ f.readLine line = .ok (.rejected r)) ∨
    ∃ xs, f.split (dropReturn line) = .ok xs ∧ f.readLine line = readFields xs := by
  cases hskip : f.isSkipped (dropReturn line) with
  | true => exact Or.inl ⟨rfl, readLine_of_skipped hskip⟩
  | false =>
      cases hsplit : f.split (dropReturn line) with
      | error r => exact Or.inr (Or.inl ⟨r, rfl, readLine_of_error hskip hsplit⟩)
      | ok xs => exact Or.inr (Or.inr ⟨xs, rfl, readLine_of_fields hskip hsplit⟩)

theorem dropReturn_subset (line : Text) : dropReturn line ⊆ line := by
  rw [dropReturn]
  split
  · exact List.dropLast_subset line
  · exact List.Subset.refl line

theorem exists_readFields (h : xs ≠ []) : ∃ l, readFields xs = .ok l ∧
    ∀ column r, l = .accepted column r → r.DrawnFrom (xs.map (·.text)) := by
  cases xs with
  | nil => exact absurd rfl h
  | cons kind xs =>
      have hyields := Record.Yields.ofFields kind xs
      rw [readFields]
      match Record.ofFields kind xs, hyields with
      | .ok r, hr =>
          refine ⟨_, rfl, fun column r' heq => ?_⟩
          cases heq
          exact ⟨hr.complete, fun t ht => (hr.texts_mem t ht).imp_right (List.mem_cons_of_mem _)⟩
      | .error (.rejected r), _ => exact ⟨_, rfl, nofun⟩

theorem exists_readLine (f : Format) (line : Text) : ∃ l, f.readLine line = .ok l ∧
    ∀ column r, l = .accepted column r →
      ∃ xs, f.split (dropReturn line) = .ok xs ∧ r.DrawnFrom (xs.map (·.text)) := by
  rcases f.readLine_cases line with ⟨-, hread⟩ | ⟨r, -, hread⟩ | ⟨xs, hsplit, hread⟩
  · exact ⟨_, hread, nofun⟩
  · exact ⟨_, hread, nofun⟩
  · obtain ⟨l, hl, hdrawn⟩ := exists_readFields (split_eq_ok hsplit).1
    exact ⟨l, hread.trans hl, fun column r heq => ⟨xs, hsplit, hdrawn column r heq⟩⟩

theorem drawnFrom_of_readLine {column : UInt32} (h : f.readLine line = .ok (.accepted column r)) :
    ∃ xs, f.split (dropReturn line) = .ok xs ∧ r.DrawnFrom (xs.map (·.text)) := by
  obtain ⟨l, hl, haccepted⟩ := exists_readLine f line
  exact haccepted column r (Except.ok.inj (hl.symm.trans h))

theorem readLine_writtenFields (hr : r.Complete) : ∃ column,
    standard.readLine (standard.writeLine r.writtenFields) = .ok (.accepted column r) := by
  have hlegible : ∀ x ∈ r.writtenFields, x.Legible standard := Record.legible_writtenFields
  have hframed : (standard.writeLine r.writtenFields).Framed :=
    framed_writeLine unambiguous_standard hlegible
  have hhead : (standard.writeLine r.writtenFields).head? ≠ some standard.comment := by
    rw [Record.writtenFields, head?_writeLine (isWord_keyword _).ne_nil]
    cases r.kind <;> decide
  have hskip : standard.isSkipped (dropReturn (standard.writeLine r.writtenFields)) = false := by
    simpa [isSkipped, hframed.dropReturn_eq, hframed.trim_eq, hframed.allBlank_eq_false]
      using hhead
  obtain ⟨xs, hxs, htexts⟩ := split_writeLine unambiguous_standard hlegible
  rw [← Record.writtenFields, ← hframed.dropReturn_eq] at hxs
  obtain ⟨kind, xs, rfl, hkind, hxs'⟩ := List.map_eq_cons_iff.mp htexts
  refine ⟨kind.column, (readLine_of_fields hskip hxs).trans ?_⟩
  simp [readFields, Record.ofFields_eq_ok hr hkind hxs']

/-! ## Reading all lines -/

variable {lines : List Text} {ls : List LineReading}

theorem mapM_readLine (h : List.Forall₂ (fun line l => f.readLine line = .ok l) lines ls) :
    lines.mapM f.readLine = .ok ls := by
  induction h with
  | nil => rfl
  | cons hl _ ih =>
      simp only [List.mapM_cons, hl, ih]
      rfl

theorem read_eq_ok {t : Text}
    (h : List.Forall₂ (fun line l => f.readLine line = .ok l) (Text.lines t) ls) :
    f.read t = .ok (Reading.ofLines 1 .empty ls) := by
  rw [read, mapM_readLine h]
  rfl

theorem exists_forall₂_readLine (f : Format) (lines : List Text) :
    ∃ ls, List.Forall₂ (fun line l => f.readLine line = .ok l) lines ls := by
  induction lines with
  | nil => exact ⟨[], .nil⟩
  | cons line lines ih =>
      obtain ⟨l, hl, -⟩ := exists_readLine f line
      obtain ⟨ls, hls⟩ := ih
      exact ⟨l :: ls, .cons hl hls⟩

end Format

end SqlQuery
