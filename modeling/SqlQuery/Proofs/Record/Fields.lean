import SqlQuery.Proofs.Record.Grammar
import SqlQuery.Record.Writer

/-!
# Fields that are written and read

A line of written fields splits into their contents again (`split_writeLine`), where no byte of the
format is ambiguous.  The fields of any line have no byte that the line has not (`split_eq_ok`).
-/

namespace SqlQuery

namespace Format

variable {f : Format} {n : Nat} {t rest : Text}

/-! ## Words -/

/-- A word has a first byte, which is no quote, and neither a delimiter nor a blank. -/
structure IsWord (f : Format) (t : Text) : Prop where
  ne_nil : t ≠ []
  head_ne_quote : t.head? ≠ some f.quote
  not_delimiter : ∀ b ∈ t, b ≠ f.delimiter
  not_blank : ∀ b ∈ t, Text.isBlank b = false

theorem IsWord.framed (ht : f.IsWord t) : t.Framed := by
  have hne := ht.ne_nil
  refine ⟨⟨t.head hne, by simp [List.head?_eq_some_head hne], ?_⟩,
    ⟨t.getLast hne, by simp [List.getLast?_eq_some_getLast hne], ?_⟩⟩
  · exact ht.not_blank _ (List.head_mem hne)
  · exact ht.not_blank _ (List.getLast_mem hne)

theorem IsWord.of_all (hne : t ≠ []) (hhead : t.head? ≠ some f.quote)
    (hall : t.all (fun b => b != f.delimiter && !Text.isBlank b) = true) : f.IsWord t := by
  simp only [List.all_eq_true, Bool.and_eq_true, bne_iff_ne, Bool.not_eq_true'] at hall
  exact ⟨hne, hhead, fun b hb => (hall b hb).1, fun b hb => (hall b hb).2⟩

end Format

/-! ## Written fields -/

namespace WrittenField

def Legible (f : Format) : WrittenField → Prop
  | .word t => f.IsWord t
  | .quoted _ => True

/-- The segment that the field is written as. -/
def segment (f : Format) : WrittenField → Segment
  | .word t => .plain t
  | .quoted t => .quoted [] (t.map fun b => ⟨b, decide (b = f.quote ∨ b = f.escape)⟩) []

variable {f : Format}

theorem Legible.admits {x : WrittenField} (h : x.Legible f) : f.Admits (x.segment f) := by
  cases x with
  | word t =>
      refine ⟨fun hmem => h.not_delimiter _ hmem rfl, ?_⟩
      obtain ⟨b, hb, hblank⟩ := h.framed.first
      rw [Text.trimLeft, Text.dropWhile_isBlank hb hblank]
      exact h.head_ne_quote
  | quoted t =>
      refine ⟨rfl, fun b hb hplain => ?_, rfl⟩
      obtain ⟨c, -, rfl⟩ := List.mem_map.mp hb
      exact not_or.mp (of_decide_eq_false hplain)

theorem Legible.content_segment {x : WrittenField} (h : x.Legible f) :
    (x.segment f).content = x.content := by
  cases x with
  | word t => exact h.framed.trim_eq
  | quoted t =>
      rw [segment, Segment.content, List.map_map]
      exact List.map_id t

theorem writeSegment_segment (x : WrittenField) :
    f.writeSegment (x.segment f) = f.writeField x := by
  cases x with
  | word t => rfl
  | quoted t =>
      simp only [segment, Format.writeSegment, Format.writeBody, List.flatMap_map,
        Format.writeByte, decide_eq_true_eq]
      rfl

end WrittenField

namespace Format

variable {f : Format} {n : Nat} {t rest : Text}

theorem writeLine_cons_cons (x y : WrittenField) (xs : List WrittenField) :
    f.writeLine (x :: y :: xs) = f.writeField x ++ f.delimiter :: f.writeLine (y :: xs) := by
  simp [writeLine, List.intercalate_cons_cons]

theorem decomposes_writeLine {x : WrittenField} {xs : List WrittenField}
    (h : ∀ y ∈ x :: xs, y.Legible f) :
    f.Decomposes (f.writeLine (x :: xs)) ((x :: xs).map (·.segment f)) := by
  refine ⟨List.cons_ne_nil _ _, fun s hs => ?_, ?_⟩
  · obtain ⟨y, hy, rfl⟩ := List.mem_map.mp hs
    exact (h y hy).admits
  · rw [writeSegments, List.map_map]
    exact congrArg _ (List.map_congr_left fun y _ => (y.writeSegment_segment).symm)

theorem split_writeLine (hf : f.Unambiguous) {x : WrittenField} {xs : List WrittenField}
    (h : ∀ y ∈ x :: xs, y.Legible f) : ∃ ys, f.split (f.writeLine (x :: xs)) = .ok ys ∧
      ys.map (·.text) = (x :: xs).map (·.content) := by
  obtain ⟨ys, hys, htexts⟩ := (decomposes_writeLine h).exists_fields hf
  refine ⟨ys, hys, htexts.trans ?_⟩
  rw [List.map_map]
  exact List.map_congr_left fun y hy => (h y hy).content_segment

/-! ## Any line -/

theorem trimLeft_subset (t : Text) : Text.trimLeft t ⊆ t :=
  (List.dropWhile_sublist _).subset

theorem trim_subset (t : Text) : Text.trim t ⊆ t := by
  intro b hb
  have hright := (List.dropWhile_sublist _).subset (List.mem_reverse.mp hb)
  exact trimLeft_subset t (List.mem_reverse.mp hright)

theorem map_byte_subset (body : List BodyByte) : body.map (·.byte) ⊆ f.writeBody body := by
  intro c hc
  obtain ⟨b, hb, rfl⟩ := List.mem_map.mp hc
  refine List.mem_flatMap.mpr ⟨b, hb, ?_⟩
  rw [writeByte]
  split <;> simp

theorem subset_of_quotedField {column : UInt32} {x : Field}
    (h : f.quotedField n column t = .ok (x, rest)) : x.text ⊆ t ∧ rest ⊆ t := by
  obtain ⟨body, after, -, -, rfl, hx, -⟩ := quotedField_eq_ok h
  rw [hx]
  have hrest : rest ⊆ f.quote :: (after ++ rest) :=
    List.subset_cons_of_subset _ (List.subset_append_right after rest)
  exact ⟨List.subset_append_of_subset_left _ (map_byte_subset body),
    List.subset_append_of_subset_right _ hrest⟩

theorem subset_of_field {x : Field} (h : f.field n t = .ok (x, rest)) :
    x.text ⊆ t ∧ rest ⊆ t := by
  have htrim := trimLeft_subset t
  rcases f.field_cases n t with ⟨u, hu, hfield⟩ | ⟨-, hfield⟩
  · obtain ⟨hx, hrest⟩ := subset_of_quotedField (hfield.symm.trans h)
    have hsub := List.Subset.trans (List.subset_cons_self f.quote u) (hu ▸ htrim)
    exact ⟨List.Subset.trans hx hsub, List.Subset.trans hrest hsub⟩
  · cases hfield.symm.trans h
    exact ⟨fun b hb => htrim ((List.takeWhile_sublist _).subset (trim_subset _ hb)),
      fun b hb => htrim ((List.dropWhile_sublist _).subset hb)⟩

theorem fields_eq_ok {xs : List Field} (h : f.fields n t = .ok xs) :
    xs ≠ [] ∧ ∀ x ∈ xs, x.text ⊆ t := by
  fun_induction fields f n t generalizing xs with
  | case1 _ r hr => cases h
  | case2 t x hx =>
      cases h
      exact ⟨by simp, by simpa using (subset_of_field hx).1⟩
  | case3 t x b rest hx ih =>
      obtain ⟨htext, hrest⟩ := subset_of_field hx
      obtain ⟨ys, hs, rfl⟩ := map_cons_eq_ok h
      refine ⟨by simp, List.forall_mem_cons.mpr ⟨htext, fun y hy => ?_⟩⟩
      have hsub := List.Subset.trans ((ih hs).2 y hy) (List.subset_cons_self b rest)
      exact List.Subset.trans hsub hrest

theorem split_eq_ok {xs : List Field} (h : f.split t = .ok xs) :
    xs ≠ [] ∧ ∀ x ∈ xs, x.text ⊆ t :=
  fields_eq_ok h

end Format

end SqlQuery
