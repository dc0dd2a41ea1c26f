import SqlQuery.Proofs.Record.Segment
import SqlQuery.Proofs.Text.Lines

/-!
# The grammar of a line

A line is made of segments with a delimiter between them.  Where no byte of the format is ambiguous,
a line splits into fields exactly if it can be made in this way, and there is only one way to make
it (`split_iff_decomposes`).
-/

namespace SqlQuery

namespace Format

variable {f : Format} {n : Nat} {t rest line : Text}

/-- The segments with a delimiter between them. -/
def writeSegments (f : Format) (segments : List Segment) : Text :=
  [f.delimiter].intercalate (segments.map f.writeSegment)

/-- The line is made of the segments. -/
structure Decomposes (f : Format) (line : Text) (segments : List Segment) : Prop where
  ne_nil : segments ≠ []
  admits : ∀ s ∈ segments, f.Admits s
  line_eq : line = f.writeSegments segments

/-! ## The first segment and the others -/

/-- What follows the first segment of a line. -/
def writeFollowing (f : Format) : List Segment → Text
  | [] => []
  | s :: segments => f.delimiter :: f.writeSegments (s :: segments)

theorem writeSegments_cons (s : Segment) (segments : List Segment) :
    f.writeSegments (s :: segments) = f.writeSegment s ++ f.writeFollowing segments := by
  cases segments with
  | nil => simp [writeSegments, writeFollowing]
  | cons s' segments => simp [writeSegments, writeFollowing, List.intercalate_cons_cons]

theorem writeFollowing_of_ne_nil {segments : List Segment} (h : segments ≠ []) :
    f.writeFollowing segments = f.delimiter :: f.writeSegments segments := by
  cases segments with
  | nil => exact absurd rfl h
  | cons s segments => rfl

theorem endsField_writeFollowing (segments : List Segment) :
    f.EndsField (f.writeFollowing segments) := by
  cases segments with
  | nil => trivial
  | cons s segments => exact rfl

theorem Decomposes.cons {s : Segment} {segments : List Segment} (hs : f.Admits s)
    (h : f.Decomposes rest segments) :
    f.Decomposes (f.writeSegment s ++ f.delimiter :: rest) (s :: segments) := by
  obtain ⟨hne, hsegments, rfl⟩ := h
  refine ⟨List.cons_ne_nil _ _, List.forall_mem_cons.mpr ⟨hs, hsegments⟩, ?_⟩
  rw [writeSegments_cons, writeFollowing_of_ne_nil hne]

/-! ## Reading -/

theorem fields_of_end {x : Field} (h : f.field n t = .ok (x, [])) : f.fields n t = .ok [x] := by
  rw [fields]
  split <;> simp_all

theorem fields_of_delimiter {x : Field} {b : UInt8} (h : f.field n t = .ok (x, b :: rest)) :
    f.fields n t = (x :: ·) <$> f.fields n rest := by
  rw [fields]
  split <;> simp_all

theorem map_cons_eq_ok {x : Field} {xs : List Field} {y : Except Rejection (List Field)}
    (h : (x :: ·) <$> y = .ok xs) : ∃ ys, y = .ok ys ∧ xs = x :: ys := by
  cases y with
  | error r => cases h
  | ok ys =>
      cases h
      exact ⟨ys, rfl, rfl⟩

theorem map_cons_eq_error {x : Field} {r : Rejection} {y : Except Rejection (List Field)}
    (h : (x :: ·) <$> y = .error r) : y = .error r := by
  cases y with
  | error r => exact h
  | ok ys => cases h

theorem fields_writeSegments (hf : f.Unambiguous) {s : Segment} {segments : List Segment}
    (h : ∀ r ∈ s :: segments, f.Admits r) :
    ∃ xs, f.fields n (f.writeSegments (s :: segments)) = .ok xs ∧
      xs.map (·.text) = (s :: segments).map Segment.content := by
  induction segments generalizing s with
  | nil =>
      have hfield := field_writeSegment (n := n) hf (h s List.mem_cons_self)
        (f.endsField_writeFollowing [])
      rw [← writeSegments_cons] at hfield
      exact ⟨_, fields_of_end hfield, rfl⟩
  | cons s' segments ih =>
      obtain ⟨hs, hsegments⟩ := List.forall_mem_cons.mp h
      obtain ⟨xs, hxs, htexts⟩ := ih hsegments
      have hfield := field_writeSegment (n := n) hf hs (f.endsField_writeFollowing (s' :: segments))
      rw [← writeSegments_cons, writeFollowing] at hfield
      rw [fields_of_delimiter hfield, hxs]
      exact ⟨_, rfl, by rw [List.map_cons, htexts]; rfl⟩

theorem Decomposes.exists_fields (hf : f.Unambiguous) {segments : List Segment}
    (h : f.Decomposes t segments) :
    ∃ xs, f.fields n t = .ok xs ∧ xs.map (·.text) = segments.map Segment.content := by
  obtain ⟨hne, hsegments, rfl⟩ := h
  cases segments with
  | nil => exact absurd rfl hne
  | cons s segments => exact fields_writeSegments hf hsegments

theorem exists_decomposes (hf : f.Unambiguous) {xs : List Field} (h : f.fields n t = .ok xs) :
    ∃ segments, f.Decomposes t segments ∧ xs.map (·.text) = segments.map Segment.content := by
  fun_induction fields f n t generalizing xs with
  | case1 _ r hr => cases h
  | case2 t x hx =>
      cases h
      obtain ⟨s, hs, ht, htext, -⟩ := exists_segment hf hx
      refine ⟨[s], ⟨List.cons_ne_nil _ _, by simpa using hs, ?_⟩, by simp [htext]⟩
      rw [writeSegments_cons]
      exact ht
  | case3 t x b rest hx ih =>
      obtain ⟨s, hs, rfl, htext, rfl⟩ := exists_segment hf hx
      obtain ⟨ys, hrest, rfl⟩ := map_cons_eq_ok h
      obtain ⟨segments, hsegments, htexts⟩ := ih hrest
      exact ⟨s :: segments, hsegments.cons hs, by rw [List.map_cons, htexts, htext]; rfl⟩

/-! ## Only one way -/

theorem writeSegments_cons_inj (hf : f.Unambiguous) {s s' : Segment}
    {segments segments' : List Segment} (hs : f.Admits s) (hs' : f.Admits s')
    (h : f.writeSegments (s :: segments) = f.writeSegments (s' :: segments')) :
    s = s' ∧ f.writeFollowing segments = f.writeFollowing segments' := by
  rw [writeSegments_cons, writeSegments_cons] at h
  exact writeSegment_append_inj hf hs hs' (endsField_writeFollowing segments)
    (endsField_writeFollowing segments') h

theorem writeFollowing_inj (hf : f.Unambiguous) {segments segments' : List Segment}
    (h : ∀ s ∈ segments, f.Admits s) (h' : ∀ s ∈ segments', f.Admits s)
    (heq : f.writeFollowing segments = f.writeFollowing segments') : segments = segments' := by
  induction segments generalizing segments' with
  | nil =>
      cases segments' with
      | nil => rfl
      | cons s' segments' => cases heq
  | cons s segments ih =>
      cases segments' with
      | nil => cases heq
      | cons s' segments' =>
          obtain ⟨hs, hsegments⟩ := List.forall_mem_cons.mp h
          obtain ⟨hs', hsegments'⟩ := List.forall_mem_cons.mp h'
          obtain ⟨rfl, hfollowing⟩ := writeSegments_cons_inj hf hs hs' (List.cons.inj heq).2
          rw [ih hsegments hsegments' hfollowing]

theorem Decomposes.unique (hf : f.Unambiguous) {segments segments' : List Segment}
    (h : f.Decomposes line segments) (h' : f.Decomposes line segments') : segments = segments' := by
  refine writeFollowing_inj hf h.admits h'.admits ?_
  rw [writeFollowing_of_ne_nil h.ne_nil, writeFollowing_of_ne_nil h'.ne_nil, ← h.line_eq,
    ← h'.line_eq]

/-! ## Lines without quotes -/

theorem decomposes_splitOn (h : f.quote ∉ line) :
    f.Decomposes line ((line.splitOn f.delimiter).map .plain) := by
  refine ⟨by simp [List.splitOn_ne_nil], fun s hs => ?_, ?_⟩
  · obtain ⟨t, ht, rfl⟩ := List.mem_map.mp hs
    refine ⟨Text.not_mem_of_mem_splitOn ht, fun hhead => h ?_⟩
    have hmem := (List.dropWhile_sublist _).subset (List.mem_of_head? hhead)
    exact Text.subset_of_mem_splitOn ht hmem
  · have hwritten : f.writeSegment ∘ Segment.plain = id := rfl
    rw [writeSegments, List.map_map, hwritten, List.map_id, List.intercalate_splitOn]

/-! ## The lines that split -/

theorem exists_split_iff (hf : f.Unambiguous) {texts : List Text} :
    (∃ xs, f.split line = .ok xs ∧ xs.map (·.text) = texts) ↔
      ∃ segments, f.Decomposes line segments ∧ segments.map Segment.content = texts := by
  constructor
  · rintro ⟨xs, hxs, rfl⟩
    obtain ⟨segments, hsegments, htexts⟩ := exists_decomposes hf hxs
    exact ⟨segments, hsegments, htexts.symm⟩
  · rintro ⟨segments, hsegments, rfl⟩
    exact hsegments.exists_fields hf

/-- The complaints about a line that does not split. -/
def Unreadable (f : Format) (r : Rejection) : Prop :=
  r.complaint = .unterminatedQuote ∨ r.complaint = .textAfterQuote f.delimiter

theorem unreadable_of_quotedField {column : UInt32} {r : Rejection}
    (h : f.quotedField n column t = .error r) : f.Unreadable r := by
  rcases f.quotedField_cases n column t with
    ⟨-, hfield⟩ | ⟨text, after, -, ⟨-, hfield⟩ | ⟨b, rest, -, -, hfield⟩⟩
  · cases hfield.symm.trans h
    exact Or.inl rfl
  · cases hfield.symm.trans h
  · cases hfield.symm.trans h
    exact Or.inr rfl

theorem unreadable_of_field {r : Rejection} (h : f.field n t = .error r) : f.Unreadable r := by
  rcases f.field_cases n t with ⟨u, -, hfield⟩ | ⟨-, hfield⟩
  · exact unreadable_of_quotedField (hfield.symm.trans h)
  · cases hfield.symm.trans h

theorem unreadable_of_fields {r : Rejection} (h : f.fields n t = .error r) : f.Unreadable r := by
  fun_induction fields f n t with
  | case1 _ r' hr =>
      cases h
      exact unreadable_of_field hr
  | case2 t x hx => cases h
  | case3 t x b rest hx ih =>
      exact ih (map_cons_eq_error h)

theorem exists_unreadable (hf : f.Unambiguous) (h : ¬∃ segments, f.Decomposes line segments) :
    ∃ r, f.split line = .error r ∧ f.Unreadable r := by
  cases hsplit : f.split line with
  | error r => exact ⟨r, rfl, unreadable_of_fields hsplit⟩
  | ok xs =>
      obtain ⟨segments, hsegments, -⟩ := exists_decomposes hf hsplit
      exact absurd ⟨segments, hsegments⟩ h

theorem exists_split_of_quote_not_mem (hf : f.Unambiguous) (h : f.quote ∉ line) :
    ∃ xs, f.split line = .ok xs ∧ xs.length = line.count f.delimiter + 1 := by
  obtain ⟨xs, hxs, htexts⟩ := (decomposes_splitOn h).exists_fields (n := line.length) hf
  have hlength := congrArg List.length htexts
  simp only [List.length_map, Text.length_splitOn] at hlength
  exact ⟨xs, hxs, hlength⟩

/-- A line splits into the contents of the segments that it is made of, which are determined by the
line.  If it is made of none, it is rejected with one complaint; a line without quotes always splits
at its delimiters. -/
theorem split_iff_decomposes (line : Text) :
    (∀ texts, (∃ xs, standard.split line = .ok xs ∧ xs.map (·.text) = texts) ↔
      ∃ segments, standard.Decomposes line segments ∧ segments.map Segment.content = texts) ∧
    ((¬∃ segments, standard.Decomposes line segments) →
      ∃ r, standard.split line = .error r ∧ standard.Unreadable r) ∧
    (∀ segments segments', standard.Decomposes line segments →
      standard.Decomposes line segments' → segments = segments') ∧
    (standard.quote ∉ line →
      ∃ xs, standard.split line = .ok xs ∧ xs.length = line.count standard.delimiter + 1) :=
  ⟨fun _ => exists_split_iff unambiguous_standard, exists_unreadable unambiguous_standard,
    fun _ _ => Decomposes.unique unambiguous_standard,
    exists_split_of_quote_not_mem unambiguous_standard⟩

end Format

end SqlQuery
