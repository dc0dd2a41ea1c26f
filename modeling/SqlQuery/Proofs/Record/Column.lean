import SqlQuery.Proofs.Record.Recovery

/-!
# Where remarks point

A field starts at its first byte that is not blank (`exists_startsAt`), and a line that does not
split is rejected where a quote opens or where text follows a quoted field (`pointsAt_of_fields`).
A record is rejected at the column of the field that the complaint is about (`Blames.ofFields`).  So
every remark on a file carries the number of its line and the column of what it is about, and is
printed with them (`remarks_located`).
-/

namespace SqlQuery

/-! ## Columns of a line -/

/-- The byte in the column, counted from one. -/
def Text.byteAt? (t : Text) (column : Nat) : Option UInt8 := t[column - 1]?

/-- The column of the first byte that is not blank, from the given offset on; it is the one after
the last byte if there is none. -/
structure Text.FirstNonBlank (t : Text) (offset column : Nat) : Prop where
  offset_lt : offset < column
  le_length : column ≤ t.length + 1
  blank : ∀ i, offset < i → i < column → ∃ b ∈ t.byteAt? i, isBlank b = true
  not_blank : ∀ b ∈ t.byteAt? column, isBlank b = false

namespace Format

variable {f : Format} {line before t rest : Text} {s : Segment} {done : List Segment}
  {x : Field} {xs : List Field}

theorem toNat_columnOf (h : line.length < 2 ^ 32 - 1) (rest : Text) :
    (columnOf line.length rest).toNat = line.length - rest.length + 1 := by
  rw [columnOf, UInt32.toNat_ofNat_of_lt']
  rw [UInt32.size]
  omega

theorem byteAt?_columnOf (h : line.length < 2 ^ 32 - 1) (hrest : rest <:+ line) :
    line.byteAt? (columnOf line.length rest).toNat = rest.head? := by
  obtain ⟨before, rfl⟩ := hrest
  rw [Text.byteAt?, toNat_columnOf h, Nat.add_sub_cancel, List.length_append, Nat.add_sub_cancel,
    List.getElem?_append_right le_rfl, Nat.sub_self, List.head?_eq_getElem?]

theorem firstNonBlank_columnOf (h : line.length < 2 ^ 32 - 1) (hline : line = before ++ t) :
    line.FirstNonBlank before.length (columnOf line.length (Text.trimLeft t)).toNat := by
  obtain ⟨blanks, hblanks, ht⟩ := Text.exists_allBlank_append t
  have hlength := congrArg List.length ht
  have hlength' := congrArg List.length hline
  rw [List.length_append] at hlength hlength'
  have hcolumn := toNat_columnOf h (Text.trimLeft t)
  refine ⟨by omega, by omega, fun i hi hlt => ?_, fun b hb => ?_⟩
  · have hinside : i - 1 - before.length < blanks.length := by omega
    refine ⟨blanks[i - 1 - before.length], ?_, List.all_eq_true.mp hblanks _ (List.getElem_mem _)⟩
    rw [Text.byteAt?, hline, ← ht, List.getElem?_append_right (by omega),
      List.getElem?_append_left hinside, List.getElem?_eq_getElem hinside]
    rfl
  · have hsuffix : Text.trimLeft t <:+ line :=
      (List.dropWhile_suffix _).trans ⟨before, hline.symm⟩
    rw [byteAt?_columnOf h hsuffix] at hb
    have hhead := List.head?_dropWhile_not Text.isBlank t
    rw [← Text.trimLeft, Option.mem_def.mp hb] at hhead
    simpa using hhead

theorem field_column (h : f.field line.length t = .ok (x, rest)) :
    x.column = columnOf line.length (Text.trimLeft t) := by
  rcases f.field_cases line.length t with ⟨u, -, hfield⟩ | ⟨-, hfield⟩
  · rw [hfield] at h
    rcases f.quotedField_cases line.length (columnOf line.length (Text.trimLeft t)) u with
      ⟨-, hfield⟩ | ⟨text, after, -, ⟨-, hfield⟩ | ⟨b, r, -, -, hfield⟩⟩
    · cases hfield.symm.trans h
    · cases hfield.symm.trans h
      rfl
    · cases hfield.symm.trans h
  · cases hfield.symm.trans h
    rfl

/-! ## Where a field starts -/

/-- Segments with a delimiter after each of them. -/
def writeBefore (f : Format) (segments : List Segment) : Text :=
  segments.flatMap fun s => f.writeSegment s ++ [f.delimiter]

theorem writeSegments_append (segments : List Segment) (s : Segment) :
    f.writeSegments (segments ++ [s]) = f.writeBefore segments ++ f.writeSegment s := by
  induction segments with
  | nil => simp [writeSegments, writeBefore]
  | cons s' segments ih =>
      rw [List.cons_append, writeSegments_cons, writeFollowing_of_ne_nil (by simp), ih]
      simp [writeBefore]

/-- The rest of the line comes after the segments and a delimiter after each of them. -/
structure Precedes (f : Format) (done : List Segment) (line rest : Text) : Prop where
  admits : ∀ s ∈ done, f.Admits s
  line_eq : line = f.writeBefore done ++ rest

theorem precedes_nil (line : Text) : f.Precedes [] line line := ⟨nofun, rfl⟩

theorem Precedes.append (h : f.Precedes done line (f.writeSegment s ++ f.delimiter :: rest))
    (hs : f.Admits s) : f.Precedes (done ++ [s]) line rest :=
  ⟨List.forall_mem_append.mpr ⟨h.admits, List.forall_mem_singleton.mpr hs⟩,
    by simp [h.line_eq, writeBefore]⟩

theorem Precedes.decomposes (h : f.Precedes done line (f.writeSegment s)) (hs : f.Admits s) :
    f.Decomposes line (done ++ [s]) :=
  ⟨by simp, List.forall_mem_append.mpr ⟨h.admits, List.forall_mem_singleton.mpr hs⟩,
    by rw [writeSegments_append, h.line_eq]⟩

/-- The field with the given index starts in the column, at its first byte that is not blank.  If
it is plain and empty, this is the delimiter after it or the end of the line. -/
structure StartsAt (f : Format) (line : Text) (segments : List Segment) (k column : Nat) :
    Prop where
  first : line.FirstNonBlank (f.writeBefore (segments.take k)).length column
  empty : ∀ u, segments[k]? = some (.plain u) → Text.trim u = [] →
    ∀ b ∈ line.byteAt? column, b = f.delimiter

theorem startsAt_of_field (hf : f.Unambiguous) (hlength : line.length < 2 ^ 32 - 1)
    (hdone : f.Precedes done line (f.writeSegment s ++ rest)) (hrest : f.EndsField rest)
    (hx : f.field line.length (f.writeSegment s ++ rest) = .ok (x, rest))
    (segments : List Segment) :
    f.StartsAt line (done ++ s :: segments) done.length x.column.toNat := by
  rw [field_column hx]
  refine ⟨?_, fun u hu htrim b hb => ?_⟩
  · rw [List.take_left]
    exact firstNonBlank_columnOf hlength hdone.line_eq
  · rw [List.getElem?_append_right le_rfl, Nat.sub_self, List.getElem?_cons_zero] at hu
    obtain rfl := Option.some.inj hu
    have htail : Text.trimLeft (f.writeSegment (.plain u) ++ rest) = rest := by
      rw [writeSegment, Text.trimLeft_append_of_allBlank (Text.trim_eq_nil_iff.mp htrim)]
      exact hrest.trimLeft hf
    have hsuffix : rest <:+ line :=
      (List.suffix_append _ _).trans ((List.suffix_append _ _).trans ⟨[], hdone.line_eq.symm⟩)
    rw [htail, byteAt?_columnOf hlength hsuffix] at hb
    cases rest with
    | nil => cases hb
    | cons c r =>
        cases hb
        exact hrest

/-- The fields of a line start where its segments do. -/
theorem exists_startsAt (hf : f.Unambiguous) (hlength : line.length < 2 ^ 32 - 1)
    (hdone : f.Precedes done line t) (h : f.fields line.length t = .ok xs) :
    ∃ segments, f.Decomposes line (done ++ segments) ∧
      xs.map (·.text) = segments.map Segment.content ∧ ∀ k x, xs[k]? = some x →
        f.StartsAt line (done ++ segments) (done.length + k) x.column.toNat := by
  -- Each segment that is read joins those before the rest of the line.
  generalize hn : line.length = n at h
  fun_induction fields f n t generalizing xs done with
  | case1 _ r hr => cases h
  | case2 t x hx =>
      cases h
      subst hn
      obtain ⟨s, hs, rfl, htext, hend⟩ := exists_segment hf hx
      have hstart := startsAt_of_field hf hlength hdone hend hx []
      rw [List.append_nil] at hdone
      refine ⟨[s], hdone.decomposes hs, by simp [htext], fun k y hy => ?_⟩
      cases k with
      | zero =>
          cases hy
          exact hstart
      | succ k => cases hy
  | case3 t x b rest hx ih =>
      subst hn
      obtain ⟨s, hs, rfl, htext, hend⟩ := exists_segment hf hx
      have hb : b = f.delimiter := hend
      subst hb
      obtain ⟨ys, hrest, rfl⟩ := map_cons_eq_ok h
      obtain ⟨segments, hsegments, htexts, hstarts⟩ := ih (hdone.append hs) hrest
      rw [List.append_assoc, List.singleton_append] at hsegments hstarts
      refine ⟨s :: segments, hsegments, ?_, fun k y hy => ?_⟩
      · rw [List.map_cons, htexts, htext, List.map_cons]
      · cases k with
        | zero =>
            cases hy
            exact startsAt_of_field hf hlength hdone hend hx segments
        | succ k =>
            rw [← Nat.add_assoc, Nat.add_right_comm]
            simpa using hstarts k y hy

end Format

/-! ## The field that a finding is about -/

/-- The index of the field that holds the part in its record. -/
def Part.index : Part → Nat
  | .rightTableName => 3
  | .joinCondition => 5
  | _ => 1

/-- In a record whose fields have the given texts, the finding is about the field with the given
index.  What is said of a whole record is about the field that names its kind. -/
inductive Finding.Concerns : Finding → List Text → Nat → Prop
  | unknownKind {kind : Text} {arguments : List Text} :
      Concerns (.complaint (.unknownKind kind)) (kind :: arguments) 0
  | argumentCount {kind : Text} {arguments : List Text} {least most : Nat} :
      Concerns (.complaint (.argumentCount kind least most arguments.length)) (kind :: arguments) 0
  | missing {part : Part} {texts : List Text} : texts[part.index]? = some [] →
      Concerns (.complaint (.missing part)) texts part.index
  | unknownJoinType {name : Text} {texts : List Text} : texts[7]? = some name →
      Concerns (.complaint (.unknownJoinType name)) texts 7
  | unknownDirection {name : Text} {texts : List Text} : texts[2]? = some name →
      Concerns (.complaint (.unknownDirection name)) texts 2
  | invalidLimit {number : Text} {texts : List Text} : texts[1]? = some number →
      Concerns (.complaint (.invalidLimit number)) texts 1
  | caution {c : Caution} {kind : Text} {arguments : List Text} :
      Concerns (.caution c) (kind :: arguments) 0

namespace Record

/-- Fields are rejected only at the column of a field, with a complaint about that field. -/
def Blames {α : Type} (xs : List Field) : Except Refusal α → Prop
  | .error (.rejected r) => ∃ k x, xs[k]? = some x ∧ r.column = x.column ∧
      (Finding.complaint r.complaint).Concerns (xs.map (·.text)) k
  | _ => True

namespace Blames

variable {α β : Type} {xs : List Field} {x : Field} {y : Except Refusal α} {k : Nat}

theorem bind {g : α → Except Refusal β} (h : Blames xs y)
    (hg : ∀ a, y = .ok a → Blames xs (g a)) : Blames xs (y >>= g) := by
  match y, h with
  | .ok a, _ => exact hg a rfl
  | .error (.rejected _), h => exact h
  | .error (.failed _), _ => trivial

theorem map {g : α → β} (h : Blames xs y) : Blames xs (g <$> y) := by
  match y, h with
  | .ok _, _ => trivial
  | .error (.rejected _), h => exact h
  | .error (.failed _), _ => trivial

theorem reject {c : Complaint} (hx : xs[k]? = some x)
    (hc : (Finding.complaint c).Concerns (xs.map (·.text)) k) :
    Blames xs (x.reject c : Except Refusal α) :=
  ⟨k, x, hx, rfl, hc⟩

theorem getElem?_text (hx : xs[k]? = some x) : (xs.map (·.text))[k]? = some x.text := by
  rw [List.getElem?_map, hx]
  rfl

theorem required {part : Part} (hx : xs[part.index]? = some x) : Blames xs (x.required part) := by
  rw [Field.required]
  split
  · rename_i hnil
    exact reject hx (.missing (hnil ▸ getElem?_text hx))
  · trivial

theorem tableRef (name : Text) (alias? : Option Text) : Blames xs (tableRef name alias?) := by
  rw [Record.tableRef]
  cases TableRef.make name alias? <;> trivial

theorem typeOf {x? : Option Field} (hx : ∀ x ∈ x?, xs[7]? = some x) : Blames xs (typeOf x?) := by
  unfold Record.typeOf
  split
  · trivial
  · split
    · trivial
    · split
      · trivial
      · exact reject (hx _ rfl) (.unknownJoinType (getElem?_text (hx _ rfl)))

theorem ascendingOf {x? : Option Field} (hx : ∀ x ∈ x?, xs[2]? = some x) :
    Blames xs (ascendingOf x?) := by
  unfold Record.ascendingOf
  split
  · trivial
  · split
    · trivial
    · split
      · trivial
      · exact reject (hx _ rfl) (.unknownDirection (getElem?_text (hx _ rfl)))

theorem ofJoin {l la r ra p : Field} {key? type? : Option Field} (hl : xs[1]? = some l)
    (hr : xs[3]? = some r) (hp : xs[5]? = some p) (htype : ∀ x ∈ type?, xs[7]? = some x) :
    Blames xs (ofJoin l la r ra p key? type?) :=
  (required hl).bind fun _ _ => (required hr).bind fun _ _ => (required hp).bind fun _ _ =>
    (typeOf htype).bind fun _ _ => (tableRef _ _).bind fun _ _ =>
    (tableRef _ _).bind fun _ _ => trivial

theorem ofOrder {e : Field} {d? : Option Field} (he : xs[1]? = some e)
    (hd : ∀ x ∈ d?, xs[2]? = some x) : Blames xs (ofOrder e d?) :=
  (required he).bind fun _ _ => (ascendingOf hd).bind fun _ _ => trivial

theorem ofLimit {n : Field} (hn : xs[1]? = some n) : Blames xs (ofLimit n) := by
  refine (required hn).bind fun t ht => ?_
  have htext : t = n.text := by
    have hyields := Yields.required n .rowLimit
    rw [ht] at hyields
    exact hyields.1
  split
  · trivial
  · exact reject hn (.invalidLimit (htext ▸ getElem?_text hn))

theorem ofArguments? {k : Kind} {kind : Field} {xs : List Field} {y : Except Refusal Record}
    (h : ofArguments? k xs = some y) : Blames (kind :: xs) y := by
  unfold Record.ofArguments? at h
  split at h <;> cases h
  · trivial
  · exact (required rfl).bind fun _ _ => trivial
  · exact (required rfl).bind fun _ _ => trivial
  · exact (required rfl).bind fun _ _ => (tableRef _ _).bind fun _ _ => trivial
  · exact (required rfl).bind fun _ _ => (tableRef _ _).bind fun _ _ => trivial
  · exact ofJoin rfl rfl rfl nofun
  · exact ofJoin rfl rfl rfl nofun
  · exact ofJoin rfl rfl rfl fun x hx => hx
  · exact (required rfl).map
  · exact (required rfl).map
  · exact (required rfl).map
  · exact ofOrder rfl nofun
  · exact ofOrder rfl fun x hx => hx
  · exact ofLimit rfl

theorem ofFields (kind : Field) (xs : List Field) : Blames (kind :: xs) (ofFields kind xs) := by
  unfold Record.ofFields
  split
  · exact reject rfl .unknownKind
  · split
    · exact ofArguments? ‹_›
    · have hlength : xs.length = (xs.map (·.text)).length := (List.length_map _).symm
      rw [hlength]
      exact reject rfl .argumentCount

end Blames

end Record

/-! ## Lines that do not split -/

namespace Format

variable {f : Format} {n : UInt32} {q q' : Query} {line t : Text} {lines : List Text}
  {done : List Segment} {r : Reading} {rejection : Rejection} {remark : Remark}
  {remarks : List Remark} {l : LineReading}

/-- The finding on a line is about what stands in the column: a field of the line, a quote that is
never closed, or text between a closing quote and the next delimiter. -/
inductive PointsAt (f : Format) (line : Text) : Finding → Nat → Prop
  | field {segments : List Segment} {finding : Finding} {k column : Nat} :
      f.Decomposes line segments → finding.Concerns (segments.map Segment.content) k →
      f.StartsAt line segments k column → PointsAt f line finding column
  | unterminatedQuote {done : List Segment} {blanks rest : Text} {column : Nat} :
      f.Precedes done line (blanks ++ f.quote :: rest) → Text.allBlank blanks = true →
      (∀ body after, f.AdmitsBody body → rest ≠ f.writeBody body ++ f.quote :: after) →
      line.FirstNonBlank (f.writeBefore done).length column →
      PointsAt f line (.complaint .unterminatedQuote) column
  | textAfterQuote {done : List Segment} {blanks rest : Text} {body : List BodyByte} {b : UInt8}
      {column : Nat} :
      f.Precedes done line (f.writeSegment (.quoted blanks body []) ++ rest) →
      f.Admits (.quoted blanks body []) →
      line.FirstNonBlank (line.length - rest.length) column →
      line.byteAt? column = some b → b ≠ f.delimiter →
      PointsAt f line (.complaint (.textAfterQuote f.delimiter)) column

theorem PointsAt.exists_firstNonBlank {finding : Finding} {column : Nat}
    (h : f.PointsAt line finding column) : ∃ offset, line.FirstNonBlank offset column := by
  cases h with
  | field _ _ h => exact ⟨_, h.first⟩
  | unterminatedQuote _ _ _ h => exact ⟨_, h⟩
  | textAfterQuote _ _ h => exact ⟨_, h⟩

theorem pointsAt_of_textAfterQuote (hlength : line.length < 2 ^ 32 - 1) {blanks after rest : Text}
    {body : List BodyByte} {b : UInt8} (hs : f.Admits (.quoted blanks body []))
    (hdone : f.Precedes done line (f.writeSegment (.quoted blanks body []) ++ after))
    (hafter : Text.trimLeft after = b :: rest) (hb : b ≠ f.delimiter) :
    f.PointsAt line (.complaint (.textAfterQuote f.delimiter))
      (columnOf line.length (b :: rest)).toNat := by
  have hline : line = f.writeBefore done ++ f.writeSegment (.quoted blanks body []) ++ after := by
    rw [hdone.line_eq, List.append_assoc]
  have hfirst := firstNonBlank_columnOf hlength hline
  have hbefore : (f.writeBefore done ++ f.writeSegment (.quoted blanks body [])).length =
      line.length - after.length := by
    have hlengths := congrArg List.length hline
    rw [List.length_append] at hlengths
    omega
  rw [hafter, hbefore] at hfirst
  have hsuffix : b :: rest <:+ line := by
    rw [← hafter]
    exact (List.dropWhile_suffix _).trans ⟨_, hline.symm⟩
  exact .textAfterQuote hdone hs hfirst (byteAt?_columnOf hlength hsuffix) hb

theorem pointsAt_of_quotedField (hf : f.Unambiguous) (hlength : line.length < 2 ^ 32 - 1)
    (hdone : f.Precedes done line t) {u : Text} (hu : Text.trimLeft t = f.quote :: u)
    (h : f.quotedField line.length (columnOf line.length (Text.trimLeft t)) u = .error rejection) :
    f.PointsAt line (.complaint rejection.complaint) rejection.column.toNat := by
  obtain ⟨blanks, hblanks, ht⟩ := Text.exists_allBlank_append t
  rw [hu] at ht
  rcases f.quotedField_cases line.length (columnOf line.length (Text.trimLeft t)) u with
    ⟨hq, hfield⟩ | ⟨text, after, hq, ⟨-, hfield⟩ | ⟨b, rest, hrest, hb, hfield⟩⟩
  · cases hfield.symm.trans h
    refine .unterminatedQuote (ht ▸ hdone) hblanks (fun body after hbody heq => ?_)
      (firstNonBlank_columnOf hlength hdone.line_eq)
    rw [heq, quoted_writeBody hf.quote_ne_escape hbody] at hq
    cases hq
  · cases hfield.symm.trans h
  · cases hfield.symm.trans h
    obtain ⟨body, hbody, rfl, -⟩ := exists_body hq
    have hdone' : f.Precedes done line (f.writeSegment (.quoted blanks body []) ++ after) := by
      rw [← ht] at hdone
      simpa [writeSegment] using hdone
    exact pointsAt_of_textAfterQuote hlength ⟨hblanks, hbody, rfl⟩ hdone' hrest hb

theorem pointsAt_of_field (hf : f.Unambiguous) (hlength : line.length < 2 ^ 32 - 1)
    (hdone : f.Precedes done line t) (h : f.field line.length t = .error rejection) :
    f.PointsAt line (.complaint rejection.complaint) rejection.column.toNat := by
  rcases f.field_cases line.length t with ⟨u, hu, hfield⟩ | ⟨-, hfield⟩
  · exact pointsAt_of_quotedField hf hlength hdone hu (hfield.symm.trans h)
  · cases hfield.symm.trans h

theorem pointsAt_of_fields (hf : f.Unambiguous) (hlength : line.length < 2 ^ 32 - 1)
    (hdone : f.Precedes done line t) (h : f.fields line.length t = .error rejection) :
    f.PointsAt line (.complaint rejection.complaint) rejection.column.toNat := by
  generalize hn : line.length = n at h
  fun_induction fields f n t generalizing done with
  | case1 t r hr =>
      cases h
      subst hn
      exact pointsAt_of_field hf hlength hdone hr
  | case2 t x hx => cases h
  | case3 t x b rest hx ih =>
      subst hn
      obtain ⟨s, hs, rfl, -, hend⟩ := exists_segment hf hx
      obtain rfl : b = f.delimiter := hend
      exact ih (hdone.append hs) (map_cons_eq_error h)

/-! ## Remarks on a line -/

theorem pointsAt_of_concerns (hf : f.Unambiguous) (hlength : line.length < 2 ^ 32 - 1)
    {xs : List Field} (hsplit : f.split line = .ok xs) {finding : Finding} {k : Nat} {x : Field}
    (hx : xs[k]? = some x) (hconcerns : finding.Concerns (xs.map (·.text)) k) :
    f.PointsAt line finding x.column.toNat := by
  obtain ⟨segments, hsegments, htexts, hstarts⟩ :=
    exists_startsAt hf hlength (precedes_nil line) hsplit
  have hstart := hstarts k x hx
  rw [List.length_nil, Nat.zero_add] at hstart
  exact .field hsegments (htexts ▸ hconcerns) hstart

theorem pointsAt_of_readFields (hf : f.Unambiguous) (hlength : line.length < 2 ^ 32 - 1)
    {xs : List Field} (hsplit : f.split line = .ok xs) (hl : readFields xs = .ok l)
    (hremark : l.remark? n q = some remark) :
    remark.line = n ∧ f.PointsAt line remark.finding remark.column.toNat := by
  cases xs with
  | nil => cases hl
  | cons kind xs =>
      have hblames := Record.Blames.ofFields kind xs
      rw [readFields] at hl
      cases hr : Record.ofFields kind xs with
      | ok record =>
          rw [hr] at hl
          cases hl
          obtain ⟨c, -, rfl⟩ := Option.map_eq_some_iff.mp hremark
          exact ⟨rfl, pointsAt_of_concerns hf hlength hsplit (k := 0) rfl .caution⟩
      | error refusal =>
          cases refusal with
          | failed e => rw [hr] at hl; cases hl
          | rejected rejection =>
              rw [hr] at hl hblames
              cases hl
              cases hremark
              obtain ⟨k, x, hx, hcolumn, hconcerns⟩ := hblames
              exact ⟨rfl, hcolumn ▸ pointsAt_of_concerns hf hlength hsplit hx hconcerns⟩

/-- The remark that a line leaves carries the number of the line and points at what it is about. -/
theorem pointsAt_of_remark? (hf : f.Unambiguous) (hlength : (dropReturn line).length < 2 ^ 32 - 1)
    (hl : f.readLine line = .ok l) (hremark : l.remark? n q = some remark) :
    remark.line = n ∧ f.PointsAt (dropReturn line) remark.finding remark.column.toNat := by
  rcases f.readLine_cases line with ⟨-, hread⟩ | ⟨rejection, hsplit, hread⟩ | ⟨xs, hsplit, hread⟩
  · cases hread.symm.trans hl
    cases hremark
  · cases hread.symm.trans hl
    cases hremark
    exact ⟨rfl, pointsAt_of_fields hf hlength (precedes_nil _) hsplit⟩
  · exact pointsAt_of_readFields hf hlength hsplit (hread.symm.trans hl) hremark

end Format

/-! ## Remarks as they are printed -/

/-- Rejected records are errors, and all else is worth a warning. -/
def Remark.severity (r : Remark) : Severity :=
  match r.finding with
  | .complaint _ => .error
  | .caution _ => .warning

namespace Diagnostics

/-- The line that is printed for a remark on the named input. -/
def remarkText (d : Diagnostics) (name : Text) (r : Remark) : Text :=
  d.heading r.severity ⟨name, r.line, r.column⟩ ++ (r.finding.text ++ "\n")

theorem err_remark (name : Text) (d : Diagnostics) (r : Remark) :
    (remark name d r).err = d.err ++ d.remarkText name r := by
  obtain ⟨line, column, finding⟩ := r
  cases finding <;> rfl

theorem color_remark (name : Text) (d : Diagnostics) (r : Remark) :
    (remark name d r).color = d.color := by
  obtain ⟨line, column, finding⟩ := r
  cases finding <;> rfl

theorem remarkText_congr {d d' : Diagnostics} (h : d'.color = d.color) (name : Text) :
    d'.remarkText name = d.remarkText name := by
  funext r
  simp only [remarkText, heading, paint, h]

theorem err_remarks (d : Diagnostics) (name : Text) (rs : List Remark) :
    (d.remarks name rs).err = d.err ++ rs.flatMap (d.remarkText name) := by
  induction rs generalizing d with
  | nil => exact (List.append_nil _).symm
  | cons r rs ih =>
      have hcons : d.remarks name (r :: rs) = (remark name d r).remarks name rs := rfl
      rw [hcons, ih, err_remark, remarkText_congr (color_remark name d r), List.flatMap_cons,
        List.append_assoc]

end Diagnostics

/-! ## Remarks on a file -/

namespace Format

variable {f : Format} {n : UInt32} {q q' : Query} {line : Text} {lines : List Text} {r : Reading}
  {remark : Remark} {remarks : List Remark}

/-- The remark is left by the line alone and points at what it is about: at a byte that is not
blank, or at the end of the line. -/
structure Marks (f : Format) (line : Text) (remark : Remark) : Prop where
  step : ∃ q q', f.Step remark.line q line q' [remark]
  one_le : 1 ≤ remark.column.toNat
  le_length : remark.column.toNat ≤ (dropReturn line).length + 1
  not_blank : ∀ b ∈ (dropReturn line).byteAt? remark.column.toNat, Text.isBlank b = false
  pointsAt : f.PointsAt (dropReturn line) remark.finding remark.column.toNat

/-- A step leaves one remark at most, and the remark marks the line. -/
theorem Step.remarks_eq (hf : f.Unambiguous) (hlength : (dropReturn line).length < 2 ^ 32 - 1)
    (h : f.Step n q line q' remarks) :
    remarks = [] ∨ ∃ remark, remarks = [remark] ∧ remark.line = n ∧ f.Marks line remark := by
  have hstep := h
  obtain ⟨l, hl, -, rfl⟩ := h.exists_readLine
  cases hremark : l.remark? n q with
  | none => exact Or.inl rfl
  | some remark =>
      rw [hremark, Option.toList_some] at hstep
      obtain ⟨rfl, hpoints⟩ := pointsAt_of_remark? hf hlength hl hremark
      obtain ⟨offset, hfirst⟩ := hpoints.exists_firstNonBlank
      exact Or.inr ⟨remark, rfl, rfl, ⟨_, _, hstep⟩, Nat.one_le_of_lt hfirst.offset_lt,
        hfirst.le_length, hfirst.not_blank, hpoints⟩

/-- The remark marks the line with the given index; the first of the lines has the number `n`. -/
def MarksLine (f : Format) (n : UInt32) (lines : List Text) (i : Nat) (remark : Remark) : Prop :=
  ∃ line, lines[i]? = some line ∧ remark.line = n + UInt32.ofNat i ∧ f.Marks line remark

theorem MarksLine.cons {i : Nat} (h : f.MarksLine (n + 1) lines i remark) (line : Text) :
    f.MarksLine n (line :: lines) (i + 1) remark := by
  obtain ⟨line', hline', hnumber, hmarks⟩ := h
  refine ⟨line', hline', hnumber.trans ?_, hmarks⟩
  rw [UInt32.ofNat_add, UInt32.add_assoc, UInt32.add_comm 1]
  rfl

theorem Run.exists_indices (hf : f.Unambiguous)
    (hlength : ∀ line ∈ lines, (dropReturn line).length < 2 ^ 32 - 1) (h : f.Run n q lines r) :
    ∃ indices : List Nat, indices.Pairwise (· < ·) ∧
      List.Forall₂ (f.MarksLine n lines) indices r.remarks := by
  induction h with
  | nil => exact ⟨[], .nil, .nil⟩
  | @cons n q q' line lines remarks r hstep _ ih =>
      obtain ⟨hline, hlines⟩ := List.forall_mem_cons.mp hlength
      obtain ⟨indices, hincreasing, hmarks⟩ := ih hlines
      -- The lines that remain have their indices one higher in the whole.
      have hshifted :
          List.Forall₂ (f.MarksLine n (line :: lines)) (indices.map (· + 1)) r.remarks :=
        List.forall₂_map_left_iff.mpr (hmarks.imp fun _ _ h => h.cons line)
      have hincreasing' : (indices.map (· + 1)).Pairwise (· < ·) :=
        List.pairwise_map.mpr (hincreasing.imp Nat.succ_lt_succ)
      rcases hstep.remarks_eq hf hline with rfl | ⟨remark, rfl, rfl, hmark⟩
      · exact ⟨_, hincreasing', hshifted⟩
      · refine ⟨0 :: indices.map (· + 1), ?_, .cons ⟨line, rfl, by simp, hmark⟩ hshifted⟩
        exact List.pairwise_cons.mpr ⟨by simp, hincreasing'⟩

/-- The remarks on a file come in the order of their lines, at most one for a line.  Each carries
the number of its line, counted from one as far as line numbers reach, and the column of the first
byte of what it is about.  They are printed with these numbers, in this order. -/
theorem remarks_located (t : Text)
    (h : ∀ line ∈ Text.lines t, (dropReturn line).length < 2 ^ 32 - 1) :
    ∃ r indices, standard.read t = .ok r ∧ indices.Pairwise (· < ·) ∧
      List.Forall₂ (fun i remark => ∃ line, (Text.lines t)[i]? = some line ∧
        remark.line = UInt32.ofNat (i + 1) ∧
        ((Text.lines t).length < 2 ^ 32 → remark.line.toNat = i + 1) ∧
        standard.Marks line remark) indices r.remarks ∧
      ∀ (d : Diagnostics) name,
        (d.remarks name r.remarks).err = d.err ++ r.remarks.flatMap (d.remarkText name) := by
  obtain ⟨r, hread, hrun⟩ := exists_run standard t
  obtain ⟨indices, hincreasing, hmarks⟩ := hrun.exists_indices unambiguous_standard h
  refine ⟨r, indices, hread, hincreasing, hmarks.imp fun i remark hmark => ?_,
    fun d name => d.err_remarks name r.remarks⟩
  obtain ⟨line, hline, hnumber, hmark⟩ := hmark
  have hnumber' : remark.line = UInt32.ofNat (i + 1) := by
    rw [hnumber, Nat.add_comm, UInt32.ofNat_add]
    rfl
  refine ⟨line, hline, hnumber', fun hlines => ?_, hmark⟩
  obtain ⟨hi, -⟩ := List.getElem?_eq_some_iff.mp hline
  rw [hnumber', UInt32.toNat_ofNat_of_lt']
  exact Nat.lt_of_le_of_lt hi hlines

end Format

namespace Sample

/-- An empty field, text after a quoted one, a quote that is not closed and a second row limit. -/
def marked : Text :=
  "table||a\r\n# joins\n where | \"a\" b\nselect| \"open\nlimit | 7\nLIMIT|8\ntable|"

def marks : List Remark :=
  [⟨1, 7, .complaint (.missing .tableName)⟩, ⟨3, 14, .complaint (.textAfterQuote 124)⟩,
    ⟨4, 9, .complaint .unterminatedQuote⟩, ⟨6, 1, .caution (.limitOverridden 7)⟩,
    ⟨7, 7, .complaint (.missing .tableName)⟩]

theorem marked_located : Format.standard.read marked = .ok ⟨{ limit? := some 8 }, marks⟩ ∧
    ∃ indices : List Nat, indices.Pairwise (· < ·) ∧
      List.Forall₂ (fun i remark => ∃ line, (Text.lines marked)[i]? = some line ∧
        remark.line = UInt32.ofNat (i + 1) ∧
        ((Text.lines marked).length < 2 ^ 32 → remark.line.toNat = i + 1) ∧
        Format.standard.Marks line remark) indices marks ∧
      (Diagnostics.remarks { color := false } "-" marks).err =
        marks.flatMap (Diagnostics.remarkText { color := false } "-") := by
  have hmarked : Format.standard.read marked = .ok ⟨{ limit? := some 8 }, marks⟩ := by
    decide +kernel
  obtain ⟨r, indices, hread, hincreasing, hmarks, hprinted⟩ :=
    Format.remarks_located marked (by decide)
  cases hread.symm.trans hmarked
  exact ⟨hmarked, indices, hincreasing, hmarks, hprinted _ _⟩

def malformed : Text := "x"

/-- Empty lines before a malformed one. -/
def lateMark (n : Nat) : Text := List.replicate n Text.lineFeed ++ malformed

theorem lines_lateMark (n : Nat) : Text.lines (lateMark n) = List.replicate n [] ++ [malformed] :=
  Text.lines_replicate_append n malformed

theorem read_lateMark (n : Nat) : Format.standard.read (lateMark n) =
    .ok ⟨.empty, [⟨1 + UInt32.ofNat n, 1, .complaint (.unknownKind malformed)⟩]⟩ := by
  have hline : Format.standard.readLine malformed =
      .ok (.rejected ⟨1, .unknownKind malformed⟩) := by
    decide +kernel
  rw [Format.read_eq_ok_iff, lines_lateMark]
  exact Format.Run.replicate_nil_append (.cons (.rejected hline) .nil)

/-- A file without a line feed at its end. -/
def returned : Text := "table|\r"

/-- Line numbers wrap around: a complaint about the line with the number `2 ^ 32` names line zero.
And a carriage return at the end of a file is not read as part of its last line, though no line feed
follows: the complaint about the empty field there names the column of the carriage return. -/
theorem marks_misplaced :
    (∀ line ∈ Text.lines (lateMark (2 ^ 32 - 1)), line.length < 2 ^ 32 - 1) ∧
    (∃ remark, Format.standard.read (lateMark (2 ^ 32 - 1)) = .ok ⟨.empty, [remark]⟩ ∧
      (Text.lines (lateMark (2 ^ 32 - 1)))[2 ^ 32 - 1]? = some malformed ∧
      remark.line = 0) ∧
    Text.lines returned = [returned] ∧
    Format.standard.read returned = .ok ⟨.empty, [⟨1, 7, .complaint (.missing .tableName)⟩]⟩ ∧
    ∃ b ∈ returned.byteAt? 7, Text.isBlank b = true := by
  refine ⟨fun line hline => ?_, ⟨_, read_lateMark _, ?_, by decide⟩, by decide, by decide +kernel,
    by decide⟩
  · rw [lines_lateMark] at hline
    rcases List.mem_append.mp hline with hline | hline
    · rw [List.eq_of_mem_replicate hline]
      decide
    · rw [List.mem_singleton.mp hline]
      decide
  · rw [lines_lateMark, List.getElem?_append_right (List.length_replicate).le,
      List.length_replicate, Nat.sub_self]
    rfl

end Sample

end SqlQuery
