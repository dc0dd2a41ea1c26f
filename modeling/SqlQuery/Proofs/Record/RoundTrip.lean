import SqlQuery.Proofs.Record.Line
import SqlQuery.Proofs.Text.Lines

/-!
# Reading undoes writing

The queries that can be read are those whose records are complete and have no line feed
(`Query.Writable`).  Each of them is written as a file that reads as that query without any remark,
and the query of any file is one of them (`Format.read_write`).
-/

namespace SqlQuery

/-- The record is complete and fits on a line. -/
structure Record.Writable (r : Record) : Prop where
  complete : r.Complete
  no_lineFeed : ∀ t ∈ r.texts, Text.lineFeed ∉ t

/-- Every part of the query can be written as a record. -/
def Query.Writable (q : Query) : Prop := ∀ r ∈ q.records, r.Writable

instance (r : Record) : Decidable r.Complete :=
  match r with
  | .distinct | .table _ | .limit _ => .isTrue trivial
  | .selection s => inferInstanceAs (Decidable (s.expression ≠ [] ∧ s.alias? ≠ some []))
  | .join e => inferInstanceAs (Decidable (e.predicate ≠ []))
  | .filter t | .group t | .having t => inferInstanceAs (Decidable (t ≠ []))
  | .order i => inferInstanceAs (Decidable (i.expression ≠ []))

instance (r : Record) : Decidable r.Writable :=
  decidable_of_iff (r.Complete ∧ ∀ t ∈ r.texts, Text.lineFeed ∉ t)
    ⟨fun h => ⟨h.1, h.2⟩, fun h => ⟨h.1, h.2⟩⟩

instance (q : Query) : Decidable q.Writable :=
  inferInstanceAs (Decidable (∀ r ∈ q.records, r.Writable))

/-! ## Building a query -/

namespace Query

/-- Adding the records one by one leads from one query to another, and none of them repeats or
overrides what was there. -/
inductive Builds : Query → List Record → Query → Prop
  | nil {q : Query} : Builds q [] q
  | cons {q q' : Query} {r : Record} {rs : List Record} :
      r.caution? q = none → Builds (q.add r) rs q' → Builds q (r :: rs) q'

namespace Builds

variable {q q' q'' : Query} {rs rs' : List Record}

theorem append (h : Builds q rs q') (h' : Builds q' rs' q'') : Builds q (rs ++ rs') q'' := by
  induction h with
  | nil => exact h'
  | cons hcaution _ ih => exact cons hcaution (ih h')

theorem map {α : Type} {c : α → Record} (part : List α → Query)
    (hadd : ∀ as a, (part as).add (c a) = part (as ++ [a]))
    (hcaution : ∀ q a, (c a).caution? q = none) (bs : List α) :
    Builds (part []) (bs.map c) (part bs) := by
  -- The records are appended to what the part already holds.
  suffices ∀ as, Builds (part as) (bs.map c) (part (as ++ bs)) from this []
  induction bs with
  | nil => simpa using fun as => nil
  | cons b bs ih =>
      intro as
      have hrest := ih (as ++ [b])
      rw [← hadd, List.append_assoc, List.singleton_append] at hrest
      exact cons (hcaution _ _) hrest

theorem records (q : Query) : Builds .empty q.records q := by
  obtain ⟨d, ss, ts, js, fs, gs, hs, os, l?⟩ := q
  have hdistinct : Builds .empty (if d then [.distinct] else []) { distinct := d } := by
    cases d with
    | true => exact cons rfl nil
    | false => exact nil
  have hlimit : Builds ⟨d, ss, ts, js, fs, gs, hs, os, none⟩ (l?.toList.map .limit)
      ⟨d, ss, ts, js, fs, gs, hs, os, l?⟩ := by
    cases l? with
    | none => exact nil
    | some n => exact cons rfl nil
  exact hdistinct
    |>.append (map (⟨d, ·, [], [], [], [], [], [], none⟩) (fun _ _ => rfl) (fun _ _ => rfl) ss)
    |>.append (map (⟨d, ss, ·, [], [], [], [], [], none⟩) (fun _ _ => rfl) (fun _ _ => rfl) ts)
    |>.append (map (⟨d, ss, ts, ·, [], [], [], [], none⟩) (fun _ _ => rfl) (fun _ _ => rfl) js)
    |>.append (map (⟨d, ss, ts, js, ·, [], [], [], none⟩) (fun _ _ => rfl) (fun _ _ => rfl) fs)
    |>.append (map (⟨d, ss, ts, js, fs, ·, [], [], none⟩) (fun _ _ => rfl) (fun _ _ => rfl) gs)
    |>.append (map (⟨d, ss, ts, js, fs, gs, ·, [], none⟩) (fun _ _ => rfl) (fun _ _ => rfl) hs)
    |>.append (map (⟨d, ss, ts, js, fs, gs, hs, ·, none⟩) (fun _ _ => rfl) (fun _ _ => rfl) os)
    |>.append hlimit

end Builds

theorem mem_records_add {q : Query} {r x : Record} (h : x ∈ (q.add r).records) :
    x ∈ q.records ∨ x = r := by
  simp only [records, List.mem_append] at h ⊢
  cases r <;>
    simp only [add, ↓reduceIte, Option.toList_some, List.map_append, List.map_cons, List.map_nil,
      List.mem_append, List.mem_singleton] at h <;>
    tauto

end Query

/-! ## Reading lines -/

namespace Reading

variable {q q' : Query} {ls : List LineReading} {rs : List Record}

theorem ofLines_of_builds (hq : q.Builds rs q')
    (h : List.Forall₂ (fun l r => ∃ column, l = .accepted column r) ls rs) (line : UInt32) :
    ofLines line q ls = ⟨q', []⟩ := by
  induction hq generalizing line ls with
  | nil =>
      cases h
      rfl
  | cons hcaution _ ih =>
      cases h with
      | cons hl hls =>
          obtain ⟨column, rfl⟩ := hl
          simp [ofLines, LineReading.apply, LineReading.remark?, hcaution, ih hls]

/-- Every record of the query was there before or is one that a line adds. -/
theorem mem_records_ofLines {r : Record} {n : UInt32} (h : r ∈ (ofLines n q ls).query.records) :
    r ∈ q.records ∨ ∃ column, .accepted column r ∈ ls := by
  induction ls generalizing n q with
  | nil => exact Or.inl h
  | cons l ls ih =>
      rcases ih h with hq | ⟨column, hl⟩
      · cases l with
        | skipped => exact Or.inl hq
        | rejected => exact Or.inl hq
        | accepted column x =>
            rcases Query.mem_records_add hq with hq | rfl
            · exact Or.inl hq
            · exact Or.inr ⟨column, List.mem_cons_self⟩
      · exact Or.inr ⟨column, List.mem_cons_of_mem _ hl⟩

end Reading

namespace Format

variable {f : Format} {q : Query} {lines : List Text} {ls : List LineReading}

/-! ## Every query that is read can be written -/

theorem exists_read_records (f : Format) (t : Text) : ∃ r, f.read t = .ok r ∧
    ∀ x ∈ r.query.records, ∃ line ∈ Text.lines t, ∃ column,
      f.readLine line = .ok (.accepted column x) := by
  obtain ⟨ls, hls⟩ := exists_forall₂_readLine f (Text.lines t)
  have hmap : (Text.lines t).map f.readLine = ls.map .ok :=
    List.forall₂_eq_eq_eq ▸ List.forall₂_map_left_iff.mpr (List.forall₂_map_right_iff.mpr hls)
  refine ⟨_, read_eq_ok hls, fun x hx => ?_⟩
  rcases Reading.mem_records_ofLines hx with hempty | ⟨column, hx⟩
  · cases hempty
  · obtain ⟨line, hline, hread⟩ := List.mem_map.mp (hmap ▸ List.mem_map_of_mem hx)
    exact ⟨line, hline, column, hread⟩

theorem writable_of_readLine {line : Text} {column : UInt32} {r : Record}
    (h : f.readLine line = .ok (.accepted column r)) (hline : Text.lineFeed ∉ line) :
    r.Writable := by
  obtain ⟨xs, hxs, hcomplete, hmem⟩ := drawnFrom_of_readLine h
  refine ⟨hcomplete, fun t ht hfeed => ?_⟩
  rcases hmem t ht with rfl | ht
  · cases hfeed
  · obtain ⟨x, hx, rfl⟩ := List.mem_map.mp ht
    exact hline (dropReturn_subset line ((split_eq_ok hxs).2 x hx hfeed))

theorem exists_read (f : Format) (t : Text) : ∃ r, f.read t = .ok r ∧ r.query.Writable := by
  obtain ⟨r, hr, hrecords⟩ := exists_read_records f t
  refine ⟨r, hr, fun x hx => ?_⟩
  obtain ⟨line, hline, column, hread⟩ := hrecords x hx
  exact writable_of_readLine hread (Text.not_mem_of_mem_lines hline)

/-! ## Every such query is read from what is written -/

theorem not_mem_writtenFields {r : Record} (hr : r.Writable) :
    Text.lineFeed ∉ standard.writeLine r.writtenFields :=
  not_mem_writeLine (by decide) (by decide) (by decide) fun x hx =>
    (Record.writes_of_mem_writtenFields x hx).not_mem_content hr.no_lineFeed

theorem exists_readLine_writtenFields {rs : List Record} (h : ∀ r ∈ rs, r.Writable) : ∃ ls,
    List.Forall₂ (fun line l => standard.readLine line = .ok l)
      (rs.map fun r => standard.writeLine r.writtenFields) ls ∧
    List.Forall₂ (fun l r => ∃ column, l = .accepted column r) ls rs := by
  induction rs with
  | nil => exact ⟨[], .nil, .nil⟩
  | cons r rs ih =>
      obtain ⟨hr, hrs⟩ := List.forall_mem_cons.mp h
      obtain ⟨column, hl⟩ := readLine_writtenFields hr.complete
      obtain ⟨ls, hread, haccepted⟩ := ih hrs
      exact ⟨.accepted column r :: ls, .cons hl hread, .cons ⟨column, rfl⟩ haccepted⟩

theorem read_write_of_writable (hq : q.Writable) :
    standard.read (standard.write q) = .ok ⟨q, []⟩ := by
  obtain ⟨ls, hread, haccepted⟩ := exists_readLine_writtenFields hq
  have hlines : Text.lines (standard.write q) =
      q.records.map fun r => standard.writeLine r.writtenFields := by
    refine Text.lines_ofLines fun line hline => ?_
    obtain ⟨r, hr, rfl⟩ := List.mem_map.mp hline
    exact not_mem_writtenFields (hq r hr)
  rw [read_eq_ok (hlines ▸ hread),
    Reading.ofLines_of_builds (Query.Builds.records q) haccepted]

/-- Files express exactly the writable queries, and reading undoes writing. -/
theorem read_write :
    (∀ q : Query, q.Writable → standard.read (standard.write q) = .ok ⟨q, []⟩) ∧
      ∀ t, ∃ r, standard.read t = .ok r ∧ r.query.Writable ∧
        standard.read (standard.write r.query) = .ok ⟨r.query, []⟩ := by
  refine ⟨fun q hq => read_write_of_writable hq, fun t => ?_⟩
  obtain ⟨r, hr, hq⟩ := exists_read standard t
  exact ⟨r, hr, hq, read_write_of_writable hq⟩

end Format

namespace Sample

/-- The delimiter, the quote, the escape, the comment byte, a blank and a carriage return. -/
def awkwardText : Text := [124, 34, 92, 35, 32, 13]

def awkwardQuery : Query where
  distinct := true
  selections := [⟨awkwardText, some awkwardText⟩, ⟨"*", none⟩]
  filters := [awkwardText]
  orderBy := [⟨awkwardText, false⟩]
  limit? := some 18446744073709551615

theorem read_write_awkwardQuery : awkwardQuery.Writable ∧
    Format.standard.read (Format.standard.write awkwardQuery) = .ok ⟨awkwardQuery, []⟩ :=
  ⟨by decide, Format.read_write.1 awkwardQuery (by decide)⟩

end Sample

end SqlQuery
