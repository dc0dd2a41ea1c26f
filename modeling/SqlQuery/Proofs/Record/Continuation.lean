import SqlQuery.Proofs.Record.RowLimit

/-!
# Files that go on

A file is read up to a line feed as if nothing followed, and what follows is read from there
(`Format.exists_read_append`).  So a limit record at the end of a file sets the row limit of its
query and does nothing else that counts as an error (`Format.exists_read_withLimitRecord`).
-/

namespace SqlQuery.Format

variable {f : Format} {n : UInt32} {q : Query} {lines : List Text} {r : Reading}
  {t number : Text} {rows : UInt64}

theorem Run.exists_append (h : Run f n q lines r) : ∃ m, ∀ lines' r',
    Run f m r.query lines' r' →
      Run f n q (lines ++ lines') ⟨r'.query, r.remarks ++ r'.remarks⟩ := by
  induction h with
  | nil => exact ⟨_, fun _ _ h => h⟩
  | cons hstep _ ih =>
      obtain ⟨m, hm⟩ := ih
      refine ⟨m, fun lines' r' h => ?_⟩
      rw [List.cons_append, List.append_assoc]
      exact .cons hstep (hm lines' r' h)

/-- A line break at the end of a file makes no difference. -/
theorem run_splitOn_iff : Run f n q (t.splitOn Text.lineFeed) r ↔ Run f n q (Text.lines t) r := by
  obtain ⟨rest, heq, rfl | rfl⟩ := Text.exists_splitOn_eq t
  · rw [heq, List.append_nil]
  · rw [heq, run_append_nil_iff]

theorem exists_read_append (h : f.read t = .ok r) : ∃ m, ∀ rest r',
    Run f m r.query (Text.lines rest) r' →
      f.read (t ++ Text.lineFeed :: rest) = .ok ⟨r'.query, r.remarks ++ r'.remarks⟩ := by
  obtain ⟨m, hm⟩ := (run_splitOn_iff.mpr (read_eq_ok_iff.mp h)).exists_append
  refine ⟨m, fun rest r' hrest => read_eq_ok_iff.mpr ?_⟩
  rw [Text.lines_append_cons]
  exact hm _ _ hrest

/-! ## A limit record at the end -/

/-- The record that sets the row limit to a number. -/
def limitRecord (number : Text) : Text := "limit|" ++ number

/-- The text with a line break, a limit record and a line break behind it. -/
def withLimitRecord (number t : Text) : Text :=
  t ++ Text.lineFeed :: (limitRecord number ++ [Text.lineFeed])

theorem isWord_of_denotes (h : number.Denotes rows.toNat) : standard.IsWord number := by
  obtain ⟨hne, hall, -⟩ := Text.denotes_iff_digitsValue.mp h
  exact isWord_of_digits hne hall

theorem limitRecord_eq (number : Text) :
    limitRecord number = standard.writeLine [.word "limit", .word number] := by
  have hlast : standard.writeLine [.word number] = number := by
    simp [writeLine, writeField]
  rw [writeLine_cons_cons, hlast]
  rfl

theorem decomposes_limitRecord (h : standard.IsWord number) :
    standard.Decomposes (dropReturn (limitRecord number)) [.plain "limit", .plain number] := by
  have hlegible : ∀ x ∈ [WrittenField.word "limit", .word number], x.Legible standard := by
    refine List.forall_mem_cons.mpr ⟨isWord_keyword .limit, List.forall_mem_singleton.mpr h⟩
  rw [limitRecord_eq, (framed_writeLine unambiguous_standard hlegible).dropReturn_eq]
  exact decomposes_writeLine hlegible

theorem lineFeed_not_mem_limitRecord (h : standard.IsWord number) :
    Text.lineFeed ∉ limitRecord number := by
  rw [limitRecord, List.mem_append, not_or]
  refine ⟨by decide, fun hmem => ?_⟩
  exact absurd (h.not_blank _ hmem) (by decide)

theorem exists_step_limitRecord (h : number.Denotes rows.toNat) (n : UInt32) (q : Query) :
    ∃ column, Step standard n q (limitRecord number) { q with limit? := some rows }
      (q.limit?.toList.map fun previous => ⟨n, column, .caution (.limitOverridden previous)⟩) := by
  have hword := isWord_of_denotes h
  have hcontent : (Segment.plain number).content = number := hword.framed.trim_eq
  obtain ⟨column, _, hstep⟩ := exists_step_limit_iff (decomposes_limitRecord hword) (by decide)
    (by rw [hcontent]; exact hword.ne_nil)
  refine ⟨column, (hstep _ _ _ _).mpr (Or.inl ⟨rows, ?_, rfl, rfl⟩)⟩
  rwa [hcontent]

/-- A limit record at the end of a file sets the row limit of its query; all that it can add to the
remarks is a warning. -/
theorem exists_read_withLimitRecord (h : number.Denotes rows.toNat) (hr : standard.read t = .ok r) :
    ∃ remarks, standard.read (withLimitRecord number t) =
        .ok ⟨{ r.query with limit? := some rows }, r.remarks ++ remarks⟩ ∧
      (r.remarks ++ remarks).countP (·.isComplaint) = r.remarks.countP (·.isComplaint) := by
  have hword := isWord_of_denotes h
  obtain ⟨m, hm⟩ := exists_read_append hr
  obtain ⟨column, hstep⟩ := exists_step_limitRecord h m r.query
  have hlines : Text.lines (limitRecord number ++ [Text.lineFeed]) = [limitRecord number] := by
    rw [Text.lines_append_lineFeed (lineFeed_not_mem_limitRecord hword), Text.lines]
  have hrun := Run.cons hstep .nil
  rw [← hlines] at hrun
  refine ⟨_, hm _ _ hrun, ?_⟩
  rw [List.countP_append, List.append_nil, Nat.add_eq_left, List.countP_map, List.countP_eq_zero]
  exact fun _ _ => Bool.false_ne_true

theorem countP_rejects_withLimitRecord (h : number.Denotes rows.toNat) (t : Text) :
    (Text.lines (withLimitRecord number t)).countP standard.rejects =
      (Text.lines t).countP standard.rejects := by
  obtain ⟨r, hr, -⟩ := exists_read standard t
  obtain ⟨remarks, hr', hcount⟩ := exists_read_withLimitRecord h hr
  rw [← (read_eq_ok_iff.mp hr').countP, ← (read_eq_ok_iff.mp hr).countP, hcount]

end SqlQuery.Format
