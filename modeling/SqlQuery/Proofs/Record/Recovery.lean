import SqlQuery.Diagnostics
import SqlQuery.Proofs.Record.Line
import SqlQuery.Proofs.Text.Lines

/-!
# Recovery from malformed lines

A line is skipped, or rejected with one complaint, or adds one thing to the query (`Format.Step`),
and a file is read by one such step after the other (`Format.read_eq_ok_iff`).  So there are as many
complaints as rejected lines, and emptying these lines removes the complaints and nothing else
(`Format.read_recovers`).
-/

namespace SqlQuery

/-- The item of a record comes to the end of one list of the query, and nothing else changes. -/
inductive Query.Extends (q : Query) : Record → Query → Prop
  | selection (s : Selection) :
      q.Extends (.selection s) { q with selections := q.selections ++ [s] }
  | table (t : TableRef) : q.Extends (.table t) { q with tables := q.tables ++ [t] }
  | join (e : JoinEdge) : q.Extends (.join e) { q with joins := q.joins ++ [e] }
  | filter (p : Text) : q.Extends (.filter p) { q with filters := q.filters ++ [p] }
  | group (e : Text) : q.Extends (.group e) { q with groupBy := q.groupBy ++ [e] }
  | having (p : Text) : q.Extends (.having p) { q with having := q.having ++ [p] }
  | order (i : OrderItem) : q.Extends (.order i) { q with orderBy := q.orderBy ++ [i] }

def Remark.isComplaint (r : Remark) : Bool :=
  match r.finding with
  | .complaint _ => true
  | .caution _ => false

namespace LineReading

variable {n column : UInt32} {q : Query}

theorem toList_remark?_distinct : ((accepted column .distinct).remark? n q).toList =
    if q.distinct then [⟨n, column, .caution .repeatedDistinct⟩] else [] := by
  cases hd : q.distinct <;> simp [remark?, Record.caution?, hd]

theorem toList_remark?_limit (rows : UInt64) :
    ((accepted column (.limit rows)).remark? n q).toList =
      q.limit?.toList.map fun previous => ⟨n, column, .caution (.limitOverridden previous)⟩ := by
  cases hl : q.limit? <;> simp [remark?, Record.caution?, hl]

end LineReading

namespace Format

def rejects (f : Format) (line : Text) : Bool :=
  match f.readLine line with
  | .ok (.rejected _) => true
  | _ => false

/-- The line, or an empty one if it is rejected. -/
def emptied (f : Format) (line : Text) : Text := if f.rejects line then [] else line

/-- What reading the line with the given number does to the query, and the remarks on it. -/
inductive Step (f : Format) (n : UInt32) (q : Query) (line : Text) : Query → List Remark → Prop
  | skipped : f.isSkipped (dropReturn line) = true → Step f n q line q []
  | rejected {r : Rejection} : f.readLine line = .ok (.rejected r) →
      Step f n q line q [⟨n, r.column, .complaint r.complaint⟩]
  | extended {column : UInt32} {r : Record} {q' : Query} :
      f.readLine line = .ok (.accepted column r) → q.Extends r q' → Step f n q line q' []
  | distinct {column : UInt32} : f.readLine line = .ok (.accepted column .distinct) →
      Step f n q line { q with distinct := true }
        (if q.distinct then [⟨n, column, .caution .repeatedDistinct⟩] else [])
  | limit {column : UInt32} {rows : UInt64} :
      f.readLine line = .ok (.accepted column (.limit rows)) →
      Step f n q line { q with limit? := some rows }
        (q.limit?.toList.map fun previous => ⟨n, column, .caution (.limitOverridden previous)⟩)

/-- Reading lines one by one; the first of them has the given number. -/
inductive Run (f : Format) : UInt32 → Query → List Text → Reading → Prop
  | nil {n : UInt32} {q : Query} : Run f n q [] ⟨q, []⟩
  | cons {n : UInt32} {q q' : Query} {line : Text} {lines : List Text} {remarks : List Remark}
      {r : Reading} : Step f n q line q' remarks → Run f (n + 1) q' lines r →
      Run f n q (line :: lines) ⟨r.query, remarks ++ r.remarks⟩

variable {f : Format} {n : UInt32} {q q' : Query} {line : Text} {lines : List Text}
  {remarks : List Remark} {r : Reading}

/-! ## Reading is a run -/

theorem readFields_ne_skipped (xs : List Field) : readFields xs ≠ .ok .skipped := by
  unfold readFields
  split
  · nofun
  · split <;> nofun

theorem isSkipped_of_readLine (h : f.readLine line = .ok .skipped) :
    f.isSkipped (dropReturn line) = true := by
  rcases f.readLine_cases line with ⟨hskip, -⟩ | ⟨r, -, hread⟩ | ⟨xs, -, hread⟩
  · exact hskip
  · cases hread.symm.trans h
  · exact absurd (hread.symm.trans h) (readFields_ne_skipped xs)

theorem step_of_readLine {l : LineReading} (h : f.readLine line = .ok l) :
    Step f n q line (l.apply q) (l.remark? n q).toList := by
  cases l with
  | skipped => exact .skipped (isSkipped_of_readLine h)
  | rejected r => exact .rejected h
  | accepted column r =>
      cases r with
      | distinct => exact LineReading.toList_remark?_distinct ▸ .distinct h
      | limit rows => exact LineReading.toList_remark?_limit rows ▸ .limit h
      | selection s => exact .extended h (.selection s)
      | table t => exact .extended h (.table t)
      | join e => exact .extended h (.join e)
      | filter p => exact .extended h (.filter p)
      | group e => exact .extended h (.group e)
      | having p => exact .extended h (.having p)
      | order i => exact .extended h (.order i)

theorem Step.exists_readLine (h : Step f n q line q' remarks) : ∃ l, f.readLine line = .ok l ∧
    l.apply q = q' ∧ (l.remark? n q).toList = remarks := by
  cases h with
  | skipped h => exact ⟨_, readLine_of_skipped h, rfl, rfl⟩
  | rejected h => exact ⟨_, h, rfl, rfl⟩
  | extended h hq =>
      refine ⟨_, h, ?_⟩
      cases hq <;> exact ⟨rfl, rfl⟩
  | distinct h => exact ⟨_, h, rfl, LineReading.toList_remark?_distinct⟩
  | limit h => exact ⟨_, h, rfl, LineReading.toList_remark?_limit _⟩

theorem step_iff_of_readLine {l : LineReading} (h : f.readLine line = .ok l) :
    Step f n q line q' remarks ↔ q' = l.apply q ∧ remarks = (l.remark? n q).toList := by
  constructor
  · intro hstep
    obtain ⟨l', hl', hq, hremarks⟩ := hstep.exists_readLine
    cases h.symm.trans hl'
    exact ⟨hq.symm, hremarks.symm⟩
  · rintro ⟨rfl, rfl⟩
    exact step_of_readLine h

theorem run_iff : Run f n q lines r ↔
    ∃ ls, List.Forall₂ (fun line l => f.readLine line = .ok l) lines ls ∧
      Reading.ofLines n q ls = r := by
  constructor
  · intro h
    induction h with
    | nil => exact ⟨[], .nil, rfl⟩
    | cons hstep _ ih =>
        obtain ⟨l, hl, rfl, rfl⟩ := hstep.exists_readLine
        obtain ⟨ls, hls, rfl⟩ := ih
        exact ⟨l :: ls, .cons hl hls, rfl⟩
  · rintro ⟨ls, hls, rfl⟩
    induction hls generalizing n q with
    | nil => exact .nil
    | cons hl _ ih => exact .cons (step_of_readLine hl) ih

theorem read_eq_ok_iff {t : Text} : f.read t = .ok r ↔ Run f 1 .empty (Text.lines t) r := by
  obtain ⟨ls, hls⟩ := exists_forall₂_readLine f (Text.lines t)
  rw [run_iff, read_eq_ok hls]
  constructor
  · intro h
    exact ⟨ls, hls, Except.ok.inj h⟩
  · rintro ⟨ls', hls', rfl⟩
    rw [← read_eq_ok hls, read_eq_ok hls']

theorem exists_run (f : Format) (t : Text) :
    ∃ r, f.read t = .ok r ∧ Run f 1 .empty (Text.lines t) r := by
  obtain ⟨ls, hls⟩ := exists_forall₂_readLine f (Text.lines t)
  have hread := read_eq_ok hls
  exact ⟨_, hread, read_eq_ok_iff.mp hread⟩

/-! ## Repeated lines -/

/-- Lines that are rejected leave the query as it is. -/
theorem exists_run_replicate {rejection : Rejection}
    (h : f.readLine line = .ok (.rejected rejection)) (n : UInt32) (q : Query) (k : Nat) :
    ∃ remarks, Run f n q (List.replicate k line) ⟨q, remarks⟩ := by
  induction k generalizing n with
  | zero => exact ⟨[], .nil⟩
  | succ k ih =>
      obtain ⟨remarks, hrun⟩ := ih (n + 1)
      exact ⟨_, .cons (.rejected h) hrun⟩

/-- Empty lines only count. -/
theorem Run.replicate_nil_append {n : UInt32} {k : Nat} (h : Run f (n + UInt32.ofNat k) q lines r) :
    Run f n q (List.replicate k [] ++ lines) r := by
  induction k generalizing n with
  | zero => simpa using h
  | succ k ih =>
      rw [Nat.add_comm, UInt32.ofNat_add, ← UInt32.add_assoc] at h
      exact .cons (.skipped rfl) (ih h)

/-! ## Complaints -/

theorem rejects_of_readLine {rejection : Rejection}
    (h : f.readLine line = .ok (.rejected rejection)) : f.rejects line = true := by
  simp [rejects, h]

theorem not_rejects_of_skipped (h : f.isSkipped (dropReturn line) = true) :
    f.rejects line = false := by
  simp [rejects, readLine_of_skipped h]

theorem not_rejects_of_accepted {column : UInt32} {record : Record}
    (h : f.readLine line = .ok (.accepted column record)) : f.rejects line = false := by
  simp [rejects, h]

theorem Step.countP (h : Step f n q line q' remarks) :
    remarks.countP (·.isComplaint) = [line].countP f.rejects := by
  cases h with
  | skipped h => simp [not_rejects_of_skipped h]
  | rejected h => simp [rejects_of_readLine h, Remark.isComplaint]
  | extended h => simp [not_rejects_of_accepted h]
  | distinct h =>
      rw [List.countP_singleton, not_rejects_of_accepted h]
      split <;> rfl
  | limit h =>
      rw [List.countP_singleton, not_rejects_of_accepted h]
      cases q.limit? <;> rfl

theorem Run.countP (h : Run f n q lines r) :
    r.remarks.countP (·.isComplaint) = lines.countP f.rejects := by
  induction h with
  | nil => rfl
  | cons hstep _ ih =>
      rw [List.countP_append, hstep.countP, ih, ← List.countP_append, List.singleton_append]

/-! ## Emptied lines -/

theorem Step.emptied (h : Step f n q line q' remarks) :
    Step f n q (f.emptied line) q' (remarks.filter (!·.isComplaint)) := by
  cases hrejects : f.rejects line with
  | false =>
      have hcount := h.countP
      rw [List.countP_singleton, hrejects, if_neg Bool.false_ne_true, List.countP_eq_zero] at hcount
      have hfilter : remarks.filter (!·.isComplaint) = remarks :=
        List.filter_eq_self.mpr (by simpa using hcount)
      rwa [Format.emptied, hrejects, if_neg Bool.false_ne_true, hfilter]
  | true =>
      rw [Format.emptied, if_pos hrejects]
      cases h with
      | rejected => exact .skipped rfl
      | skipped h => simp [not_rejects_of_skipped h] at hrejects
      | extended h | distinct h | limit h => simp [not_rejects_of_accepted h] at hrejects

theorem Run.map_emptied (h : Run f n q lines r) :
    Run f n q (lines.map f.emptied) ⟨r.query, r.remarks.filter (!·.isComplaint)⟩ := by
  induction h with
  | nil => exact .nil
  | cons hstep _ ih =>
      rw [List.filter_append]
      exact .cons hstep.emptied ih

theorem run_append_nil_iff : Run f n q (lines ++ [[]]) r ↔ Run f n q lines r := by
  induction lines generalizing n q r with
  | nil =>
      constructor
      · rintro (_ | ⟨hstep, ⟨⟩⟩)
        obtain ⟨l, hl, rfl, rfl⟩ := hstep.exists_readLine
        cases (readLine_of_skipped rfl).symm.trans hl
        exact .nil
      · rintro ⟨⟩
        exact .cons (.skipped rfl) .nil
  | cons line lines ih =>
      constructor
      · rintro (_ | ⟨hstep, hrun⟩)
        exact .cons hstep (ih.mp hrun)
      · rintro (_ | ⟨hstep, hrun⟩)
        exact .cons hstep (ih.mpr hrun)

theorem read_mapLines_emptied {t : Text} (h : f.read t = .ok r) :
    f.read (Text.mapLines f.emptied t) = .ok ⟨r.query, r.remarks.filter (!·.isComplaint)⟩ := by
  have hline : ∀ l, Text.lineFeed ∉ l → Text.lineFeed ∉ f.emptied l := by
    intro l hl
    rw [emptied]
    split
    · exact List.not_mem_nil
    · exact hl
  have hnil : f.emptied [] = [] := by simp [emptied]
  have hrun := (read_eq_ok_iff.mp h).map_emptied
  obtain ⟨rest, rest', hrest, hrest', heq⟩ := Text.exists_lines_mapLines hline hnil t
  -- Both sides may end with an empty line of their own.
  have happend : Run f 1 .empty (Text.lines (Text.mapLines f.emptied t) ++ rest)
      ⟨r.query, r.remarks.filter (!·.isComplaint)⟩ := by
    rw [heq]
    rcases hrest' with rfl | rfl
    · simpa using hrun
    · exact run_append_nil_iff.mpr hrun
  rw [read_eq_ok_iff]
  rcases hrest with rfl | rfl
  · simpa using happend
  · exact run_append_nil_iff.mp happend

end Format

/-! ## Errors -/

namespace Diagnostics

theorem errors_remark (name : Text) (d : Diagnostics) (r : Remark) :
    (remark name d r).errors = d.errors + UInt32.ofNat ([r].countP (·.isComplaint)) := by
  obtain ⟨line, column, finding⟩ := r
  cases finding with
  | complaint c => rfl
  | caution c => simp [remark, report, printError, Remark.isComplaint]

theorem errors_remarks (d : Diagnostics) (name : Text) (rs : List Remark) :
    (d.remarks name rs).errors = d.errors + UInt32.ofNat (rs.countP (·.isComplaint)) := by
  induction rs generalizing d with
  | nil => simp [remarks]
  | cons r rs ih =>
      have hcons : d.remarks name (r :: rs) = (remark name d r).remarks name rs := rfl
      rw [hcons, ih, errors_remark, UInt32.add_assoc, ← UInt32.ofNat_add, ← List.countP_append,
        List.singleton_append]

/-- The counter comes back to where it was after `2 ^ 32` errors. -/
theorem errors_remarks_eq_iff {d : Diagnostics} {name : Text} {rs : List Remark} :
    (d.remarks name rs).errors = d.errors ↔ 2 ^ 32 ∣ rs.countP (·.isComplaint) := by
  rw [errors_remarks, UInt32.add_eq_left, ← UInt32.toNat_inj, UInt32.toNat_ofNat',
    UInt32.toNat_zero, Nat.dvd_iff_mod_eq_zero]

theorem toNat_errors_remarks {d : Diagnostics} {rs : List Remark}
    (h : d.errors.toNat + rs.countP (·.isComplaint) < 2 ^ 32) (name : Text) :
    (d.remarks name rs).errors.toNat = d.errors.toNat + rs.countP (·.isComplaint) := by
  have hcount : rs.countP (·.isComplaint) < 2 ^ 32 := (Nat.le_add_left _ _).trans_lt h
  rw [errors_remarks, UInt32.toNat_add, UInt32.toNat_ofNat_of_lt' hcount, Nat.mod_eq_of_lt h]

end Diagnostics

namespace Format

/-- Every line of a file is skipped, rejected with one complaint, or adds one thing to the query.
There are as many errors as rejected lines, and so many are counted unless the counter overflows.
Emptying these lines removes the errors and changes neither the query nor a warning. -/
theorem read_recovers (f : Format) (t : Text) : ∃ r, f.read t = .ok r ∧
    Run f 1 .empty (Text.lines t) r ∧
    r.remarks.countP (·.isComplaint) = (Text.lines t).countP f.rejects ∧
    (∀ d name, (Diagnostics.remarks d name r.remarks).errors =
      d.errors + UInt32.ofNat ((Text.lines t).countP f.rejects)) ∧
    (∀ (d : Diagnostics) name, d.errors.toNat + (Text.lines t).countP f.rejects < 2 ^ 32 →
      (d.remarks name r.remarks).errors.toNat =
        d.errors.toNat + (Text.lines t).countP f.rejects) ∧
    f.read (Text.mapLines f.emptied t) = .ok ⟨r.query, r.remarks.filter (!·.isComplaint)⟩ := by
  obtain ⟨r, hread, hrun⟩ := exists_run f t
  refine ⟨r, hread, hrun, hrun.countP, fun d name => ?_, fun d name hlt => ?_,
    read_mapLines_emptied hread⟩
  · rw [Diagnostics.errors_remarks, hrun.countP]
  · rw [← hrun.countP] at hlt ⊢
    exact Diagnostics.toNat_errors_remarks hlt name

end Format

end SqlQuery
