import SqlQuery.Proofs.Query.Outcome
import SqlQuery.Proofs.Record.Recovery
import SqlQuery.Proofs.Record.RoundTrip

/-!
# Row limits from the file to the SQL

The argument of a `limit` record is a row limit exactly if it denotes a number below `2 ^ 64`; then
the limit of the query is that number, and otherwise the record is rejected with one complaint
(`Format.exists_step_limit_iff`).  A query with a row limit is written with the decimal text of the
limit in the place that the dialect has for it (`Query.limitedBy_of_toSql`).
-/

namespace SqlQuery

theorem Record.Kind.ofText?_eq_some_iff {t : Text} {k : Kind} :
    ofText? t = some k ↔ Text.lower t = k.keyword := by
  constructor
  · intro h
    exact (by simpa using List.find?_some h : k.keyword = Text.lower t).symm
  · intro h
    have hself := ofText?_keyword k
    have hlower : Text.lower k.keyword = k.keyword := by cases k <;> decide
    rwa [ofText?, hlower, ← h] at hself

namespace Format

variable {f : Format} {line : Text} {s k a : Segment} {segments : List Segment}

/-! ## Lines that are not skipped -/

/-- A line begins, after blanks, as the content of a plain segment or with a quote. -/
theorem head?_trimLeft_writeSegments (hf : f.Unambiguous) (hs : f.Admits s) (hne : s.content ≠ [])
    (segments : List Segment) : ∃ b ∈ (Text.trimLeft (f.writeSegments (s :: segments))).head?,
      b = f.quote ∨ s.content.head? = some b := by
  rw [writeSegments_cons]
  cases s with
  | plain t =>
      have hblank : Text.allBlank t = false :=
        Bool.eq_false_iff.mpr fun h => hne (Text.trim_eq_nil_iff.mpr h)
      obtain ⟨b, hb, -⟩ := Text.exists_head_dropWhile hblank
      rw [writeSegment, (f.endsField_writeFollowing segments).trimLeft_append hf, List.head?_append]
      exact ⟨b, by rw [Text.trimLeft, hb]; rfl, Or.inr ((Text.head?_trim hblank).trans hb)⟩
  | quoted before body after =>
      rw [writeSegment, List.append_assoc, List.cons_append, trimLeft_quoted hf hs.1]
      exact ⟨f.quote, rfl, Or.inl rfl⟩

theorem Decomposes.isSkipped_eq_false (hf : f.Unambiguous) (hc : f.comment ≠ f.quote)
    (h : f.Decomposes line (s :: segments)) (hne : s.content ≠ [])
    (hhead : s.content.head? ≠ some f.comment) : f.isSkipped line = false := by
  obtain ⟨b, hb, hfirst⟩ :=
    head?_trimLeft_writeSegments hf (h.admits s List.mem_cons_self) hne segments
  rw [← h.line_eq] at hb
  have hblank : Text.allBlank line = false := by
    rw [← Bool.not_eq_true]
    intro hall
    rw [Text.trimLeft, List.dropWhile_eq_nil_iff.mpr (List.all_eq_true.mp hall)] at hb
    cases hb
  have hcomment : b ≠ f.comment := by
    rintro rfl
    exact hfirst.elim hc hhead
  rw [isSkipped, hblank, Text.head?_trim hblank, hb]
  simpa using hcomment

/-! ## Limit records -/

theorem head?_of_lower_eq_limit {t : Text} (h : Text.lower t = "limit") :
    t ≠ [] ∧ t.head? ≠ some standard.comment := by
  cases t with
  | nil => cases h
  | cons b t =>
      refine ⟨List.cons_ne_nil b t, fun hb => ?_⟩
      cases hb
      cases h

/-- A line of a limit kind and an argument is accepted or rejected as its argument is read. -/
theorem exists_readLine_limit (h : standard.Decomposes (dropReturn line) [k, a])
    (hk : Text.lower k.content = "limit") (ha : a.content ≠ []) : ∃ kindColumn column,
      standard.readLine line = .ok (match Text.toUInt64? a.content with
        | some n => .accepted kindColumn (.limit n)
        | none => .rejected ⟨column, .invalidLimit a.content⟩) := by
  obtain ⟨hne, hhead⟩ := head?_of_lower_eq_limit hk
  have hskip := h.isSkipped_eq_false unambiguous_standard (by decide) hne hhead
  obtain ⟨xs, hxs, htexts⟩ := h.exists_fields unambiguous_standard
  obtain ⟨kind, _, rfl, hkind, htexts⟩ := List.map_eq_cons_iff.mp htexts
  obtain ⟨rows, _, rfl, hrows, htexts⟩ := List.map_eq_cons_iff.mp htexts
  obtain rfl := List.map_eq_nil_iff.mp htexts
  have hkindof : Record.Kind.ofText? kind.text = some .limit :=
    Record.Kind.ofText?_eq_some_iff.mpr (hkind ▸ hk)
  refine ⟨kind.column, rows.column, (readLine_of_fields hskip hxs).trans ?_⟩
  simp only [readFields, Record.ofFields, hkindof, Record.ofArguments?, Record.ofLimit,
    Field.required_eq_ok hrows ha, bind, Except.bind]
  cases Text.toUInt64? a.content <;> rfl

/-- The argument of a limit record denotes the new row limit of the query, or nothing but one
complaint comes of the record.  A row limit that is replaced is mentioned in a warning. -/
theorem exists_step_limit_iff (h : standard.Decomposes (dropReturn line) [k, a])
    (hk : Text.lower k.content = "limit") (ha : a.content ≠ []) : ∃ kindColumn column,
      ∀ m q q' remarks, Step standard m q line q' remarks ↔
        (∃ n : UInt64, a.content.Denotes n.toNat ∧ q' = { q with limit? := some n } ∧
          remarks = q.limit?.toList.map fun previous =>
            ⟨m, kindColumn, .caution (.limitOverridden previous)⟩) ∨
        (∀ n : UInt64, ¬a.content.Denotes n.toNat) ∧ q' = q ∧
          remarks = [⟨m, column, .complaint (.invalidLimit a.content)⟩] := by
  obtain ⟨kindColumn, column, hread⟩ := exists_readLine_limit h hk ha
  refine ⟨kindColumn, column, fun m q q' remarks => (step_iff_of_readLine hread).trans ?_⟩
  cases hn : Text.toUInt64? a.content with
  | none =>
      have hnone := Text.toUInt64?_eq_none_iff.mp hn
      constructor
      · rintro ⟨rfl, rfl⟩
        exact Or.inr ⟨hnone, rfl, rfl⟩
      · rintro (⟨n, hdenotes, -⟩ | ⟨-, rfl, rfl⟩)
        · exact absurd hdenotes (hnone n)
        · exact ⟨rfl, rfl⟩
  | some n =>
      have hdenotes := Text.toUInt64?_eq_some_iff.mp hn
      dsimp only
      rw [LineReading.toList_remark?_limit]
      constructor
      · rintro ⟨rfl, rfl⟩
        exact Or.inl ⟨n, hdenotes, rfl, rfl⟩
      · rintro (⟨n', hdenotes', rfl, rfl⟩ | ⟨hnone, -⟩)
        · cases hn.symm.trans (Text.toUInt64?_eq_some_iff.mpr hdenotes')
          exact ⟨rfl, rfl⟩
        · exact absurd hdenotes (hnone n)

theorem write_limit (n : UInt64) :
    standard.write { limit? := some n } = Text.ofLines ["limit|" ++ Text.ofNat n.toNat] := by
  have hrecords : Query.records { limit? := some n } = [.limit n] := rfl
  have hfields : (Record.limit n).writtenFields =
      [.word "limit", .word (Text.ofNat n.toNat)] := rfl
  have hlast : standard.writeLine [.word (Text.ofNat n.toNat)] = Text.ofNat n.toNat := by
    simp [writeLine, writeField]
  rw [write, hrecords, List.map_singleton, hfields, writeLine_cons_cons, hlast]
  rfl

/-- The decimal text of a row limit is read as that limit. -/
theorem read_limit (n : UInt64) :
    standard.read (Text.ofLines ["limit|" ++ Text.ofNat n.toNat]) =
      .ok ⟨{ limit? := some n }, []⟩ := by
  have hwritable : Query.Writable { limit? := some n } := by
    intro r hr
    obtain rfl := List.mem_singleton.mp hr
    exact ⟨trivial, fun t ht => absurd ht List.not_mem_nil⟩
  rw [← write_limit]
  exact read_write_of_writable hwritable

end Format

/-! ## Written queries -/

/-- The lines of a query restrict its rows to a number, in the way of the style. -/
inductive LimitedBy (number : Text) : LimitStyle → List Text → Prop
  | limit {ls : List Text} : LimitedBy number .limit (ls ++ ["LIMIT " ++ number])
  | fetchFirst {ls : List Text} :
      LimitedBy number .fetchFirst (ls ++ ["FETCH FIRST " ++ number ++ " ROWS ONLY"])
  | top {distinct : Text} {ls : List Text} : distinct = [] ∨ distinct = " DISTINCT" →
      LimitedBy number .top (("SELECT" ++ distinct ++ (" TOP " ++ number)) :: ls)

namespace Query

variable {q : Query} {d : Dialect} {n : UInt64} {sql : Text}

/-- A query with a row limit is written only in a dialect that has row limits, and then with the
decimal text of its limit. -/
theorem limitedBy_of_toSql (hn : q.limit? = some n) (h : q.toSql d = .ok sql) :
    ∃ ls, sql = Text.ofLines ls ∧
      LimitedBy (Text.ofNat n.toNat) d.capabilities.limitStyle ls := by
  obtain ⟨hobstacle, s, -, rfl⟩ := toSql_eq_ok_iff.mp h
  refine ⟨_, rfl, ?_⟩
  cases hstyle : d.capabilities.limitStyle with
  | noLimit =>
      rcases limit_of_obstacle? hobstacle with hnone | hsome
      · cases hn.symm.trans hnone
      · exact absurd hstyle hsome
  | limit =>
      have hclause : limitClause d q = ["LIMIT " ++ Text.ofNat n.toNat] := by
        rw [limitClause, hn, hstyle]
        rfl
      rw [sqlLines, hclause]
      exact .limit
  | fetchFirst =>
      have hclause : limitClause d q = ["FETCH FIRST " ++ Text.ofNat n.toNat ++ " ROWS ONLY"] := by
        rw [limitClause, hn, hstyle]
        rfl
      rw [sqlLines, hclause]
      exact .fetchFirst
  | top =>
      have hkeyword : selectKeyword d q =
          "SELECT" ++ (if q.distinct then (" DISTINCT" : Text) else []) ++
            (" TOP " ++ Text.ofNat n.toNat) := by
        rw [selectKeyword, hn, hstyle]
        rfl
      rw [sqlLines, selectClause, hkeyword]
      refine .top ?_
      cases q.distinct
      · exact Or.inl rfl
      · exact Or.inr rfl

end Query

/-- A limit record is accepted exactly if its argument consists of digits with a value below
`2 ^ 64`, whatever the zeros before it, and that value is the new row limit; otherwise it is
rejected with one complaint.  Every row limit is read from its decimal text, and a query is written
with the same text in the place for its limit. -/
theorem rowLimit_exact :
    (∀ line k a, Format.standard.Decomposes (Format.dropReturn line) [k, a] →
      Text.lower k.content = "limit" → a.content ≠ [] → ∃ kindColumn column,
      ∀ m q q' remarks, Format.standard.Step m q line q' remarks ↔
        (∃ n : UInt64, a.content.Denotes n.toNat ∧ q' = { q with limit? := some n } ∧
          remarks = q.limit?.toList.map fun previous =>
            ⟨m, kindColumn, .caution (.limitOverridden previous)⟩) ∨
        (∀ n : UInt64, ¬a.content.Denotes n.toNat) ∧ q' = q ∧
          remarks = [⟨m, column, .complaint (.invalidLimit a.content)⟩]) ∧
    (∀ t n, Text.Denotes t n ↔ ∃ zeros, t = List.replicate zeros 48 ++ Text.ofNat n) ∧
    ∀ n : UInt64,
      Format.standard.read (Text.ofLines ["limit|" ++ Text.ofNat n.toNat]) =
        .ok ⟨{ limit? := some n }, []⟩ ∧
      ∀ (q : Query) d sql, q.limit? = some n → q.toSql d = .ok sql →
        ∃ ls, sql = Text.ofLines ls ∧
          LimitedBy (Text.ofNat n.toNat) d.capabilities.limitStyle ls :=
  ⟨fun _ _ _ => Format.exists_step_limit_iff, fun _ _ => Text.denotes_iff_zeros,
    fun n => ⟨Format.read_limit n, fun _ _ _ => Query.limitedBy_of_toSql⟩⟩

namespace Sample

/-- Blanks, capitals, zeros before the number and a carriage return. -/
def limitLine : Text := " LIMIT |007\r"

/-- The least number that is no row limit. -/
def excessiveLine : Text := "limit|18446744073709551616"

theorem limitLine_decomposes :
    Format.standard.Decomposes (Format.dropReturn limitLine) [.plain " LIMIT ", .plain "007"] :=
  ⟨by decide, List.forall_mem_cons.mpr ⟨⟨by decide, by decide⟩, List.forall_mem_singleton.mpr
    ⟨by decide, by decide⟩⟩, by decide⟩

theorem excessiveLine_decomposes :
    Format.standard.Decomposes (Format.dropReturn excessiveLine)
      [.plain "limit", .plain "18446744073709551616"] :=
  ⟨by decide, List.forall_mem_cons.mpr ⟨⟨by decide, by decide⟩, List.forall_mem_singleton.mpr
    ⟨by decide, by decide⟩⟩, by decide⟩

def limited : Query where
  tables := [tableA]
  limit? := some 7

theorem limits_exact :
    (∃ kindColumn, Format.standard.Step 1 { limit? := some 5 } limitLine { limit? := some 7 }
      [⟨1, kindColumn, .caution (.limitOverridden 5)⟩]) ∧
    (∃ column, Format.standard.Step 1 limited excessiveLine limited
      [⟨1, column, .complaint (.invalidLimit "18446744073709551616")⟩]) ∧
    limited.toSql .mssql = .ok (Text.ofLines
      ["SELECT TOP 7", "          *", "FROM", "          A"]) ∧
    ∃ ls, Text.ofLines ["SELECT TOP 7", "          *", "FROM", "          A"] = Text.ofLines ls ∧
      LimitedBy (Text.ofNat 7) .top ls := by
  obtain ⟨hread, -, hlimit⟩ := rowLimit_exact
  have hsql : limited.toSql .mssql = .ok (Text.ofLines
      ["SELECT TOP 7", "          *", "FROM", "          A"]) := by cbv
  refine ⟨?_, ?_, hsql, (hlimit 7).2 limited .mssql _ rfl hsql⟩
  · obtain ⟨kindColumn, _, hstep⟩ := hread _ _ _ limitLine_decomposes (by decide) (by decide)
    have hdenotes : Text.Denotes "007" (7 : UInt64).toNat :=
      Text.denotes_iff_digitsValue.mpr ⟨by decide, by decide, by decide⟩
    exact ⟨kindColumn, (hstep _ _ _ _).mpr (Or.inl ⟨7, hdenotes, rfl, rfl⟩)⟩
  · obtain ⟨_, column, hstep⟩ := hread _ _ _ excessiveLine_decomposes (by decide) (by decide)
    refine ⟨column, (hstep _ _ _ _).mpr (Or.inr ⟨fun n hn => ?_, rfl, rfl⟩)⟩
    have hvalue : 18446744073709551616 = n.toNat := hn.value
    exact absurd n.toNat_lt_size (by rw [← hvalue]; decide)

end Sample

end SqlQuery
