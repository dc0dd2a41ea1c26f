import SqlQuery.Proofs.Join.Placement
import SqlQuery.Proofs.Query.Source
import SqlQuery.Proofs.Record.Plain

/-!
# The layout of a written query

A query whose texts are trimmed and have no line feed is written on lines that are not empty and do
not end in a blank, as many of them as its parts call for (`lines_of_toSql`).  A file without quotes
holds such a query (`toSql_of_plain_file`).
-/

namespace SqlQuery

/-! ## Lines -/

/-- A text without line feed that ends in a byte that is not blank. -/
structure Text.IsLine (t : Text) : Prop where
  no_lineFeed : lineFeed ∉ t
  last : ∃ b ∈ t.getLast?, isBlank b = false

namespace Text

variable {s t : Text}

instance (t : Text) : Decidable t.IsLine :=
  decidable_of_iff (lineFeed ∉ t ∧ ∃ b ∈ t.getLast?, isBlank b = false)
    ⟨fun h => ⟨h.1, h.2⟩, fun h => ⟨h.1, h.2⟩⟩

theorem IsLine.append (hs : lineFeed ∉ s) (ht : t.IsLine) : (s ++ t).IsLine := by
  obtain ⟨b, hb, hblank⟩ := ht.last
  refine ⟨?_, b, by simp_all, hblank⟩
  simp [hs, ht.no_lineFeed]

theorem Trimmed.isLine (h : t.Trimmed) (hne : t ≠ []) (hfeed : lineFeed ∉ t) : t.IsLine :=
  ⟨hfeed, (h hne).last⟩

theorem isLine_ofNat (n : Nat) : (ofNat n).IsLine := by
  have hword := Format.isWord_ofNat n
  exact ⟨fun h => absurd (hword.not_blank _ h) (by decide), hword.framed.last⟩

theorem getLast?_ofLines {ls : List Text} (h : ls ≠ []) :
    (ofLines ls).getLast? = some lineFeed := by
  rw [← List.dropLast_append_getLast h]
  simp [ofLines]

end Text

theorem TableRef.isLine_reference {t : TableRef}
    (h : ∀ x ∈ t.texts, Text.lineFeed ∉ x ∧ x.Trimmed) : t.reference.IsLine := by
  obtain ⟨⟨hfeed, htrim⟩, halias⟩ := List.forall_mem_cons.mp h
  have hname := htrim.isLine t.name_ne_nil hfeed
  rw [reference]
  cases ha : t.alias? with
  | none => exact hname
  | some a =>
      have hne : a ≠ [] := by
        rintro rfl
        exact t.alias_ne_nil ha
      obtain ⟨hfeed', htrim'⟩ := halias a (by simp [ha])
      refine (htrim'.isLine hne hfeed').append ?_
      exact List.not_mem_append hfeed (by decide)

namespace Query

variable {d : Dialect} {q : Query} {s : Source} {sql : Text} {first next keyword : Text}
  {items predicates : List Text}

/-! ## Queries that fit on lines -/

/-- Every text of the query can be written on a line, and those that may stand at its end do not end
in a blank. -/
structure Printable (q : Query) : Prop where
  selections : ∀ s ∈ q.selections, s.expression.IsLine ∧ ∀ a ∈ s.alias?, a.IsLine
  tables : ∀ t ∈ q.tables, t.reference.IsLine
  joins : ∀ e ∈ q.joins, Text.lineFeed ∉ e.predicate
  filters : ∀ p ∈ q.filters, Text.lineFeed ∉ p
  groupBy : ∀ e ∈ q.groupBy, e.IsLine
  having : ∀ p ∈ q.having, Text.lineFeed ∉ p
  orderBy : ∀ i ∈ q.orderBy, Text.lineFeed ∉ i.expression

theorem printable_of_records (h : q.Writable) (ht : ∀ r ∈ q.records, r.Trimmed) :
    q.Printable := by
  have hfeed : ∀ r ∈ q.records, ∀ t ∈ r.texts, Text.lineFeed ∉ t := fun r hr => (h r hr).no_lineFeed
  refine ⟨fun s hs => ?_, fun t ht' => ?_, fun e he => ?_, fun p hp => ?_, fun e he => ?_,
    fun p hp => ?_, fun i hi => ?_⟩
  · have hr : .selection s ∈ q.records := by simp [records, hs]
    obtain ⟨hne, hsome⟩ := (h _ hr).complete
    refine ⟨(ht _ hr _ (by simp [Record.texts])).isLine hne (hfeed _ hr _ (by simp [Record.texts])),
      fun a ha => ?_⟩
    have hmem : a ∈ (Record.selection s).texts := by simp_all [Record.texts]
    refine (ht _ hr a hmem).isLine ?_ (hfeed _ hr a hmem)
    rintro rfl
    exact hsome ha
  · have hr : .table t ∈ q.records := by simp [records, ht']
    exact TableRef.isLine_reference fun x hx => ⟨hfeed _ hr x hx, ht _ hr x hx⟩
  · exact hfeed (.join e) (by simp [records, he]) _ (by simp [Record.texts])
  · exact hfeed (.filter p) (by simp [records, hp]) _ (by simp [Record.texts])
  · have hr : .group e ∈ q.records := by simp [records, he]
    have hmem : e ∈ (Record.group e).texts := by simp [Record.texts]
    exact (ht _ hr e hmem).isLine (h _ hr).complete (hfeed _ hr e hmem)
  · exact hfeed (.having p) (by simp [records, hp]) _ (by simp [Record.texts])
  · exact hfeed (.order i) (by simp [records, hi]) _ (by simp [Record.texts])

/-! ## Clauses -/

/-- The number of lines of a clause with so many items. -/
def clauseLength (items : Nat) : Nat := if items = 0 then 0 else items + 1

theorem length_itemLines (first next : Text) (items : List Text) :
    (itemLines first next items).length = items.length := by
  cases items <;> simp [itemLines]

theorem isLine_itemLines (hfirst : Text.lineFeed ∉ first) (hnext : Text.lineFeed ∉ next)
    (h : ∀ i ∈ items, i.IsLine) : ∀ l ∈ itemLines first next items, l.IsLine := by
  cases items with
  | nil => nofun
  | cons i is =>
      obtain ⟨hi, his⟩ := List.forall_mem_cons.mp h
      refine List.forall_mem_cons.mpr ⟨hi.append hfirst, fun l hl => ?_⟩
      obtain ⟨j, hj, rfl⟩ := List.mem_map.mp hl
      exact (his j hj).append hnext

theorem length_listClause (keyword : Text) (items : List Text) :
    (listClause keyword items).length = clauseLength items.length := by
  rw [listClause]
  cases items with
  | nil => rfl
  | cons i is => simp [clauseLength, length_itemLines]

theorem isLine_listClause (hk : keyword.IsLine) (h : ∀ i ∈ items, i.IsLine) :
    ∀ l ∈ listClause keyword items, l.IsLine := by
  rw [listClause]
  split
  · nofun
  · exact List.forall_mem_cons.mpr ⟨hk, isLine_itemLines (by decide) (by decide) h⟩

theorem length_conjunctionClause (keyword : Text) (predicates : List Text) :
    (conjunctionClause keyword predicates).length = clauseLength predicates.length := by
  rw [conjunctionClause]
  cases predicates with
  | nil => rfl
  | cons p ps => simp [clauseLength, length_itemLines]

theorem isLine_parenthesized {p : Text} (h : Text.lineFeed ∉ p) :
    Text.IsLine ("( " ++ p ++ " )") := by
  have hclose : Text.IsLine " )" := by decide
  exact hclose.append (List.not_mem_append (by decide) h)

theorem isLine_conjunctionClause (hk : keyword.IsLine) (h : ∀ p ∈ predicates, Text.lineFeed ∉ p) :
    ∀ l ∈ conjunctionClause keyword predicates, l.IsLine := by
  rw [conjunctionClause]
  split
  · nofun
  · refine List.forall_mem_cons.mpr ⟨hk, isLine_itemLines (by decide) (by decide) fun i hi => ?_⟩
    obtain ⟨p, hp, rfl⟩ := List.mem_map.mp hi
    exact isLine_parenthesized (h p hp)

/-! ## SELECT -/

theorem isLine_selectKeyword (d : Dialect) (q : Query) : (selectKeyword d q).IsLine := by
  have hkeyword : Text.IsLine ("SELECT" ++ if q.distinct then (" DISTINCT" : Text) else []) := by
    cases q.distinct <;> decide
  rw [selectKeyword]
  cases q.limit? with
  | none => simpa only [List.append_nil] using hkeyword
  | some n =>
      have htop : Text.IsLine (" TOP " ++ limitText n) :=
        (Text.isLine_ofNat n.toNat).append (by decide)
      cases d.capabilities.limitStyle with
      | top => exact htop.append hkeyword.no_lineFeed
      | noLimit | limit | fetchFirst => simpa only [List.append_nil] using hkeyword

theorem length_selectClause (d : Dialect) (q : Query) :
    (selectClause d q).length = 1 + max 1 q.selections.length := by
  rw [selectClause]
  cases q.selections with
  | nil => rfl
  | cons s ss => simp [length_itemLines]; omega

theorem isLine_selectClause (h : q.Printable) : ∀ l ∈ selectClause d q, l.IsLine := by
  refine List.forall_mem_cons.mpr ⟨isLine_selectKeyword d q, ?_⟩
  split
  · exact List.forall_mem_cons.mpr ⟨by decide, nofun⟩
  · refine isLine_itemLines (by decide) (by decide) fun i hi => ?_
    obtain ⟨s, hs, rfl⟩ := List.mem_map.mp hi
    obtain ⟨hexpression, halias⟩ := h.selections s hs
    rw [selectionText]
    split
    · rename_i a ha
      split
      · exact (halias a ha).append (List.not_mem_append hexpression.no_lineFeed (by decide))
      · exact hexpression
    · exact hexpression

/-! ## FROM -/

theorem isLine_tableLines (h : ∀ t ∈ q.tables, t.reference.IsLine) :
    ∀ l ∈ tableLines d q.tables, l.IsLine := by
  refine isLine_itemLines (by decide) ?_ fun i hi => ?_
  · cases d.capabilities.commaFrom <;> decide
  · obtain ⟨t, ht, rfl⟩ := List.mem_map.mp hi
    exact h t ht

theorem isLine_stepLine {s : JoinStep} (ht : s.table.reference.IsLine)
    (hc : ∀ c, s.condition? = some c → Text.lineFeed ∉ c) : (stepLine s).IsLine := by
  have hkeyword : Text.lineFeed ∉ indent ++ s.type.keyword ++ " " := by
    cases s.type <;> decide
  rw [stepLine]
  split
  · rename_i c hcondition
    have hclose : Text.IsLine " )" := by decide
    refine Text.IsLine.append (List.not_mem_append hkeyword ht.no_lineFeed) ?_
    exact hclose.append (List.not_mem_append (by decide) (hc c hcondition))
  · rw [List.append_nil]
    exact ht.append hkeyword

theorem source_layout (h : q.Printable) (hvalid : q.Valid) (hs : q.source d = .ok s) :
    (∀ l ∈ s.lines, l.IsLine) ∧ s.lines.length = q.tables.length ∧
      (∀ p ∈ s.deferred, Text.lineFeed ∉ p) ∧
      s.deferred.length = q.joins.countP fun e => !d.eligibleForOn e.predicate := by
  by_cases hj : q.joins = []
  · rw [source_of_joins_eq_nil hj hs, hj]
    exact ⟨isLine_tableLines h.tables, (forall₂_lists_tableLines d q.tables).length_eq.symm, nofun,
      rfl⟩
  · obtain ⟨p, hp, huses, rfl⟩ := source_of_joins_ne_nil hj hs
    obtain ⟨predicates, hperm, hplaces⟩ := JoinPlan.exists_places hp
    have htables := hvalid.tables_perm hp huses
    have hfeed : ∀ t ∈ predicates, Text.lineFeed ∉ t := by
      intro t ht
      obtain ⟨e, he, rfl⟩ := List.mem_map.mp (hperm.mem_iff.mp ht)
      exact h.joins e he
    have hstep : ∀ s ∈ p.steps, s.table.reference.IsLine := fun s hs =>
      h.tables s.table (htables.mem_iff.mp (List.mem_map_of_mem hs))
    refine ⟨?_, ?_, fun t ht => ?_, ?_⟩
    · refine List.forall_mem_cons.mpr ⟨(hstep _ List.mem_cons_self).append (by decide), ?_⟩
      intro l hl
      obtain ⟨s, hs, rfl⟩ := List.mem_map.mp hl
      exact isLine_stepLine (hstep s (List.mem_cons_of_mem _ hs)) fun c hc =>
        hfeed c (hplaces.mem_of_condition hs hc)
    · rw [← (forall₂_lists_planLines p).length_eq, htables.length_eq]
    · rw [hplaces.deferred] at ht
      exact hfeed t (List.mem_filter.mp ht).1
    · rw [hplaces.deferred, ← List.countP_eq_length_filter, hperm.countP_eq, List.countP_map]
      rfl

/-! ## The whole query -/

theorem length_limitClause (d : Dialect) (q : Query) :
    (limitClause d q).length = if q.limit?.isSome ∧ (d.capabilities.limitStyle = .limit ∨
      d.capabilities.limitStyle = .fetchFirst) then 1 else 0 := by
  rw [limitClause]
  cases q.limit? <;> cases d.capabilities.limitStyle <;> rfl

theorem isLine_limitClause (d : Dialect) (q : Query) : ∀ l ∈ limitClause d q, l.IsLine := by
  rw [limitClause]
  split
  · rename_i n _ _
    exact List.forall_mem_singleton.mpr ((Text.isLine_ofNat n.toNat).append (by decide))
  · rename_i n _ _
    have hrows : Text.IsLine " ROWS ONLY" := by decide
    refine List.forall_mem_singleton.mpr (hrows.append ?_)
    exact List.not_mem_append (by decide) (Text.isLine_ofNat n.toNat).no_lineFeed
  · nofun

/-- The number of lines that a query is written on. -/
def lineCount (d : Dialect) (q : Query) : Nat :=
  1 + max 1 q.selections.length + 1 + q.tables.length +
    clauseLength ((q.joins.countP fun e => !d.eligibleForOn e.predicate) + q.filters.length) +
    clauseLength q.groupBy.length + clauseLength q.having.length + clauseLength q.orderBy.length +
    if q.limit?.isSome ∧ (d.capabilities.limitStyle = .limit ∨
      d.capabilities.limitStyle = .fetchFirst) then 1 else 0

theorem isLine_sqlLines (h : q.Printable) (hlines : ∀ l ∈ s.lines, l.IsLine)
    (hdeferred : ∀ p ∈ s.deferred, Text.lineFeed ∉ p) : ∀ l ∈ sqlLines d q s, l.IsLine := by
  have hwhere : ∀ p ∈ s.deferred ++ q.filters, Text.lineFeed ∉ p :=
    List.forall_mem_append.mpr ⟨hdeferred, h.filters⟩
  have horder : ∀ i ∈ q.orderBy.map orderText, i.IsLine := by
    intro l hl
    obtain ⟨i, hi, rfl⟩ := List.mem_map.mp hl
    rw [orderText]
    split
    · exact Text.IsLine.append (h.orderBy i hi) (by decide)
    · exact Text.IsLine.append (h.orderBy i hi) (by decide)
  simp only [sqlLines, List.forall_mem_append, List.forall_mem_cons]
  exact ⟨⟨⟨⟨⟨⟨isLine_selectClause h, by decide, hlines⟩,
    isLine_conjunctionClause (by decide) hwhere⟩, isLine_listClause (by decide) h.groupBy⟩,
    isLine_conjunctionClause (by decide) h.having⟩, isLine_listClause (by decide) horder⟩,
    isLine_limitClause d q⟩

theorem lines_of_toSql (h : q.Printable) (hsql : q.toSql d = .ok sql) :
    sql = Text.ofLines (Text.lines sql) ∧ (∀ l ∈ Text.lines sql, l.IsLine) ∧
      (Text.lines sql).length = lineCount d q := by
  obtain ⟨hobstacle, s, hs, rfl⟩ := toSql_eq_ok_iff.mp hsql
  obtain ⟨hlines, hcount, hfeed, hdeferred⟩ := source_layout h (valid_of_obstacle? hobstacle) hs
  have hall : ∀ l ∈ sqlLines d q s, l.IsLine := isLine_sqlLines h hlines hfeed
  rw [Text.lines_ofLines fun l hl => (hall l hl).no_lineFeed]
  refine ⟨rfl, hall, ?_⟩
  simp only [sqlLines, List.length_append, List.length_cons, length_selectClause, hcount,
    length_conjunctionClause, hdeferred, length_listClause, List.length_map, length_limitClause,
    lineCount]
  omega

/-- Whatever the file, as long as it has no quote: the SQL of its query ends with a line feed, the
lines are not empty and do not end in a blank, and there are as many as the query calls for. -/
theorem toSql_of_plain_file {t : Text} (hq : Format.standard.quote ∉ t) :
    ∃ r, Format.standard.read t = .ok r ∧ ∀ d sql, r.query.toSql d = .ok sql →
      sql.getLast? = some Text.lineFeed ∧ sql = Text.ofLines (Text.lines sql) ∧
      (∀ l ∈ Text.lines sql, l ≠ [] ∧ ∀ b ∈ l.getLast?, Text.isBlank b = false) ∧
      (Text.lines sql).length = lineCount d r.query := by
  obtain ⟨r, hr, hwritable, htrimmed⟩ := Format.exists_read_trimmed hq
  refine ⟨r, hr, fun d sql hsql => ?_⟩
  obtain ⟨hlines, hall, hcount⟩ := lines_of_toSql (printable_of_records hwritable htrimmed) hsql
  refine ⟨?_, hlines, fun l hl => ?_, hcount⟩
  · have hne : Text.lines sql ≠ [] := by
      rw [← List.length_pos_iff, hcount, lineCount]
      omega
    rw [hlines]
    exact Text.getLast?_ofLines hne
  · obtain ⟨b, hb, hblank⟩ := (hall l hl).last
    refine ⟨List.ne_nil_of_mem (List.mem_of_getLast? hb), fun c hc => ?_⟩
    cases hb.symm.trans hc
    exact hblank

end Query

namespace Sample

/-- A file that holds `query`. -/
def plainFile : Text :=
  Text.ofLines ["table| C", "table|B|", "", "table|A", "join|B||A|| B.id = A.id ||RIGHT",
    "join|A||C||A.x < C.x|1"]

theorem read_plainFile : Format.standard.read plainFile = .ok ⟨query, []⟩ := by decide +kernel

theorem plainFile_layout : Format.standard.quote ∉ plainFile ∧
    Format.standard.read plainFile = .ok ⟨query, []⟩ ∧ query.toSql strict = .ok sqlText ∧
    (∀ l ∈ Text.lines sqlText, l ≠ []) ∧
    (Text.lines sqlText).length = Query.lineCount strict query := by
  have hq : Format.standard.quote ∉ plainFile := by decide
  obtain ⟨r, hr, h⟩ := Query.toSql_of_plain_file hq
  cases read_plainFile.symm.trans hr
  obtain ⟨-, -, hlines, hcount⟩ := h strict sqlText toSql_query
  exact ⟨hq, hr, toSql_query, fun l hl => (hlines l hl).1, hcount⟩

end Sample

end SqlQuery
