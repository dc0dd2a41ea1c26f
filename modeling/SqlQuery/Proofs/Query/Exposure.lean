import SqlQuery.Proofs.Query.Source

/-!
# Names that a FROM clause exposes

The tables of a query are addressed by their aliases, and those without an alias by their names.
The rules of a query keep the names of two tables apart, and the aliases of two tables, but not the
name of one from the alias of another.  So the exposed names of a valid query are distinct exactly
if no table without an alias is shadowed in this way (`Query.exposes_once_iff`).
-/

namespace SqlQuery

/-- The name by which a table is addressed in the query. -/
def TableRef.exposedName (t : TableRef) : Text := t.alias?.getD t.name

theorem TableRef.reference_of_alias?_eq_none {t : TableRef} (h : t.alias? = none) :
    t.reference = t.name := by
  rw [reference, h]

namespace Query

variable {q : Query} {d : Dialect} {s : Source} {sql : Text}

/-- No table without an alias has a name that another one has as its alias. -/
def Unshadowed (q : Query) : Prop :=
  ∀ t ∈ q.tables, t.alias? = none → ∀ u ∈ q.tables, u.alias? ≠ some t.name

instance (q : Query) : Decidable q.Unshadowed :=
  inferInstanceAs (Decidable (∀ t ∈ q.tables, _))

theorem Valid.eq_of_alias? (h : q.Valid) {t u : TableRef} {a : Text} (ht : t ∈ q.tables)
    (hu : u ∈ q.tables) (hta : t.alias? = some a) (hua : u.alias? = some a) : t = u := by
  by_contra hne
  have hpairs := List.pairwise_filterMap.mp h.aliases_nodup
  have hsymm : Std.Symm fun t u : TableRef =>
      ∀ a, t.alias? = some a → ∀ b, u.alias? = some b → a ≠ b :=
    ⟨fun t u htu a ha b hb => (htu b hb a ha).symm⟩
  exact hpairs.forall ht hu hne a hta a hua rfl

theorem Valid.eq_of_exposedName (h : q.Valid) (hu : q.Unshadowed) {t u : TableRef}
    (ht : t ∈ q.tables) (hu' : u ∈ q.tables) (heq : t.exposedName = u.exposedName) : t = u := by
  cases hat : t.alias? with
  | none =>
      cases hau : u.alias? with
      | none =>
          have hname : t.name = u.name := by simpa [TableRef.exposedName, hat, hau] using heq
          refine List.inj_on_of_nodup_map h.references_nodup ht hu' ?_
          rw [TableRef.reference_of_alias?_eq_none hat, TableRef.reference_of_alias?_eq_none hau,
            hname]
      | some a =>
          have hname : t.name = a := by simpa [TableRef.exposedName, hat, hau] using heq
          exact absurd (hname ▸ hau) (hu t ht hat u hu')
  | some a =>
      cases hau : u.alias? with
      | none =>
          have hname : a = u.name := by simpa [TableRef.exposedName, hat, hau] using heq
          exact absurd (hname ▸ hat) (hu u hu' hau t ht)
      | some b =>
          have hsame : a = b := by simpa [TableRef.exposedName, hat, hau] using heq
          exact h.eq_of_alias? ht hu' hat (hsame ▸ hau)

theorem Valid.nodup_exposedName_iff (h : q.Valid) :
    (q.tables.map (·.exposedName)).Nodup ↔ q.Unshadowed := by
  constructor
  · intro hnodup t ht hat u hu hau
    have hsame : t.exposedName = u.exposedName := by simp [TableRef.exposedName, hat, hau]
    have heq := List.inj_on_of_nodup_map hnodup ht hu hsame
    rw [heq, hau] at hat
    cases hat
  · intro hu
    have htables : q.tables.Nodup := .of_map _ h.references_nodup
    exact htables.map_on fun t ht u hu' heq => h.eq_of_exposedName hu ht hu' heq

/-- The source lists the tables of a valid query, in some order. -/
theorem exists_lists (h : q.Valid) (hs : q.source d = .ok s) :
    ∃ ts, List.Forall₂ Lists ts s.lines ∧ ts.Perm q.tables := by
  by_cases hj : q.joins = []
  · rw [source_of_joins_eq_nil hj hs]
    exact ⟨q.tables, forall₂_lists_tableLines d q.tables, .refl _⟩
  · obtain ⟨p, hp, huses, rfl⟩ := source_of_joins_ne_nil hj hs
    exact ⟨_, forall₂_lists_planLines p, h.tables_perm hp huses⟩

/-- The exposed names of a valid query are distinct exactly if no table is shadowed by an alias, and
so are those of the tables that its FROM clause lists if it is written. -/
theorem exposes_once_iff (h : q.defect? = none) :
    ((q.tables.map (·.exposedName)).Nodup ↔ q.Unshadowed) ∧
      ∀ d sql, q.toSql d = .ok sql → ∃ s ts, q.source d = .ok s ∧
        sql = Text.ofLines (selectClause d q ++ fromKeyword :: s.lines ++ laterClauses d q s) ∧
        List.Forall₂ Lists ts s.lines ∧ ts.Perm q.tables ∧
        ((ts.map (·.exposedName)).Nodup ↔ q.Unshadowed) := by
  have hvalid := defect?_eq_none_iff.mp h
  have hiff := hvalid.nodup_exposedName_iff
  refine ⟨hiff, fun d sql hsql => ?_⟩
  obtain ⟨-, s, hs, rfl⟩ := toSql_eq_ok_iff.mp hsql
  obtain ⟨ts, hts, hperm⟩ := exists_lists hvalid hs
  refine ⟨s, ts, hs, by rw [sqlLines_eq], hts, hperm, ?_⟩
  rw [(hperm.map _).nodup_iff, hiff]

end Query

namespace Sample

/-- A table three times, twice under aliases. -/
def renamed : Query where
  tables := [⟨tableA.name, some "a1", tableA.name_ne_nil, by decide⟩, tableA,
    ⟨tableA.name, some "a2", tableA.name_ne_nil, by decide⟩]

theorem renamed_exposes_once : renamed.defect? = none ∧ renamed.Unshadowed ∧
    (renamed.tables.map (·.exposedName)).Nodup := by
  have hvalid : renamed.defect? = none := by decide
  have hu : renamed.Unshadowed := by decide
  exact ⟨hvalid, hu, (Query.exposes_once_iff hvalid).1.mpr hu⟩

/-- The second table has the name of the first as its alias. -/
def shadowing : Query where
  tables := [tableA, ⟨tableB.name, some "A", tableB.name_ne_nil, by decide⟩]

/-- The query is valid, and both tables of the FROM clause are addressed by `A`. -/
theorem shadowing_exposes_twice : shadowing.defect? = none ∧
    ¬(shadowing.tables.map (·.exposedName)).Nodup ∧
    shadowing.toSql .ansi = .ok (Text.ofLines
      ["SELECT", "          *", "FROM", "          A", "         ,B A"]) := by
  decide

end Sample

end SqlQuery
