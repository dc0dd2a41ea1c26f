import SqlQuery.Dialect.Registry
import SqlQuery.Proofs.CommandLine.Failure

/-!
# What a registry remembers

A program shares one registry, which calls may change or fail to change (`RegistryCall.perform`).
What one call does is said once (`Registry.Does`); that names ascend and are those of the dialects,
that the default is registered and that no entry is lost is derived from it, call by call
(`Registry.remembers`).
-/

namespace SqlQuery

/-- A call that may change the shared registry. -/
inductive RegistryCall where
  | add (dialect : Dialect) (description : Text)
  | setDefault (name : Text)

/-- What the registry becomes, unless the call fails. -/
def RegistryCall.result (r : Registry) : RegistryCall → Except Failure Registry
  | .add d t => r.add d t
  | .setDefault name => r.setDefault name

/-- A call on the shared registry, which is its result from then on. -/
def RegistryCall.perform (c : RegistryCall) : ExceptT Failure (StateM Registry) Unit := do
  set (← c.result (← get))

theorem RegistryCall.run_perform (c : RegistryCall) (r : Registry) :
    c.perform.run r = match c.result r with
      | .ok r' => (.ok (), r')
      | .error f => (.error f, r) := by
  show (do set (← liftM (c.result r)) : ExceptT Failure (StateM Registry) Unit).run r = _
  cases c.result r with
  | ok r' => rfl
  | error f => rfl

namespace Registry

variable {r r' : Registry} {e : RegistryEntry} {es : List RegistryEntry}

/-! ## Entries in the order of their names -/

def Ascending (es : List RegistryEntry) : Prop := es.Pairwise (·.name < ·.name)

theorem insertByName_perm (e : RegistryEntry) (es : List RegistryEntry) :
    (insertByName e es).Perm (e :: es) := by
  induction es with
  | nil => exact .refl _
  | cons f fs ih =>
      rw [insertByName]
      split
      · exact .refl _
      · exact (ih.cons f).trans (.swap e f fs)

theorem mem_insertByName {f : RegistryEntry} : f ∈ insertByName e es ↔ f = e ∨ f ∈ es := by
  rw [(insertByName_perm e es).mem_iff, List.mem_cons]

theorem Ascending.insertByName (h : Ascending es) (hnew : ∀ f ∈ es, f.name ≠ e.name) :
    Ascending (insertByName e es) := by
  induction es with
  | nil => simp [Registry.insertByName, Ascending]
  | cons f fs ih =>
      obtain ⟨hf, hfs⟩ := List.pairwise_cons.mp h
      rw [Registry.insertByName]
      split
      · rename_i hlt
        refine List.pairwise_cons.mpr ⟨fun g hg => ?_, h⟩
        rcases List.mem_cons.mp hg with rfl | hg
        · exact hlt
        · exact List.lt_trans hlt (hf g hg)
      · rename_i hle
        refine List.pairwise_cons.mpr ⟨fun g hg => ?_, ih hfs fun g hg => hnew g (by simp [hg])⟩
        rcases mem_insertByName.mp hg with rfl | hg
        · exact Std.lt_of_le_of_ne hle (hnew f (by simp))
        · exact hf g hg

theorem Ascending.nodup (h : Ascending es) : (es.map (·.name)).Nodup := by
  refine List.pairwise_map.mpr (h.imp fun {f g} hlt heq => ?_)
  rw [heq] at hlt
  exact List.lt_irrefl _ hlt

/-! ## Finding an entry -/

theorem find?_eq_some (h : Ascending r.entries) {name : Text} :
    r.find? name = some e ↔ e ∈ r.entries ∧ e.name = name := by
  constructor
  · intro hfind
    exact ⟨List.mem_of_find?_eq_some hfind, by simpa using List.find?_some hfind⟩
  · rintro ⟨he, rfl⟩
    cases hfind : r.find? e.name with
    | none => simpa using List.find?_eq_none.mp hfind e he
    | some f =>
        have hname : f.name = e.name := by simpa using List.find?_some hfind
        rw [List.inj_on_of_nodup_map h.nodup (List.mem_of_find?_eq_some hfind) he hname]

theorem has_eq_true {name : Text} : r.has name = true ↔ ∃ e ∈ r.entries, e.name = name := by
  simp [has, find?]

theorem has_eq_false {name : Text} : r.has name = false ↔ ∀ e ∈ r.entries, e.name ≠ name := by
  simp [has, find?]

/-! ## Calls -/

/-- What a call answers. -/
def answer (r : Registry) (c : RegistryCall) : Except Failure Unit := (c.perform.run r).1

/-- What the registry is after the calls, those that fail included. -/
def after (r : Registry) (calls : List RegistryCall) : Registry :=
  calls.foldl (fun r c => (c.perform.run r).2) r

theorem after_append (r : Registry) (before later : List RegistryCall) :
    r.after (before ++ later) = (r.after before).after later :=
  List.foldl_append

theorem perform_of_ok {c : RegistryCall} (h : c.result r = .ok r') :
    r.answer c = .ok () ∧ r.after [c] = r' := by
  simp [answer, after, c.run_perform, h]

theorem perform_of_error {c : RegistryCall} {f : Failure} (h : c.result r = .error f) :
    r.answer c = .error f ∧ r.after [c] = r := by
  simp [answer, after, c.run_perform, h]

/-! ## What one call does -/

/-- What a call answers, and what it makes of the registry. -/
inductive Does (r : Registry) : RegistryCall → Except Failure Unit → Registry → Prop
  | added {d t} : r.has d.name = false →
      Does r (.add d t) (.ok ()) { r with entries := insertByName (.ofDialect d t) r.entries }
  | refused {d t} : r.has d.name = true →
      Does r (.add d t) (.error (.misuse (.dialectExists d.name))) r
  | chosen {name e} : r.find? name = some e →
      Does r (.setDefault name) (.ok ()) { r with default := e }
  | unknown {name} : r.find? name = none →
      Does r (.setDefault name) (.error (.misuse (.noSuchDialect name))) r

theorem does_perform (r : Registry) (c : RegistryCall) : r.Does c (r.answer c) (r.after [c]) := by
  cases c with
  | add d t =>
      cases h : r.has d.name with
      | false =>
          have hadd : r.add d t =
              .ok { r with entries := insertByName (.ofDialect d t) r.entries } := by
            simp [add, addTo, h]
          obtain ⟨hanswer, hafter⟩ := perform_of_ok (c := .add d t) hadd
          rw [hanswer, hafter]
          exact .added h
      | true =>
          have hadd : r.add d t = .error (.misuse (.dialectExists d.name)) := by
            simp [add, addTo, h]
          obtain ⟨hanswer, hafter⟩ := perform_of_error (c := .add d t) hadd
          rw [hanswer, hafter]
          exact .refused h
  | setDefault name =>
      cases h : r.find? name with
      | some e =>
          have hset : r.setDefault name = .ok { r with default := e } := by
            rw [setDefault, entry, h]; rfl
          obtain ⟨hanswer, hafter⟩ := perform_of_ok (c := .setDefault name) hset
          rw [hanswer, hafter]
          exact .chosen h
      | none =>
          have hset : r.setDefault name = .error (.misuse (.noSuchDialect name)) := by
            rw [setDefault, entry, h]; rfl
          obtain ⟨hanswer, hafter⟩ := perform_of_error (c := .setDefault name) hset
          rw [hanswer, hafter]
          exact .unknown h

/-- Names ascend, each is that of the dialect it leads to, and the default is one of the entries. -/
structure Consistent (r : Registry) : Prop where
  ascending : Ascending r.entries
  name_eq : ∀ e ∈ r.entries, e.dialect.name = e.name
  default_mem : r.default ∈ r.entries

section Does

variable {c : RegistryCall} {a : Except Failure Unit}

theorem Does.consistent (h : r.Does c a r') (hr : r.Consistent) : r'.Consistent := by
  cases h with
  | added hnew =>
      refine ⟨hr.ascending.insertByName (has_eq_false.mp hnew), fun f hf => ?_,
        mem_insertByName.mpr (Or.inr hr.default_mem)⟩
      rcases mem_insertByName.mp hf with rfl | hf
      · rfl
      · exact hr.name_eq f hf
  | refused _ => exact hr
  | chosen hfind => exact ⟨hr.ascending, hr.name_eq, List.mem_of_find?_eq_some hfind⟩
  | unknown _ => exact hr

theorem Does.entries_subset (h : r.Does c a r') : r.entries ⊆ r'.entries := by
  cases h with
  | added _ => exact fun e he => mem_insertByName.mpr (Or.inr he)
  | refused _ => exact List.Subset.refl _
  | chosen _ => exact List.Subset.refl _
  | unknown _ => exact List.Subset.refl _

theorem Does.mem_of_added {d : Dialect} {t : Text} (h : r.Does (.add d t) (.ok ()) r') :
    .ofDialect d t ∈ r'.entries := by
  cases h with
  | added _ => exact mem_insertByName.mpr (Or.inl rfl)

theorem Does.default_of_added {d : Dialect} {t : Text} (h : r.Does (.add d t) (.ok ()) r') :
    r'.default = r.default := by
  cases h with
  | added _ => rfl

theorem Does.eq_of_chosen {name : Text} (h : r.Does (.setDefault name) (.ok ()) r') :
    ∃ e ∈ r.entries, e.name = name ∧ r' = { r with default := e } := by
  cases h with
  | chosen hfind =>
      exact ⟨_, List.mem_of_find?_eq_some hfind, by simpa using List.find?_some hfind, rfl⟩

theorem Does.eq_of_error {f : Failure} (h : r.Does c (.error f) r') : r' = r := by
  cases h with
  | refused _ => rfl
  | unknown _ => rfl

end Does

/-! ## The fresh registry -/

theorem consistent_addTo_none {d : Dialect} {t : Text} (h : addTo none d t = .ok r) :
    r.Consistent := by
  cases h
  have hname : ∀ e ∈ [RegistryEntry.ofDialect d t], e.dialect.name = e.name :=
    List.forall_mem_singleton.mpr rfl
  exact ⟨List.pairwise_singleton _ _, hname, List.mem_singleton_self _⟩

theorem Consistent.result {c : RegistryCall} (h : r.Consistent) (hc : c.result r = .ok r') :
    r'.Consistent :=
  (perform_of_ok hc).2 ▸ (does_perform r c).consistent h

theorem exists_of_bind_eq_ok {x : Except Failure Registry} {g : Registry → Except Failure Registry}
    (h : x >>= g = .ok r') : ∃ r, x = .ok r ∧ g r = .ok r' := by
  cases x with
  | error f => cases h
  | ok r => exact ⟨r, rfl, h⟩

/-- The set-up does not fail. -/
theorem setUp_eq : setUp = .ok standard := rfl

theorem consistent_of_setUp (h : setUp = .ok r) : r.Consistent := by
  obtain ⟨r₁, h₁, h⟩ := exists_of_bind_eq_ok h
  obtain ⟨r₂, h₂, h⟩ := exists_of_bind_eq_ok h
  obtain ⟨r₃, h₃, h⟩ := exists_of_bind_eq_ok h
  have hr₂ := (consistent_addTo_none h₁).result (c := .add .hive hiveText) h₂
  have hr₃ := hr₂.result (c := .add .mssql mssqlText) h₃
  exact hr₃.result (c := .setDefault "ansi") h

/-! ## What any calls do -/

theorem Consistent.after (h : r.Consistent) (calls : List RegistryCall) :
    (r.after calls).Consistent := by
  induction calls generalizing r with
  | nil => exact h
  | cons c cs ih => exact ih ((does_perform r c).consistent h)

theorem entries_subset_after (r : Registry) (calls : List RegistryCall) :
    r.entries ⊆ (r.after calls).entries := by
  induction calls generalizing r with
  | nil => exact List.Subset.refl _
  | cons c cs ih => exact List.Subset.trans (does_perform r c).entries_subset (ih _)

/-! ## What the lookups tell -/

/-- The dialect and the description of the entry are found under its name. -/
def Returns (r : Registry) (e : RegistryEntry) : Prop :=
  r.get e.name = .ok e.dialect ∧ r.description e.name = .ok e.description

theorem Consistent.returns (h : r.Consistent) (he : e ∈ r.entries) : r.Returns e := by
  have hfind := (find?_eq_some h.ascending).mpr ⟨he, rfl⟩
  simp [Returns, get, description, entry, hfind]

theorem Consistent.returns_after (h : r.Consistent) (he : e ∈ r.entries)
    (calls : List RegistryCall) : (r.after calls).Returns e :=
  (h.after calls).returns (entries_subset_after r calls he)

/-- All lookups agree on whether a name is registered: only then they do not fail for the lack of
such a dialect, and only then the name is taken. -/
structure AgreesOn (r : Registry) (name : Text) : Prop where
  get : r.has name = true ↔ r.get name ≠ .error (.misuse (.noSuchDialect name))
  description : r.has name = true ↔ r.description name ≠ .error (.misuse (.noSuchDialect name))
  setDefault : r.has name = true ↔ r.setDefault name ≠ .error (.misuse (.noSuchDialect name))
  toSqlOf : ∀ q : Query,
    r.has name = true ↔ q.toSqlOf r name ≠ .error (.misuse (.noSuchDialect name))
  add : ∀ d t, d.name = name → (r.has name = true ↔ ∃ f, r.add d t = .error f)

theorem map_entry_ne_iff {α : Type} (f : RegistryEntry → α) (r : Registry) (name : Text) :
    r.has name = true ↔ f <$> r.entry name ≠ .error (.misuse (.noSuchDialect name)) := by
  rw [has, entry]
  cases r.find? name with
  | some e => simp
  | none => simp

theorem toSqlOf_ne_iff (q : Query) (r : Registry) (name : Text) :
    r.has name = true ↔ q.toSqlOf r name ≠ .error (.misuse (.noSuchDialect name)) := by
  rw [has, Query.toSqlOf, get, entry]
  cases r.find? name with
  | none => simp [bind, Except.bind]
  | some e =>
      -- what keeps the query from being written is never the name of the dialect
      rcases Query.answered_toSql q e.dialect with ⟨sql, hsql⟩ | ⟨x, hx⟩
      · simp [bind, Except.bind, hsql]
      · simp [bind, Except.bind, hx]

theorem has_name_iff (r : Registry) (d : Dialect) (t : Text) :
    r.has d.name = true ↔ ∃ f, r.add d t = .error f := by
  rw [add, addTo]
  cases r.has d.name with
  | true => simp
  | false => simp

theorem agreesOn (r : Registry) (name : Text) : r.AgreesOn name where
  get := map_entry_ne_iff _ r name
  description := map_entry_ne_iff _ r name
  setDefault := map_entry_ne_iff _ r name
  toSqlOf q := toSqlOf_ne_iff q r name
  add := by
    rintro d t rfl
    exact r.has_name_iff d t

/-- Whatever calls are made, the names ascend and lead to dialects of these names, the default is
registered, nothing that was registered is lost or changed, the default is the one that was set
last, a call that fails changes nothing, and all lookups agree on what is registered. -/
theorem remembers (before later : List RegistryCall) :
    let r := standard.after before
    (r.entries.map (·.name)).Pairwise (· < ·) ∧
      (∀ name ∈ r.entries.map (·.name), ∃ d, r.get name = .ok d ∧ d.name = name) ∧
      r.has r.default.name = true ∧ r.Returns r.default ∧
      (∀ e ∈ r.entries, (standard.after (before ++ later)).Returns e) ∧
      (∀ d t, r.answer (.add d t) = .ok () → (r.after [.add d t]).default = r.default ∧
        (standard.after (before ++ .add d t :: later)).Returns (.ofDialect d t)) ∧
      (∀ name, r.answer (.setDefault name) = .ok () → ∃ e ∈ r.entries, e.name = name ∧
        r.after [.setDefault name] = { r with default := e }) ∧
      (∀ c f, r.answer c = .error f → r.after [c] = r) ∧
      ∀ name, name ≠ [] → r.AgreesOn name := by
  intro r
  have hr : r.Consistent := (consistent_of_setUp setUp_eq).after before
  refine ⟨List.pairwise_map.mpr hr.ascending, ?_, ?_, hr.returns hr.default_mem, ?_, ?_, ?_, ?_,
    fun name _ => r.agreesOn name⟩
  · intro name hname
    obtain ⟨e, he, rfl⟩ := List.mem_map.mp hname
    exact ⟨e.dialect, (hr.returns he).1, hr.name_eq e he⟩
  · exact has_eq_true.mpr ⟨r.default, hr.default_mem, rfl⟩
  · intro e he
    rw [after_append]
    exact hr.returns_after he later
  · intro d t hanswer
    have hdoes := does_perform r (.add d t)
    rw [hanswer] at hdoes
    refine ⟨hdoes.default_of_added, ?_⟩
    rw [List.append_cons, after_append, after_append]
    exact (hr.after [.add d t]).returns_after hdoes.mem_of_added later
  · intro name hanswer
    have hdoes := does_perform r (.setDefault name)
    rw [hanswer] at hdoes
    exact hdoes.eq_of_chosen
  · intro c f hanswer
    have hdoes := does_perform r c
    rw [hanswer] at hdoes
    exact hdoes.eq_of_error

end Registry

namespace Sample

/-- Calls that fail, and one that makes the sample dialect the default. -/
def strictCalls : List RegistryCall :=
  [.add strict "another one", .setDefault "none", .setDefault "strict"]

theorem strict_remembered :
    Registry.standard.answer (.add strict "equalities only") = .ok () ∧
      (Registry.standard.after (.add strict "equalities only" :: strictCalls)).Returns
        (.ofDialect strict "equalities only") := by
  have hadded : Registry.standard.answer (.add strict "equalities only") = .ok () := by decide
  obtain ⟨-, -, -, -, -, hreturns, -⟩ := Registry.remembers [] strictCalls
  exact ⟨hadded, (hreturns _ _ hadded).2⟩

end Sample

end SqlQuery
