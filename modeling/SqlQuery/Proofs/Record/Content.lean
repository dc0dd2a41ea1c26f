import SqlQuery.Proofs.Text.Decimal
import SqlQuery.Record.Reader
import SqlQuery.Record.Writer

/-!
# What the fields of a record amount to

Fields make a record or are rejected, and nothing else can come of them; a record that they make
has all texts that it must have, and no text that is not one of theirs (`Yields.ofFields`).  The
contents of the fields that a record is written with make that record again (`ofFields_eq_ok`).
-/

namespace SqlQuery

/-! ## The texts of a record -/

def TableRef.texts (t : TableRef) : List Text := t.name :: t.alias?.toList

namespace Record

def texts : Record → List Text
  | .distinct => []
  | .selection s => s.expression :: s.alias?.toList
  | .table t => t.texts
  | .join e => e.left.texts ++ e.right.texts ++ [e.predicate, e.orderKey]
  | .filter p => [p]
  | .group e => [e]
  | .having p => [p]
  | .order i => [i.expression]
  | .limit _ => []

/-- The texts that a record must have are not empty, and no alias of a selection is. -/
def Complete : Record → Prop
  | .selection s => s.expression ≠ [] ∧ s.alias? ≠ some []
  | .join e => e.predicate ≠ []
  | .filter p => p ≠ []
  | .group e => e ≠ []
  | .having p => p ≠ []
  | .order i => i.expression ≠ []
  | _ => True

end Record

/-- A complete record whose texts are among the given ones, or empty. -/
structure Record.DrawnFrom (ts : List Text) (r : Record) : Prop where
  complete : r.Complete
  texts_mem : ∀ t ∈ r.texts, t = [] ∨ t ∈ ts

/-! ## What can come of fields -/

namespace Record

/-- Either the fields are rejected, or they yield something with the given property. -/
def Yields {α : Type} (P : α → Prop) : Except Refusal α → Prop
  | .ok a => P a
  | .error (.rejected _) => True
  | .error (.failed _) => False

namespace Yields

variable {α β : Type} {P : α → Prop} {Q : β → Prop} {x : Except Refusal α}

theorem bind {g : α → Except Refusal β} (h : Yields P x) (hg : ∀ a, P a → Yields Q (g a)) :
    Yields Q (x >>= g) := by
  match x, h with
  | .ok a, ha => exact hg a ha
  | .error (.rejected _), _ => trivial

theorem map {g : α → β} (h : Yields P x) (hg : ∀ a, P a → Q (g a)) : Yields Q (g <$> x) := by
  match x, h with
  | .ok a, ha => exact hg a ha
  | .error (.rejected _), _ => trivial

theorem required (x : Field) (part : Part) :
    Yields (fun t => t = x.text ∧ t ≠ []) (x.required part) := by
  rw [Field.required]
  split
  · trivial
  · exact ⟨rfl, ‹_›⟩

theorem tableRef {name : Text} (h : name ≠ []) (alias? : Option Text) :
    Yields (fun t => t.name = name ∧ ∀ a ∈ t.alias?, a ∈ alias?) (tableRef name alias?) := by
  rw [Record.tableRef, TableRef.make, dif_neg h]
  split
  · exact ⟨rfl, by simp⟩
  · exact ⟨rfl, fun _ ha => ha⟩

theorem typeOf (x? : Option Field) : Yields (fun _ => True) (typeOf x?) := by
  unfold Record.typeOf
  split
  · trivial
  · split
    · trivial
    · split <;> trivial

theorem ascendingOf (x? : Option Field) : Yields (fun _ => True) (ascendingOf x?) := by
  unfold Record.ascendingOf
  split
  · trivial
  · split
    · trivial
    · split <;> trivial

end Yields

end Record

theorem Field.mem_given? {x? : Option Field} {t : Text} (h : t ∈ given? x?) :
    t ≠ [] ∧ t ∈ x?.toList.map (·.text) := by
  cases x? with
  | none => simp [given?] at h
  | some x =>
      obtain ⟨ht, hne⟩ := Option.filter_eq_some_iff.mp h
      exact ⟨by simpa using hne, by simpa [eq_comm] using ht⟩

namespace Record

namespace Yields

theorem ofSelect (e : Field) (a? : Option Field) :
    Yields (DrawnFrom ((e :: a?.toList).map (·.text))) (ofSelect e a?) := by
  refine (required e _).bind fun t ht => ⟨⟨ht.2, fun ha => ?_⟩, fun s hs => ?_⟩
  · exact (Field.mem_given? ha).1 rfl
  · rcases List.mem_cons.mp hs with rfl | hs
    · exact Or.inr (List.mem_cons.mpr (Or.inl ht.1))
    · exact Or.inr (List.mem_cons_of_mem _ (Field.mem_given? (Option.mem_toList.mp hs)).2)

theorem ofTable (n : Field) (a? : Option Field) :
    Yields (DrawnFrom ((n :: a?.toList).map (·.text))) (ofTable n a?) := by
  refine (required n _).bind fun t ht =>
    (tableRef ht.2 _).bind fun u hu => ⟨trivial, fun s hs => ?_⟩
  rcases List.mem_cons.mp hs with rfl | hs
  · exact Or.inr (List.mem_cons.mpr (Or.inl (hu.1.trans ht.1)))
  · have ha := hu.2 s (Option.mem_toList.mp hs)
    exact Or.inr (List.mem_cons_of_mem _ (Field.mem_given? ha).2)

theorem ofOrder (e : Field) (d? : Option Field) :
    Yields (DrawnFrom ((e :: d?.toList).map (·.text))) (ofOrder e d?) := by
  refine (required e _).bind fun t ht => (ascendingOf d?).bind fun a _ => ⟨ht.2, fun s hs => ?_⟩
  exact Or.inr (List.mem_cons.mpr (Or.inl ((List.mem_singleton.mp hs).trans ht.1)))

theorem ofLimit (n : Field) : Yields (DrawnFrom [n.text]) (ofLimit n) := by
  refine (required n _).bind fun t _ => ?_
  split
  · exact ⟨trivial, nofun⟩
  · trivial

theorem ofJoin (l la r ra p : Field) (key? type? : Option Field) :
    Yields (DrawnFrom (([l, la, r, ra, p] ++ key?.toList ++ type?.toList).map (·.text)))
      (ofJoin l la r ra p key? type?) := by
  refine (required l _).bind fun lt hl => (required r _).bind fun rt hr =>
    (required p _).bind fun pt hp => (typeOf type?).bind fun type _ =>
    (tableRef hl.2 _).bind fun left hleft => (tableRef hr.2 _).bind fun right hright =>
    ⟨hp.2, fun s hs => ?_⟩
  have halias : ∀ {x : Field} {a : Text}, a ∈ Field.given? (some x) → a = x.text := by
    intro x a ha
    simpa using (Field.mem_given? ha).2
  have hkey : (Field.given? key?).getD [] = [] ∨
      (Field.given? key?).getD [] ∈ key?.toList.map (·.text) := by
    cases hk : Field.given? key? with
    | none => exact Or.inl rfl
    | some k => exact Or.inr (Field.mem_given? hk).2
  simp only [texts, TableRef.texts, List.mem_append, List.mem_cons, Option.mem_toList,
    List.not_mem_nil, or_false] at hs
  simp only [List.map_append, List.map_cons, List.map_nil, List.mem_append, List.mem_cons,
    List.not_mem_nil, or_false]
  rcases hs with ((rfl | ha) | (rfl | ha)) | (rfl | rfl)
  · simp [hleft.1, hl.1]
  · simp [halias (hleft.2 s ha)]
  · simp [hright.1, hr.1]
  · simp [halias (hright.2 s ha)]
  · simp [hp.1]
  · rcases hkey with hk | hk
    · exact Or.inl hk
    · exact Or.inr (Or.inl (Or.inr hk))

theorem ofArguments? {k : Kind} {xs : List Field} {y : Except Refusal Record}
    (h : ofArguments? k xs = some y) : Yields (DrawnFrom (xs.map (·.text))) y := by
  have hpart : ∀ (g : Text → Record), (∀ t, (g t).texts = [t]) → (∀ t, (g t).Complete ↔ t ≠ []) →
      ∀ (x : Field) (part : Part), Yields (DrawnFrom [x.text]) (g <$> x.required part) := by
    intro g htexts hcomplete x part
    refine (required x part).map fun t ht => ⟨(hcomplete t).mpr ht.2, fun s hs => Or.inr ?_⟩
    rw [htexts] at hs
    rwa [← ht.1]
  unfold Record.ofArguments? at h
  split at h <;> cases h
  · exact ⟨trivial, nofun⟩
  · exact ofSelect _ none
  · exact ofSelect _ (some _)
  · exact ofTable _ none
  · exact ofTable _ (some _)
  · exact ofJoin _ _ _ _ _ none none
  · exact ofJoin _ _ _ _ _ (some _) none
  · exact ofJoin _ _ _ _ _ (some _) (some _)
  · exact hpart .filter (fun _ => rfl) (fun _ => Iff.rfl) _ _
  · exact hpart .group (fun _ => rfl) (fun _ => Iff.rfl) _ _
  · exact hpart .having (fun _ => rfl) (fun _ => Iff.rfl) _ _
  · exact ofOrder _ none
  · exact ofOrder _ (some _)
  · exact ofLimit _

theorem ofFields (kind : Field) (xs : List Field) :
    Yields (DrawnFrom (xs.map (·.text))) (ofFields kind xs) := by
  unfold Record.ofFields
  split
  · trivial
  · split
    · exact ofArguments? ‹_›
    · trivial

end Yields

end Record

/-! ## What comes of written contents -/

namespace Field

variable {x : Field}

theorem required_eq_ok {t : Text} (hx : x.text = t) (ht : t ≠ []) (part : Part) :
    x.required part = .ok t := by
  subst hx
  exact if_neg ht

theorem given?_eq {t? : Option Text} (hx : x.text = t?.getD []) (h : t? ≠ some []) :
    given? (some x) = t? := by
  cases t? with
  | none => simp [given?, hx]
  | some t =>
      have ht : t ≠ [] := by simpa using h
      simp [given?, hx, ht]

end Field

namespace Record

theorem tableRef_self (t : TableRef) : tableRef t.name t.alias? = .ok t := by
  rw [tableRef, TableRef.make_self]
  rfl

theorem typeOf_eq_ok {x : Field} {t : JoinType} (hx : x.text = joinTypeName t) :
    typeOf (some x) = .ok t := by
  have hne : joinTypeName t ≠ [] := by cases t <;> decide
  simp [typeOf, hx, hne]

theorem ascendingOf_eq_ok {x : Field} {a : Bool} (hx : x.text = directionName a) :
    ascendingOf (some x) = .ok a := by
  have hne : directionName a ≠ [] := by cases a <;> decide
  simp [ascendingOf, hx, hne]

theorem ofSelect_eq_ok {e a : Field} {s : Selection} (he : e.text = s.expression)
    (hne : s.expression ≠ []) (ha : a.text = s.alias?.getD []) (hsome : s.alias? ≠ some []) :
    ofSelect e (some a) = .ok (.selection s) := by
  simp only [ofSelect, Field.required_eq_ok he hne, Field.given?_eq ha hsome]
  rfl

theorem ofTable_eq_ok {n a : Field} {t : TableRef} (hn : n.text = t.name)
    (ha : a.text = t.alias?.getD []) : ofTable n (some a) = .ok (.table t) := by
  simp only [ofTable, Field.required_eq_ok hn t.name_ne_nil, Field.given?_eq ha t.alias_ne_nil,
    bind, Except.bind, tableRef_self]
  rfl

theorem ofJoin_eq_ok {l la r ra p k t : Field} {e : JoinEdge} (hl : l.text = e.left.name)
    (hla : la.text = e.left.alias?.getD []) (hr : r.text = e.right.name)
    (hra : ra.text = e.right.alias?.getD []) (hp : p.text = e.predicate) (hne : e.predicate ≠ [])
    (hk : k.text = e.orderKey) (ht : t.text = joinTypeName e.type) :
    ofJoin l la r ra p (some k) (some t) = .ok (.join e) := by
  have hkey : (Field.given? (some k)).getD [] = e.orderKey := by
    rw [← hk]
    cases h : k.text <;> simp [Field.given?, Option.filter, h]
  simp only [ofJoin, Field.required_eq_ok hl e.left.name_ne_nil,
    Field.required_eq_ok hr e.right.name_ne_nil, Field.required_eq_ok hp hne, typeOf_eq_ok ht,
    Field.given?_eq hla e.left.alias_ne_nil, Field.given?_eq hra e.right.alias_ne_nil,
    bind, Except.bind, tableRef_self, hkey]
  rfl

theorem map_required_eq_ok {x : Field} {t : Text} (hx : x.text = t) (ht : t ≠ []) {part : Part}
    {g : Text → Record} : g <$> x.required part = .ok (g t) := by
  rw [Field.required_eq_ok hx ht]
  rfl

theorem ofOrder_eq_ok {e d : Field} {i : OrderItem} (he : e.text = i.expression)
    (hne : i.expression ≠ []) (hd : d.text = directionName i.ascending) :
    ofOrder e (some d) = .ok (.order i) := by
  simp only [ofOrder, Field.required_eq_ok he hne, ascendingOf_eq_ok hd, bind, Except.bind]
  rfl

theorem ofLimit_eq_ok {x : Field} {n : UInt64} (hx : x.text = Text.ofNat n.toNat) :
    ofLimit x = .ok (.limit n) := by
  simp only [ofLimit, Field.required_eq_ok hx (Text.ofNat_ne_nil _), bind, Except.bind,
    Text.toUInt64?_ofNat]
  rfl

theorem ofArguments?_eq_ok {r : Record} (hr : r.Complete) {xs : List Field}
    (hxs : xs.map (·.text) = r.arguments.map (·.content)) :
    ofArguments? r.kind xs = some (.ok r) := by
  cases r with
  | distinct =>
      obtain rfl := List.map_eq_nil_iff.mp hxs
      rfl
  | selection s =>
      obtain ⟨e, _, rfl, he, hxs⟩ := List.map_eq_cons_iff.mp hxs
      obtain ⟨a, _, rfl, ha, hxs⟩ := List.map_eq_cons_iff.mp hxs
      obtain rfl := List.map_eq_nil_iff.mp hxs
      exact congrArg some (ofSelect_eq_ok he hr.1 ha hr.2)
  | table t =>
      obtain ⟨n, _, rfl, hn, hxs⟩ := List.map_eq_cons_iff.mp hxs
      obtain ⟨a, _, rfl, ha, hxs⟩ := List.map_eq_cons_iff.mp hxs
      obtain rfl := List.map_eq_nil_iff.mp hxs
      exact congrArg some (ofTable_eq_ok hn ha)
  | join e =>
      obtain ⟨l, _, rfl, hl, hxs⟩ := List.map_eq_cons_iff.mp hxs
      obtain ⟨la, _, rfl, hla, hxs⟩ := List.map_eq_cons_iff.mp hxs
      obtain ⟨r, _, rfl, hr', hxs⟩ := List.map_eq_cons_iff.mp hxs
      obtain ⟨ra, _, rfl, hra, hxs⟩ := List.map_eq_cons_iff.mp hxs
      obtain ⟨p, _, rfl, hp, hxs⟩ := List.map_eq_cons_iff.mp hxs
      obtain ⟨k, _, rfl, hk, hxs⟩ := List.map_eq_cons_iff.mp hxs
      obtain ⟨t, _, rfl, ht, hxs⟩ := List.map_eq_cons_iff.mp hxs
      obtain rfl := List.map_eq_nil_iff.mp hxs
      exact congrArg some (ofJoin_eq_ok hl hla hr' hra hp hr hk ht)
  | filter p | group e | having p =>
      obtain ⟨x, _, rfl, hx, hxs⟩ := List.map_eq_cons_iff.mp hxs
      obtain rfl := List.map_eq_nil_iff.mp hxs
      exact congrArg some (map_required_eq_ok hx hr)
  | order i =>
      obtain ⟨e, _, rfl, he, hxs⟩ := List.map_eq_cons_iff.mp hxs
      obtain ⟨d, _, rfl, hd, hxs⟩ := List.map_eq_cons_iff.mp hxs
      obtain rfl := List.map_eq_nil_iff.mp hxs
      exact congrArg some (ofOrder_eq_ok he hr hd)
  | limit n =>
      obtain ⟨x, _, rfl, hx, hxs⟩ := List.map_eq_cons_iff.mp hxs
      obtain rfl := List.map_eq_nil_iff.mp hxs
      exact congrArg some (ofLimit_eq_ok hx)

theorem ofFields_eq_ok {r : Record} (hr : r.Complete) {kind : Field} {xs : List Field}
    (hkind : kind.text = r.kind.keyword) (hxs : xs.map (·.text) = r.arguments.map (·.content)) :
    ofFields kind xs = .ok r := by
  simp [ofFields, hkind, ofArguments?_eq_ok hr hxs]

end Record

end SqlQuery
