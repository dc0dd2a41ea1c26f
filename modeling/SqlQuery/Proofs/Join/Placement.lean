import SqlQuery.Proofs.Join.Resolution

/-!
# Dialects place conditions

A dialect decides where the conditions of a chain stand, and not which chain it is.  Two plans of
the same edges have the same tables and types, and a dialect that has no plan refuses the edges or
finds the same reason why they form no chain (`resolve_dialects`).
-/

namespace SqlQuery

namespace JoinPlan

variable {d d' : Dialect} {edges : List JoinEdge} {p p' : JoinPlan}

/-- The conditions of the joins: the dialect puts each after ON or defers it. -/
structure Places (p : JoinPlan) (d : Dialect) (predicates : List Text) : Prop where
  conditions : p.joins.map (·.condition?) =
    predicates.map fun t => if d.eligibleForOn t then some t else none
  deferred : p.deferred = predicates.filter (!d.eligibleForOn ·)

theorem places_ofAttached (d : Dialect) (anchor : TableRef) (as : List Attachment) :
    (ofAttached d anchor as).Places d (as.map (·.edge.predicate)) := by
  refine ⟨?_, rfl⟩
  simp only [ofAttached, List.map_map]
  rfl

theorem Places.mem_of_condition {predicates : List Text} (h : p.Places d predicates)
    {s : JoinStep} (hs : s ∈ p.joins) {c : Text} (hc : s.condition? = some c) : c ∈ predicates := by
  have hmem := List.mem_map_of_mem (f := (·.condition?)) hs
  rw [h.conditions, hc] at hmem
  obtain ⟨t, ht, heq⟩ := List.mem_map.mp hmem
  split at heq
  · cases heq
    exact ht
  · cases heq

theorem exists_places (h : resolve d edges = .ok p) :
    ∃ predicates, predicates.Perm (edges.map (·.predicate)) ∧ p.Places d predicates := by
  obtain ⟨first, -, -, hperm, -, rfl⟩ := resolve_eq_ok h
  refine ⟨_, ?_, places_ofAttached d _ _⟩
  simpa only [List.map_map, Function.comp_def] using hperm.map (·.predicate)

theorem map_table_ofAttached (d : Dialect) (anchor : TableRef) (as : List Attachment) :
    (ofAttached d anchor as).steps.map (·.table) = anchor :: as.map (·.table) := by
  simp only [steps, ofAttached, List.map_cons, List.map_map]
  rfl

theorem map_type_ofAttached (d : Dialect) (anchor : TableRef) (as : List Attachment) :
    (ofAttached d anchor as).steps.map (·.type) = .inner :: as.map (·.type) := by
  simp only [steps, ofAttached, List.map_cons, List.map_map]
  rfl

/-- Two plans of the same edges are one chain. -/
theorem same_chain (h : resolve d edges = .ok p) (h' : resolve d' edges = .ok p') :
    p.steps.map (·.table) = p'.steps.map (·.table) ∧
      p.steps.map (·.type) = p'.steps.map (·.type) ∧
      ∃ predicates, predicates.Perm (edges.map (·.predicate)) ∧
        p.Places d predicates ∧ p'.Places d' predicates := by
  obtain ⟨first, hfirst, -, hperm, -, rfl⟩ := resolve_eq_ok h
  obtain ⟨first', hfirst', -, -, -, rfl⟩ := resolve_eq_ok h'
  cases hfirst.symm.trans hfirst'
  refine ⟨?_, ?_, _, ?_, places_ofAttached d _ _, places_ofAttached d' _ _⟩
  · rw [map_table_ofAttached, map_table_ofAttached]
  · rw [map_type_ofAttached, map_type_ofAttached]
  · simpa only [List.map_map, Function.comp_def] using hperm.map (·.predicate)

theorem exists_first (h : resolve d edges ≠ .error (.misuse .noJoins)) :
    ∃ first rest, JoinEdge.inOrder edges = first :: rest := by
  cases hi : JoinEdge.inOrder edges with
  | nil => exact absurd (by simp [resolve, hi]) h
  | cons first rest => exact ⟨first, rest, rfl⟩

section Growth

variable {first : JoinEdge} {rest : List JoinEdge} (hi : JoinEdge.inOrder edges = first :: rest)

include hi

theorem failure?_of_ok (h : resolve d edges = .ok p) :
    (growByNumber (JoinEdge.inOrder edges)).failure? = none := by
  rcases resolve_cases hi d with ⟨u, hu⟩ | ⟨hnone, -⟩ | ⟨e, -, he⟩
  · cases hu.symm.trans h
  · exact hnone
  · cases he.symm.trans h

theorem failure?_of_path {e : PathError} (h : resolve d edges = .error (.path e)) :
    (growByNumber (JoinEdge.inOrder edges)).failure? = some e := by
  rcases resolve_cases hi d with ⟨u, hu⟩ | ⟨-, hok⟩ | ⟨f, hf, he⟩
  · cases hu.symm.trans h
  · cases hok.symm.trans h
  · cases he.symm.trans h
    exact hf

end Growth

end JoinPlan

open JoinPlan in
/-- What the edges come to in one dialect they come to in any other, which only places their
conditions in its own way or refuses them. -/
theorem resolve_dialects (d d' : Dialect) (edges : List JoinEdge) :
    (∀ p p', resolve d edges = .ok p → resolve d' edges = .ok p' →
      p.steps.map (·.table) = p'.steps.map (·.table) ∧
        p.steps.map (·.type) = p'.steps.map (·.type) ∧
        ∃ predicates, predicates.Perm (edges.map (·.predicate)) ∧
          p.Places d predicates ∧ p'.Places d' predicates) ∧
    (∀ p, resolve d edges = .ok p →
      (∃ p', resolve d' edges = .ok p') ∨ ∃ u, resolve d' edges = .error (.unsupported u)) ∧
    ∀ e, resolve d edges = .error (.path e) →
      resolve d' edges = .error (.path e) ∨ ∃ u, resolve d' edges = .error (.unsupported u) := by
  refine ⟨fun p p' => same_chain, fun p h => ?_, fun e h => ?_⟩
  · obtain ⟨first, rest, hi⟩ := exists_first (h.trans_ne nofun)
    rcases resolve_cases hi d' with hrefused | ⟨-, hok⟩ | ⟨e, he, -⟩
    · exact Or.inr hrefused
    · exact Or.inl ⟨_, hok⟩
    · cases he.symm.trans (failure?_of_ok hi h)
  · obtain ⟨first, rest, hi⟩ := exists_first (h.trans_ne nofun)
    rcases resolve_cases hi d' with hrefused | ⟨hnone, -⟩ | ⟨f, hf, herror⟩
    · exact Or.inr hrefused
    · cases hnone.symm.trans (failure?_of_path hi h)
    · cases hf.symm.trans (failure?_of_path hi h)
      exact Or.inl herror

namespace Sample

/-- The plan of the same edges where every condition may stand after ON. -/
def conditionedPlan : JoinPlan :=
  ⟨tableA, [⟨tableC, some "A.x < C.x", .inner⟩, ⟨tableB, some "B.id = A.id", .left⟩], []⟩

theorem plan_dialects : JoinPlan.resolve strict edges = .ok plan ∧
    JoinPlan.resolve .ansi edges = .ok conditionedPlan ∧
    plan.steps.map (·.table) = conditionedPlan.steps.map (·.table) ∧
    plan.steps.map (·.type) = conditionedPlan.steps.map (·.type) ∧
    ∃ predicates, predicates.Perm (edges.map (·.predicate)) ∧
      plan.Places strict predicates ∧ conditionedPlan.Places .ansi predicates := by
  have hansi : JoinPlan.resolve .ansi edges = .ok conditionedPlan := by cbv
  exact ⟨resolve_eq, hansi,
    (resolve_dialects strict .ansi edges).1 plan conditionedPlan resolve_eq hansi⟩

end Sample

end SqlQuery
