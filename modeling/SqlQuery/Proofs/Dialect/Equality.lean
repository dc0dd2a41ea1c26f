import SqlQuery.Dialect.Basic
import SqlQuery.Proofs.Text.Search

/-!
# Conjunctions of equalities

The classifier of equalities rejects the predicates in which one of its tokens occurs at some
offset, in whichever case.  No token has an end in common with the word between two conjuncts
(`Dialect.not_runsInto_andText`), so a conjunction is accepted exactly if all of its conjuncts are
(`Dialect.equalityOnly_conjuncts`).
-/

namespace SqlQuery.Dialect

open Text

variable {p p' : Text}

/-- What stands between two conjuncts. -/
def andText : Text := " AND "

theorem equalityOnly_iff :
    equalityOnly p = true ↔ ∀ token ∈ nonEqualityTokens, ∀ i, ¬AnyCaseAt token p i := by
  simp only [equalityOnly, List.all_eq_true, Bool.not_eq_true', ← Bool.not_eq_true,
    containsAnyCase_iff, not_exists]

theorem not_runsInto_andText : ∀ token ∈ nonEqualityTokens,
    ¬(upper token).RunsInto andText ∧ ¬andText.RunsInto (upper token) := by
  decide

theorem equalityOnly_and (p q : Text) :
    equalityOnly (p ++ andText ++ q) = (equalityOnly p && equalityOnly q) := by
  have hupper : upper andText = andText := by decide
  have htoken : ∀ token ∈ nonEqualityTokens, (!(p ++ andText ++ q).containsAnyCase token) =
      (!p.containsAnyCase token && !q.containsAnyCase token) := by
    intro token hmem
    obtain ⟨hinto, hfrom⟩ := not_runsInto_andText token hmem
    rw [containsAnyCase_separated hupper hinto hfrom, Bool.not_or]
  rw [Bool.eq_iff_iff, Bool.and_eq_true, equalityOnly, equalityOnly, equalityOnly]
  simp only [List.all_eq_true]
  rw [← forall₂_and]
  refine forall₂_congr fun token hmem => ?_
  rw [htoken token hmem, Bool.and_eq_true]

theorem equalityOnly_of_upper_eq (h : upper p = upper p') :
    equalityOnly p = equalityOnly p' := by
  simp only [equalityOnly, containsAnyCase, h]

theorem equalityOnly_of_infix (h : p <:+: p') (hp' : equalityOnly p' = true) :
    equalityOnly p = true := by
  rw [equalityOnly, List.all_eq_true] at hp' ⊢
  intro token hmem
  have hcontains := hp' token hmem
  rw [Bool.not_eq_true', ← Bool.not_eq_true, containsAnyCase, occursIn_iff] at hcontains ⊢
  exact fun hocc => hcontains (hocc.trans (h.map upperByte))

/-- A conjunction is accepted exactly if both conjuncts are.  A predicate is accepted exactly if no
token is found at any offset of it; so the case of its letters does not matter, and every part of an
accepted predicate is accepted. -/
theorem equalityOnly_conjuncts :
    (∀ p q, equalityOnly (p ++ " AND " ++ q) = true ↔
      equalityOnly p = true ∧ equalityOnly q = true) ∧
    (∀ p, equalityOnly p = true ↔
      ∀ token ∈ (["!=", ">", "<", "IS NULL", "IS NOT NULL"] : List Text), ∀ i,
        ¬AnyCaseAt token p i) ∧
    (∀ p p', List.Forall₂ SameLetter p p' → equalityOnly p' = equalityOnly p) ∧
    ∀ p p', p <:+: p' → equalityOnly p' = true → equalityOnly p = true := by
  refine ⟨fun p q => ?_, fun p => ?_, fun p p' h => ?_, fun p p' => equalityOnly_of_infix⟩
  · rw [← Bool.and_eq_true]
    exact Bool.eq_iff_iff.mp (equalityOnly_and p q)
  · exact equalityOnly_iff
  · exact equalityOnly_of_upper_eq (upper_eq_of_sameLetter h).symm

end SqlQuery.Dialect

namespace SqlQuery.Sample

open Text Dialect

/-- A predicate that is no equality, and the same one with the case of letters changed. -/
def present : Text := "a.y Is Not nuLL"

def shouted : Text := "A.Y IS NOT NULL"

/-- A conjunction of equalities. -/
def equalities : Text := "a.x = b.x AND b.z = 1"

theorem equalities_conjuncts : List.Forall₂ SameLetter present shouted ∧
    equalityOnly shouted = equalityOnly present ∧ equalityOnly present = false ∧
    equalityOnly (equalities ++ " AND " ++ present) = false ∧
    "b.z = 1" <:+: equalities ∧ equalityOnly equalities = true ∧
    equalityOnly "b.z = 1" = true := by
  obtain ⟨hand, -, hcase, hpart⟩ := equalityOnly_conjuncts
  have hletters : List.Forall₂ SameLetter present shouted := by decide
  have hrefused : equalityOnly present = false := by decide
  have hocc : "b.z = 1" <:+: equalities := by decide
  have haccepted : equalityOnly equalities = true := by decide
  refine ⟨hletters, hcase _ _ hletters, hrefused, ?_, hocc, haccepted, hpart _ _ hocc haccepted⟩
  rw [Bool.eq_false_iff, Ne, hand, hrefused]
  exact fun h => Bool.false_ne_true h.2

end SqlQuery.Sample
