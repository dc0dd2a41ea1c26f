import SqlQuery.Proofs.Record.Fields

/-!
# Which formats are ambiguous

Any texts can be written between quotes, and the line should split into them again.  It does so for
every list of texts exactly if the quote and the delimiter are no blanks and the quote is not the
escape (`unambiguous_iff_lossless`).  A format need not meet these conditions: only the delimiter is
told apart from the quote and from the escape.
-/

namespace SqlQuery

namespace Format

variable {f : Format} {n : Nat} {t rest : Text}

/-- A line of quoted texts splits into these texts. -/
def Lossless (f : Format) : Prop :=
  ∀ t ts, ∃ xs, f.split (f.writeLine ((t :: ts).map .quoted)) = .ok xs ∧
    xs.map (·.text) = t :: ts

theorem Unambiguous.lossless (hf : f.Unambiguous) : f.Lossless := by
  intro t ts
  have hlegible : ∀ x ∈ (t :: ts).map WrittenField.quoted, x.Legible f := by
    intro x hx
    obtain ⟨u, -, rfl⟩ := List.mem_map.mp hx
    trivial
  obtain ⟨xs, hxs, htexts⟩ := split_writeLine hf hlegible
  refine ⟨xs, hxs, htexts.trans ?_⟩
  rw [← List.map_cons, List.map_map]
  exact List.map_id (t :: ts)

/-! ## A blank as the quote -/

theorem exists_field_of_fields {x : Field} {xs : List Field} (h : f.fields n t = .ok (x :: xs)) :
    ∃ rest, f.field n t = .ok (x, rest) := by
  rw [fields] at h
  split at h
  · cases h
  · rename_i y hy
    cases h
    exact ⟨[], hy⟩
  · rename_i y b rest hy
    obtain ⟨ys, -, heq⟩ := map_cons_eq_ok h
    cases heq
    exact ⟨b :: rest, hy⟩

/-- Blanks before a field are skipped, so such a quote opens no field. -/
theorem head?_trimLeft_ne_quote (hq : Text.isBlank f.quote = true) (t : Text) :
    (Text.trimLeft t).head? ≠ some f.quote := by
  have hhead := List.head?_dropWhile_not Text.isBlank t
  intro heq
  rw [Text.trimLeft] at heq
  simp [heq, hq] at hhead

theorem delimiter_not_mem_of_field (hq : Text.isBlank f.quote = true) {x : Field}
    (h : f.field n t = .ok (x, rest)) : f.delimiter ∉ x.text := by
  rw [field_of_plain (head?_trimLeft_ne_quote hq t), plainField] at h
  cases h
  intro hmem
  have htake := List.mem_takeWhile_imp (trim_subset _ hmem)
  simp at htake

theorem Lossless.quote_not_blank (h : f.Lossless) : Text.isBlank f.quote = false := by
  rw [← Bool.not_eq_true]
  intro hq
  obtain ⟨xs, hxs, htexts⟩ := h [f.delimiter] []
  cases xs with
  | nil => cases htexts
  | cons x xs =>
      obtain ⟨rest, hfield⟩ := exists_field_of_fields hxs
      have htext : x.text = [f.delimiter] := (List.cons.inj htexts).1
      have hmem := delimiter_not_mem_of_field hq hfield
      rw [htext] at hmem
      exact hmem List.mem_cons_self

/-! ## Two empty texts -/

/-- Two empty texts between quotes. -/
def empties (f : Format) : Text := [f.quote, f.quote, f.delimiter, f.quote, f.quote]

theorem split_of_error {line : Text} {r : Rejection} (h : f.field line.length line = .error r) :
    f.split line = .error r := by
  rw [split, fields]
  split <;> simp_all

theorem field_empties (hq : Text.isBlank f.quote = false) :
    f.field n f.empties = f.quotedField n (columnOf n f.empties)
      [f.quote, f.delimiter, f.quote, f.quote] := by
  have htrim : Text.trimLeft f.empties = f.empties := Text.trimLeft_cons hq _
  have hquote : Text.trimLeft f.empties = f.quote :: [f.quote, f.delimiter, f.quote, f.quote] :=
    htrim
  rw [field_of_quote hquote, htrim]

/-- The second quote takes the delimiter as it is, and the third one the fourth. -/
theorem split_empties_of_quote_eq_escape (hq : Text.isBlank f.quote = false)
    (he : f.quote = f.escape) : f.split f.empties = .error ⟨1, .unterminatedQuote⟩ := by
  have hquoted : f.quoted [f.quote, f.delimiter, f.quote, f.quote] = none := by
    simp [quoted, he]
  refine split_of_error ?_
  rw [field_empties hq, quotedField, hquoted]
  rfl

/-- The delimiter is skipped as a blank after the first text. -/
theorem split_empties_of_delimiter_blank (hq : Text.isBlank f.quote = false)
    (he : f.quote ≠ f.escape) (hd : Text.isBlank f.delimiter = true) :
    f.split f.empties = .error ⟨4, .textAfterQuote f.delimiter⟩ := by
  have htrim : Text.trimLeft [f.delimiter, f.quote, f.quote] = [f.quote, f.quote] := by
    rw [Text.trimLeft, List.dropWhile_cons_of_pos hd]
    exact Text.trimLeft_cons hq [f.quote]
  refine split_of_error ?_
  rw [field_empties hq, quotedField, quoted_quote he]
  simp only [htrim, if_neg f.delimiter_ne_quote.symm]
  rfl

theorem Lossless.exists_split_empties (h : f.Lossless) : ∃ xs, f.split f.empties = .ok xs := by
  obtain ⟨xs, hxs, -⟩ := h [] [[]]
  exact ⟨xs, hxs⟩

theorem Lossless.quote_ne_escape (h : f.Lossless) : f.quote ≠ f.escape := by
  intro he
  obtain ⟨xs, hxs⟩ := h.exists_split_empties
  cases hxs.symm.trans (split_empties_of_quote_eq_escape h.quote_not_blank he)

theorem Lossless.delimiter_not_blank (h : f.Lossless) : Text.isBlank f.delimiter = false := by
  rw [← Bool.not_eq_true]
  intro hd
  obtain ⟨xs, hxs⟩ := h.exists_split_empties
  have herror := split_empties_of_delimiter_blank h.quote_not_blank h.quote_ne_escape hd
  cases hxs.symm.trans herror

theorem unambiguous_iff_lossless (f : Format) : f.Unambiguous ↔ f.Lossless :=
  ⟨Unambiguous.lossless, fun h => ⟨h.delimiter_not_blank, h.quote_not_blank, h.quote_ne_escape⟩⟩

end Format

namespace Sample

/-- Fields between tabs. -/
def tabbed : Format where
  delimiter := 9
  quote := 34
  escape := 92
  comment := 35
  delimiter_ne_quote := by decide
  delimiter_ne_escape := by decide

/-- The tab that ends the first field is skipped as a blank, and then it is missed. -/
theorem tabbed_refused : Format.make 9 34 92 35 = .ok tabbed ∧
    tabbed.split (tabbed.writeLine [.quoted "table", .quoted "t"]) =
      .error ⟨9, .textAfterQuote tabbed.delimiter⟩ :=
  ⟨rfl, Format.split_of_error (by decide)⟩

end Sample

end SqlQuery
