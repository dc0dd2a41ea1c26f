import SqlQuery.Proofs.Record.RoundTrip

/-!
# Files without quotes

A line without a quote has plain fields only, and these are trimmed.  So is every text of a query
that is read from a file without quotes (`exists_read_trimmed`).
-/

namespace SqlQuery

def Record.Trimmed (r : Record) : Prop := ∀ t ∈ r.texts, t.Trimmed

namespace Format

variable {f : Format} {n : Nat} {t rest line : Text}

theorem trimmed_of_field {x : Field} (hq : f.quote ∉ t) (h : f.field n t = .ok (x, rest)) :
    x.text.Trimmed := by
  have hhead : (Text.trimLeft t).head? ≠ some f.quote := fun heq =>
    hq (trimLeft_subset t (List.mem_of_head? heq))
  rw [field_of_plain hhead] at h
  cases h
  exact Text.trimmed_trim _

theorem trimmed_of_fields {xs : List Field} (hq : f.quote ∉ t) (h : f.fields n t = .ok xs) :
    ∀ x ∈ xs, x.text.Trimmed := by
  fun_induction fields f n t generalizing xs with
  | case1 _ r hr => cases h
  | case2 t x hx =>
      cases h
      simpa using trimmed_of_field hq hx
  | case3 t x b rest hx ih =>
      have hrest : f.quote ∉ rest := fun hmem =>
        hq ((subset_of_field hx).2 (List.mem_cons_of_mem b hmem))
      obtain ⟨ys, hs, rfl⟩ := map_cons_eq_ok h
      exact List.forall_mem_cons.mpr ⟨trimmed_of_field hq hx, ih hrest hs⟩

theorem trimmed_of_readLine {column : UInt32} {r : Record} (hq : f.quote ∉ line)
    (h : f.readLine line = .ok (.accepted column r)) : r.Trimmed := by
  obtain ⟨xs, hxs, -, hmem⟩ := drawnFrom_of_readLine h
  intro t ht
  rcases hmem t ht with rfl | ht
  · exact fun hne => absurd rfl hne
  · obtain ⟨x, hx, rfl⟩ := List.mem_map.mp ht
    exact trimmed_of_fields (fun hmem => hq (dropReturn_subset line hmem)) hxs x hx

theorem exists_read_trimmed (hq : f.quote ∉ t) : ∃ r, f.read t = .ok r ∧ r.query.Writable ∧
    ∀ x ∈ r.query.records, x.Trimmed := by
  obtain ⟨r, hr, hrecords⟩ := exists_read_records f t
  refine ⟨r, hr, fun x hx => ?_, fun x hx => ?_⟩
  · obtain ⟨line, hline, column, hread⟩ := hrecords x hx
    exact writable_of_readLine hread (Text.not_mem_of_mem_lines hline)
  · obtain ⟨line, hline, column, hread⟩ := hrecords x hx
    exact trimmed_of_readLine (fun hmem => hq (Text.subset_of_mem_lines hline hmem)) hread

end Format

end SqlQuery
