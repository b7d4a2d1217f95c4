import VirtualPeople.Proofs.Filter.Condition
import VirtualPeople.Proofs.Record.Frame
import VirtualPeople.Proofs.Update.Masking
import VirtualPeople.Update.Columns

/-!
# A mask finds the column that the filters find

If every column sets just the scalars of a mask, and none of these is a floating-point number, then
the filter of a column holds of the events that agree with the column on the mask
(`holds_iff_agrees`). At most one column does, so that the first of them is the one in the table
(`find_mask_eq_find_filters`).
-/

namespace VirtualPeople

/-- Other scalars than floating-point numbers are equal only to themselves, and always to those. -/
theorem ScalarKind.beq_iff {k : ScalarKind} (hfloat : k ≠ .float) (hdouble : k ≠ .double)
    {a b : k.Carrier} : k.beq a b ↔ a = b := by
  cases k with
  | float => exact absurd rfl hfloat
  | double => exact absurd rfl hdouble
  | _ => exact beq_iff_eq

theorem ScalarKind.isFinite_of_ne {k : ScalarKind} (hfloat : k ≠ .float) (hdouble : k ≠ .double)
    (a : k.Carrier) : k.isFinite a := by
  cases k with
  | float => exact absurd rfl hfloat
  | double => exact absurd rfl hdouble
  | _ => rfl

namespace FieldMask

/-- The paths of the mask lead to scalars that are no floating-point numbers. -/
def IsExact (mask : FieldMask) : Prop :=
  ∀ text ∈ mask.paths, ∃ f : ScalarField Schema.event.fields,
    Schema.event.field text = .ok (.scalar f) ∧ f.kind ≠ .float ∧ f.kind ≠ .double

/-- The mask names just the scalars that are set in an event. -/
def NamesSet (mask : FieldMask) (c : Event) : Prop :=
  ∀ k (p : Path Schema.event.fields (.scalar k)),
    (p.get c).isSome ↔ ∃ text ∈ mask.paths, Schema.event.field text = .ok (.scalar ⟨text, k, p⟩)

variable {mask : FieldMask}

theorem IsExact.finite (hmask : mask.IsExact) (e : Event) : mask.Finite e := by
  intro text htext f hf
  obtain ⟨g, hg, hfloat, hdouble⟩ := hmask text htext
  rw [hg] at hf
  cases hf
  exact (Option.all_eq_true _ _).2 fun v _ => ScalarKind.isFinite_of_ne hfloat hdouble v

/-- The filter of a column asks whether an event agrees with the column on the mask. -/
theorem holds_iff_agrees (hmask : mask.IsExact) {c : Event} (hc : mask.NamesSet c)
    {f : Filter Schema.event.fields} (hf : Filter.ofRecord c = .ok f) (e : Event) :
    f.holds e ↔ mask.Agrees c e := by
  rw [Filter.holds_ofRecord hf]
  constructor
  · intro h text htext g hg
    obtain ⟨⟨text', k, p⟩, hfield, hfloat, hdouble⟩ := hmask text htext
    rw [hfield] at hg
    cases hg
    obtain rfl : text' = text := MaskTable.text_of_field hfield
    obtain ⟨v, hv⟩ := Option.isSome_iff_exists.1 ((hc k p).2 ⟨text', htext, hfield⟩)
    obtain ⟨w, hw, heq⟩ := h k p v hv
    rw [ScalarKind.beq_iff hfloat hdouble] at heq
    change p.get c = p.get e
    rw [hv, hw, heq]
  · intro h k p v hv
    obtain ⟨text, htext, hfield⟩ := (hc k p).1 (by rw [hv]; rfl)
    obtain ⟨g, hg, hfloat, hdouble⟩ := hmask text htext
    rw [hfield] at hg
    cases hg
    have hagree : p.get c = p.get e := h text htext _ hfield
    exact ⟨v, hagree ▸ hv, (ScalarKind.beq_iff hfloat hdouble).2 rfl⟩

end FieldMask

namespace ColumnMatcher

variable {columns : List Event} {mask : FieldMask}

/-- The table of a mask and the filters of its columns find the same column. -/
theorem find_mask_eq_find_filters (hmask : mask.IsExact)
    (hcolumns : ∀ c ∈ columns, mask.NamesSet c)
    {byMask byFilters : ColumnMatcher} (hm : build columns (some mask) = .ok byMask)
    (hf : build columns none = .ok byFilters) {e : Event}
    (hcollision : mask.Collisionless (e :: columns)) : byMask.find? e = byFilters.find? e := by
  simp only [build, bind_eq_ok, pure_eq_ok] at hm hf
  obtain ⟨t, ht, rfl⟩ := hm
  obtain ⟨filters, hfilters, rfl⟩ := hf
  have hfind := MaskTable.find_eq_some_iff ht hcollision (fun c _ => hmask.finite c)
    (hmask.finite e)
  have hlookup : find? (.table t) e = t.find? e := rfl
  have hscan : find? (.filters filters) e = filters.findIdx? (·.holds e) := rfl
  rw [hlookup]
  rcases hfirst : find? (.filters filters) e with _ | i
  · rw [hscan, List.findIdx?_eq_none_iff] at hfirst
    rw [Option.eq_none_iff_forall_ne_some]
    intro i hi
    obtain ⟨c, hc, hagree⟩ := (hfind i).1 hi
    have hmem := List.mem_of_getElem? hc
    obtain ⟨f, hf⟩ := exists_mapM_iff.1 ⟨filters, hfilters⟩ c hmem
    have hholds := (FieldMask.holds_iff_agrees hmask (hcolumns c hmem) hf e).2 hagree
    rw [hfirst f ((mem_of_mapM hfilters f).2 ⟨c, hmem, hf⟩)] at hholds
    cases hholds
  · rw [hscan] at hfirst
    obtain ⟨hi, hholds, -⟩ := List.findIdx?_eq_some_iff_getElem.1 hfirst
    obtain ⟨hlen, hget⟩ := List.forall₂_iff_get.1 (forall₂_of_mapM hfilters)
    have hcolumn := hget i (hlen ▸ hi) hi
    refine (hfind i).2 ⟨columns[i], List.getElem?_eq_getElem _, ?_⟩
    exact (FieldMask.holds_iff_agrees hmask (hcolumns _ (List.getElem_mem _)) hcolumn e).1 hholds

theorem namesSet_byCountry (code : String) :
    MaskTable.byCountry.NamesSet (MaskTable.fromCountry code) := by
  have hfield : Schema.event.field "person_country_code" = .ok (.scalar MaskTable.countryField) :=
    rfl
  intro k p
  constructor
  · intro h
    cases p.eq_of_isSome (.there .here) code h
    exact ⟨_, List.mem_cons_self, hfield⟩
  · rintro ⟨text, htext, hf⟩
    rw [List.mem_singleton.1 htext, hfield] at hf
    cases hf
    rfl

theorem find_mask_eq_find_filters_countries : ∃ byMask byFilters,
    build MaskTable.countries (some MaskTable.byCountry) = .ok byMask ∧
    build MaskTable.countries none = .ok byFilters ∧
    byMask.find? (Event.withFingerprint 7 (MaskTable.fromCountry "FR")) =
      byFilters.find? (Event.withFingerprint 7 (MaskTable.fromCountry "FR")) := by
  have hmask : MaskTable.byCountry.IsExact := by
    intro text htext
    rw [List.mem_singleton.1 htext]
    exact ⟨MaskTable.countryField, rfl, by decide, by decide⟩
  have hcolumns : ∀ c ∈ MaskTable.countries, MaskTable.byCountry.NamesSet c := by
    intro c hc
    obtain ⟨code, rfl⟩ : ∃ code, c = MaskTable.fromCountry code := by
      rcases List.mem_cons.1 hc with rfl | hc
      · exact ⟨"DE", rfl⟩
      · exact ⟨"FR", List.mem_singleton.1 hc⟩
    exact namesSet_byCountry code
  obtain ⟨byMask, hm⟩ :
      ∃ byMask, build MaskTable.countries (some MaskTable.byCountry) = .ok byMask := by
    rcases hbuild : build MaskTable.countries (some MaskTable.byCountry) with err | byMask
    · have hok : (build MaskTable.countries (some MaskTable.byCountry)).isOk := by decide +kernel
      rw [hbuild] at hok
      cases hok
    · exact ⟨byMask, rfl⟩
  obtain ⟨byFilters, hf⟩ : ∃ byFilters, build MaskTable.countries none = .ok byFilters := ⟨_, rfl⟩
  exact ⟨byMask, byFilters, hm, hf, find_mask_eq_find_filters hmask hcolumns hm hf
    (MaskTable.collisionless_byCountry (by decide +kernel))⟩

end ColumnMatcher

end VirtualPeople
