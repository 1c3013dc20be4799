import Mathlib.Data.List.Dedup
import Statechart.Proofs.Json.WellFormed

/-!
# Merged objects

In an object that repeats a key the last value of the key counts (`field?_merged_obj`), so there are
as many fields as there are different keys, and a merged value is well formed
(`wellFormed_merged`).
-/

namespace Statechart.Json

variable {fields done : List (String × Json)} {f : String × Json} {key : String}

/-- The value at the end of a row of keys. -/
def at? : List String → Json → Option Json
  | [], a => some a
  | key :: keys, a => (a.field? key).bind (at? keys)

/-- Merging inserts the fields, each merged, one after the other. -/
theorem mergedFields_eq_foldl (fields done : List (String × Json)) :
  mergedFields done fields = (fields.map (fun f => (f.1, f.2.merged))).foldl
    (fun acc f => Association.insert f.1 f.2 acc) done
  := by
  induction fields generalizing done with
  | nil => rfl
  | cons f fields ih =>
    obtain ⟨key, a⟩ := f
    rw [mergedFields, ih, List.map_cons, List.foldl_cons]

theorem lookup_mergedFields (fields done : List (String × Json)) (key : String) :
  (mergedFields done fields).lookup key =
    ((fields.filter (fun f => f.1 == key)).getLast?.map (fun f => f.2.merged)).or
      (done.lookup key)
  := by
  rw [mergedFields_eq_foldl, Association.lookup_foldl_insert, List.filter_map, List.getLast?_map,
    Option.map_map]
  rfl

/-- The last value of a key counts. -/
theorem field?_merged_obj (fields : List (String × Json)) (key : String) :
  (obj fields).merged.field? key =
    (fields.filter (fun f => f.1 == key)).getLast?.map (fun f => f.2.merged)
  := by
  rw [merged, field?, lookup_mergedFields]
  exact Option.or_none

/-! ### Fields of merged objects -/

/-- Every field of a merged object is one of the fields, with its value merged. -/
theorem exists_of_mem_mergedFields (h : f ∈ mergedFields done fields) :
  f ∈ done ∨ ∃ g ∈ fields, f = (g.1, g.2.merged)
  := by
  induction fields generalizing done with
  | nil => exact .inl h
  | cons g fields ih =>
    rcases ih h with h | ⟨g', hg', hf⟩
    · have hf := (Association.mem_of_mem_insert h).symm
      exact hf.imp_right (fun hf => ⟨g, List.mem_cons_self, hf⟩)
    · exact .inr ⟨g', List.mem_cons_of_mem _ hg', hf⟩

/-- A merged object has each of the keys once. -/
theorem keys_mergedFields (fields done : List (String × Json)) (hdone : (done.map Prod.fst).Nodup) :
  ((mergedFields done fields).map Prod.fst).Nodup ∧
    ∀ key, key ∈ (mergedFields done fields).map Prod.fst ↔
      key ∈ done.map Prod.fst ∨ key ∈ fields.map Prod.fst
  := by
  induction fields generalizing done with
  | nil => exact ⟨hdone, fun key => (or_iff_left List.not_mem_nil).symm⟩
  | cons f fields ih =>
    obtain ⟨k, a⟩ := f
    obtain ⟨hnodup, hmem⟩ := ih _ (Association.nodup_keys_insert hdone k a.merged)
    refine ⟨hnodup, fun key => (hmem key).trans ?_⟩
    rw [Association.mem_keys_insert, List.map_cons, List.mem_cons, or_assoc]

/-- A merged object has as many fields as there are different keys. -/
theorem length_mergedFields (fields : List (String × Json)) :
  (mergedFields [] fields).length = (fields.map Prod.fst).dedup.length
  := by
  obtain ⟨hnodup, hmem⟩ := keys_mergedFields fields [] List.nodup_nil
  rw [← List.length_map Prod.fst]
  apply List.Perm.length_eq
  rw [List.perm_ext_iff_of_nodup hnodup (List.nodup_dedup _)]
  intro key
  rw [hmem, List.mem_dedup]
  exact or_iff_right List.not_mem_nil

/-! ### Merged values -/

@[simp]
theorem isObject_merged (a : Json) :
  a.merged.isObject = a.isObject
  := by
  cases a <;> rfl

/-- Merging makes no fields but of those that there are. -/
theorem length_mergedFields_le (fields : List (String × Json)) :
  (mergedFields [] fields).length ≤ fields.length
  := by
  rw [length_mergedFields, ← List.length_map Prod.fst]
  exact (List.dedup_sublist _).length_le

mutual

/-- A merged value is well formed. -/
theorem wellFormed_merged (a : Json) :
  a.merged.WellFormed
  := by
  cases a with
  | arr items =>
    rw [merged, mergedItems_eq, wellFormed_arr_iff, List.forall_mem_map]
    exact wellFormed_merged_of_mem items
  | obj fields =>
    rw [merged, wellFormed_obj_iff]
    use (keys_mergedFields fields [] List.nodup_nil).1
    intro f hf
    rcases exists_of_mem_mergedFields hf with hf | ⟨g, hg, rfl⟩
    · cases hf
    · exact wellFormed_merged_of_mem_fields fields g hg
  | _ => trivial

theorem wellFormed_merged_of_mem (items : List Json) :
  ∀ a ∈ items, a.merged.WellFormed
  := by
  cases items with
  | nil => exact fun a ha => absurd ha List.not_mem_nil
  | cons a items =>
    exact List.forall_mem_cons.mpr ⟨wellFormed_merged a, wellFormed_merged_of_mem items⟩

theorem wellFormed_merged_of_mem_fields (fields : List (String × Json)) :
  ∀ f ∈ fields, f.2.merged.WellFormed
  := by
  cases fields with
  | nil => exact fun f hf => absurd hf List.not_mem_nil
  | cons f fields =>
    obtain ⟨key, a⟩ := f
    exact List.forall_mem_cons.mpr
      ⟨wellFormed_merged a, wellFormed_merged_of_mem_fields fields⟩

end

/-- Fields that make a well-formed object are merged already. -/
theorem mergedFields_of_wellFormed (h : (obj fields).WellFormed) :
  mergedFields [] fields = fields
  := by
  have hmerged := merged_of_wellFormed (obj fields) h
  rw [merged] at hmerged
  exact obj.inj hmerged

end Statechart.Json
