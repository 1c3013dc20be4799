import Statechart.Json.Basic
import Statechart.Proofs.Association

/-!
# Well-formed JSON values

A value is well formed when no object in it repeats a key.  On such a value `merged` does
nothing.
-/

namespace Statechart.Json

mutual

/-- No object in the value repeats a key. -/
def WellFormed : Json → Prop
  | .arr items => WellFormedItems items
  | .obj fields => (fields.map Prod.fst).Nodup ∧ WellFormedFields fields
  | _ => True

/-- No object in the items repeats a key. -/
def WellFormedItems : List Json → Prop
  | [] => True
  | a :: rest => WellFormed a ∧ WellFormedItems rest

/-- No object in the values of the fields repeats a key. -/
def WellFormedFields : List (String × Json) → Prop
  | [] => True
  | (_, a) :: rest => WellFormed a ∧ WellFormedFields rest

end

theorem wellFormedItems_iff {items : List Json} :
  WellFormedItems items ↔ ∀ a ∈ items, a.WellFormed
  := by
  induction items with
  | nil => simp [WellFormedItems]
  | cons a items ih => simp [WellFormedItems, ih]

theorem wellFormedFields_iff {fields : List (String × Json)} :
  WellFormedFields fields ↔ ∀ f ∈ fields, f.2.WellFormed
  := by
  induction fields with
  | nil => simp [WellFormedFields]
  | cons f fields ih =>
    obtain ⟨key, a⟩ := f
    rw [WellFormedFields, ih, List.forall_mem_cons]

@[simp]
theorem wellFormed_str (s : String) :
  (Json.str s).WellFormed
  := trivial

@[simp]
theorem wellFormed_bool (b : Bool) :
  (Json.bool b).WellFormed
  := trivial

/-- An array is well formed exactly when its items are. -/
theorem wellFormed_arr_iff {items : List Json} :
  (Json.arr items).WellFormed ↔ ∀ a ∈ items, a.WellFormed
  := by
  rw [WellFormed, wellFormedItems_iff]

/-- An object is well formed exactly when its keys do not repeat and its values are. -/
theorem wellFormed_obj_iff {fields : List (String × Json)} :
  (Json.obj fields).WellFormed ↔
    (fields.map Prod.fst).Nodup ∧ ∀ f ∈ fields, f.2.WellFormed
  := by
  rw [WellFormed, wellFormedFields_iff]

theorem mergedItems_eq (items : List Json) :
  mergedItems items = items.map merged
  := by
  induction items with
  | nil => rfl
  | cons a items ih => rw [mergedItems, ih, List.map_cons]

/-- Where no key repeats the fields keep their places. -/
theorem mergedFields_of_nodup (fields done : List (String × Json))
    (hkeys : ((done ++ fields).map Prod.fst).Nodup) :
  mergedFields done fields = done ++ fields.map (fun f => (f.1, f.2.merged))
  := by
  induction fields generalizing done with
  | nil => exact (List.append_nil _).symm
  | cons f fields ih =>
    obtain ⟨key, a⟩ := f
    have hkey : key ∉ done.map Prod.fst := by
      rw [List.map_append, List.nodup_append] at hkeys
      exact fun hmem => hkeys.2.2 key hmem key (by simp) rfl
    rw [mergedFields, Association.insert_of_not_mem hkey, ih _ (by simpa using hkeys),
      List.append_assoc]
    rfl

mutual

/-- Merging leaves a well-formed value as it is. -/
theorem merged_of_wellFormed (a : Json) (h : a.WellFormed) :
  a.merged = a
  := by
  cases a with
  | arr items => rw [merged, mergedItems_eq, map_merged_of_wellFormedItems items h]
  | obj fields =>
    rw [merged, mergedFields_of_nodup fields [] h.1, List.nil_append,
      map_merged_of_wellFormedFields fields h.2]
  | _ => rfl

theorem map_merged_of_wellFormedItems (items : List Json) (h : WellFormedItems items) :
  items.map merged = items
  := by
  cases items with
  | nil => rfl
  | cons a rest =>
    rw [List.map_cons, merged_of_wellFormed a h.1, map_merged_of_wellFormedItems rest h.2]

theorem map_merged_of_wellFormedFields (fields : List (String × Json))
    (h : WellFormedFields fields) :
  fields.map (fun f => (f.1, f.2.merged)) = fields
  := by
  cases fields with
  | nil => rfl
  | cons f rest =>
    obtain ⟨key, a⟩ := f
    rw [List.map_cons, merged_of_wellFormed a h.1, map_merged_of_wellFormedFields rest h.2]

end

end Statechart.Json
