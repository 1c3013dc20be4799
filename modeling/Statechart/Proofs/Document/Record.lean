import Statechart.Document.Printer
import Statechart.Document.Reader
import Statechart.Proofs.Json.WellFormed

/-!
# Records that are written and read back

`Reads read a` says that a reader finds `a` in some well-formed value, and
`Faithful read write a` that it finds `a` again in the written form.  The fields of a record
carry both: what a record reads into its fields, its fields read, and where the fields are
faithful the record finds them again among those that are not left out.
-/

namespace Statechart.Document

open Json (single? required? defaulted? optional? flag?)

variable {α : Type} {read : Json → Option α} {write : α → Json}

/-- The reader finds `a` in a well-formed value. -/
def Reads (read : Json → Option α) (a : α) : Prop :=
  ∃ value : Json, value.WellFormed ∧ read value = some a

/-- The reader finds `a` in the written form of `a`, which is well formed and not null. -/
structure Faithful (read : Json → Option α) (write : α → Json) (a : α) : Prop where
  read_write : read (write a) = some a
  wellFormed : (write a).WellFormed
  not_null : (write a).isNull = false

theorem faithful_str (s : String) :
  Faithful Json.string? Json.str s
  := ⟨rfl, trivial, rfl⟩

/-! ### Lists -/

/-- A computation that succeeds on all items of a list finds each of its values in one of
them. -/
theorem exists_of_mem_mapM {β : Type} {f : β → Option α} {items : List β} {found : List α}
    (h : items.mapM f = some found) {a : α} (ha : a ∈ found) :
  ∃ b ∈ items, f b = some a
  := by
  induction items generalizing found with
  | nil =>
    obtain rfl : [] = found := by simpa using h
    cases ha
  | cons b items ih =>
    rw [List.mapM_cons] at h
    obtain ⟨c, hc, h⟩ := Option.bind_eq_some_iff.1 h
    obtain ⟨others, hothers, h⟩ := Option.bind_eq_some_iff.1 h
    obtain rfl : c :: others = found := by simpa using h
    rcases List.mem_cons.1 ha with rfl | ha
    · exact ⟨b, List.mem_cons_self, hc⟩
    · obtain ⟨d, hd, hda⟩ := ih hothers ha
      exact ⟨d, List.mem_cons_of_mem b hd, hda⟩

/-- Reading the values of fields keeps their keys. -/
theorem keys_of_mapM {fields : List (String × Json)} {found : List (String × α)}
    (h : fields.mapM (fun f => (read f.2).map (fun a => (f.1, a))) = some found) :
  found.map Prod.fst = fields.map Prod.fst
  := by
  induction fields generalizing found with
  | nil =>
    obtain rfl : [] = found := by simpa using h
    rfl
  | cons f fields ih =>
    rw [List.mapM_cons] at h
    obtain ⟨c, hc, h⟩ := Option.bind_eq_some_iff.1 h
    obtain ⟨others, hothers, h⟩ := Option.bind_eq_some_iff.1 h
    obtain rfl : c :: others = found := by simpa using h
    obtain ⟨a, -, rfl⟩ := Option.map_eq_some_iff.1 hc
    rw [List.map_cons, List.map_cons, ih hothers]

/-- A computation that finds each item of a list in an image of it finds the list. -/
theorem mapM_map_eq_some {β : Type} {f : β → Option α} {g : α → β} {items : List α}
    (h : ∀ a ∈ items, f (g a) = some a) :
  (items.map g).mapM f = some items
  := by
  induction items with
  | nil => rfl
  | cons a items ih =>
    rw [List.map_cons, List.mapM_cons, h a List.mem_cons_self,
      ih fun b hb => h b (List.mem_cons_of_mem a hb)]
    rfl

/-- Each item of a list that is read, whether it stands in a list or for one, is read from
a well-formed value. -/
theorem reads_of_oneOrMany? {value : Json} {items : List α} (hvalue : value.WellFormed)
    (h : oneOrMany? read value = some items) {a : α} (ha : a ∈ items) :
  Reads read a
  := by
  have single : (read value).map (fun b => [b]) = some items → Reads read a := by
    intro h
    obtain ⟨b, hb, rfl⟩ := Option.map_eq_some_iff.1 h
    obtain rfl := List.mem_singleton.1 ha
    exact ⟨value, hvalue, hb⟩
  rw [oneOrMany?.eq_def] at h
  split at h
  · rename_i values
    split at h
    · rename_i found hfound
      cases h
      obtain ⟨v, hv, hva⟩ := exists_of_mem_mapM hfound ha
      exact ⟨v, Json.wellFormed_arr_iff.1 hvalue v hv, hva⟩
    · exact single h
  · exact single h

/-- A list of faithful items is faithful in its written form. -/
theorem oneOrMany?_arr {items : List α} (h : ∀ a ∈ items, Faithful read write a) :
  oneOrMany? read (.arr (items.map write)) = some items
  := by
  rw [oneOrMany?, mapM_map_eq_some fun a ha => (h a ha).read_write]

theorem wellFormed_arr {items : List α} (h : ∀ a ∈ items, Faithful read write a) :
  (Json.arr (items.map write)).WellFormed
  := by
  rw [Json.wellFormed_arr_iff]
  intro v hv
  obtain ⟨a, ha, rfl⟩ := List.mem_map.1 hv
  exact (h a ha).wellFormed

theorem wellFormed_listField {items : List α} (h : ∀ a ∈ items, Faithful read write a) :
  ∀ v ∈ listField write items, v.WellFormed
  := by
  intro v hv
  rw [listField] at hv
  split at hv
  · cases hv
  · cases hv
    exact wellFormed_arr h

theorem wellFormed_optionField {o : Option α} (h : ∀ a ∈ o, Faithful read write a) :
  ∀ v ∈ o.map write, v.WellFormed
  := by
  intro v hv
  obtain ⟨a, ha, rfl⟩ := Option.map_eq_some_iff.1 hv
  exact (h a ha).wellFormed

theorem wellFormed_flagField (b : Bool) :
  ∀ v ∈ flagField b, v.WellFormed
  := by
  cases b <;> simp [flagField]

/-! ### Fields that are read -/

section Fields

variable {fields : List (String × Json)} {names : List String}

/-- The value of a field is well formed when those of all fields are. -/
theorem wellFormed_of_single? (hfields : ∀ f ∈ fields, f.2.WellFormed) {v : Json}
    (h : single? names fields = some (some v)) :
  v.WellFormed
  := by
  rw [single?] at h
  split at h
  · cases h
  · rename_i f hf
    cases h
    have hmem : f ∈ fields.filter (fun f => names.contains f.1) := by
      rw [hf]
      exact List.mem_singleton_self f
    exact hfields f (List.mem_of_mem_filter hmem)
  · cases h

theorem reads_of_required? (hfields : ∀ f ∈ fields, f.2.WellFormed) {a : α}
    (h : required? fields names read = some a) :
  Reads read a
  := by
  obtain ⟨found, hfound, h⟩ := Option.bind_eq_some_iff.1 h
  obtain ⟨v, rfl, hv⟩ := Option.bind_eq_some_iff.1 h
  exact ⟨v, wellFormed_of_single? hfields hfound, hv⟩

theorem reads_of_defaulted? (hfields : ∀ f ∈ fields, f.2.WellFormed) {default a : α}
    (h : defaulted? fields names default read = some a) :
  a = default ∨ Reads read a
  := by
  obtain ⟨found, hfound, h⟩ := Option.bind_eq_some_iff.1 h
  cases found with
  | none =>
    cases h
    exact .inl rfl
  | some v => exact .inr ⟨v, wellFormed_of_single? hfields hfound, h⟩

theorem reads_of_optional? (hfields : ∀ f ∈ fields, f.2.WellFormed) {o : Option α}
    (h : optional? fields names read = some o) :
  ∀ a ∈ o, Reads read a
  := by
  rintro a rfl
  rcases reads_of_defaulted? hfields h with h | ⟨v, hv, h⟩
  · cases h
  · dsimp only at h
    split at h
    · cases h
    · obtain ⟨b, hb, hba⟩ := Option.map_eq_some_iff.1 h
      cases hba
      exact ⟨v, hv, hb⟩

theorem reads_of_defaultedList? (hfields : ∀ f ∈ fields, f.2.WellFormed) {items : List α}
    (h : defaulted? fields names [] (oneOrMany? read) = some items) :
  ∀ a ∈ items, Reads read a
  := by
  intro a ha
  rcases reads_of_defaulted? hfields h with rfl | ⟨v, hv, h⟩
  · cases ha
  · exact reads_of_oneOrMany? hv h ha

end Fields

/-- The fields of a record of the given names are well formed when its value is. -/
theorem wellFormed_of_record? {names : List String} {value : Json}
    {fields : List (String × Json)} (hvalue : value.WellFormed)
    (h : Json.record? names value = some fields) :
  ∀ f ∈ fields, f.2.WellFormed
  := by
  rw [Json.record?.eq_def] at h
  split at h
  · cases h
    exact (Json.wellFormed_obj_iff.1 hvalue).2
  · split at h
    · cases h
      intro f hf
      exact Json.wellFormed_arr_iff.1 hvalue f.2 (List.of_mem_zip hf).2
    · cases h
  · cases h

/-! ### Fields that are written -/

/-- The fields that are not left out. -/
def present (fields : List (String × Option Json)) : List (String × Json) :=
  fields.filterMap (fun f => f.2.map (fun v => (f.1, v)))

theorem objOf_eq (fields : List (String × Option Json)) :
  Json.objOf fields = .obj (present fields)
  := rfl

/-- Leaving fields out and choosing them by their names are independent. -/
theorem filter_present (p : String → Bool) (fields : List (String × Option Json)) :
  (present fields).filter (fun f => p f.1) = present (fields.filter (fun f => p f.1))
  := by
  induction fields with
  | nil => rfl
  | cons f fields ih =>
    obtain ⟨key, o⟩ := f
    cases o <;> cases hp : p key <;> simp_all [present]

/-- A written record is well formed when its names do not repeat and its values are well
formed. -/
theorem wellFormed_objOf {fields : List (String × Option Json)}
    (hkeys : (fields.map Prod.fst).Nodup) (h : ∀ f ∈ fields, ∀ v ∈ f.2, v.WellFormed) :
  (Json.objOf fields).WellFormed
  := by
  rw [objOf_eq, Json.wellFormed_obj_iff]
  constructor
  · have hsub : ((present fields).map Prod.fst).Sublist (fields.map Prod.fst) := by
      clear hkeys h
      induction fields with
      | nil => exact .slnil
      | cons f fields ih =>
        obtain ⟨key, o⟩ := f
        cases o with
        | none => exact ih.cons key
        | some v => exact ih.cons_cons key
    exact hkeys.sublist hsub
  · intro f hf
    obtain ⟨g, hg, hgf⟩ := List.mem_filterMap.1 hf
    obtain ⟨v, hv, rfl⟩ := Option.map_eq_some_iff.1 hgf
    exact h g hg v hv

section Present

variable {fields : List (String × Option Json)} {names : List String} (name : String)

theorem single?_present {o : Option Json}
    (h : fields.filter (fun f => names.contains f.1) = [(name, o)]) :
  single? names (present fields) = some o
  := by
  rw [single?, filter_present (names.contains ·), h]
  cases o <;> rfl

theorem required?_present {a : α}
    (h : fields.filter (fun f => names.contains f.1) = [(name, some (write a))])
    (ha : Faithful read write a) :
  required? (present fields) names read = some a
  := by
  rw [required?, single?_present name h]
  exact ha.read_write

theorem optional?_present {o : Option α}
    (h : fields.filter (fun f => names.contains f.1) = [(name, o.map write)])
    (ho : ∀ a ∈ o, Faithful read write a) :
  optional? (present fields) names read = some o
  := by
  rw [optional?, defaulted?, single?_present name h]
  cases o with
  | none => rfl
  | some a =>
    have ha := ho a rfl
    simp [ha.not_null, ha.read_write]

theorem defaultedList?_present {items : List α}
    (h : fields.filter (fun f => names.contains f.1) = [(name, listField write items)])
    (hitems : ∀ a ∈ items, Faithful read write a) :
  defaulted? (present fields) names [] (oneOrMany? read) = some items
  := by
  rw [defaulted?, single?_present name h, listField]
  cases items with
  | nil => rfl
  | cons a items => exact oneOrMany?_arr hitems

theorem defaultedFlag?_present {b : Bool}
    (h : fields.filter (fun f => names.contains f.1) = [(name, flagField b)]) :
  defaulted? (present fields) names false flag? = some b
  := by
  rw [defaulted?, single?_present name h]
  cases b <;> rfl

end Present

end Statechart.Document
