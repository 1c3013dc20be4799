import Statechart.Event
import Statechart.Proofs.Json.Merged

/-!
# The wire form of events

The fields of a payload stand beside the name of the event on the wire, and what is no object
stands there under the key `data`.  So some payloads share their wire form with others
(`Event.Collides`).  An event is found again in its wire form exactly if its payload is none of
them and repeats no key, and exactly these events are read from values at all
(`Event.ofJson_wire`), whether or not the values repeat keys.
-/

namespace Statechart.Event

variable {fields rest read : List (String × Json)} {name found : Option String}
  {data value : Json} {event : Event}

/-! ### Reading fields -/

/-- The name that a field gives. -/
def named? (f : String × Json) : Option String :=
  if f.1 = "type" then f.2.string? else none

/-- Fields are read exactly if all the names among them are strings.  Then the last name counts, and
the other fields are merged. -/
theorem gather_eq_ok_iff :
  gather name rest fields = .ok (found, read) ↔
    (∀ f ∈ fields, f.1 = "type" → ∃ s, f.2 = .str s) ∧
      (fields.filterMap named?).getLast?.or name = found ∧
      Json.mergedFields rest (fields.filter (fun f => f.1 ≠ "type")) = read
  := by
  fun_induction gather name rest fields with
  | case1 => simp [Json.mergedFields]
  | case2 name rest fields s ih =>
    have hname : named? ("type", .str s) = some s := rfl
    have hlast : ((("type", .str s) :: fields).filterMap named?).getLast?.or name =
        (fields.filterMap named?).getLast?.or (some s) := by
      rw [List.filterMap_cons_some hname, List.getLast?_cons]
      cases (fields.filterMap named?).getLast? <;> rfl
    have hstring : "type" = "type" → ∃ s', Json.str s = .str s' := fun _ => ⟨s, rfl⟩
    rw [ih, hlast, List.filter_cons_of_neg (by simp), List.forall_mem_cons, and_iff_right hstring]
  | case3 name rest value fields hvalue =>
    apply iff_of_false (by simp)
    rintro ⟨hstrings, -⟩
    obtain ⟨s, hs⟩ := hstrings _ List.mem_cons_self rfl
    exact hvalue s hs
  | case4 name rest key value fields hkey ih =>
    have hnone : named? (key, value) = none := if_neg hkey
    have hstring : key = "type" → ∃ s, value = .str s := fun htype => absurd htype hkey
    rw [ih, List.filter_cons_of_pos (by simpa using hkey), Json.mergedFields,
      List.filterMap_cons_none hnone, List.forall_mem_cons, and_iff_right hstring]

/-- An event is read from its bare name, or from an object in which all names are strings: the last
one is the name of the event, and the other fields, merged, make its payload. -/
theorem ofJson_eq_ok_iff :
  ofJson value = .ok event ↔
    (value = .str event.name ∧ event.data = .null) ∨
      ∃ fields, value = .obj fields ∧
        (∀ f ∈ fields, f.1 = "type" → ∃ s, f.2 = .str s) ∧
        (fields.filterMap named?).getLast? = some event.name ∧
        payload (Json.mergedFields [] (fields.filter (fun f => f.1 ≠ "type"))) = event.data
  := by
  obtain ⟨name, data⟩ := event
  cases value with
  | str s => simp [ofJson, bare, eq_comm]
  | obj fields =>
    have hread : ofJson (.obj fields) = .ok ⟨name, data⟩ ↔
        ∃ read, gather none [] fields = .ok (some name, read) ∧ payload read = data := by
      rw [ofJson]
      rcases gather none [] fields with _ | ⟨_ | found, read⟩ <;> simp
    rw [hread]
    simp only [gather_eq_ok_iff, Option.or_none]
    constructor
    · rintro ⟨_, ⟨hstrings, hname, rfl⟩, hdata⟩
      exact .inr ⟨fields, rfl, hstrings, hname, hdata⟩
    · rintro (⟨⟨⟩, -⟩ | ⟨_, ⟨⟩, hstrings, hname, hdata⟩)
      exact ⟨_, ⟨hstrings, hname, rfl⟩, hdata⟩
  | _ => simp [ofJson]

/-! ### Payloads -/

/-- Whether the wire form of a payload is that of another one, too: an empty object, an object
with a key `type`, or one whose only key is `data`, with a value that is no object. -/
def Collides (data : Json) : Prop :=
  ∃ fields, data = .obj fields ∧
    (fields = [] ∨ "type" ∈ fields.map Prod.fst ∨
      ∃ value, fields = [("data", value)] ∧ value.isObject = false)

/-- The fields that stand for a payload on the wire. -/
def carried : Json → List (String × Json)
  | .null => []
  | .obj fields => fields.filter (fun f => f.1 ≠ "type")
  | other => [("data", other)]

theorem wire_eq (event : Event) :
  event.wire = .obj (("type", .str event.name) :: carried event.data)
  := by
  obtain ⟨name, data⟩ := event
  cases data <;> rfl

theorem type_not_mem_filter (fields : List (String × Json)) :
  "type" ∉ (fields.filter (fun f => f.1 ≠ "type")).map Prod.fst
  := by
  intro hmem
  obtain ⟨f, hf, htype⟩ := List.mem_map.mp hmem
  simpa [htype] using (List.mem_filter.mp hf).2

/-- No field that stands for a payload is the name. -/
theorem type_not_mem_carried (data : Json) :
  "type" ∉ (carried data).map Prod.fst
  := by
  cases data with
  | obj fields => exact type_not_mem_filter fields
  | _ => simp [carried]

theorem type_not_mem_mergedFields (htype : "type" ∉ fields.map Prod.fst) :
  "type" ∉ (Json.mergedFields [] fields).map Prod.fst
  := by
  rw [(Json.keys_mergedFields fields [] List.nodup_nil).2]
  exact not_or.mpr ⟨List.not_mem_nil, htype⟩

/-- Without the name among them, all fields stay. -/
theorem filter_eq_self (htype : "type" ∉ fields.map Prod.fst) :
  fields.filter (fun f => decide (f.1 ≠ "type")) = fields
  := by
  rw [List.filter_eq_self]
  intro f hf
  apply decide_eq_true
  intro heq
  exact htype (List.mem_map.mpr ⟨f, hf, heq⟩)

/-- The wire form of an event is read as the payload that its fields, merged, make. -/
theorem ofJson_wire_eq (event : Event) :
  ofJson event.wire = .ok ⟨event.name, payload (Json.mergedFields [] (carried event.data))⟩
  := by
  have hother : ∀ f ∈ carried event.data, f.1 ≠ "type" := by
    intro f hf heq
    exact type_not_mem_carried event.data (List.mem_map.mpr ⟨f, hf, heq⟩)
  have hname : named? ("type", .str event.name) = some event.name := rfl
  have hnone : (carried event.data).filterMap named? = [] := by
    rw [List.filterMap_eq_nil_iff]
    exact fun f hf => if_neg (hother f hf)
  apply ofJson_eq_ok_iff.mpr
  refine .inr ⟨_, wire_eq event, ?_, ?_, ?_⟩
  · rw [List.forall_mem_cons]
    exact ⟨fun _ => ⟨event.name, rfl⟩, fun f hf heq => absurd heq (hother f hf)⟩
  · rw [List.filterMap_cons_some hname, hnone]
    rfl
  · rw [List.filter_cons_of_neg (by simp), filter_eq_self (type_not_mem_carried event.data)]

/-- The payload that fields make is the object of them, unless there are none or they wrap
another value. -/
theorem payload_cases (fields : List (String × Json)) :
  (payload fields).isObject = false ∧
      (fields = [] ∨ ∃ value, fields = [("data", value)] ∧ value.isObject = false) ∨
    payload fields = .obj fields ∧ fields ≠ [] ∧
      ∀ value, fields = [("data", value)] → value.isObject = true
  := by
  fun_cases payload fields with
  | case1 => exact .inl ⟨rfl, .inl rfl⟩
  | case2 value hobject =>
    refine .inr ⟨rfl, List.cons_ne_nil _ _, ?_⟩
    rintro _ ⟨⟩
    exact hobject
  | case3 value hobject =>
    have hfalse := Bool.not_eq_true _ ▸ hobject
    exact .inl ⟨hfalse, .inr ⟨value, rfl, hfalse⟩⟩
  | case4 _ hnil hdata =>
    exact .inr ⟨rfl, hnil, fun value heq => (hdata value heq).elim⟩

/-- Fields without the name make no payload that collides with others. -/
theorem not_collides_payload (htype : "type" ∉ fields.map Prod.fst) :
  ¬ Collides (payload fields)
  := by
  rintro ⟨found, heq, hfound⟩
  rcases payload_cases fields with ⟨hobject, -⟩ | ⟨hobj, hnil, hdata⟩
  · rw [heq] at hobject
    cases hobject
  · obtain rfl : fields = found := Json.obj.inj (hobj.symm.trans heq)
    rcases hfound with rfl | hmem | ⟨value, rfl, hvalue⟩
    · exact hnil rfl
    · exact htype hmem
    · rw [hdata value rfl] at hvalue
      cases hvalue

/-- A payload that does not collide with others is made again by the fields that stand for
it. -/
theorem payload_carried (h : ¬ Collides data) :
  payload (carried data) = data
  := by
  cases data with
  | obj fields =>
    have hfilter : carried (.obj fields) = fields :=
      filter_eq_self (fun htype => h ⟨fields, rfl, .inr (.inl htype)⟩)
    rw [hfilter]
    rcases payload_cases fields with ⟨-, hcases⟩ | ⟨hobj, -, -⟩
    · exact (h ⟨fields, rfl, hcases.imp_right .inr⟩).elim
    · exact hobj
  | _ => rfl

/-- Fields that make a well-formed object make a well-formed payload. -/
theorem wellFormed_payload (h : (Json.obj fields).WellFormed) :
  (payload fields).WellFormed
  := by
  fun_cases payload fields with
  | case1 => trivial
  | case2 => exact h
  | case3 value => exact (Json.wellFormed_obj_iff.mp h).2 ("data", value) List.mem_cons_self
  | case4 => exact h

/-- The fields that stand for a well-formed payload make a well-formed object. -/
theorem wellFormed_carried (h : data.WellFormed) :
  (Json.obj (carried data)).WellFormed
  := by
  rw [Json.wellFormed_obj_iff]
  cases data with
  | obj fields =>
    obtain ⟨hkeys, hfields⟩ := Json.wellFormed_obj_iff.mp h
    have hsub : (carried (.obj fields)).Sublist fields := List.filter_sublist
    exact ⟨hkeys.sublist (hsub.map Prod.fst), fun f hf => hfields f (hsub.subset hf)⟩
  | null => exact ⟨List.nodup_nil, nofun⟩
  | _ => exact ⟨List.nodup_singleton _, List.forall_mem_singleton.mpr h⟩

/-! ### Payloads that are read -/

/-- What is read from a value has a payload that repeats no key. -/
theorem wellFormed_of_ofJson (h : ofJson value = .ok event) :
  event.data.WellFormed
  := by
  rcases ofJson_eq_ok_iff.mp h with ⟨-, hdata⟩ | ⟨fields, -, -, -, hdata⟩
  · rw [hdata]
    trivial
  · rw [← hdata]
    apply wellFormed_payload
    exact Json.wellFormed_merged (.obj _)

/-- What is read from a value has a payload that does not collide with others. -/
theorem not_collides_of_ofJson (h : ofJson value = .ok event) :
  ¬ Collides event.data
  := by
  rcases ofJson_eq_ok_iff.mp h with ⟨-, hdata⟩ | ⟨fields, -, -, -, hdata⟩
  · rintro ⟨_, heq, -⟩
    rw [hdata] at heq
    cases heq
  · rw [← hdata]
    apply not_collides_payload
    exact type_not_mem_mergedFields (type_not_mem_filter fields)

/-- An event whose payload repeats no key and does not collide with others is found again in its
wire form. -/
theorem ofJson_wire_of_wellFormed (h : event.data.WellFormed) (hcollides : ¬ Collides event.data) :
  ofJson event.wire = .ok event
  := by
  rw [ofJson_wire_eq, Json.mergedFields_of_wellFormed (wellFormed_carried h),
    payload_carried hcollides]

/-- An event that is read from some value is found again in its wire form. -/
theorem ofJson_wire_of_ofJson (h : ofJson value = .ok event) :
  ofJson event.wire = .ok event
  := ofJson_wire_of_wellFormed (wellFormed_of_ofJson h) (not_collides_of_ofJson h)

/-- From a payload that collides with others one is read that is not even equal to it up to the
order of fields. -/
theorem payload_mergedFields_beq (h : Collides data) :
  (payload (Json.mergedFields [] (carried data)) == data) = false
  := by
  obtain ⟨fields, rfl, hfields⟩ := h
  rcases payload_cases (Json.mergedFields [] (carried (.obj fields))) with
    ⟨hobject, -⟩ | ⟨hobj, hnil, hdata⟩
  · generalize payload _ = found at hobject
    cases found with
    | obj => cases hobject
    | _ => rfl
  · have hlength : (Json.mergedFields [] (carried (.obj fields))).length ≠ fields.length := by
      rcases hfields with rfl | hmem | ⟨value, rfl, hvalue⟩
      · exact (hnil rfl).elim
      · obtain ⟨f, hf, htype⟩ := List.mem_map.mp hmem
        apply Nat.ne_of_lt
        apply Nat.lt_of_le_of_lt (Json.length_mergedFields_le _)
        exact List.length_filter_lt_length_iff_exists.mpr ⟨f, hf, by simp [htype]⟩
      · have hmerged := hdata value.merged rfl
        rw [Json.isObject_merged, hvalue] at hmerged
        cases hmerged
    rw [hobj]
    change Json.beq _ _ = false
    rw [Json.beq, beq_eq_false_iff_ne.mpr hlength, Bool.false_and]

/-- The wire form of every event is read as an event of the same name.  This is the event itself
exactly if its payload repeats no key, as is the case for all data, and does not collide with
others; where it collides, the event that is read is not even equal up to the order of fields.
Whatever value an event is read from, be it one that repeats keys, the event has such a payload, so
that it is found again in its wire form. -/
theorem ofJson_wire :
  (∀ event : Event, ∃ read, ofJson event.wire = .ok read ∧ read.name = event.name ∧
    (read = event ↔ event.data.WellFormed ∧ ¬ Collides event.data) ∧
    (Collides event.data → (read == event) = false)) ∧
    ∀ (value : Json) (event : Event), ofJson value = .ok event →
      event.data.WellFormed ∧ ¬ Collides event.data ∧ ofJson event.wire = .ok event
  := by
  constructor
  · intro event
    use ⟨event.name, payload (Json.mergedFields [] (carried event.data))⟩
    have hread := ofJson_wire_eq event
    use hread, rfl
    constructor
    · constructor
      · intro heq
        rw [heq] at hread
        exact ⟨wellFormed_of_ofJson hread, not_collides_of_ofJson hread⟩
      · rintro ⟨hwell, hcollides⟩
        exact Except.ok.inj (hread.symm.trans (ofJson_wire_of_wellFormed hwell hcollides))
    · intro hcollides
      change (event.name == event.name && payload _ == event.data) = false
      rw [payload_mergedFields_beq hcollides, Bool.and_false]
  · intro value event h
    exact ⟨wellFormed_of_ofJson h, not_collides_of_ofJson h, ofJson_wire_of_ofJson h⟩

/-- The payload of a report is found again, but a wrapped number is taken out of its wrapping.  A
report that names its type and its time twice is read with the last of both, and is found again,
too; no name may be a number, even if another one is a string. -/
theorem ofJson_wire_report :
  let report : Event := ⟨"REPORT", .obj [("data", .int 42), ("at", .int 7)]⟩
  let wrapped : Event := ⟨"REPORT", .obj [("data", .int 42)]⟩
  let twice : Json := .obj [("type", .str "DRAFT"), ("at", .int 1), ("type", .str "REPORT"),
    ("by", .str "a"), ("at", .int 7)]
  let dated : Event := ⟨"REPORT", .obj [("at", .int 7), ("by", .str "a")]⟩
  ofJson report.wire = .ok report ∧ ¬ Collides report.data ∧
    Collides wrapped.data ∧ (∃ read, ofJson wrapped.wire = .ok read ∧ (read == wrapped) = false ∧
      ofJson read.wire = .ok read) ∧
    ofJson twice = .ok dated ∧ ofJson dated.wire = .ok dated ∧
    ofJson (.obj [("type", .str "REPORT"), ("type", .int 1)]) = .error .nameNotString
  := by
  intro report wrapped twice dated
  obtain ⟨hread, hstable⟩ := ofJson_wire
  have hreport : ofJson report.wire = .ok report := rfl
  have hwrapped : Collides wrapped.data := ⟨_, rfl, .inr (.inr ⟨_, rfl, rfl⟩)⟩
  have htwice : ofJson twice = .ok dated := rfl
  obtain ⟨_, hfirst, -, hiff, -⟩ := hread report
  cases hfirst.symm.trans hreport
  obtain ⟨read, hsecond, -, -, hbeq⟩ := hread wrapped
  obtain ⟨-, -, hagain⟩ := hstable _ _ hsecond
  obtain ⟨-, -, hdated⟩ := hstable _ _ htwice
  exact ⟨hreport, (hiff.mp rfl).2, hwrapped, ⟨read, hsecond, hbeq hwrapped, hagain⟩, htwice,
    hdated, rfl⟩

end Statechart.Event
