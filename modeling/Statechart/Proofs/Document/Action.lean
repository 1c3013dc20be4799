import Mathlib.Data.String.Basic
import Statechart.Proofs.Association
import Statechart.Proofs.Document.Record
import Statechart.Proofs.Document.Wire

/-!
# Actions that are written and read back

Expressions, mappings, events, delays and actions that are read from a well-formed value are
found again in their written forms.  A mapping of fields is never written as an expression,
as a single field `value` would have been read as one, and an event never as the name of a
function, as it is written with its `type`.
-/

namespace Statechart

/-! ### Writable expressions and mappings -/

/-- Whether an expression can be written: it is no function in place, and a literal is well
formed. -/
def Expression.Writable : Expression → Prop
  | .value v => v.WellFormed
  | .path _ => True
  | .named _ => True
  | .function _ => False

/-- Whether a mapping can be written: its fields increase, and its expressions can be written. -/
def Mapping.Writable : Mapping → Prop
  | .whole e => e.Writable
  | .fields entries => Association.Increasing entries ∧ ∀ f ∈ entries, f.2.Writable

/-- Whether the form of a mapping is that of a literal: its only field is `value`. -/
def Mapping.Disguised (m : Mapping) : Prop :=
  ∃ e, m = .fields [("value", e)]

end Statechart

namespace Statechart.Document

open Json (required? optional?)

/-! ### Expressions -/

theorem Expression.writable_of_reads {e : Expression} (h : Reads Expression.ofJson? e) :
  e.Writable
  := by
  obtain ⟨value, hvalue, h⟩ := h
  rw [Expression.ofJson?.eq_def] at h
  split at h
  · rename_i key v
    have hv : v.WellFormed := (Json.wellFormed_obj_iff.1 hvalue).2 (key, v) (by simp)
    rw [Expression.ofField?] at h
    split at h
    · cases h
      change v.merged.WellFormed
      rwa [Json.merged_of_wellFormed v hv]
    · split at h
      · obtain ⟨path, -, rfl⟩ := Option.map_eq_some_iff.1 h
        trivial
      · split at h
        · obtain ⟨name, -, rfl⟩ := Option.map_eq_some_iff.1 h
          trivial
        · cases h
  · cases h

theorem Expression.faithful_of_writable {e : Expression} (h : e.Writable) :
  Faithful Expression.ofJson? Expression.toJson e
  := by
  cases e with
  | value v =>
    have hv : v.WellFormed := h
    refine ⟨?_, Json.wellFormed_obj_iff.2 ⟨by simp, by simpa using hv⟩, rfl⟩
    change some (Expression.value v.merged) = _
    rw [Json.merged_of_wellFormed v hv]
  | path p => exact ⟨rfl, Json.wellFormed_obj_iff.2 ⟨by simp, by simp⟩, rfl⟩
  | named name => exact ⟨rfl, Json.wellFormed_obj_iff.2 ⟨by simp, by simp⟩, rfl⟩
  | function f => exact h.elim

theorem Expression.faithful {e : Expression} (h : Reads Expression.ofJson? e) :
  Faithful Expression.ofJson? Expression.toJson e
  := Expression.faithful_of_writable (Expression.writable_of_reads h)

theorem Expression.string?_toJson (e : Expression) :
  e.toJson.string? = none
  := by
  cases e <;> rfl

/-! ### Mappings -/

/-- Where the fields of a mapping are read, it can be written, and it is not disguised. -/
theorem Mapping.of_fields {value : Json} {entries : List (String × Expression)}
    (hvalue : value.WellFormed) (h : Mapping.ofJson? value = some (.fields entries)) :
  (Mapping.fields entries).Writable ∧ ¬ (Mapping.fields entries).Disguised
  := by
  rw [Mapping.ofJson?.eq_def] at h
  split at h
  · cases h
  rename_i hnone
  split at h
  swap
  · cases h
  rename_i fields
  obtain ⟨hkeys, hfields⟩ := Json.wellFormed_obj_iff.1 hvalue
  obtain ⟨sorted, hsorted, heq⟩ := Option.map_eq_some_iff.1 h
  cases heq
  obtain ⟨found, hfound, rfl⟩ := Option.map_eq_some_iff.1 hsorted
  refine ⟨⟨Association.increasing_sorted found, ?_⟩, ?_⟩
  · intro f hf
    obtain ⟨g, hg, hgf⟩ := exists_of_mem_mapM hfound (Association.mem_of_mem_sorted hf)
    obtain ⟨e, he, rfl⟩ := Option.map_eq_some_iff.1 hgf
    exact Expression.writable_of_reads ⟨g.2, hfields g hg, he⟩
  · rintro ⟨e, heq⟩
    have hentries := Mapping.fields.inj heq
    have hnodup : (found.map Prod.fst).Nodup := by rwa [keys_of_mapM hfound]
    have hall : ∀ f ∈ found, f.1 = "value" := by
      intro f hf
      have hmem := Association.mem_sorted_of_mem hnodup hf
      rw [hentries, List.mem_singleton] at hmem
      rw [hmem]
    -- There is a single field `value`, which spells an expression by itself.
    rw [keys_of_mapM hfound] at hnodup
    match fields, found, hfound with
    | [], found, hfound =>
      obtain rfl : [] = found := by simpa using hfound
      cases hentries
    | [(key, v)], found, hfound =>
      have hkey : key ∈ found.map Prod.fst := by
        rw [keys_of_mapM hfound]
        exact List.mem_cons_self
      obtain ⟨f, hf, rfl⟩ := List.mem_map.1 hkey
      rw [Expression.ofJson?, hall f hf] at hnone
      simp [Expression.ofField?] at hnone
    | (a, _) :: (b, _) :: fields, found, hfound =>
      have hkeys : ∀ key ∈ found.map Prod.fst, key = "value" := by
        intro key hkey
        obtain ⟨f, hf, rfl⟩ := List.mem_map.1 hkey
        exact hall f hf
      rw [keys_of_mapM hfound] at hkeys
      have ha := hkeys a List.mem_cons_self
      have hb := hkeys b (List.mem_cons_of_mem _ List.mem_cons_self)
      simp [ha, hb] at hnodup

theorem Mapping.writable_of_reads {m : Mapping} (h : Reads Mapping.ofJson? m) :
  m.Writable ∧ ¬ m.Disguised
  := by
  obtain ⟨value, hvalue, h⟩ := h
  cases m with
  | whole e =>
    refine ⟨Expression.writable_of_reads ?_, nofun⟩
    rw [Mapping.ofJson?.eq_def] at h
    split at h
    · rename_i e' he
      cases h
      exact ⟨value, hvalue, he⟩
    · split at h
      · obtain ⟨entries, -, heq⟩ := Option.map_eq_some_iff.1 h
        cases heq
      · cases h
  | fields entries => exact Mapping.of_fields hvalue h

theorem Mapping.wellFormed_toJson {m : Mapping} (h : m.Writable) :
  m.toJson.WellFormed
  := by
  cases m with
  | whole e => exact (Expression.faithful_of_writable h).wellFormed
  | fields entries =>
    obtain ⟨hincreasing, hentries⟩ := h
    rw [Mapping.toJson, Json.wellFormed_obj_iff]
    constructor
    · simpa [Function.comp_def] using hincreasing.nodup_keys
    · intro f hf
      obtain ⟨g, hg, rfl⟩ := List.mem_map.1 hf
      exact (Expression.faithful_of_writable (hentries g hg)).wellFormed

theorem Mapping.faithful_of_writable {m : Mapping} (h : m.Writable) (hplain : ¬ m.Disguised) :
  Faithful Mapping.ofJson? Mapping.toJson m
  := by
  have hwell := Mapping.wellFormed_toJson h
  cases m with
  | whole e =>
    have he := Expression.faithful_of_writable h
    refine ⟨?_, hwell, he.not_null⟩
    rw [Mapping.toJson, Mapping.ofJson?.eq_def, he.read_write]
  | fields entries =>
    obtain ⟨hincreasing, hentries⟩ := h
    refine ⟨?_, hwell, rfl⟩
    have hnone : Expression.ofJson? (.obj (entries.map (fun f => (f.1, f.2.toJson)))) = none := by
      match entries with
      | [] => rfl
      | [(key, e)] =>
        have hkey : key ≠ "value" := by
          rintro rfl
          exact hplain ⟨e, rfl⟩
        simp [Expression.ofJson?, Expression.ofField?, hkey, Expression.string?_toJson]
      | _ :: _ :: _ => rfl
    have hmap : (entries.map (fun f => (f.1, f.2.toJson))).mapM
        (fun f => (Expression.ofJson? f.2).map (fun e => (f.1, e))) = some entries :=
      mapM_map_eq_some fun f hf => by
        rw [(Expression.faithful_of_writable (hentries f hf)).read_write]
        rfl
    rw [Mapping.toJson, Mapping.ofJson?.eq_def, hnone]
    dsimp only
    rw [Mapping.ofFields?, hmap]
    simp [hincreasing.sorted_eq]

theorem Mapping.faithful {m : Mapping} (h : Reads Mapping.ofJson? m) :
  Faithful Mapping.ofJson? Mapping.toJson m
  := by
  obtain ⟨hwritable, hplain⟩ := Mapping.writable_of_reads h
  exact Mapping.faithful_of_writable hwritable hplain

/-! ### Events and delays -/

/-- The wire form of an event with a well-formed payload is well formed. -/
theorem Event.wellFormed_wire {event : Event} (h : event.data.WellFormed) :
  event.wire.WellFormed
  := by
  obtain ⟨hkeys, hcarried⟩ := Json.wellFormed_obj_iff.1 (Event.wellFormed_carried h)
  rw [Event.wire_eq, Json.wellFormed_obj_iff]
  constructor
  · apply List.nodup_cons.2 ⟨Event.type_not_mem_carried event.data, hkeys⟩
  · apply List.forall_mem_cons.2 ⟨trivial, hcarried⟩

/-- An event that is read from a value is found again in its wire form. -/
theorem Event.faithful {event : Event} {value : Json} (h : Event.ofJson value = .ok event) :
  Event.ofJson event.wire = .ok event ∧ event.wire.WellFormed
  := ⟨Event.ofJson_wire_of_ofJson h, Event.wellFormed_wire (Event.wellFormed_of_ofJson h)⟩

theorem EventExpression.faithful {e : EventExpression} (h : Reads EventExpression.ofJson? e) :
  Faithful EventExpression.ofJson? EventExpression.toJson e
  := by
  obtain ⟨value, -, h⟩ := h
  rw [EventExpression.ofJson?.eq_def] at h
  split at h
  · cases h
    exact ⟨rfl, Json.wellFormed_obj_iff.2 ⟨by simp, by simp⟩, rfl⟩
  · obtain ⟨event, hevent, rfl⟩ := Option.map_eq_some_iff.1 h
    have hevent : Event.ofJson value = .ok event := by
      cases hread : Event.ofJson value with
      | error refusal => simp [hread, Except.toOption] at hevent
      | ok found =>
        obtain rfl : found = event := by simpa [hread, Except.toOption] using hevent
        rfl
    obtain ⟨hread, hwire⟩ := Event.faithful hevent
    refine ⟨?_, hwire, rfl⟩
    -- The wire form has a `type`, so it names no function.
    have htype : event.wire.field? "type" = some (.str event.name) := rfl
    rw [EventExpression.toJson, EventExpression.ofJson?.eq_def, htype]
    split
    · rename_i heq
      cases heq
    · rw [hread]
      rfl

theorem Delay.faithful {d : Delay} (h : Reads Delay.ofJson? d) :
  Faithful Delay.ofJson? Delay.toJson d
  := by
  obtain ⟨value, -, h⟩ := h
  rw [Delay.ofJson?.eq_def] at h
  split at h
  · cases h
    exact ⟨rfl, trivial, rfl⟩
  · obtain ⟨n, hn, rfl⟩ := Option.map_eq_some_iff.1 h
    rw [Json.natural?.eq_def] at hn
    split at hn
    · split at hn
      · rename_i hbound
        cases hn
        refine ⟨?_, trivial, rfl⟩
        change (Json.natural? (.int (.ofNat n))).map Delay.millis = some (.millis n)
        rw [Json.natural?, if_pos hbound]
        rfl
      · cases hn
    · cases hn

/-! ### Actions -/

/-- A written built-in action is read by the body of its type. -/
theorem Action.ofJson?_objOf {short : String} {fields : List (String × Option Json)}
    (hlead : Text.after? "harel." short = none)
    (hwell : (Json.objOf (("type", some (.str short)) :: fields)).WellFormed) :
  Action.ofJson? (Json.objOf (("type", some (.str short)) :: fields)) =
    Action.ofBody? short short (present (("type", some (.str short)) :: fields))
  := by
  have htype : (present (("type", some (.str short)) :: fields)).lookup "type"
      = some (.str short) := rfl
  rw [Action.ofJson?, Json.merged_of_wellFormed _ hwell, objOf_eq]
  dsimp only
  rw [htype]
  dsimp only
  rw [hlead]
  rfl

/-- The action is faithful when its body finds it among the fields that are written. -/
theorem Action.faithful_of_body {a : Action} (short : String)
    (fields : List (String × Option Json)) (hlead : Text.after? "harel." short = none)
    (hjson : a.toJson = Json.objOf (("type", some (.str short)) :: fields))
    (hkeys : ("type" :: fields.map Prod.fst).Nodup)
    (hfields : ∀ f ∈ fields, ∀ v ∈ f.2, v.WellFormed)
    (hbody : Action.ofBody? short short (present (("type", some (.str short)) :: fields))
      = some a) :
  Faithful Action.ofJson? Action.toJson a
  := by
  have hwell : (Json.objOf (("type", some (.str short)) :: fields)).WellFormed :=
    wellFormed_objOf hkeys (List.forall_mem_cons.2 ⟨fun v hv => by cases hv; trivial, hfields⟩)
  refine ⟨?_, hjson ▸ hwell, by rw [hjson]; rfl⟩
  rw [hjson, Action.ofJson?_objOf hlead hwell, hbody]

/-- An action whose body is a single field is faithful when the field is. -/
theorem Action.faithful_of_field {α : Type} {read : Json → Option α} {write : α → Json}
    {x : α} {make : α → Action} (short name : String)
    (hlead : Text.after? "harel." short = none) (hname : name ≠ "type")
    (hjson : (make x).toJson = .obj [("type", .str short), (name, write x)])
    (hbody : ∀ fields, Action.ofBody? short short fields
      = (required? fields [name] read).map make)
    (hx : Faithful read write x) :
  Faithful Action.ofJson? Action.toJson (make x)
  := by
  refine Action.faithful_of_body short [(name, some (write x))] hlead hjson
    (by simpa using hname.symm) (by simpa using hx.wellFormed) ?_
  rw [hbody, required?_present name (by simp [hname.symm]) hx]
  rfl

theorem Action.faithful_send {event : EventExpression} {delay : Option Delay}
    {target id : Option String}
    (hevent : Faithful EventExpression.ofJson? EventExpression.toJson event)
    (hdelay : ∀ d ∈ delay, Faithful Delay.ofJson? Delay.toJson d) :
  Faithful Action.ofJson? Action.toJson (.send event delay target id)
  := by
  have hstr : ∀ o : Option String, ∀ s ∈ o, Faithful Json.string? Json.str s :=
    fun _ s _ => faithful_str s
  refine Action.faithful_of_body "send" [("event", some event.toJson),
    ("delay", delay.map Delay.toJson), ("to", target.map Json.str), ("id", id.map Json.str)]
    rfl rfl (by simp) ?_ ?_
  · simp only [List.forall_mem_cons]
    exact ⟨fun v hv => by cases hv; exact hevent.wellFormed, wellFormed_optionField hdelay,
      wellFormed_optionField (hstr target), wellFormed_optionField (hstr id), by simp⟩
  · simp only [Action.ofBody?]
    rw [required?_present "event" (by simp) hevent, optional?_present "delay" (by simp) hdelay,
      optional?_present "to" (by simp) (hstr target),
      optional?_present "id" (by simp) (hstr id)]
    rfl

theorem Action.faithful_log {expression : Option Expression} {label : Option String}
    (hexpression : ∀ e ∈ expression, Faithful Expression.ofJson? Expression.toJson e) :
  Faithful Action.ofJson? Action.toJson (.log expression label)
  := by
  have hlabel : ∀ s ∈ label, Faithful Json.string? Json.str s := fun s _ => faithful_str s
  refine Action.faithful_of_body "log" [("expr", expression.map Expression.toJson),
    ("label", label.map Json.str)] rfl rfl (by simp) ?_ ?_
  · simp only [List.forall_mem_cons]
    exact ⟨wellFormed_optionField hexpression, wellFormed_optionField hlabel, by simp⟩
  · simp only [Action.ofBody?]
    rw [optional?_present "expr" (by simp) hexpression,
      optional?_present "label" (by simp) hlabel]
    rfl

theorem Action.faithful {a : Action} (h : Reads Action.ofJson? a) :
  Faithful Action.ofJson? Action.toJson a
  := by
  obtain ⟨value, hvalue, h⟩ := h
  rw [Action.ofJson?, Json.merged_of_wellFormed value hvalue] at h
  split at h
  · cases h
    exact ⟨rfl, trivial, rfl⟩
  · rename_i fields
    have hfields := (Json.wellFormed_obj_iff.1 hvalue).2
    split at h
    · rename_i type _
      generalize (Text.after? "harel." type).getD type = short at h
      rw [Action.ofBody?.eq_def] at h
      split at h
      · obtain ⟨event, hevent, h⟩ := Option.bind_eq_some_iff.1 h
        obtain ⟨delay, hdelay, h⟩ := Option.bind_eq_some_iff.1 h
        obtain ⟨target, -, h⟩ := Option.bind_eq_some_iff.1 h
        obtain ⟨id, -, h⟩ := Option.bind_eq_some_iff.1 h
        cases h
        exact Action.faithful_send
          (EventExpression.faithful (reads_of_required? hfields hevent))
          fun d hd => Delay.faithful (reads_of_optional? hfields hdelay d hd)
      · obtain ⟨event, hevent, rfl⟩ := Option.map_eq_some_iff.1 h
        exact Action.faithful_of_field "sendParent" "event" rfl (by decide) rfl (fun _ => rfl)
          (EventExpression.faithful (reads_of_required? hfields hevent))
      · obtain ⟨event, hevent, rfl⟩ := Option.map_eq_some_iff.1 h
        exact Action.faithful_of_field "raise" "event" rfl (by decide) rfl (fun _ => rfl)
          (EventExpression.faithful (reads_of_required? hfields hevent))
      · obtain ⟨expression, hexpression, h⟩ := Option.bind_eq_some_iff.1 h
        obtain ⟨label, -, h⟩ := Option.bind_eq_some_iff.1 h
        cases h
        exact Action.faithful_log
          fun e he => Expression.faithful (reads_of_optional? hfields hexpression e he)
      · obtain ⟨mapping, hmapping, rfl⟩ := Option.map_eq_some_iff.1 h
        exact Action.faithful_of_field "assign" "assignment" rfl (by decide) rfl (fun _ => rfl)
          (Mapping.faithful (reads_of_required? hfields hmapping))
      · obtain ⟨sendId, -, rfl⟩ := Option.map_eq_some_iff.1 h
        exact Action.faithful_of_field "cancel" "sendId" rfl (by decide) rfl (fun _ => rfl)
          (faithful_str sendId)
      · obtain ⟨id, -, rfl⟩ := Option.map_eq_some_iff.1 h
        exact Action.faithful_of_field "start" "id" rfl (by decide) rfl (fun _ => rfl)
          (faithful_str id)
      · obtain ⟨id, -, rfl⟩ := Option.map_eq_some_iff.1 h
        exact Action.faithful_of_field "stop" "id" rfl (by decide) rfl (fun _ => rfl)
          (faithful_str id)
      · cases h
        exact ⟨rfl, trivial, rfl⟩
    · cases h
  · cases h

end Statechart.Document
