import Statechart.Chart.Compile
import Statechart.Proofs.Document.Action
import Statechart.Proofs.Outcome

/-!
# Machines that are written and read back

A machine that is read from a well-formed value is read again from its written form, and is
the same machine.  Transitions, invocations and declarations are faithful because their
fields are; for states the induction is on the value that is read, with its children.
-/

namespace Statechart.Document

open Json (required? defaulted? optional? flag?)

/-! ### Transitions -/

/-- A list that may be absent is found again, an empty one as absent. -/
theorem exists_optionalList {α : Type} {read : Json → Option α} {write : α → Json}
    {fields : List (String × Option Json)} {names : List String} (name : String)
    {items : List α}
    (h : fields.filter (fun f => names.contains f.1) = [(name, listField write items)])
    (hitems : ∀ a ∈ items, Faithful read write a) :
  ∃ o, optional? (present fields) names (oneOrMany? read) = some o ∧ o.getD [] = items
  := by
  rw [optional?, defaulted?, single?_present name h, listField]
  cases items with
  | nil => exact ⟨none, rfl, rfl⟩
  | cons a items =>
    refine ⟨some (a :: items), ?_, rfl⟩
    change (oneOrMany? read (.arr ((a :: items).map write))).map some = _
    rw [oneOrMany?_arr hitems]
    rfl

/-- The fields of a written transition. -/
def Transition.fields (t : Transition) : List (String × Option Json) :=
  [("target", listField Json.str t.targets), ("guard", t.guard.map Json.str),
    ("actions", listField Action.toJson t.actions), ("internal", flagField t.internal)]

/-- The actions of a transition that is read are read. -/
theorem Transition.reads_actions {t : Transition} (h : Reads Transition.ofJson? t) :
  ∀ a ∈ t.actions, Reads Action.ofJson? a
  := by
  obtain ⟨value, hvalue, h⟩ := h
  rw [Transition.ofJson?.eq_def] at h
  split at h
  · cases h
    exact fun a ha => absurd ha List.not_mem_nil
  · obtain ⟨fields, hrecord, h⟩ := Option.bind_eq_some_iff.1 h
    have hfields := wellFormed_of_record? hvalue hrecord
    obtain ⟨targets, -, h⟩ := Option.bind_eq_some_iff.1 h
    obtain ⟨guard, -, h⟩ := Option.bind_eq_some_iff.1 h
    obtain ⟨actions, hactions, h⟩ := Option.bind_eq_some_iff.1 h
    obtain ⟨internal, -, h⟩ := Option.bind_eq_some_iff.1 h
    cases h
    exact reads_of_defaultedList? hfields hactions

theorem Transition.faithful {t : Transition} (h : Reads Transition.ofJson? t) :
  Faithful Transition.ofJson? Transition.toJson t
  := by
  have hactions : ∀ a ∈ t.actions, Faithful Action.ofJson? Action.toJson a :=
    fun a ha => Action.faithful (Transition.reads_actions h a ha)
  have htargets : ∀ s ∈ t.targets, Faithful Json.string? Json.str s := fun s _ => faithful_str s
  have hguard : ∀ s ∈ t.guard, Faithful Json.string? Json.str s := fun s _ => faithful_str s
  have hjson : t.toJson = .obj (present t.fields) := rfl
  refine ⟨?_, ?_, rfl⟩
  · obtain ⟨o, ho, hget⟩ : ∃ o, optional? (present t.fields) ["target"]
        (oneOrMany? Json.string?) = some o ∧ o.getD [] = t.targets :=
      exists_optionalList "target" (by simp [Transition.fields]) htargets
    have hcond : optional? (present t.fields) ["guard", "cond"] Json.string? = some t.guard :=
      optional?_present "guard" (by simp [Transition.fields]) hguard
    have hdo : defaulted? (present t.fields) ["actions"] [] (oneOrMany? Action.ofJson?)
        = some t.actions :=
      defaultedList?_present "actions" (by simp [Transition.fields]) hactions
    have hinternal : defaulted? (present t.fields) ["internal"] false flag? = some t.internal :=
      defaultedFlag?_present "internal" (by simp [Transition.fields])
    rw [hjson, Transition.ofJson?]
    · change (optional? (present t.fields) ["target"] (oneOrMany? Json.string?)).bind _ = _
      rw [ho, hcond, hdo, hinternal]
      change some { t with targets := o.getD [] } = some t
      rw [hget]
    · simp
  · refine wellFormed_objOf (by simp) ?_
    simp only [List.forall_mem_cons]
    exact ⟨wellFormed_listField htargets, wellFormed_optionField hguard,
      wellFormed_listField hactions, wellFormed_flagField _, by simp⟩

/-- The transitions of a list that is read are faithful. -/
theorem faithful_transitions {fields : List (String × Json)} {names : List String}
    {ts : List Transition} (hfields : ∀ f ∈ fields, f.2.WellFormed)
    (h : defaulted? fields names [] transitions? = some ts) :
  ∀ t ∈ ts, Faithful Transition.ofJson? Transition.toJson t
  := fun t ht => Transition.faithful (reads_of_defaultedList? hfields h t ht)

/-! ### Candidates by key -/

/-- Candidates whose keys do not repeat and whose transitions are faithful. -/
structure FaithfulCandidates (entries : List (String × List Transition)) : Prop where
  keys : (entries.map Prod.fst).Nodup
  faithful : ∀ e ∈ entries, ∀ t ∈ e.2, Faithful Transition.ofJson? Transition.toJson t

theorem FaithfulCandidates.of_defaulted? {fields : List (String × Json)} {names : List String}
    {entries : List (String × List Transition)} (hfields : ∀ f ∈ fields, f.2.WellFormed)
    (h : defaulted? fields names [] (entries? transitions?) = some entries) :
  FaithfulCandidates entries
  := by
  rcases reads_of_defaulted? hfields h with rfl | ⟨value, hvalue, h⟩
  · exact ⟨List.nodup_nil, fun e he => absurd he List.not_mem_nil⟩
  · rw [entries?.eq_def] at h
    split at h
    · rename_i fields
      split at h
      · rename_i hkeys
        refine ⟨by rwa [keys_of_mapM h], ?_⟩
        intro e he t ht
        obtain ⟨f, hf, hfe⟩ := exists_of_mem_mapM h he
        obtain ⟨ts, hts, rfl⟩ := Option.map_eq_some_iff.1 hfe
        have hvalue := (Json.wellFormed_obj_iff.1 hvalue).2 f hf
        exact Transition.faithful (reads_of_oneOrMany? hvalue hts ht)
      · cases h
    · cases h

/-- Candidates are found again in their written form. -/
theorem FaithfulCandidates.defaulted?_present {entries : List (String × List Transition)}
    (hentries : FaithfulCandidates entries) {fields : List (String × Option Json)}
    {names : List String} (name : String)
    (h : fields.filter (fun f => names.contains f.1) = [(name, candidatesField entries)]) :
  defaulted? (present fields) names [] (entries? transitions?) = some entries
  := by
  rw [defaulted?, single?_present name h, candidatesField]
  split
  · rename_i hempty
    rw [List.isEmpty_iff.1 hempty]
    rfl
  · have hmap : (entries.map (fun e => (e.1, Json.arr (e.2.map Transition.toJson)))).mapM
        (fun f => (transitions? f.2).map (fun a => (f.1, a))) = some entries :=
      mapM_map_eq_some fun e he => by
        rw [transitions?, oneOrMany?_arr (hentries.faithful e he)]
        rfl
    have hkeys : ((entries.map (fun e =>
        (e.1, Json.arr (e.2.map Transition.toJson)))).map Prod.fst).Nodup := by
      simpa [Function.comp_def] using hentries.keys
    change entries? transitions? (.obj _) = _
    rw [entries?, if_pos hkeys, hmap]

theorem FaithfulCandidates.wellFormed {entries : List (String × List Transition)}
    (hentries : FaithfulCandidates entries) :
  ∀ v ∈ candidatesField entries, v.WellFormed
  := by
  intro v hv
  rw [candidatesField] at hv
  split at hv
  · cases hv
  · cases hv
    rw [Json.wellFormed_obj_iff]
    constructor
    · simpa [Function.comp_def] using hentries.keys
    · intro f hf
      obtain ⟨e, he, rfl⟩ := List.mem_map.1 hf
      exact wellFormed_arr (hentries.faithful e he)

/-! ### Invocations -/

/-- The fields of a written invocation. -/
def Invocation.fields (i : Invocation) : List (String × Option Json) :=
  [("id", i.id.map Json.str), ("src", some (.str i.src)), ("forward", flagField i.forward),
    ("data", i.data.map Mapping.toJson), ("onDone", listField Transition.toJson i.onDone),
    ("onError", listField Transition.toJson i.onError)]

/-- The mapping and the transitions of an invocation that is read are faithful. -/
theorem Invocation.faithful_parts {i : Invocation} (h : Reads Invocation.ofJson? i) :
  (∀ m ∈ i.data, Faithful Mapping.ofJson? Mapping.toJson m) ∧
    (∀ t ∈ i.onDone, Faithful Transition.ofJson? Transition.toJson t) ∧
    ∀ t ∈ i.onError, Faithful Transition.ofJson? Transition.toJson t
  := by
  obtain ⟨value, hvalue, h⟩ := h
  obtain ⟨fields, hrecord, h⟩ := Option.bind_eq_some_iff.1 h
  have hfields := wellFormed_of_record? hvalue hrecord
  obtain ⟨id, -, h⟩ := Option.bind_eq_some_iff.1 h
  obtain ⟨src, -, h⟩ := Option.bind_eq_some_iff.1 h
  obtain ⟨forward, -, h⟩ := Option.bind_eq_some_iff.1 h
  obtain ⟨data, hdata, h⟩ := Option.bind_eq_some_iff.1 h
  obtain ⟨onDone, hdone, h⟩ := Option.bind_eq_some_iff.1 h
  obtain ⟨onError, herror, h⟩ := Option.bind_eq_some_iff.1 h
  cases h
  exact ⟨fun m hm => Mapping.faithful (reads_of_optional? hfields hdata m hm),
    faithful_transitions hfields hdone, faithful_transitions hfields herror⟩

theorem Invocation.faithful {i : Invocation} (h : Reads Invocation.ofJson? i) :
  Faithful Invocation.ofJson? Invocation.toJson i
  := by
  obtain ⟨hdata, hdone, herror⟩ := Invocation.faithful_parts h
  have hid : ∀ s ∈ i.id, Faithful Json.string? Json.str s := fun s _ => faithful_str s
  have hjson : i.toJson = .obj (present i.fields) := rfl
  refine ⟨?_, ?_, rfl⟩
  · have rid : optional? (present i.fields) ["id"] Json.string? = some i.id :=
      optional?_present "id" (by simp [Invocation.fields]) hid
    have rsrc : required? (present i.fields) ["src"] Json.string? = some i.src :=
      required?_present "src" (by simp [Invocation.fields]) (faithful_str i.src)
    have rforward : defaulted? (present i.fields) ["forward", "autoForward"] false flag?
        = some i.forward :=
      defaultedFlag?_present "forward" (by simp [Invocation.fields])
    have rdata : optional? (present i.fields) ["data"] Mapping.ofJson? = some i.data :=
      optional?_present "data" (by simp [Invocation.fields]) hdata
    have rdone : defaulted? (present i.fields) ["onDone"] [] transitions? = some i.onDone :=
      defaultedList?_present "onDone" (by simp [Invocation.fields]) hdone
    have rerror : defaulted? (present i.fields) ["onError"] [] transitions? = some i.onError :=
      defaultedList?_present "onError" (by simp [Invocation.fields]) herror
    rw [hjson, Invocation.ofJson?]
    change (optional? (present i.fields) ["id"] Json.string?).bind _ = _
    rw [rid, rsrc, rforward, rdata, rdone, rerror]
    rfl
  · refine wellFormed_objOf (by simp) ?_
    simp only [List.forall_mem_cons]
    exact ⟨wellFormed_optionField hid, fun v hv => by cases hv; trivial,
      wellFormed_flagField _, wellFormed_optionField hdata, wellFormed_listField hdone,
      wellFormed_listField herror, by simp⟩

/-! ### Declarations -/

/-- A declaration whose parts are faithful. -/
structure FaithfulDeclaration (d : Declaration) : Prop where
  on : FaithfulCandidates d.on
  always : ∀ t ∈ d.always, Faithful Transition.ofJson? Transition.toJson t
  after : FaithfulCandidates d.after
  entry : ∀ a ∈ d.entry, Faithful Action.ofJson? Action.toJson a
  exit : ∀ a ∈ d.exit, Faithful Action.ofJson? Action.toJson a
  invoke : ∀ i ∈ d.invoke, Faithful Invocation.ofJson? Invocation.toJson i
  onDone : ∀ t ∈ d.onDone, Faithful Transition.ofJson? Transition.toJson t
  data : ∀ m ∈ d.data, Faithful Mapping.ofJson? Mapping.toJson m

theorem FaithfulDeclaration.of_fields {fields : List (String × Json)} {d : Declaration}
    (hfields : ∀ f ∈ fields, f.2.WellFormed) (h : Declaration.ofFields? fields = some d) :
  FaithfulDeclaration d
  := by
  obtain ⟨id, -, h⟩ := Option.bind_eq_some_iff.1 h
  obtain ⟨type, -, h⟩ := Option.bind_eq_some_iff.1 h
  obtain ⟨initial, -, h⟩ := Option.bind_eq_some_iff.1 h
  obtain ⟨states, -, h⟩ := Option.bind_eq_some_iff.1 h
  obtain ⟨on, hon, h⟩ := Option.bind_eq_some_iff.1 h
  obtain ⟨always, halways, h⟩ := Option.bind_eq_some_iff.1 h
  obtain ⟨after, hafter, h⟩ := Option.bind_eq_some_iff.1 h
  obtain ⟨entry, hentry, h⟩ := Option.bind_eq_some_iff.1 h
  obtain ⟨exit, hexit, h⟩ := Option.bind_eq_some_iff.1 h
  obtain ⟨invoke, hinvoke, h⟩ := Option.bind_eq_some_iff.1 h
  obtain ⟨onDone, hdone, h⟩ := Option.bind_eq_some_iff.1 h
  obtain ⟨data, hdata, h⟩ := Option.bind_eq_some_iff.1 h
  obtain ⟨history, -, h⟩ := Option.bind_eq_some_iff.1 h
  obtain ⟨target, -, h⟩ := Option.bind_eq_some_iff.1 h
  cases h
  exact
    { on := .of_defaulted? hfields hon
      always := faithful_transitions hfields halways
      after := .of_defaulted? hfields hafter
      entry := fun a ha => Action.faithful (reads_of_defaultedList? hfields hentry a ha)
      exit := fun a ha => Action.faithful (reads_of_defaultedList? hfields hexit a ha)
      invoke := fun i hi => Invocation.faithful (reads_of_defaultedList? hfields hinvoke i hi)
      onDone := faithful_transitions hfields hdone
      data := fun m hm => Mapping.faithful (reads_of_optional? hfields hdata m hm) }

theorem faithful_stateType (type : StateType) :
  Faithful StateType.ofJson? StateType.toJson type
  := by
  cases type <;> exact ⟨rfl, trivial, rfl⟩

theorem faithful_historyDepth (depth : HistoryDepth) :
  Faithful HistoryDepth.ofJson? HistoryDepth.toJson depth
  := by
  cases depth <;> exact ⟨rfl, trivial, rfl⟩

/-- The fields of a written state, with the context that a root has besides. -/
def stateFields (context : Option Json) (d : Declaration) (states : Option Json) :
    List (String × Option Json) :=
  ("context", context) :: d.fields states

namespace FaithfulDeclaration

variable {d : Declaration} {context states : Option Json}

/-- A declaration is found again among the fields of the written state. -/
theorem ofFields? (h : FaithfulDeclaration d) :
  Declaration.ofFields? (present (stateFields context d states)) = some d
  := by
  have hstr : ∀ o : Option String, ∀ s ∈ o, Faithful Json.string? Json.str s :=
    fun _ s _ => faithful_str s
  generalize hfields : stateFields context d states = fields
  have rid : optional? (present fields) ["id"] Json.string? = some d.id :=
    optional?_present "id" (by simp [← hfields, stateFields, Declaration.fields]) (hstr d.id)
  have rtype : optional? (present fields) ["type"] StateType.ofJson? = some d.type :=
    optional?_present "type" (by simp [← hfields, stateFields, Declaration.fields])
      fun t _ => faithful_stateType t
  have rinitial : optional? (present fields) ["initial"] Json.string? = some d.initial :=
    optional?_present "initial" (by simp [← hfields, stateFields, Declaration.fields])
      (hstr d.initial)
  have rstates : Json.single? ["states"] (present fields) = some states :=
    single?_present "states" (by simp [← hfields, stateFields, Declaration.fields])
  have ron : defaulted? (present fields) ["on"] [] (entries? transitions?) = some d.on :=
    h.on.defaulted?_present "on" (by simp [← hfields, stateFields, Declaration.fields])
  have ralways : defaulted? (present fields) ["always"] [] transitions? = some d.always :=
    defaultedList?_present "always" (by simp [← hfields, stateFields, Declaration.fields])
      h.always
  have rafter : defaulted? (present fields) ["after"] [] (entries? transitions?)
      = some d.after :=
    h.after.defaulted?_present "after" (by simp [← hfields, stateFields, Declaration.fields])
  have rentry : defaulted? (present fields) ["entry"] [] (oneOrMany? Action.ofJson?)
      = some d.entry :=
    defaultedList?_present "entry" (by simp [← hfields, stateFields, Declaration.fields])
      h.entry
  have rexit : defaulted? (present fields) ["exit"] [] (oneOrMany? Action.ofJson?)
      = some d.exit :=
    defaultedList?_present "exit" (by simp [← hfields, stateFields, Declaration.fields]) h.exit
  have rinvoke : defaulted? (present fields) ["invoke"] [] (oneOrMany? Invocation.ofJson?)
      = some d.invoke :=
    defaultedList?_present "invoke" (by simp [← hfields, stateFields, Declaration.fields])
      h.invoke
  have rdone : defaulted? (present fields) ["onDone"] [] transitions? = some d.onDone :=
    defaultedList?_present "onDone" (by simp [← hfields, stateFields, Declaration.fields])
      h.onDone
  have rdata : optional? (present fields) ["data"] Mapping.ofJson? = some d.data :=
    optional?_present "data" (by simp [← hfields, stateFields, Declaration.fields]) h.data
  have rhistory : optional? (present fields) ["history"] HistoryDepth.ofJson?
      = some d.history :=
    optional?_present "history" (by simp [← hfields, stateFields, Declaration.fields])
      fun t _ => faithful_historyDepth t
  have rtarget : optional? (present fields) ["target"] Json.string? = some d.target :=
    optional?_present "target" (by simp [← hfields, stateFields, Declaration.fields])
      (hstr d.target)
  rw [Declaration.ofFields?, rid, rtype, rinitial, rstates, ron, ralways, rafter, rentry, rexit,
    rinvoke, rdone, rdata, rhistory, rtarget]
  rfl

/-- The written state is well formed when its context and its children are. -/
theorem wellFormed (h : FaithfulDeclaration d) (hcontext : ∀ v ∈ context, v.WellFormed)
    (hstates : ∀ v ∈ states, v.WellFormed) :
  (Json.objOf (stateFields context d states)).WellFormed
  := by
  have hstr : ∀ o : Option String, ∀ s ∈ o, Faithful Json.string? Json.str s :=
    fun _ s _ => faithful_str s
  refine wellFormed_objOf (by simp [stateFields, Declaration.fields]) ?_
  simp only [stateFields, Declaration.fields, List.forall_mem_cons]
  exact ⟨hcontext, wellFormed_optionField (hstr d.id),
    wellFormed_optionField fun t _ => faithful_stateType t,
    wellFormed_optionField (hstr d.initial), hstates, h.on.wellFormed,
    wellFormed_listField h.always, h.after.wellFormed, wellFormed_listField h.entry,
    wellFormed_listField h.exit, wellFormed_listField h.invoke, wellFormed_listField h.onDone,
    wellFormed_optionField h.data, wellFormed_optionField fun t _ => faithful_historyDepth t,
    wellFormed_optionField (hstr d.target), by simp⟩

end FaithfulDeclaration

/-! ### States -/

/-- Children that are found again in their written form. -/
structure FaithfulChildren (children : List (String × State)) : Prop where
  read : State.childrenOf? (State.childrenJson children) = some children
  keys : (children.map Prod.fst).Nodup
  wellFormed : ∀ f ∈ State.childrenJson children, f.2.WellFormed

theorem keys_childrenJson (children : List (String × State)) :
  (State.childrenJson children).map Prod.fst = children.map Prod.fst
  := by
  induction children with
  | nil => rfl
  | cons f children ih =>
    obtain ⟨key, child⟩ := f
    rw [State.childrenJson, List.map_cons, List.map_cons, ih]

namespace FaithfulChildren

theorem nil : FaithfulChildren []
  := ⟨rfl, List.nodup_nil, fun _ hf => absurd hf List.not_mem_nil⟩

variable {children : List (String × State)}

/-- The written children are well formed. -/
theorem wellFormed_statesField (h : FaithfulChildren children) :
  ∀ v ∈ statesField (State.childrenJson children), v.WellFormed
  := by
  intro v hv
  rw [statesField] at hv
  split at hv
  · cases hv
  · cases hv
    exact Json.wellFormed_obj_iff.2 ⟨by rw [keys_childrenJson]; exact h.keys, h.wellFormed⟩

/-- Only the fields of the name `states` have children. -/
theorem childrenIn?_filter (fields : List (String × Json)) :
  State.childrenIn? (fields.filter (fun f => decide (f.1 = "states")))
    = State.childrenIn? fields
  := by
  induction fields with
  | nil => rfl
  | cons f fields ih =>
    obtain ⟨key, value⟩ := f
    by_cases hkey : key = "states"
    · rw [List.filter_cons_of_pos (by simpa using hkey), State.childrenIn?, State.childrenIn?,
        if_pos hkey, if_pos hkey]
    · rw [List.filter_cons_of_neg (by simpa using hkey), State.childrenIn?, if_neg hkey, ih]

/-- A state is found again among the fields of its written form. -/
theorem read_state (h : FaithfulChildren children) {own : Declaration}
    (hown : FaithfulDeclaration own) (context : Option Json) :
  State.ofJson? (Json.objOf (stateFields context own
    (statesField (State.childrenJson children)))) = some (.node own children)
  := by
  have hchildren : State.childrenIn? (present (stateFields context own
      (statesField (State.childrenJson children)))) = some children := by
    rw [← childrenIn?_filter, filter_present (fun key => decide (key = "states"))]
    have honly : (stateFields context own (statesField (State.childrenJson children))).filter
        (fun f => decide (f.1 = "states"))
        = [("states", statesField (State.childrenJson children))] := by
      simp [stateFields, Declaration.fields]
    rw [honly]
    cases hc : children with
    | nil => rfl
    | cons f rest =>
      have hkeys := h.keys
      rw [← keys_childrenJson] at hkeys
      have hread := h.read
      rw [hc] at hkeys hread
      obtain ⟨key, child⟩ := f
      change State.childrenIn? [("states", .obj (State.childrenJson ((key, child) :: rest)))] = _
      rw [State.childrenIn?, if_pos rfl, State.children?, if_pos hkeys, hread]
  rw [objOf_eq, State.ofJson?, hchildren, hown.ofFields?]
  rfl

/-- A state whose declaration and children are faithful is faithful. -/
theorem state (h : FaithfulChildren children) {own : Declaration}
    (hown : FaithfulDeclaration own) :
  Faithful State.ofJson? State.toJson (.node own children)
  := by
  have hjson : (State.node own children).toJson
      = Json.objOf (stateFields none own (statesField (State.childrenJson children))) := rfl
  refine ⟨?_, ?_, rfl⟩
  · rw [hjson, h.read_state hown]
  · rw [hjson]
    exact hown.wellFormed (by simp) h.wellFormed_statesField

/-- One more faithful child of a new key. -/
theorem cons (h : FaithfulChildren children) {key : String} {child : State}
    (hkey : key ∉ children.map Prod.fst)
    (hchild : Faithful State.ofJson? State.toJson child) :
  FaithfulChildren ((key, child) :: children)
  := by
  refine ⟨?_, List.nodup_cons.2 ⟨hkey, h.keys⟩, ?_⟩
  · rw [State.childrenJson, State.childrenOf?, hchild.read_write, h.read]
    rfl
  · rw [State.childrenJson]
    exact List.forall_mem_cons.2 ⟨hchild.wellFormed, h.wellFormed⟩

end FaithfulChildren

mutual

/-- A state that is read from a well-formed value consists of a faithful declaration and of
faithful children. -/
theorem faithful_state (value : Json) (hvalue : value.WellFormed) {own : Declaration}
    {children : List (String × State)}
    (h : State.ofJson? value = some (.node own children)) :
  FaithfulDeclaration own ∧ FaithfulChildren children
  := by
  cases value with
  | obj fields =>
    rw [State.ofJson?] at h
    obtain ⟨found, hfound, h⟩ := Option.bind_eq_some_iff.1 h
    obtain ⟨declared, hdeclared, h⟩ := Option.bind_eq_some_iff.1 h
    cases h
    exact ⟨.of_fields (Json.wellFormed_obj_iff.1 hvalue).2 hdeclared,
      faithful_childrenIn fields hvalue.2 hfound⟩
  | arr items =>
    rw [State.ofJson?] at h
    split at h
    · obtain ⟨found, hfound, h⟩ := Option.bind_eq_some_iff.1 h
      obtain ⟨declared, hdeclared, h⟩ := Option.bind_eq_some_iff.1 h
      cases h
      have hfields : ∀ f ∈ stateFieldNames.zip items, f.2.WellFormed := fun f hf =>
        Json.wellFormed_arr_iff.1 hvalue f.2 (List.of_mem_zip hf).2
      exact ⟨.of_fields hfields hdeclared, faithful_childrenAt _ items hvalue hfound⟩
    · cases h
  | _ => cases h

theorem faithful_childrenIn (fields : List (String × Json))
    (hfields : Json.WellFormedFields fields) {children : List (String × State)}
    (h : State.childrenIn? fields = some children) :
  FaithfulChildren children
  := by
  cases fields with
  | nil =>
    cases h
    exact .nil
  | cons f rest =>
    obtain ⟨key, value⟩ := f
    rw [State.childrenIn?] at h
    split at h
    · exact faithful_children value hfields.1 h
    · exact faithful_childrenIn rest hfields.2 h

theorem faithful_childrenAt (names : List String) (items : List Json)
    (hitems : Json.WellFormedItems items) {children : List (String × State)}
    (h : State.childrenAt? names items = some children) :
  FaithfulChildren children
  := by
  cases items with
  | nil =>
    rw [State.childrenAt?] at h
    cases h
    exact .nil
    simp
  | cons value rest =>
    cases names with
    | nil =>
      cases h
      exact .nil
    | cons name names =>
      rw [State.childrenAt?] at h
      split at h
      · exact faithful_children value hitems.1 h
      · exact faithful_childrenAt names rest hitems.2 h

theorem faithful_children (value : Json) (hvalue : value.WellFormed)
    {children : List (String × State)} (h : State.children? value = some children) :
  FaithfulChildren children
  := by
  cases value with
  | obj fields =>
    rw [State.children?] at h
    split at h
    · rename_i hkeys
      exact (faithful_childrenOf fields hvalue.2 hkeys h).1
    · cases h
  | _ => cases h

theorem faithful_childrenOf (fields : List (String × Json))
    (hfields : Json.WellFormedFields fields) (hkeys : (fields.map Prod.fst).Nodup)
    {children : List (String × State)} (h : State.childrenOf? fields = some children) :
  FaithfulChildren children ∧ children.map Prod.fst = fields.map Prod.fst
  := by
  cases fields with
  | nil =>
    cases h
    exact ⟨.nil, rfl⟩
  | cons f rest =>
    obtain ⟨key, value⟩ := f
    rw [State.childrenOf?] at h
    obtain ⟨⟨own, below⟩, hchild, h⟩ := Option.bind_eq_some_iff.1 h
    obtain ⟨others, hothers, h⟩ := Option.bind_eq_some_iff.1 h
    cases h
    obtain ⟨hkey, hkeys⟩ := List.nodup_cons.1 hkeys
    obtain ⟨hown, hbelow⟩ := faithful_state value hfields.1 hchild
    obtain ⟨hrest, heq⟩ := faithful_childrenOf rest hfields.2 hkeys hothers
    refine ⟨hrest.cons (by rwa [heq]) (hbelow.state hown), ?_⟩
    rw [List.map_cons, List.map_cons, heq]

end

/-! ### Machines -/

/-- A machine that is read from a well-formed value is found again in its written form, which
is well formed. -/
theorem Machine.read_write {m : Machine} {value : Json} (hvalue : value.WellFormed)
    (h : Machine.ofJson? value = some m) :
  Machine.ofJson? m.toJson = some m ∧ m.toJson.WellFormed
  := by
  rw [Machine.ofJson?.eq_def] at h
  split at h
  swap
  · cases h
  rename_i fields
  obtain ⟨context, hcontext, h⟩ := Option.bind_eq_some_iff.1 h
  obtain ⟨⟨own, children⟩, hroot, h⟩ := Option.bind_eq_some_iff.1 h
  cases h
  obtain ⟨hown, hchildren⟩ := faithful_state (.obj fields) hvalue hroot
  have hwell : context.WellFormed := by
    rcases reads_of_defaulted? (Json.wellFormed_obj_iff.1 hvalue).2 hcontext with rfl | ⟨v, hv, h⟩
    · trivial
    · cases h
      rwa [Json.merged_of_wellFormed v hv]
  generalize ho : (if context.isNull then none else some context) = o
  have hjson : Machine.toJson { context, root := .node own children }
      = Json.objOf (stateFields o own (statesField (State.childrenJson children))) := by
    rw [← ho]
    rfl
  have hread : defaulted? (present (stateFields o own
      (statesField (State.childrenJson children)))) ["context"] .null
      (fun v => some v.merged) = some context := by
    have hsingle : Json.single? ["context"] (present (stateFields o own
        (statesField (State.childrenJson children)))) = some o :=
      single?_present "context" (by simp [stateFields, Declaration.fields])
    rw [defaulted?, hsingle]
    cases context with
    | null =>
      subst ho
      rfl
    | _ =>
      subst ho
      exact congrArg some (Json.merged_of_wellFormed _ hwell)
  rw [hjson]
  constructor
  · have hstate := hchildren.read_state hown o
    rw [objOf_eq] at hstate ⊢
    rw [Machine.ofJson?, hread, hstate]
    rfl
  · refine hown.wellFormed ?_ hchildren.wellFormed_statesField
    subst ho
    intro v hv
    split at hv
    · cases hv
    · cases hv
      exact hwell

end Statechart.Document

namespace Statechart.Chart

/-- A chart keeps the document that it is compiled from. -/
theorem document_of_ofDocument {m : Document.Machine} {chart : Chart}
    (h : ofDocument m = .ok chart) :
  chart.document = m
  := by
  unfold ofDocument at h
  split at h
  · cases h
  dsimp only at h
  split at h
  · cases h
  obtain ⟨kinds, -, h⟩ := Outcome.bind_eq_ok.1 h
  obtain ⟨nodes, -, h⟩ := Outcome.bind_eq_ok.1 h
  cases h
  rfl

/-- The chart of a well-formed value is the chart of its own written form. -/
theorem ofJson_toJson {value : Json} {chart : Chart} (hvalue : value.WellFormed)
    (h : ofJson value = .ok chart) :
  ofJson chart.toJson = .ok chart
  := by
  rw [ofJson] at h
  split at h
  · cases h
  · rename_i m hm
    split at h
    · rename_i found hfound
      cases h
      obtain ⟨hread, hwell⟩ := Document.Machine.read_write hvalue hm
      rw [toJson, document_of_ofDocument hfound, Json.merged_of_wellFormed _ hwell, ofJson,
        hread]
      dsimp only
      rw [hfound]
    · cases h

/-- A document with the shorthands of the format: targets as strings, single items for
lists, names for actions, types with a prefix, and other names of fields. -/
def shorthand : Json :=
  .obj [("id", .str "m"), ("context", .obj [("n", .int 0)]), ("initial", .str "a"),
    ("states", .obj
      [("a", .obj
        [("entry", .str "greet"),
          ("invoke", .obj [("src", .str "work"), ("autoForward", .bool true),
            ("onDone", .str "b")]),
          ("on", .obj
            [("GO", .str "b"),
              ("NEXT", .arr
                [.obj [("target", .str "b"), ("cond", .str "ctx.n > 0"),
                  ("actions", .obj [("type", .str "harel.send"), ("event", .str "PING"),
                    ("delay", .int 5)])],
                  .obj [("actions", .arr [.str "harel.other",
                    .obj [("type", .str "assign"), ("assignment", .obj
                      [("n", .obj [("value", .int 1)])])]])]])]),
          ("after", .obj [("10", .arr [.obj [("target", .arr [.str "#m.b"])]])])]),
        ("b", .obj [("type", .str "final"),
          ("data", .obj [("path", .str "ctx.n")])])])]

theorem ofJson_toJson_shorthand :
  ∃ chart, shorthand.WellFormed ∧ ofJson shorthand = .ok chart ∧
    ofJson chart.toJson = .ok chart
  := by
  have hwell : shorthand.WellFormed := by
    simp [shorthand, Json.WellFormed, Json.WellFormedFields, Json.WellFormedItems]
  obtain ⟨chart, h, -⟩ := Outcome.exists_of_any (x := ofJson shorthand) (p := fun _ => true)
    (by decide +kernel)
  exact ⟨chart, hwell, h, ofJson_toJson hwell h⟩

end Statechart.Chart
