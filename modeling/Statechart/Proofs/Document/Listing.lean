import Mathlib.Algebra.BigOperators.Group.List.Basic
import Mathlib.Data.List.Perm.Basic
import Statechart.Proofs.Document.Builder

/-!
# Listed candidates

Where the JSON form of a machine lists the candidates of a state: under the keys on the way to the
state, and there under the event, the delay or the completion.  It lists all candidates for an event
in the order of the calls that passed them, but of several candidates for one delay it lists the
last one alone (`at?_of_shows`), so that it has fewer of them than were passed (`count_of_shows`).
-/

namespace Statechart.Document

/-! ### Written states -/

/-- Whether keys lead from a state to one below it.  Of several children with one key only the last
one counts. -/
inductive Leads : State → List String → State → Prop
  | here {s} : Leads s [] s
  | step {own before key child after keys s} : key ∉ after.map Prod.fst →
    Leads child keys s → Leads (.node own (before ++ (key, child) :: after)) (key :: keys) s

/-- The way to a state in the JSON form of a machine. -/
def statePath (keys : List String) : List String :=
  keys.flatMap (fun key => ["states", key])

/-- Whether a JSON value shows the children and the candidates that a state declares. -/
structure Shows (s : State) (j : Json) : Prop where
  states : j.field? "states" = (statesField (State.childrenJson s.children)).map Json.merged
  on : j.field? "on" = (candidatesField s.own.on).map Json.merged
  always : j.field? "always" = (listField Transition.toJson s.own.always).map Json.merged
  after : j.field? "after" = (candidatesField s.own.after).map Json.merged
  onDone : j.field? "onDone" = (listField Transition.toJson s.own.onDone).map Json.merged

variable {s sub : State} {j : Json} {keys : List String} {es : List (Key × Transition)}

theorem field?_merged_objOf {fields : List (String × Option Json)} {name : String} {o : Option Json}
    (h : fields.filter (fun f => f.1 == name) = [(name, o)]) :
  (Json.objOf fields).merged.field? name = o.map Json.merged
  := by
  rw [objOf_eq, Json.field?_merged_obj, filter_present (· == name), h]
  cases o <;> rfl

theorem childrenJson_eq (children : List (String × State)) :
  State.childrenJson children = children.map (fun e => (e.1, e.2.toJson))
  := by
  induction children with
  | nil => rfl
  | cons e children ih =>
    obtain ⟨key, child⟩ := e
    rw [State.childrenJson, ih, List.map_cons]

/-- The written form of a state shows what the state declares, also with a context before it. -/
theorem shows_objOf {own : Declaration} {children : List (String × State)}
    {context : List (String × Option Json)} (hcontext : ∀ f ∈ context, f.1 = "context") :
  Shows (.node own children)
    (Json.objOf (context ++ own.fields (statesField (State.childrenJson children)))).merged
  := by
  have hnone : ∀ name, name ≠ "context" → context.filter (fun f => f.1 == name) = [] := by
    intro name hname
    rw [List.filter_eq_nil_iff]
    intro f hf
    rw [hcontext f hf]
    simpa using hname.symm
  constructor
  case states =>
    exact field?_merged_objOf
      (by rw [List.filter_append, hnone _ (by decide)]; simp [Declaration.fields, State.children])
  case on =>
    exact field?_merged_objOf
      (by rw [List.filter_append, hnone _ (by decide)]; simp [Declaration.fields, State.own])
  case always =>
    exact field?_merged_objOf
      (by rw [List.filter_append, hnone _ (by decide)]; simp [Declaration.fields, State.own])
  case after =>
    exact field?_merged_objOf
      (by rw [List.filter_append, hnone _ (by decide)]; simp [Declaration.fields, State.own])
  case onDone =>
    exact field?_merged_objOf
      (by rw [List.filter_append, hnone _ (by decide)]; simp [Declaration.fields, State.own])

theorem shows_state (s : State) :
  Shows s s.toJson.merged
  := by
  cases s with
  | node own children => exact shows_objOf (List.forall_mem_nil _)

theorem shows_machine (m : Machine) :
  Shows m.root m.toJson.merged
  := by
  rw [Machine.toJson]
  cases m.root with
  | node own children => exact shows_objOf (List.forall_mem_singleton.mpr rfl)

/-- The JSON form shows a state on the way to which its keys lead. -/
theorem Leads.exists_shows (h : Leads s keys sub) (hj : Shows s j) :
  ∃ j', j.at? (statePath keys) = some j' ∧ Shows sub j'
  := by
  induction h generalizing j with
  | here => exact ⟨j, rfl, hj⟩
  | @step own before key child after keys s hlast _ ih =>
    obtain ⟨j', hat, hj'⟩ := ih (shows_state child)
    have hafter : after.filter (fun e => e.1 == key) = [] := by
      rw [List.filter_eq_nil_iff]
      intro e he
      rw [beq_iff_eq]
      exact fun heq => hlast (heq ▸ List.mem_map_of_mem he)
    have hstates : j.field? "states" = some (Json.obj
        ((before ++ (key, child) :: after).map (fun e => (e.1, e.2.toJson)))).merged := by
      rw [hj.states, statesField, childrenJson_eq]
      rw [State.children, if_neg (by simp)]
      rfl
    have hchild : (Json.obj ((before ++ (key, child) :: after).map
        (fun e => (e.1, e.2.toJson)))).merged.field? key = some child.toJson.merged := by
      rw [Json.field?_merged_obj, List.filter_map]
      change ((List.filter (fun e : String × State => e.1 == key) _).map _).getLast?.map _ = _
      rw [List.filter_append, List.filter_cons_of_pos (by simp), hafter, List.map_append,
        List.map_singleton, List.getLast?_concat]
      rfl
    refine ⟨j', ?_, hj'⟩
    change (j.field? "states").bind
      (fun a => (a.field? key).bind (Json.at? (statePath keys))) = some j'
    rw [hstates, Option.bind_some, hchild, Option.bind_some, hat]

/-! ### Keys of candidates -/

/-- The way to the candidates for a key in the JSON form of their state. -/
def Key.path : Key → List String
  | .event name => ["on", name]
  | .always => ["always"]
  | .delay millis => ["after", toString millis]
  | .completion => ["onDone"]

/-- The written form of candidates, which is absent if there are none. -/
def listing (ts : List Transition) : Option Json :=
  (listField Transition.toJson ts).map Json.merged

/-- The candidates for a key that a JSON form shows: of those for a delay the last one. -/
def shown (es : List (Key × Transition)) : Key → List Transition
  | .delay millis => (candidates es (.delay millis)).getLast?.toList
  | key => candidates es key

variable {entries : List (String × List Transition)} {own : Declaration}

theorem candidatesField_eq (entries : List (String × List Transition)) (hne : entries ≠ []) :
  candidatesField entries =
    some (.obj (entries.map (fun e => (e.1, .arr (e.2.map Transition.toJson)))))
  := if_neg (by simpa using hne)

/-- The last entry of a key counts. -/
theorem field?_candidatesField (entries : List (String × List Transition)) (name : String) :
  ((candidatesField entries).map Json.merged).bind (Json.field? name) =
    (entries.filter (fun e => e.1 == name)).getLast?.map
      (fun e => (Json.arr (e.2.map Transition.toJson)).merged)
  := by
  by_cases hne : entries = []
  · rw [hne]
    rfl
  · rw [candidatesField_eq entries hne, Option.map_some, Option.bind_some, Json.field?_merged_obj,
      List.filter_map, List.getLast?_map, Option.map_map]
    rfl

theorem getLast?_entryOf (name : String) (ts : List Transition) :
  (entryOf name ts).getLast?.map (fun e => (Json.arr (e.2.map Transition.toJson)).merged) =
    listing ts
  := by
  cases ts <;> rfl

/-- Different delays have different keys. -/
theorem toString_injective :
  Function.Injective (toString : Nat → String)
  := by
  intro n k h
  have hdigits : Nat.toDigits 10 n = Nat.toDigits 10 k := by
    apply String.ofList_injective
    rw [← Nat.repr_eq_ofList_toDigits, ← Nat.repr_eq_ofList_toDigits]
    exact h
  rw [← Nat.ofDigitChars_toDigits (n := n) (by decide : 1 < 10) le_rfl, hdigits,
    Nat.ofDigitChars_toDigits (by decide) le_rfl]

theorem Built.filter_after (h : Built own es) (millis : Nat) :
  own.after.filter (fun e => e.1 == toString millis) =
    (candidates es (.delay millis)).map (fun t => (toString millis, [t]))
  := by
  rw [h.after, List.filter_map, candidates_delay, List.map_map]
  have hkeys : (delayed es).filter ((fun e => e.1 == toString millis) ∘
      fun d => (toString d.1, [d.2])) = (delayed es).filter (fun d => d.1 = millis) := by
    apply List.filter_congr
    intro d _
    rw [Function.comp_apply, Bool.eq_iff_iff, beq_iff_eq, decide_eq_true_iff]
    exact toString_injective.eq_iff
  rw [hkeys]
  apply List.map_congr_left
  intro d hd
  rw [of_decide_eq_true (List.mem_filter.mp hd).2]
  rfl

/-- Under a key the JSON form of a built state lists what it shows of the candidates. -/
theorem at?_of_shows (hj : Shows s j) (h : Built s.own es) (key : Key) :
  j.at? key.path = listing (shown es key)
  := by
  have hentry : ∀ name entries, ((candidatesField entries).map Json.merged).bind
      (fun a => (a.field? name).bind some) =
        ((candidatesField entries).map Json.merged).bind (Json.field? name) := by
    intro name entries
    simp only [Option.bind_fun_some]
  cases key with
  | event name =>
    change (j.field? "on").bind (fun a => (a.field? name).bind some) = _
    rw [hj.on, hentry, field?_candidatesField, h.on, getLast?_entryOf]
    rfl
  | always =>
    change (j.field? "always").bind some = _
    rw [Option.bind_fun_some, hj.always, h.always]
    rfl
  | delay millis =>
    change (j.field? "after").bind (fun a => (a.field? (toString millis)).bind some) = _
    rw [hj.after, hentry, field?_candidatesField, h.filter_after, List.getLast?_map, shown]
    cases (candidates es (.delay millis)).getLast? <;> rfl
  | completion =>
    change (j.field? "onDone").bind some = _
    rw [Option.bind_fun_some, hj.onDone, h.onDone]
    rfl

/-! ### Numbers of candidates -/

/-- The items of an array, none where there is no array. -/
def itemsOf : Option Json → List Json
  | some (.arr items) => items
  | _ => []

/-- The number of items of an array. -/
def itemCount (o : Option Json) : Nat :=
  (itemsOf o).length

/-- The number of items of the arrays that are the fields of an object. -/
def entryCount : Option Json → Nat
  | some (.obj fields) => (fields.flatMap (fun f => itemsOf (some f.2))).length
  | _ => 0

/-- The number of candidates that the JSON form of a state lists. -/
def candidateCount (j : Json) : Nat :=
  entryCount (j.field? "on") + itemCount (j.field? "always") + entryCount (j.field? "after") +
    itemCount (j.field? "onDone")

theorem itemCount_merged (items : List Json) :
  itemCount (some (Json.arr items).merged) = items.length
  := by
  rw [Json.merged, Json.mergedItems_eq, itemCount, itemsOf, List.length_map]

theorem itemCount_listing (ts : List Transition) :
  itemCount (listing ts) = ts.length
  := by
  cases ts with
  | nil => rfl
  | cons t ts => exact (itemCount_merged _).trans (List.length_map _)

/-- The candidates of different keys are all listed. -/
theorem entryCount_of_nodup (h : (entries.map Prod.fst).Nodup) :
  entryCount ((candidatesField entries).map Json.merged) = (entries.flatMap Prod.snd).length
  := by
  by_cases hne : entries = []
  · rw [hne]
    rfl
  · rw [candidatesField_eq entries hne, Option.map_some, Json.merged, Json.mergedFields_of_nodup]
    · rw [List.nil_append, List.map_map, entryCount, List.length_flatMap, List.map_map,
        List.length_flatMap]
      congr 1
      apply List.map_congr_left
      intro e _
      exact (itemCount_merged _).trans (List.length_map _)
    · rw [List.nil_append, List.map_map]
      exact h

/-- Of single candidates one is listed for each key. -/
theorem entryCount_of_single (h : ∀ e ∈ entries, e.2.length = 1) :
  entryCount ((candidatesField entries).map Json.merged) = (entries.map Prod.fst).dedup.length
  := by
  by_cases hne : entries = []
  · rw [hne]
    rfl
  · rw [candidatesField_eq entries hne, Option.map_some, Json.merged, entryCount,
      List.length_flatMap]
    have hone : ∀ f ∈ Json.mergedFields []
        (entries.map (fun e => (e.1, Json.arr (e.2.map Transition.toJson)))),
        (itemsOf (some f.2)).length = 1 := by
      intro f hf
      obtain ⟨g, hg, rfl⟩ := (Json.exists_of_mem_mergedFields hf).resolve_left List.not_mem_nil
      obtain ⟨e, he, rfl⟩ := List.mem_map.mp hg
      exact (itemCount_merged _).trans ((List.length_map _).trans (h e he))
    rw [List.map_congr_left hone, List.map_const', List.sum_replicate_nat, Nat.mul_one,
      Json.length_mergedFields, List.map_map]
    rfl

/-! ### Declared candidates -/

/-- The candidates that a built state declares, with their keys. -/
def declared (own : Declaration) (es : List (Key × Transition)) : List (Key × Transition) :=
  own.on.flatMap (fun e => e.2.map (fun t => (Key.event e.1, t))) ++
    (delayed es).map (fun d => (Key.delay d.1, d.2)) ++
    own.always.map (fun t => (Key.always, t)) ++ own.onDone.map (fun t => (Key.completion, t))

theorem filter_map_key (key' key : Key) (ts : List Transition) :
  (ts.map (fun t => (key', t))).filter (fun e => e.1 = key) =
    if key' = key then ts.map (fun t => (key, t)) else []
  := by
  split
  · next h =>
    subst h
    rw [List.filter_eq_self]
    simp
  · next h =>
    rw [List.filter_eq_nil_iff]
    simp [h]

/-- The candidates for a key are passed under it. -/
theorem filter_eq_map_candidates (es : List (Key × Transition)) (key : Key) :
  es.filter (fun e => e.1 = key) = (candidates es key).map (fun t => (key, t))
  := by
  rw [candidates, List.map_map]
  conv_lhs => rw [← List.map_id (es.filter _)]
  apply List.map_congr_left
  rintro ⟨k, t⟩ hmem
  have hk : k = key := by simpa using (List.mem_filter.mp hmem).2
  subst hk
  rfl

theorem filter_flatMap_event (entries : List (String × List Transition)) (name : String) :
  (entries.flatMap (fun e => e.2.map (fun t => (Key.event e.1, t)))).filter
      (fun e => e.1 = .event name) =
    (entries.filter (fun e => e.1 == name)).flatMap (fun e => e.2.map (fun t => (.event name, t)))
  := by
  induction entries with
  | nil => rfl
  | cons e entries ih =>
    rw [List.flatMap_cons, List.filter_append, ih, filter_map_key, List.filter_cons]
    by_cases hname : e.1 = name
    · rw [if_pos (by rw [hname]), if_pos (by simpa using hname), List.flatMap_cons]
    · rw [if_neg (by simpa using hname), if_neg (by simpa using hname), List.nil_append]

theorem filter_flatMap_of_ne (entries : List (String × List Transition)) {key : Key}
    (hkey : ∀ name, key ≠ .event name) :
  (entries.flatMap (fun e => e.2.map (fun t => (Key.event e.1, t)))).filter
    (fun e => e.1 = key) = []
  := by
  rw [List.filter_eq_nil_iff]
  intro e he
  obtain ⟨f, -, he⟩ := List.mem_flatMap.mp he
  obtain ⟨t, -, rfl⟩ := List.mem_map.mp he
  simpa using (hkey f.1).symm

theorem filter_map_delayed (es : List (Key × Transition)) (millis : Nat) :
  ((delayed es).map (fun d => (Key.delay d.1, d.2))).filter (fun e => e.1 = .delay millis) =
    (candidates es (.delay millis)).map (fun t => (.delay millis, t))
  := by
  rw [List.filter_map, candidates_delay, List.map_map]
  have hkeys : (delayed es).filter ((fun e => decide (e.1 = Key.delay millis)) ∘
      fun d => (Key.delay d.1, d.2)) = (delayed es).filter (fun d => d.1 = millis) := by
    apply List.filter_congr
    intro d _
    simp
  rw [hkeys]
  apply List.map_congr_left
  intro d hd
  rw [of_decide_eq_true (List.mem_filter.mp hd).2]
  rfl

theorem filter_map_delayed_of_ne (es : List (Key × Transition)) {key : Key}
    (hkey : ∀ millis, key ≠ .delay millis) :
  ((delayed es).map (fun d => (Key.delay d.1, d.2))).filter (fun e => e.1 = key) = []
  := by
  rw [List.filter_eq_nil_iff]
  intro e he
  obtain ⟨d, -, rfl⟩ := List.mem_map.mp he
  simpa using (hkey d.1).symm

/-- A built state declares for each key the candidates that were passed. -/
theorem Built.filter_declared (h : Built own es) (key : Key) :
  (declared own es).filter (fun e => e.1 = key) = es.filter (fun e => e.1 = key)
  := by
  rw [declared, List.filter_append, List.filter_append, List.filter_append, filter_map_key,
    filter_map_key, filter_eq_map_candidates es]
  cases key with
  | event name =>
    have hon : (entryOf name (candidates es (.event name))).flatMap
        (fun e => e.2.map (fun t => (Key.event name, t))) =
          (candidates es (.event name)).map (fun t => (.event name, t)) := by
      rw [entryOf]
      split
      · next hempty => rw [List.isEmpty_iff.mp hempty]; rfl
      · exact List.flatMap_singleton _ _
    rw [filter_flatMap_event, h.on, hon, filter_map_delayed_of_ne _ (by simp)]
    simp
  | always =>
    rw [filter_flatMap_of_ne _ (by simp), filter_map_delayed_of_ne _ (by simp), h.always]
    simp
  | delay millis =>
    rw [filter_flatMap_of_ne _ (by simp), filter_map_delayed]
    simp
  | completion =>
    rw [filter_flatMap_of_ne _ (by simp), filter_map_delayed_of_ne _ (by simp), h.onDone]
    simp

/-- Lists with the same candidates for each key have the same candidates. -/
theorem perm_of_filter_eq {es' : List (Key × Transition)}
    (h : ∀ key, es.filter (fun e => e.1 = key) = es'.filter (fun e => e.1 = key)) :
  es.Perm es'
  := by
  classical
  rw [List.perm_iff_count]
  intro e
  rw [← List.count_filter (p := fun e' => e'.1 = e.1) (by simp), h,
    List.count_filter (by simp)]

/-- The JSON form of a built state lists as many candidates less than were passed as there are calls
with a delay of an earlier one. -/
theorem count_of_shows (hj : Shows s j) (h : Built s.own es) :
  candidateCount j + (delays es).length = es.length + (delays es).dedup.length
  := by
  have hperm := (perm_of_filter_eq h.filter_declared).length_eq
  have hkeys : s.own.after.map Prod.fst = (delays es).map toString := by
    rw [h.after, delays, List.map_map, List.map_map]
    rfl
  have hsingle : ∀ e ∈ s.own.after, e.2.length = 1 := by
    intro e he
    rw [h.after] at he
    obtain ⟨d, -, rfl⟩ := List.mem_map.mp he
    rfl
  rw [candidateCount, hj.on, hj.always, hj.after, hj.onDone, entryCount_of_nodup h.on_nodup,
    entryCount_of_single hsingle, hkeys, List.dedup_map_of_injective toString_injective,
    List.length_map]
  change _ + itemCount (listing s.own.always) + _ + itemCount (listing s.own.onDone) + _ = _
  rw [itemCount_listing, itemCount_listing]
  have hevents : (s.own.on.flatMap (fun e => e.2.map (fun t => (Key.event e.1, t)))).length =
      (s.own.on.flatMap Prod.snd).length := by
    simp only [List.length_flatMap, List.length_map]
  rw [declared, List.length_append, List.length_append, List.length_append, hevents,
    List.length_map, List.length_map, List.length_map] at hperm
  have hdelays : (delays es).length = (delayed es).length := List.length_map _
  omega

/-! ### Single delays -/

/-- All candidates are listed if and only if no delay is that of two candidates. -/
theorem shown_iff (es : List (Key × Transition)) :
  (∀ key, listing (shown es key) = listing (candidates es key)) ↔ (delays es).Nodup
  := by
  rw [List.nodup_iff_count_le_one]
  constructor
  · intro hall millis
    have hlength := congrArg itemCount (hall (.delay millis))
    rw [itemCount_listing, itemCount_listing, length_candidates_delay] at hlength
    rw [← hlength, shown]
    exact Option.length_toList_le
  · intro hone key
    cases key with
    | delay millis =>
      have hlength := hone millis
      rw [← length_candidates_delay] at hlength
      rw [shown]
      match candidates es (.delay millis), hlength with
      | [], _ => rfl
      | [t], _ => rfl
    | _ => rfl

/-- The JSON form of a built state lists as many candidates as were passed if and only if no delay
is that of two candidates. -/
theorem count_iff_of_shows (hj : Shows s j) (h : Built s.own es) :
  candidateCount j = es.length ↔ (delays es).Nodup
  := by
  have hcount := count_of_shows hj h
  constructor
  · intro heq
    rw [← List.dedup_eq_self]
    exact (List.dedup_sublist _).eq_of_length (by omega)
  · intro hnodup
    rw [List.dedup_eq_self.mpr hnodup] at hcount
    omega

end Statechart.Document
