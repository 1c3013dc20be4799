import Mathlib.Data.List.Perm.Basic
import Statechart.Chart.Layout
import Statechart.Document.Builder
import Statechart.Proofs.Document.RoundTrip
import Statechart.Proofs.Json.Merged

/-!
# Built states

The candidates that are passed to a state under construction, each under its key: an event, a
delay, a completion, or none of these.  The state declares all of them (`built_build`), in one entry
for each event but in an entry of its own for each call with a delay.
-/

namespace Statechart.Document

/-! ### Calls -/

/-- A call that adds a declaration to a state under construction. -/
inductive Call where
  | type (type : StateType)
  | id (id : String)
  | initial (key : String)
  | child (key : String) (child : State)
  | on (event : String) (t : Transition)
  | always (t : Transition)
  | after (millis : Nat) (t : Transition)
  | entry (a : Action)
  | exit (a : Action)
  | invoke (i : Invocation)
  | onDone (t : Transition)

/-- The state after a call. -/
def Call.apply (s : State) : Call → State
  | .type k => s.withType k
  | .id name => s.withId name
  | .initial key => s.withInitial key
  | .child key c => s.withChild key c
  | .on event t => s.withOn event t
  | .always t => s.withAlways t
  | .after millis t => s.withAfter millis t
  | .entry a => s.withEntry a
  | .exit a => s.withExit a
  | .invoke i => s.withInvocation i
  | .onDone t => s.withOnDone t

/-- The state that calls build, one after the other. -/
def State.build (calls : List Call) : State :=
  calls.foldl Call.apply .empty

/-- What a candidate waits for. -/
inductive Key where
  | event (name : String)
  | always
  | delay (millis : Nat)
  | completion
  deriving DecidableEq

/-- The candidate that a call passes, with its key. -/
def Call.candidate? : Call → Option (Key × Transition)
  | .on event t => some (.event event, t)
  | .always t => some (.always, t)
  | .after millis t => some (.delay millis, t)
  | .onDone t => some (.completion, t)
  | _ => none

/-- The candidates that are passed, in the order of the calls. -/
def passed (calls : List Call) : List (Key × Transition) :=
  calls.filterMap Call.candidate?

/-- The candidates for one key. -/
def candidates (es : List (Key × Transition)) (key : Key) : List Transition :=
  (es.filter (fun e => e.1 = key)).map Prod.snd

/-- The delay that a candidate waits for. -/
def Key.delay? : Key → Option Nat
  | .delay millis => some millis
  | _ => none

/-- The candidates that wait for a delay. -/
def delayed (es : List (Key × Transition)) : List (Nat × Transition) :=
  es.filterMap (fun e => e.1.delay?.map (fun n => (n, e.2)))

/-- The delays that candidates wait for. -/
def delays (es : List (Key × Transition)) : List Nat :=
  (delayed es).map Prod.fst

variable {es : List (Key × Transition)} {own : Declaration} {ts : List Transition} {name : String}
  {entries : List (String × List Transition)}

/-- One more candidate comes last among those of its key. -/
theorem candidates_concat (es : List (Key × Transition)) (key' key : Key) (t : Transition) :
  candidates (es ++ [(key', t)]) key = candidates es key ++ if key' = key then [t] else []
  := by
  rw [candidates, List.filter_append, List.map_append, ← candidates, List.filter_cons]
  split
  · next h => rw [if_pos (by simpa using h)]; rfl
  · next h => rw [if_neg (by simpa using h)]; rfl

theorem candidates_delay (es : List (Key × Transition)) (millis : Nat) :
  candidates es (.delay millis) = ((delayed es).filter (fun d => d.1 = millis)).map Prod.snd
  := by
  rw [candidates, delayed, List.filter_filterMap, List.map_filterMap, ← List.filterMap_eq_map,
    List.filterMap_filter]
  apply List.filterMap_congr
  rintro ⟨key, t⟩ -
  cases key with
  | delay n => by_cases hn : n = millis <;> simp [Key.delay?, Option.filter, hn]
  | _ => simp [Key.delay?]

/-- There are as many candidates for a delay as the delay occurs. -/
theorem length_candidates_delay (es : List (Key × Transition)) (millis : Nat) :
  (candidates es (.delay millis)).length = (delays es).count millis
  := by
  rw [candidates_delay, List.length_map, ← List.countP_eq_length_filter, delays,
    List.count_eq_countP, List.countP_map]
  rfl

/-! ### Entries -/

/-- The entry of a key, which is left out if there are no candidates for it. -/
def entryOf (name : String) (ts : List Transition) : List (String × List Transition) :=
  if ts.isEmpty then [] else [(name, ts)]

theorem entryOf_append_singleton (name : String) (ts : List Transition) (t : Transition) :
  entryOf name (ts ++ [t]) = [(name, ts ++ [t])]
  := by
  simp [entryOf]

/-- One more candidate joins those of its key. -/
theorem filter_addCandidate_self (h : entries.filter (fun e => e.1 == name) = entryOf name ts)
    (t : Transition) :
  (addCandidate name t entries).filter (fun e => e.1 == name) = entryOf name (ts ++ [t])
  := by
  rw [entryOf_append_singleton]
  induction entries with
  | nil =>
    have hts : ts = [] := by
      cases ts with
      | nil => rfl
      | cons u us => cases h
    rw [hts, addCandidate, List.filter_cons_of_pos (by simp)]
    rfl
  | cons e entries ih =>
    obtain ⟨name', us⟩ := e
    rw [addCandidate]
    by_cases hname : name' = name
    · rw [List.filter_cons_of_pos (by simpa using hname), entryOf] at h
      rw [if_pos hname, List.filter_cons_of_pos (by simpa using hname)]
      split at h
      · cases h
      · obtain ⟨heq, hrest⟩ := List.cons.inj h
        cases heq
        rw [hrest]
    · rw [List.filter_cons_of_neg (by simpa using hname)] at h
      rw [if_neg hname, List.filter_cons_of_neg (by simpa using hname), ih h]

/-- One more candidate leaves the entries of other keys as they are. -/
theorem filter_addCandidate_of_ne {name' : String} (h : name' ≠ name) (t : Transition)
    (entries : List (String × List Transition)) :
  (addCandidate name' t entries).filter (fun e => e.1 == name) =
    entries.filter (fun e => e.1 == name)
  := by
  induction entries with
  | nil => rw [addCandidate, List.filter_cons_of_neg (by simpa using h)]
  | cons e entries ih =>
    obtain ⟨k, us⟩ := e
    rw [addCandidate]
    by_cases hk : k = name'
    · have hne : k ≠ name := fun heq => h (hk.symm.trans heq)
      rw [if_pos hk, List.filter_cons_of_neg (by simpa using hne),
        List.filter_cons_of_neg (by simpa using hne)]
    · rw [if_neg hk, List.filter_cons, List.filter_cons, ih]

/-- The keys of the entries stay, and a new one comes last. -/
theorem keys_addCandidate (name : String) (t : Transition)
    (entries : List (String × List Transition)) :
  (addCandidate name t entries).map Prod.fst =
    if name ∈ entries.map Prod.fst then entries.map Prod.fst else entries.map Prod.fst ++ [name]
  := by
  induction entries with
  | nil => rfl
  | cons e entries ih =>
    obtain ⟨k, us⟩ := e
    rw [addCandidate, List.map_cons]
    by_cases hk : k = name
    · rw [if_pos hk, if_pos (hk ▸ List.mem_cons_self), List.map_cons]
    · have hmem : name ∈ k :: entries.map Prod.fst ↔ name ∈ entries.map Prod.fst := by
        rw [List.mem_cons]
        exact or_iff_right (Ne.symm hk)
      simp only [if_neg hk, List.map_cons, ih, hmem]
      split
      · rfl
      · rw [List.cons_append]

theorem nodup_addCandidate (h : (entries.map Prod.fst).Nodup) (name : String) (t : Transition) :
  ((addCandidate name t entries).map Prod.fst).Nodup
  := by
  rw [keys_addCandidate]
  split
  · exact h
  · next hout => exact List.concat_eq_append ▸ h.concat hout

/-! ### Declarations -/

/-- What a state under construction declares, after the given candidates have been passed. -/
structure Built (own : Declaration) (es : List (Key × Transition)) : Prop where
  on_nodup : (own.on.map Prod.fst).Nodup
  on : ∀ name,
    own.on.filter (fun e => e.1 == name) = entryOf name (candidates es (.event name))
  always : own.always = candidates es .always
  after : own.after = (delayed es).map (fun d => (toString d.1, [d.2]))
  onDone : own.onDone = candidates es .completion

/-- A call adds the candidate that it passes, if it passes one. -/
theorem Built.apply {s : State} (h : Built s.own es) (call : Call) :
  Built (call.apply s).own (es ++ call.candidate?.toList)
  := by
  have hrest : Built s.own (es ++ []) := by rwa [List.append_nil]
  obtain ⟨hnodup, hon, halways, hafter, hdone⟩ := h
  -- a candidate for another key leaves the candidates for an event as they are
  have hother : ∀ {key} (t : Transition), (∀ name, key ≠ .event name) → ∀ name,
      s.own.on.filter (fun e => e.1 == name) =
        entryOf name (candidates (es ++ [(key, t)]) (.event name)) := by
    intro key t hkey name
    rw [candidates_concat, if_neg (hkey name), List.append_nil]
    exact hon name
  have hsame : ∀ {key key'} (t : Transition), key' ≠ key →
      candidates es key = candidates (es ++ [(key', t)]) key := by
    intro key key' t hne
    rw [candidates_concat, if_neg hne, List.append_nil]
  have hnone : ∀ {key} (t : Transition), Key.delay? key = none →
      s.own.after = (delayed (es ++ [(key, t)])).map (fun d => (toString d.1, [d.2])) := by
    intro key t hkey
    rw [delayed, List.filterMap_append, List.filterMap_cons_none (by rw [hkey]; rfl)]
    exact hafter.trans (by rw [List.filterMap_nil, List.append_nil, delayed])
  cases call with
  | on event t =>
    refine ⟨nodup_addCandidate hnodup event t, ?_, halways.trans (hsame t nofun), hnone t rfl,
      hdone.trans (hsame t nofun)⟩
    intro name
    rw [Call.candidate?, Option.toList_some, candidates_concat]
    by_cases hname : event = name
    · subst hname
      rw [if_pos rfl]
      exact filter_addCandidate_self (hon event) t
    · rw [if_neg (by simpa using hname), List.append_nil, ← hon name]
      exact filter_addCandidate_of_ne hname t s.own.on
  | always t =>
    refine ⟨hnodup, hother t nofun, ?_, hnone t rfl, hdone.trans (hsame t nofun)⟩
    rw [Call.candidate?, Option.toList_some, candidates_concat, ← halways]
    rfl
  | after millis t =>
    refine ⟨hnodup, hother t nofun, halways.trans (hsame t nofun), ?_,
      hdone.trans (hsame t nofun)⟩
    rw [Call.candidate?, Option.toList_some, delayed, List.filterMap_append, List.map_append,
      ← delayed, ← hafter]
    rfl
  | onDone t =>
    refine ⟨hnodup, hother t nofun, halways.trans (hsame t nofun), hnone t rfl, ?_⟩
    rw [Call.candidate?, Option.toList_some, candidates_concat, ← hdone]
    rfl
  | _ => exact ⟨hnodup, hrest.on, hrest.always, hrest.after, hrest.onDone⟩

/-- A state declares all candidates that are passed to it. -/
theorem built_build (calls : List Call) :
  Built (State.build calls).own (passed calls)
  := by
  induction calls using List.reverseRecOn with
  | nil => exact ⟨List.nodup_nil, fun _ => rfl, rfl, rfl, rfl⟩
  | append_singleton calls call ih =>
    have hpassed : passed (calls ++ [call]) = passed calls ++ call.candidate?.toList := by
      rw [passed, List.filterMap_append, passed]
      cases h : call.candidate? with
      | none => rw [List.filterMap_cons_none h]; rfl
      | some e => rw [List.filterMap_cons_some h]; rfl
    rw [State.build, List.foldl_append, hpassed]
    exact ih.apply call

end Statechart.Document
