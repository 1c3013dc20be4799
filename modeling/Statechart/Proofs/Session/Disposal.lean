import Statechart.Proofs.Session.Freshness
import Statechart.Proofs.Session.Steady

/-!
# Disposal of callback services

A callback service is disposed of when it is stopped: its gate is closed, and its disposer is run,
which happens once at most (`Course.disposals`).  Until then the service is in somebody's hands: it
is about to be registered, live at a running interpreter or about to be stopped, unless the registry
has lost sight of it (`Course.custody`).  A live service whose owner is exited is stopped before the
next envelope is taken (`Course.disposed_once`).
-/

namespace Statechart

open Session (closed Steady Launches completes)

variable {n k : Nat} {a b : Actor} {w : Work} {ds es : List Work} {ms xs ys : List Moment}
  {m : Moment} {c : Callback} {v : Service} {id : String} {generation : Nat}
  {snapshot : Snapshot}

/-! ### Callback services -/

/-- Whether a work stops a callback service. -/
def Work.stops (k : Nat) : Work → Bool
  | .stopService service => service.backing == .callback k
  | _ => false

/-- Whether the disposer of a callback service is run at a moment. -/
def Moment.disposes (k : Nat) (m : Moment) : Bool :=
  m.work.stops k && (m.before.callbacks[k]?).any (fun c => c.disposer.isSome)

/-- Whether a callback service, whose disposer was run a number of times, still has the disposer
if and only if its gate is open, and the disposer was run once if it is closed. -/
structure Callback.Tidy (c : Callback) (count : Nat) : Prop where
  disposer : c.disposer = if c.disposed then none else c.given
  count : count = if c.disposed && c.given.isSome then 1 else 0

namespace Session

variable {s s₀ t : Session}

theorem callbacks_stop (s : Session) (n : Nat) :
  (s.stop n).callbacks = s.callbacks
  := by
  cases ha : s.actor? n with
  | none => rw [stop, ha]
  | some a =>
    by_cases hstatus : a.status = .stopped
    · rw [stop, ha]
      dsimp only
      rw [if_pos hstatus]
    · obtain ⟨t, ht, heq⟩ := exists_stop_eq ha hstatus
      rw [heq]
      exact ht.callbacks

/-- What a work does to the callback services: nothing, or it starts one, or it stops one. -/
theorem callbacks_carryOut (s : Session) (w : Work) :
  ((s.carryOut w).callbacks = s.callbacks ∧ ∀ k, w.stops k = false) ∨
  (∃ c, (s.carryOut w).callbacks = s.callbacks ++ [c] ∧
    Launches s.callbacks.length (s.carryOut w) c ∧ ∀ k, w.stops k = false) ∨
  ∃ k, (s.carryOut w).callbacks = s.callbacks.modify k closed ∧
    ∀ l, w.stops l = true ↔ k = l
  := by
  cases w with
  | invoke n snapshot action later =>
    rcases steady_invoke s n snapshot action later with hsame | ⟨c, hlaunched, hlaunches⟩
    · exact Or.inl ⟨hsame.callbacks, fun _ => rfl⟩
    · exact Or.inr (Or.inl ⟨c, hlaunched.callbacks, hlaunches, fun _ => rfl⟩)
  | stop n => exact Or.inl ⟨callbacks_stop s n, fun _ => rfl⟩
  | stopService service =>
    rcases steady_stopService s service with ⟨hsame, hother⟩ | ⟨k, hbacking, hclosed⟩
    · refine Or.inl ⟨hsame.callbacks, fun k => ?_⟩
      rw [Work.stops, beq_eq_false_iff_ne]
      exact hother k
    · refine Or.inr (Or.inr ⟨k, hclosed.callbacks, fun l => ?_⟩)
      rw [Work.stops, hbacking, beq_iff_eq, Backing.callback.injEq]
  | _ => exact Or.inl ⟨(steady_carryOut rfl).callbacks, fun _ => rfl⟩

/-- A callback service stays as it is until it is stopped. -/
theorem callback_carryOut (hc : s.callbacks[k]? = some c) :
  (s.carryOut w).callbacks[k]? = some (if w.stops k then closed c else c)
  := by
  rcases callbacks_carryOut s w with ⟨heq, hstops⟩ | ⟨c', heq, -, hstops⟩ | ⟨l, heq, hstops⟩
  · rw [heq, hc, hstops]
    rfl
  · obtain ⟨hk, -⟩ := List.getElem?_eq_some_iff.mp hc
    rw [heq, List.getElem?_append_left hk, hc, hstops]
    rfl
  · rw [heq, List.getElem?_modify, hc, Option.map_eq_map, Option.map_some]
    by_cases hl : l = k
    · rw [if_pos hl, if_pos ((hstops k).mpr hl)]
    · rw [if_neg hl, if_neg (fun h => hl ((hstops k).mp h))]

/-- A callback service that was not there before has just been started. -/
theorem launches_of_carryOut (hnone : s.callbacks[k]? = none)
    (hc : (s.carryOut w).callbacks[k]? = some c) :
  Launches k (s.carryOut w) c
  := by
  have hlength := List.getElem?_eq_none_iff.mp hnone
  rcases callbacks_carryOut s w with ⟨heq, -⟩ | ⟨c', heq, hlaunches, -⟩ | ⟨l, heq, -⟩
  · rw [heq, hnone] at hc
    cases hc
  · rw [heq, List.getElem?_append_right hlength] at hc
    obtain ⟨hk, hlast⟩ := List.getElem?_eq_some_iff.mp hc
    rw [List.getElem_singleton] at hlast
    subst hlast
    have hk : k = s.callbacks.length := by
      rw [List.length_singleton] at hk
      omega
    rw [hk]
    exact hlaunches
  · rw [heq, List.getElem?_modify, hnone] at hc
    cases hc

/-- A stop closes the gate, and runs the disposer if it was open. -/
theorem tidy_concat (h : c.Tidy (ms.countP (Moment.disposes k)))
    (hc : m.before.callbacks[k]? = some c) :
  Callback.Tidy (if m.work.stops k then closed c else c) ((ms ++ [m]).countP (Moment.disposes k))
  := by
  have hcount := h.count
  have hdisposer := h.disposer
  have hdisposes : m.disposes k = (m.work.stops k && c.disposer.isSome) := by
    rw [Moment.disposes, hc]
    rfl
  rw [List.countP_append, List.countP_singleton, hdisposes]
  cases hstops : m.work.stops k with
  | false =>
    rw [if_neg Bool.false_ne_true, Bool.false_and, if_neg Bool.false_ne_true]
    exact h
  | true =>
    rw [if_pos rfl, Bool.true_and]
    refine ⟨rfl, ?_⟩
    cases hdisposed : c.disposed with
    | true =>
      rw [hdisposed, if_pos rfl] at hdisposer
      rw [hdisposed] at hcount
      rw [hcount, hdisposer]
      rfl
    | false =>
      rw [hdisposed, if_neg Bool.false_ne_true] at hdisposer
      rw [hdisposed] at hcount
      rw [hcount, hdisposer]
      exact Nat.zero_add _

/-- The disposer of a callback service is run when its gate is closed for the first time, and then
never more. -/
theorem Course.disposals (h₀ : s₀.Fresh) (h : Course s₀ ms s) (k : Nat) :
  (s.callbacks[k]? = none → ms.countP (Moment.disposes k) = 0) ∧
    ∀ c, s.callbacks[k]? = some c → c.Tidy (ms.countP (Moment.disposes k))
  := by
  induction h with
  | refl =>
    rw [h₀.callbacks]
    refine ⟨fun _ => rfl, fun c hc => ?_⟩
    cases hc
  | call h hcall ih =>
    rw [hcall.steady.callbacks]
    exact ih
  | @step ms s m h hm ih =>
    rw [← hm.callbacks] at ih
    cases hbefore : m.before.callbacks[k]? with
    | none =>
      have hcount : (ms ++ [m]).countP (Moment.disposes k) = 0 := by
        rw [List.countP_append, ih.1 hbefore, List.countP_singleton, Moment.disposes, hbefore]
        simp
      refine ⟨fun _ => hcount, fun c hc => ?_⟩
      obtain ⟨hopen, hdisposer, -⟩ := launches_of_carryOut hbefore hc
      rw [hcount]
      exact ⟨by rw [hdisposer, hopen]; rfl, by rw [hopen]; rfl⟩
    | some c =>
      have hafter := callback_carryOut (w := m.work) hbefore
      refine ⟨fun hnone => ?_, fun c' hc' => ?_⟩
      · rw [Moment.after, hafter] at hnone
        cases hnone
      · rw [Moment.after, hafter, Option.some.injEq] at hc'
        subst hc'
        exact tidy_concat (ih.2 c hbefore) hbefore

end Session

/-! ### Services that leave the registry -/

/-- The works with which a live service leaves the registry of an interpreter. -/
inductive Work.Withdraws (n : Nat) (id : String) (generation : Nat) : Work → Prop where
  | stop : Withdraws n id generation (.stop n)
  | perform {snapshot action} (h : action.duty = .stop id) :
      Withdraws n id generation (.perform n snapshot action)
  | handle {e} (horigin : e.origin = .service id generation)
      (hcompletes : completes e.event.name id = true) : Withdraws n id generation (.handle n e)
  | register {service} (h : service.id = id) : Withdraws n id generation (.register n service)
  | confirmStart {child} : Withdraws n id generation (.confirmStart n child id generation)

theorem lookup_without (hlookup : a.services.lookup id = some v) (key : String) (removed : Nat) :
  (a.without key removed).services.lookup id = some v ∨ (key = id ∧ removed = v.generation)
  := by
  rw [Actor.without]
  split
  · next hlive =>
    by_cases hkey : id = key
    · subst hkey
      rw [Actor.isLive, hlookup, Option.any_some, beq_iff_eq] at hlive
      exact Or.inr ⟨rfl, hlive.symm⟩
    · left
      exact (Association.lookup_erase_of_ne hkey _).trans hlookup
  · exact Or.inl hlookup

/-- A live service of a running interpreter stays live, unless it leaves the registry with the work
that is done. -/
theorem Turn.keeps_or_withdraws (h : Turn n w a ds b es) (hrunning : a.status = .running)
    (hlookup : a.services.lookup id = some v) :
  (b.status = .running ∧ b.services.lookup id = some v) ∨ w.Withdraws n id v.generation
  := by
  have hlike : ∀ {a b : Actor}, a.Like b → a.status = .running → a.services.lookup id = some v →
      b.status = .running ∧ b.services.lookup id = some v := by
    intro a b hlike hrunning hlookup
    rw [hlike.status, hlike.services]
    exact ⟨hrunning, hlookup⟩
  cases h with
  | calm _ h => exact Or.inl (hlike h hrunning hlookup)
  | @wake _ _ c _ _ _ _ h => exact Or.inl (hlike (b := c) h hrunning hlookup)
  | start hnew =>
    rw [hrunning] at hnew
    cases hnew
  | stop => exact Or.inr .stop
  | release h => exact Or.inl (hlike h hrunning hlookup)
  | rest => exact Or.inl ⟨hrunning, hlookup⟩
  | take => exact Or.inl ⟨hrunning, hlookup⟩
  | idle _ h => exact Or.inl (hlike h hrunning hlookup)
  | boot _ _ _ h => exact Or.inl (hlike h hrunning hlookup)
  | unbooted _ _ h => exact Or.inl (hlike h hrunning hlookup)
  | @accept _ _ _ e _ _ _ h =>
    rw [Actor.admitting] at h
    split at h
    · next key removed horigin =>
      split at h
      · next hcompletes =>
        rcases lookup_without hlookup key removed with hstays | ⟨rfl, rfl⟩
        · obtain ⟨services, -, heq⟩ := a.exists_without key removed
          rw [heq] at h hstays
          exact Or.inl (hlike h hrunning hstays)
        · exact Or.inr (.handle horigin hcompletes)
      · exact Or.inl (hlike h hrunning hlookup)
    · exact Or.inl (hlike h hrunning hlookup)
  | forward => exact Or.inl ⟨hrunning, hlookup⟩
  | move => exact Or.inl ⟨hrunning, hlookup⟩
  | @remove _ _ _ action key service _ hduty _ =>
    by_cases hkey : id = key
    · subst hkey
      exact Or.inr (.perform hduty)
    · exact Or.inl ⟨hrunning, (Association.lookup_erase_of_ne hkey _).trans hlookup⟩
  | refuse _ _ h => exact Or.inl (hlike h hrunning hlookup)
  | issue _ _ _ _ _ _ h => exact Or.inl (hlike h hrunning hlookup)
  | @register _ _ service =>
    by_cases hid : id = service.id
    · exact Or.inr (.register hid.symm)
    · exact Or.inl ⟨hrunning, (Association.lookup_insertSorted_of_ne _ _ hid).trans hlookup⟩
  | @retract _ _ _ child key removed h =>
    rcases lookup_without hlookup key removed with hstays | ⟨rfl, rfl⟩
    · obtain ⟨services, -, heq⟩ := a.exists_without key removed
      rw [heq] at h hstays
      exact Or.inl (hlike h hrunning hstays)
    · exact Or.inr .confirmStart

/-! ### Custody -/

/-- Whether a work belongs to what an interpreter does between two envelopes, or to its end. -/
def Work.HoldsUp (n : Nat) (w : Work) : Prop :=
  (w.duty? = some n ∧ w ≠ .pump n) ∨ w = .release n

/-- Whether an interpreter is between two envelopes, and not about to be emptied. -/
def Session.IsSettled (s : Session) (n : Nat) : Prop :=
  ∀ w ∈ s.agenda, ¬ w.HoldsUp n

/-- Whether the registry loses sight of a callback service at a moment: an event that completes it
is handled while it is live, or it is registered at an interpreter that is not running. -/
def Moment.loses (k : Nat) (c : Callback) (m : Moment) : Bool :=
  match m.work with
  | .handle n e =>
    n == c.owner && e.origin == .service c.id c.generation && completes e.event.name c.id &&
      m.before.isRunning n && m.before.isLive n c.id c.generation
  | .register n service => n == c.owner && service.backing == .callback k && !m.before.isRunning n
  | _ => false

theorem Performing.publish_mem (h : Performing n snapshot ds) :
  .publish n snapshot ∈ ds
  := by
  have hstarting : ∀ {ds}, Starting n snapshot ds → .publish n snapshot ∈ ds := by
    intro ds h
    induction h with
    | publish => exact List.mem_cons_self
    | invoke h hlater ih => exact List.mem_cons_of_mem _ ih
  induction h with
  | starting h => exact hstarting h
  | perform h ih => exact List.mem_cons_of_mem _ ih

theorem holdsUp_publish (n : Nat) (snapshot : Snapshot) :
  (Work.publish n snapshot).HoldsUp n
  := Or.inl ⟨rfl, Work.noConfusion⟩

namespace Session

variable {s s₀ t : Session}

/-- Who has a callback service in hand. -/
inductive Custody (k : Nat) (c : Callback) (ms : List Moment) (s : Session) : Prop where
  | disposed (h : c.disposed = true)
  | lost {m : Moment} (hm : m ∈ ms) (h : m.loses k c = true)
  | pending {v : Service} (hmem : .register c.owner v ∈ s.agenda) (hv : v.Fronts k c)
  | live {a : Actor} {v : Service} (ha : s.actor? c.owner = some a) (hrunning : a.status = .running)
      (hlookup : a.services.lookup c.id = some v) (hv : v.Fronts k c)
  /-- The service is stopped before its owner is settled. -/
  | stopping {l r : List Work} {v : Service} {w : Work}
      (hagenda : s.agenda = l ++ .stopService v :: r) (hbacking : v.backing = .callback k)
      (hw : w ∈ r) (hholds : w.HoldsUp c.owner)

/-- More works may come first. -/
theorem Custody.extends (h : Custody k c ms s) (hagenda : ∃ ws, t.agenda = ws ++ s.agenda)
    (hactor : ∀ a, s.actor? c.owner = some a → ∃ b, t.actor? c.owner = some b ∧ a.Like b) :
  Custody k c ms t
  := by
  obtain ⟨ws, hws⟩ := hagenda
  cases h with
  | disposed h => exact .disposed h
  | lost hm h => exact .lost hm h
  | pending hmem hv =>
    apply Custody.pending _ hv
    rw [hws]
    exact List.mem_append_right ws hmem
  | live ha hrunning hlookup hv =>
    obtain ⟨b, hb, hlike⟩ := hactor _ ha
    apply Custody.live hb (hlike.status.trans hrunning) _ hv
    rw [hlike.services]
    exact hlookup
  | @stopping l v r w hs hbacking hw hholds =>
    apply Custody.stopping (l := ws ++ l) _ hbacking hw hholds
    rw [hws, hs, List.append_assoc]

theorem mem_agenda_of_mem_duties (hw : w ∈ s.duties n) :
  w ∈ s.agenda
  := (List.mem_filter.mp hw).1

/-- A service that is displaced is about to be stopped. -/
theorem agenda_register (ha : s.actor? n = some a) {service : Service}
    (hlookup : a.services.lookup service.id = some v) :
  (s.register n service).agenda = .stopService v :: s.agenda
  := by
  rw [Session.register, ha, Option.bind_some, hlookup]
  rfl

/-- A service that leaves the registry is about to be stopped, or an event completes it. -/
theorem custody_of_withdraws (h₀ : s₀.Fresh) (h : Course s₀ ms s) (hm : s.Does m)
    (ha : s.actor? c.owner = some a) (hrunning : a.status = .running)
    (hlookup : a.services.lookup c.id = some v) (hv : v.Fronts k c)
    (hwithdraws : m.work.Withdraws c.owner c.id c.generation) :
  Custody k c (ms ++ [m]) m.after
  := by
  have horderly := h.orderly h₀ ha
  have hregistered := (h.registered h₀ ha).2
  have hmem : (c.id, v) ∈ a.services := Association.mem_of_lookup hlookup
  rw [← hm.actor?] at ha
  -- the snapshot is still to be shown
  have hshown : ∀ {snapshot}, Performing c.owner snapshot (m.before.duties c.owner) →
      m.after.agenda = .stopService v :: m.before.agenda → Custody k c (ms ++ [m]) m.after := by
    intro snapshot hperforming hagenda
    exact .stopping (l := []) hagenda hv.backing (mem_agenda_of_mem_duties hperforming.publish_mem)
      (holdsUp_publish _ _)
  generalize hwork : m.work = w at hwithdraws
  cases hwithdraws with
  | stop =>
    have hopen : a.status ≠ .stopped := by
      rw [hrunning]
      exact Status.noConfusion
    obtain ⟨t, -, heq⟩ := exists_stop_eq ha hopen
    obtain ⟨xs, ys, hservices⟩ := List.append_of_mem hmem
    apply Custody.stopping (l := xs.map (fun e => .stopService e.2))
      (r := ys.map (fun e => .stopService e.2) ++ .release c.owner :: t.agenda) _ hv.backing
      (List.mem_append_right _ List.mem_cons_self) (Or.inr rfl)
    rw [Moment.after, hwork, carryOut, heq, hservices]
    simp
  | perform hduty =>
    rw [hm.duties_eq_cons hwork rfl] at horderly
    apply hshown horderly.stage.of_perform.2
    rw [Moment.after, hwork, carryOut, perform_stop ha hrunning hduty hlookup]
    rfl
  | handle horigin hcompletes =>
    apply Custody.lost (List.mem_append_right ms List.mem_cons_self)
    have hstatus := (isRunning_iff ha).mpr hrunning
    have hlive : m.before.isLive c.owner c.id c.generation = true := by
      rw [isLive, ha, Option.any_some, Actor.isLive, hlookup, Option.any_some, beq_iff_eq]
      exact hv.generation
    rw [Moment.loses, hwork]
    simp [horigin, hcompletes, hstatus, hlive]
  | @register service hid =>
    rw [hm.duties_eq_cons hwork rfl] at horderly
    obtain ⟨snapshot, -, hafter⟩ := horderly.stage.of_register
    have hagenda : m.after.agenda = .stopService v :: m.before.agenda := by
      rw [Moment.after, hwork]
      rw [← hid] at hlookup
      exact agenda_register ha hlookup
    rcases hafter with hstarting | ⟨child, rest, hrest, -, hstarting⟩
    · exact hshown (.starting hstarting) hagenda
    · have hpublish : .publish c.owner snapshot ∈ m.before.duties c.owner := by
        rw [hrest]
        exact List.mem_cons_of_mem _ (Performing.starting hstarting).publish_mem
      exact .stopping (l := []) hagenda hv.backing (mem_agenda_of_mem_duties hpublish)
        (holdsUp_publish _ _)
  | @confirmStart child =>
    have hbacking := (hregistered.confirming child c.id c.generation
      (hm.mem_duties hwork rfl)).1 _ hmem hv.generation
    rw [hv.backing] at hbacking
    cases hbacking

/-- Until it is stopped, a callback service stays in somebody's hands, whatever is done. -/
theorem Custody.step (hcustody : Custody k c ms s) (h₀ : s₀.Fresh) (h : Course s₀ ms s)
    (hm : s.Does m) (hstops : m.work.stops k = false) :
  Custody k c (ms ++ [m]) m.after
  := by
  obtain ⟨hw, hbefore⟩ := hm.unmarked (h.unmarked h₀).1
  obtain ⟨ws, hws, -⟩ := (extends_carryOut hw hbefore.pending).agenda
  cases hcustody with
  | disposed hdisposed => exact .disposed hdisposed
  | lost hmem hloses => exact .lost (List.mem_append_left _ hmem) hloses
  | @pending v hmem hv =>
    rw [hm.agenda] at hmem
    rcases List.mem_cons.mp hmem with hwork | hmem
    · obtain ⟨a, ha⟩ := h.exists_actor h₀ (hm.mem_duties hwork.symm rfl)
      rw [← hm.actor?] at ha
      cases hstatus : m.before.isRunning c.owner with
      | true =>
        have hafter : m.after.actor? c.owner = some { a with
            services := Association.insertSorted v.id v a.services } := by
          rw [Moment.after, ← hwork, carryOut, Session.register, actor?_plan, actor?_modify_self,
            ha]
          rfl
        refine .live hafter ((isRunning_iff ha).mp hstatus) ?_ hv
        rw [← hv.id]
        exact Association.lookup_insertSorted_self _ _ _
      | false =>
        apply Custody.lost (List.mem_append_right ms List.mem_cons_self)
        rw [Moment.loses, ← hwork]
        simp [hv.backing, hstatus]
    · apply Custody.pending _ hv
      rw [Moment.after, hws]
      exact List.mem_append_right ws hmem
  | @live a v ha hrunning hlookup hv =>
    obtain ⟨b, hb, hturn⟩ := h.exists_turn h₀ hm ((hm.actor? _).trans ha)
    rcases hturn.keeps_or_withdraws hrunning hlookup with ⟨hrunning', hlookup'⟩ | hwithdraws
    · exact .live hb hrunning' hlookup' hv
    · rw [hv.generation] at hwithdraws
      exact custody_of_withdraws h₀ h hm ha hrunning hlookup hv hwithdraws
  | @stopping l r v w hagenda hbacking hmem hholds =>
    cases l with
    | nil =>
      rw [hm.agenda] at hagenda
      obtain ⟨hwork, -⟩ := List.cons.inj hagenda
      rw [hwork, Work.stops, hbacking, beq_self_eq_true] at hstops
      cases hstops
    | cons x l =>
      rw [hm.agenda] at hagenda
      have hrest : m.before.agenda = l ++ .stopService v :: r := (List.cons.inj hagenda).2
      apply Custody.stopping (l := ws ++ l) _ hbacking hmem hholds
      rw [Moment.after, hws, hrest, List.append_assoc]

/-- All along a course a callback service that has started is in somebody's hands. -/
theorem Course.custody (h₀ : s₀.Fresh) (h : Course s₀ ms s) (hc : s.callbacks[k]? = some c)
    (hstarted : c.script.failure = none) :
  Custody k c ms s
  := by
  induction h generalizing c with
  | refl =>
    rw [h₀.callbacks] at hc
    cases hc
  | call h hcall ih =>
    rw [hcall.steady.callbacks] at hc
    obtain ⟨ws, hws, -⟩ := hcall.steady.agenda
    exact (ih hc hstarted).extends ⟨ws, hws⟩ (hcall.calm (n := c.owner)).actor
  | @step ms s m h hm ih =>
    cases hbefore : m.before.callbacks[k]? with
    | none =>
      obtain ⟨-, -, hregister⟩ := launches_of_carryOut hbefore hc
      obtain ⟨v, hmem, hv⟩ := hregister hstarted
      exact .pending hmem hv
    | some c' =>
      rw [Moment.after, callback_carryOut hbefore, Option.some.injEq] at hc
      rw [hm.callbacks] at hbefore
      subst hc
      cases hstops : m.work.stops k with
      | true => exact .disposed rfl
      | false =>
        rw [hstops, if_neg Bool.false_ne_true] at hstarted
        exact (ih hbefore hstarted).step h₀ h hm hstops

end Session

/-! ### Services whose owner is exited -/

/-- Whether a generation of an interpreter is over, or is going to be when the actions of the
snapshot are carried out. -/
inductive Actor.Doomed (n : Nat) (id : String) (generation : Nat) (a : Actor) (ds : List Work) :
    Prop where
  | gone (h : a.Over n id generation ds)
  | leaving (hrunning : a.status = .running) (hlive : a.isLive id generation = true)
      (hstop : StopPending n id ds)

theorem Actor.Doomed.like (h : a.Doomed n id generation ds) (hlike : a.Like b) :
  b.Doomed n id generation ds
  := by
  cases h with
  | gone h => exact .gone (h.like hlike)
  | leaving hrunning hlive hstop =>
    apply Actor.Doomed.leaving (hlike.status.trans hrunning) _ hstop
    rw [Actor.isLive, hlike.services]
    exact hlive

/-- After an action that stops an invocation no service of it is live. -/
theorem Turn.isLive_of_stop {action : ResolvedAction}
    (h : Turn n (.perform n snapshot action) a ds b es) (hrunning : a.status = .running)
    (hduty : action.duty = .stop id) :
  b.isLive id generation = false
  := by
  cases h with
  | calm hother => exact absurd rfl hother
  | wake hother => exact absurd rfl hother
  | idle hidle hlike =>
    cases hidle with
    | perform hnone =>
      rw [Actor.isLive, hlike.services, hnone id hduty hrunning]
      rfl
  | remove _ hstop _ =>
    rw [hduty, Duty.stop.injEq] at hstop
    subst hstop
    rw [Actor.isLive, Association.lookup_erase_self]
    rfl

/-- What is doomed stays doomed, until it is over. -/
theorem Actor.Doomed.turn {is : List (String × Nat)} (h : a.Doomed n id generation ds)
    (horderly : a.Orderly n ds) (hregistered : a.Registered n is ds)
    (hturn : Turn n w a ds b es) :
  b.Doomed n id generation es
  := by
  cases h with
  | gone h => exact .gone (h.turn horderly hturn)
  | leaving hrunning hlive hstop =>
    cases hb : b.isLive id generation with
    | false => exact .gone (hregistered.over horderly hturn hlive hb)
    | true =>
      have hstays : b.status = .running := by
        rcases hturn.status with hsame | ⟨hnew, -⟩ | ⟨-, hnone⟩
        · exact hsame.trans hrunning
        · rw [hrunning] at hnew
          cases hnew
        · rw [Actor.isLive, hnone] at hb
          cases hb
      obtain ⟨snapshot, action, hmem, hduty⟩ := hstop
      rcases hturn.mem_or_eq hmem with hmem | rfl
      · exact .leaving hstays hb ⟨snapshot, action, hmem, hduty⟩
      · rw [hturn.isLive_of_stop hrunning hduty] at hb
        cases hb

namespace Session

variable {s s₀ : Session}

/-- A live service is doomed when the owner of its invocation is exited. -/
theorem doomed_of_exits (h₀ : s₀.Fresh) (h : Course s₀ ms s) (hm : s.Does m)
    (ha : m.before.actor? n = some a) (hrunning : a.status = .running)
    (hlive : a.isLive id generation = true) (hexits : m.ExitsOwner n id) :
  ∃ b, m.after.actor? n = some b ∧ b.Doomed n id generation (m.after.duties n)
  := by
  obtain ⟨a', i, snapshot, event, next, steps, hwork, ha', hi, hnext, hmoves, x, hx, hstep⟩ :=
    hexits
  rw [ha, Option.some.injEq] at ha'
  subst ha'
  have hbracketed := (h.orderly h₀ ((hm.actor? n).symm.trans ha)).bracketed
  obtain ⟨action, haction, hduty⟩ := hmoves.exists_stop hx hstep (hbracketed id i hi).2.2
  obtain ⟨b, hb, hturn⟩ := h.exists_turn h₀ hm ha
  refine ⟨b, hb, ?_⟩
  rw [hwork, hm.duties_eq_cons hwork rfl] at hturn
  generalize m.after.duties n = es at hturn ⊢
  cases hturn with
  | calm hother => exact absurd rfl hother
  | wake hother => exact absurd rfl hother
  | idle hidle =>
    cases hidle with
    | react hnone => exact absurd hnext (hnone next)
  | move hmoved =>
    rw [hnext, Except.ok.injEq] at hmoved
    subst hmoved
    exact .leaving hrunning hlive ⟨next, action, perform_mem_committed haction, hduty⟩

/-- At the end of a run every interpreter is settled. -/
theorem isSettled_of_agenda_eq_nil (n : Nat) (h : s.agenda = []) :
  s.IsSettled n
  := by
  rw [IsSettled, h]
  exact List.forall_mem_nil _

/-- An interpreter that is settled has no action to carry out. -/
theorem IsSettled.stopPending (h : s.IsSettled n) :
  ¬ StopPending n id (s.duties n)
  := by
  rintro ⟨snapshot, action, hmem, -⟩
  exact h _ (mem_agenda_of_mem_duties hmem) (Or.inl ⟨rfl, Work.noConfusion⟩)

/-- Let a callback service with a disposer have started.  The disposer is run once if the gate is
closed, and not at all before.  Unless the registry lost sight of the service, the gate is closed
whenever the interpreter is settled, or else the service is live at the running interpreter, where
the owner of the invocation is active and was not exited since the service is live. -/
theorem Course.disposed_once (h₀ : s₀.Fresh) (h : Course s₀ ms s) (hc : s.callbacks[k]? = some c)
    (hstarted : c.script.failure = none) (hdispose : c.script.dispose.isSome = true) :
  ms.countP (Moment.disposes k) = (if c.disposed then 1 else 0) ∧
  ((∀ m ∈ ms, m.loses k c = false) → s.IsSettled c.owner →
    c.disposed = true ∨ ∃ a service, s.actor? c.owner = some a ∧ a.status = .running ∧
      a.services.lookup c.id = some service ∧ service.Fronts k c ∧ a.Owns c.id ∧
      ∀ xs m ys, ms = xs ++ m :: ys → m.before.isLive c.owner c.id c.generation = true →
        ¬ m.ExitsOwner c.owner c.id)
  := by
  constructor
  · obtain ⟨-, hcount⟩ := (h.disposals h₀ k).2 c hc
    have hgiven : c.given.isSome = true := by
      rw [Callback.given, hstarted]
      exact hdispose
    rw [hcount, hgiven, Bool.and_true]
  intro hkept hsettled
  cases h.custody h₀ hc hstarted with
  | disposed hdisposed => exact Or.inl hdisposed
  | lost hm hloses =>
    rw [hkept _ hm] at hloses
    cases hloses
  | pending hmem => exact absurd (Or.inl ⟨rfl, Work.noConfusion⟩) (hsettled _ hmem)
  | stopping hagenda hbacking hw hholds =>
    refine absurd hholds (hsettled _ ?_)
    rw [hagenda]
    exact List.mem_append_right _ (List.mem_cons_of_mem _ hw)
  | @live a v ha hrunning hlookup hv =>
    have hregistered := (h.registered h₀ ha).2
    have hlive : a.isLive c.id c.generation = true := by
      rw [Actor.isLive, hlookup, Option.any_some, beq_iff_eq]
      exact hv.generation
    have howns := (hregistered.owned hrunning _ (Association.mem_of_lookup hlookup)).resolve_right
      hsettled.stopPending
    refine Or.inr ⟨a, v, ha, hrunning, hlookup, hv, howns, ?_⟩
    rintro xs m ys rfl hbefore hexits
    obtain ⟨a₁, ha₁, hlive₁⟩ := (Option.any_eq_true _ _).mp hbefore
    have hduty : m.work.duty? = some c.owner := by
      obtain ⟨_, _, _, _, _, _, hwork, -⟩ := hexits
      rw [hwork]
      rfl
    obtain ⟨t, hcourse, hdoes, -⟩ := h.split
    have hstarted₁ := hcourse.started_of_duty h₀ hdoes ha₁ hduty
    have hrunning₁ := h.running_at h₀ ha₁ hstarted₁ ha hrunning
    obtain ⟨b, hb, hdoomed⟩ := doomed_of_exits h₀ hcourse hdoes ha₁ hrunning₁ hlive₁ hexits
    have hdoomed := h.induction_since
      (P := fun _ a ds => a.Doomed c.owner c.id c.generation ds)
      (fun _ _ _ _ hdoomed hlike => hdoomed.like hlike)
      (fun _ _ _ _ _ hcourse _ hdoomed ha _ hturn =>
        hdoomed.turn (hcourse.orderly h₀ ha) (hcourse.registered h₀ ha).2 hturn)
      h₀ hb hdoomed ha
    cases hdoomed with
    | gone hover =>
      rw [hover.dead] at hlive
      cases hlive
    | leaving _ _ hstop => exact hsettled.stopPending hstop

/-- A script that reports a failure after its start, and has a disposer. -/
def reporting : Script where
  start := [.fail .null]
  dispose := some []

theorem disposed_once_reinvoking :
  ∃ chart, Chart.ofDocument reinvoking = .ok chart ∧
    ∃ ms s c, (ofScript chart reporting).Fresh ∧ Course (ofScript chart reporting) ms s ∧
      s.callbacks[0]? = some c ∧ c.script.failure = none ∧ c.script.dispose.isSome = true ∧
      (∀ m ∈ ms, m.loses 0 c = false) ∧ s.IsSettled c.owner ∧ c.disposed = true ∧
      ms.countP (Moment.disposes 0) = 1
  := by
  obtain ⟨chart, h, hp⟩ := Outcome.exists_of_any (x := Chart.ofDocument reinvoking)
    (p := fun chart =>
      let run := (ofScript chart reporting).conduct 50 [.send root (.bare "GO"), .start root]
      run.2.agenda.isEmpty = true ∧ run.2.isLive root "x" 1 = false ∧
        run.2.callbacks[0]?.any (fun c => c.script.failure.isNone = true ∧
          c.script.dispose.isSome = true ∧ c.owner = root ∧ c.id = "x" ∧ c.generation = 1 ∧
          ∀ m ∈ run.1, m.loses 0 c = false))
    (by decide +kernel)
  obtain ⟨hagenda, hdead, hc⟩ := of_decide_eq_true hp
  obtain ⟨c, hc, hfacts⟩ := (Option.any_eq_true _ _).mp hc
  obtain ⟨hstarted, hdispose, howner, hid, hgeneration, hkept⟩ := of_decide_eq_true hfacts
  have hstarted := Option.isNone_iff_eq_none.mp hstarted
  have h₀ : (ofScript chart reporting).Fresh := fresh_ofScript ⟨reinvoking, h⟩ reporting
  have hcourse := course_conduct 50 (ofScript chart reporting)
    [.send root (.bare "GO"), .start root] (by decide)
  have hsettled := isSettled_of_agenda_eq_nil c.owner (List.isEmpty_iff.mp hagenda)
  obtain ⟨hcount, hdisposed⟩ := hcourse.disposed_once h₀ hc hstarted hdispose
  have hdisposed : c.disposed = true := by
    refine (hdisposed hkept hsettled).resolve_right ?_
    rintro ⟨a, service, ha, -, hlookup, hfronts, -⟩
    rw [howner] at ha
    rw [hid] at hlookup
    rw [isLive, ha, Option.any_some, Actor.isLive, hlookup, Option.any_some, hfronts.generation,
      hgeneration] at hdead
    cases hdead
  rw [hdisposed] at hcount
  exact ⟨chart, h, _, _, c, h₀, hcourse, hc, hstarted, hdispose, hkept, hsettled, hdisposed, hcount⟩

/-- A machine that invokes a callback service, and leaves the owner when the service fails. -/
def failover : Document.Machine where
  root := .node { initial := some "a" }
    [("a", .node { invoke := [{ id := some "x", src := "callback",
                                onError := [{ targets := ["b"] }] }] } []),
     ("b", .node {} [])]

/-- A service that reports a failure is never disposed of, although its owner is exited. -/
theorem not_disposed_failover :
  ∃ chart, Chart.ofDocument failover = .ok chart ∧
    ∃ xs m ys s c, (ofScript chart reporting).Fresh ∧
      Course (ofScript chart reporting) (xs ++ m :: ys) s ∧ s.agenda = [] ∧
      s.callbacks[0]? = some c ∧ c.script.failure = none ∧ c.script.dispose.isSome = true ∧
      issued root xs = [("x", 1)] ∧ c.owner = root ∧ c.id = "x" ∧ c.generation = 1 ∧
      m.ExitsOwner root "x" ∧ c.disposed = false ∧
      (xs ++ m :: ys).countP (Moment.disposes 0) = 0
  := by
  obtain ⟨chart, h, hp⟩ := Outcome.exists_of_any (x := Chart.ofDocument failover)
    (p := fun chart =>
      let run := (ofScript chart reporting).conduct 50 [.start root]
      run.2.agenda.isEmpty = true ∧ run.1.countP (Moment.disposes 0) = 0 ∧
        issued root (run.1.take 13) = [("x", 1)] ∧
        run.1[13]?.any (fun m => m.leavesOwner root "x") = true ∧
        run.2.callbacks[0]?.any (fun c => c.script.failure.isNone = true ∧
          c.script.dispose.isSome = true ∧ c.owner = root ∧ c.id = "x" ∧ c.generation = 1 ∧
          c.disposed = false))
    (by decide +kernel)
  obtain ⟨hagenda, hcount, hissued, hm, hc⟩ := of_decide_eq_true hp
  obtain ⟨m, hm, hleaves⟩ := (Option.any_eq_true _ _).mp hm
  obtain ⟨c, hc, hfacts⟩ := (Option.any_eq_true _ _).mp hc
  obtain ⟨hstarted, hdispose, howner, hid, hgeneration, hopen⟩ := of_decide_eq_true hfacts
  have hcourse := course_conduct 50 (ofScript chart reporting) [.start root] (by decide)
  rw [eq_take_append_cons_drop hm] at hcourse hcount
  exact ⟨chart, h, _, m, _, _, c, fresh_ofScript ⟨failover, h⟩ reporting, hcourse,
    List.isEmpty_iff.mp hagenda, hc, Option.isNone_iff_eq_none.mp hstarted, hdispose, hissued,
    howner, hid, hgeneration, exitsOwner_of_leavesOwner hleaves, hopen, hcount⟩

end Session

end Statechart
