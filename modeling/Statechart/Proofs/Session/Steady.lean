import Statechart.Proofs.Session.Course

/-!
# What only a few works do

Callback services change when one of them is started, and when a service is stopped; an
interpreter is emptied after it was stopped.  All other works leave the callback services as they
are, and ask for no interpreter to be emptied (`steady_carryOut`).  Hence an interpreter that is
going to be emptied is stopped (`Course.halted`).
-/

namespace Statechart

/-- Whether a work empties an interpreter. -/
def Work.releases : Work → Bool
  | .release _ => true
  | _ => false

/-- Whether a work leaves the callback services as they are and asks for no interpreter to be
emptied. -/
def Work.isSteady : Work → Bool
  | .invoke .. => false
  | .stop _ => false
  | .stopService _ => false
  | _ => true

/-- The disposer that a callback service starts with; one that fails to start has none. -/
def Callback.given (c : Callback) : Option (List Operation) :=
  if c.script.failure.isSome then none else c.script.dispose

/-- Whether a service is the one that a callback service was started as. -/
structure Service.Fronts (k : Nat) (c : Callback) (service : Service) : Prop where
  backing : service.backing = .callback k
  id : service.id = c.id
  generation : service.generation = c.generation

namespace Session

/-- Whether the callback services stay as they are, and further works empty no interpreter. -/
structure Steady (s t : Session) : Prop where
  callbacks : t.callbacks = s.callbacks
  agenda : ∃ ws, t.agenda = ws ++ s.agenda ∧ ∀ w ∈ ws, w.releases = false

variable {s s₀ t u : Session} {n : Nat} {w : Work} {ws : List Work} {ms : List Moment} {m : Moment}
  {a : Actor}

theorem Steady.of_eq (hcallbacks : t.callbacks = s.callbacks) (hagenda : t.agenda = s.agenda) :
  Steady s t
  := ⟨hcallbacks, [], hagenda, List.forall_mem_nil _⟩

theorem Steady.refl (s : Session) :
  Steady s s
  := .of_eq rfl rfl

theorem Steady.trans (h : Steady s t) (h' : Steady t u) :
  Steady s u
  := by
  obtain ⟨ws, hws, hreleases⟩ := h.agenda
  obtain ⟨ws', hws', hreleases'⟩ := h'.agenda
  refine ⟨h'.callbacks.trans h.callbacks, ws' ++ ws, ?_, ?_⟩
  · rw [hws', hws, List.append_assoc]
  · exact List.forall_mem_append.mpr ⟨hreleases', hreleases⟩

/-- What is neither a callback service nor a work may differ before. -/
theorem Steady.of_callbacks (h : Steady s t) (hcallbacks : s.callbacks = u.callbacks)
    (hagenda : s.agenda = u.agenda) :
  Steady u t
  := (Steady.of_eq hcallbacks hagenda).trans h

theorem Steady.plan (h : Steady s t) (hws : ∀ w ∈ ws, w.releases = false) :
  Steady s (t.plan ws)
  := h.trans ⟨rfl, ws, rfl, hws⟩

theorem Steady.modify (h : Steady s t) (n : Nat) (f : Actor → Actor) :
  Steady s (t.modify n f)
  := h.trans (.of_eq rfl rfl)

theorem Steady.observe (h : Steady s t) (o : Observation) :
  Steady s (t.observe o)
  := h.trans (.of_eq rfl rfl)

theorem Steady.diagnose (h : Steady s t) (d : Diagnostic) :
  Steady s (t.diagnose d)
  := h.observe _

/-! ### Mailboxes and services -/

theorem steady_drain (s : Session) (n : Nat) :
  Steady s (s.drain n)
  := by
  rw [drain]
  split
  · exact .refl s
  · exact ((Steady.refl s).modify n _).plan (List.forall_mem_singleton.mpr rfl)

theorem steady_enqueue (s : Session) (n : Nat) (e : Envelope) :
  Steady s (s.enqueue n e)
  := by
  rw [enqueue]
  split
  · exact ((Steady.refl s).modify n _).trans (steady_drain _ n)
  · exact .refl s

theorem steady_post (s : Session) (n : Nat) (e : Envelope) :
  Steady s (s.post n e)
  := by
  rw [post]
  split
  · exact steady_enqueue s n e
  · exact .refl s

theorem steady_send (s : Session) (n : Nat) (event : Event) :
  Steady s (s.send n event)
  := by
  rw [send]
  split
  · exact .refl s
  · split
    · exact steady_enqueue s n _
    · split
      · exact (Steady.refl s).modify n _
      · exact (Steady.refl s).diagnose _
    · exact (Steady.refl s).diagnose _

theorem steady_start (s : Session) (n : Nat) :
  Steady s (s.start n)
  := by
  rw [start]
  split
  · exact (Steady.refl s).diagnose _
  · exact ((Steady.refl s).modify n _).trans (steady_drain _ n)

theorem releases_operate {k : Nat} {operations : List Operation} :
  ∀ w ∈ operations.map (Work.operate k), w.releases = false
  := by
  intro w hw
  obtain ⟨operation, -, rfl⟩ := List.mem_map.mp hw
  rfl

theorem steady_deliver (s : Session) (service : Service) (event : Event) :
  Steady s (s.deliver service event)
  := by
  rw [deliver]
  split
  · exact steady_send s _ event
  · exact .refl s
  · split
    · exact .refl s
    · split
      · exact ((Steady.refl s).observe _).plan releases_operate
      · exact .refl s

theorem steady_operate (s : Session) (k : Nat) (operation : Operation) :
  Steady s (s.operate k operation)
  := by
  rw [operate]
  split
  · exact .refl s
  · split
    · split
      · exact (Steady.refl s).observe _
      · exact (Steady.refl s).plan (by simp [Work.releases])
    · split
      · exact (Steady.refl s).observe _
      · exact (Steady.refl s).plan (by simp [Work.releases])
    · split
      · exact .refl s
      · exact .of_eq rfl rfl

theorem steady_register (s : Session) (n : Nat) (service : Service) :
  Steady s (s.register n service)
  := by
  apply ((Steady.refl s).modify n _).plan
  intro w hw
  obtain ⟨v, -, rfl⟩ := List.mem_map.mp hw
  rfl

theorem steady_startFailed (s : Session) (n : Nat) (id : String) (data : Json) :
  Steady s (s.startFailed n id data)
  := (Steady.refl s).modify n _

/-! ### Actions -/

theorem steady_cancelSend (s : Session) (n : Nat) (id : SendId) :
  Steady s (s.cancelSend n id)
  := by
  rw [cancelSend]
  split
  · exact .refl s
  · exact .of_eq rfl rfl

theorem steady_route (s : Session) (n : Nat) (destination : Destination) (event : Event) :
  Steady s (s.route n destination event)
  := by
  cases destination with
  | myself => exact (Steady.refl s).modify n _
  | parent =>
    rw [route]
    split
    · exact (Steady.refl s).plan (List.forall_mem_singleton.mpr rfl)
    · exact (Steady.refl s).diagnose _
  | child id =>
    rw [route]
    split
    · exact (Steady.refl s).plan (List.forall_mem_singleton.mpr rfl)
    · exact (Steady.refl s).diagnose _

theorem steady_dispatch (s : Session) (n : Nat) (send : Send) :
  Steady s (s.dispatch n send)
  := by
  rw [dispatch]
  split
  · rw [armSend]
    split
    · exact .refl s
    · have hcancelled := fun f id =>
        ((Steady.refl s).modify n f).trans (steady_cancelSend _ n id)
      dsimp only
      split
      · exact (hcancelled _ _).diagnose _
      · exact (hcancelled _ _).trans (.of_eq rfl rfl)
  · exact steady_route s n _ _

theorem steady_log (s : Session) (n : Nat) (snapshot : Snapshot) (trigger : Event)
    (expression : Option Expression) (label : Option String) :
  Steady s (s.log n snapshot trigger expression label)
  := by
  cases expression with
  | none => exact (Steady.refl s).observe _
  | some e =>
    rw [log]
    split
    · exact (Steady.refl s).observe _
    · exact .refl s

theorem steady_perform (s : Session) (n : Nat) (snapshot : Snapshot) (action : ResolvedAction) :
  Steady s (s.perform n snapshot action)
  := by
  rw [perform]
  split
  · exact .refl s
  · split
    · exact .refl s
    · apply ((Steady.refl s).observe _).plan
      intro w hw
      obtain ⟨request, -, rfl⟩ := List.mem_map.mp hw
      cases request <;> rfl
    · exact steady_dispatch s n _
    · exact steady_log s n snapshot _ _ _
    · exact steady_cancelSend s n _
    · split
      · exact .refl s
      · exact ((Steady.refl s).modify n _).plan (List.forall_mem_singleton.mpr rfl)
    · exact (Steady.refl s).diagnose _

/-! ### Snapshots -/

theorem steady_commit (s : Session) (n : Nat) (snapshot : Snapshot) :
  Steady s (s.commit n snapshot)
  := by
  apply ((Steady.refl s).modify n _).plan
  intro w hw
  rw [List.mem_append, List.mem_append] at hw
  rcases hw with (hw | hw) | hw
  · obtain ⟨action, -, rfl⟩ := List.mem_map.mp hw
    rfl
  · obtain ⟨action, later, rfl, -⟩ := duty?_of_mem_invocations hw
    rfl
  · rw [List.mem_singleton.mp hw]
    rfl

theorem steady_fail (s : Session) (n : Nat) (fault : Fault)
    (hws : ∀ w ∈ ws, w.releases = false) :
  Steady s (s.fail n fault ws)
  := ((Steady.refl s).diagnose _).plan (List.forall_mem_cons.mpr ⟨rfl, hws⟩)

theorem steady_boot (s : Session) (n : Nat) :
  Steady s (s.boot n)
  := by
  rw [boot]
  split
  · exact .refl s
  · have hresumed := (Steady.refl s).modify n (fun a => { a with resume := none })
    dsimp only
    split
    · exact hresumed.trans (steady_commit _ n _)
    · exact hresumed.trans (steady_fail _ n _ (List.forall_mem_singleton.mpr rfl))

theorem steady_macrostep (s : Session) (n : Nat) (event : Event) (origin : Origin) :
  Steady s (s.macrostep n event origin)
  := by
  rw [macrostep]
  split
  · exact .refl s
  · split
    · exact .refl s
    · apply (Steady.refl s).plan
      intro w hw
      rcases List.mem_append.mp hw with hw | hw
      · obtain ⟨service, -, rfl⟩ := List.mem_map.mp hw
        rfl
      · rw [List.mem_singleton.mp hw]
        rfl

theorem steady_react (s : Session) (n : Nat) (snapshot : Snapshot) (event : Event) :
  Steady s (s.react n snapshot event)
  := by
  rw [react]
  split
  · exact .refl s
  · split
    · exact steady_commit s n _
    · exact steady_fail s n _ (List.forall_mem_nil _)

theorem steady_handle (s : Session) (n : Nat) (e : Envelope) :
  Steady s (s.handle n e)
  := by
  have hmacrostep : ∀ {t}, Steady s t → Steady s (t.plan [.macrostep n e.event e.origin]) :=
    fun h => h.plan (List.forall_mem_singleton.mpr rfl)
  rw [handle]
  split
  · exact .refl s
  · split
    · exact steady_boot s n
    · exact hmacrostep (.refl s)
    · split
      · dsimp only
        split
        · exact hmacrostep ((Steady.refl s).modify n _)
        · exact hmacrostep (.refl s)
      · exact .refl s
    · split
      · exact .refl s
      · split
        · have herased := (Steady.refl s).modify n
          dsimp only
          split
          · exact hmacrostep (herased _)
          · exact (herased _).trans (steady_route _ n _ _)
        · exact .refl s

theorem steady_pump (s : Session) (n : Nat) :
  Steady s (s.pump n)
  := by
  rw [pump]
  split
  · exact .refl s
  · split
    · exact (Steady.refl s).modify n _
    · exact ((Steady.refl s).modify n _).plan (by simp [Work.releases])

theorem steady_foldl_observe {α : Type} (f : α → Observation) (xs : List α) (s : Session) :
  Steady s (xs.foldl (fun s x => s.observe (f x)) s)
  := by
  induction xs generalizing s with
  | nil => exact .refl s
  | cons x xs ih => exact ((Steady.refl s).observe (f x)).trans (ih _)

theorem steady_publish (s : Session) (n : Nat) (snapshot : Snapshot) :
  Steady s (s.publish n snapshot)
  := by
  rw [publish]
  split
  · exact .refl s
  · next a _ =>
    split
    · exact .refl s
    · have hshown := steady_foldl_observe (fun l => .published l snapshot) a.listeners.toList s
      dsimp only
      split
      · exact hshown
      · apply Steady.plan
        · split
          · exact hshown.observe _
          · exact hshown
        · intro w hw
          rcases List.mem_append.mp hw with hw | hw
          · obtain ⟨link, -, rfl⟩ := List.mem_map.mp hw
            rfl
          · rw [List.mem_singleton.mp hw]
            rfl

theorem steady_confirmStart (s : Session) (n child : Nat) (id : String) (generation : Nat) :
  Steady s (s.confirmStart n child id generation)
  := by
  rw [confirmStart]
  split
  · exact .refl s
  · exact (((Steady.refl s).modify child _).modify n _).trans (steady_startFailed _ n _ _)

/-! ### Works -/

/-- All works are steady but the start of an invocation, the stop of an interpreter and the stop
of a service. -/
theorem steady_carryOut (h : w.isSteady = true) :
  Steady s (s.carryOut w)
  := by
  cases w with
  | start n => exact steady_start s n
  | send n event => exact steady_send s n event
  | post n e => exact steady_post s n e
  | pump n => exact steady_pump s n
  | handle n e => exact steady_handle s n e
  | macrostep n event origin => exact steady_macrostep s n event origin
  | react n snapshot event => exact steady_react s n snapshot event
  | perform n snapshot action => exact steady_perform s n snapshot action
  | invoke n snapshot action later => cases h
  | publish n snapshot => exact steady_publish s n snapshot
  | stop n => cases h
  | release n => exact (Steady.refl s).modify n _
  | recordFault n fault => exact (Steady.refl s).modify n _
  | confirmStart n child id generation => exact steady_confirmStart s n child id generation
  | register n service => exact steady_register s n service
  | deliver service event => exact steady_deliver s service event
  | stopService service => cases h
  | operate k operation => exact steady_operate s k operation
  | noteSent k event =>
    rw [carryOut]
    split
    · exact .refl s
    · exact (Steady.refl s).observe _
  | noteFailed k =>
    rw [carryOut]
    split
    · exact .refl s
    · exact (Steady.refl s).observe _
  | unsubscribe listener =>
    rw [carryOut, unsubscribe]
    split
    · exact .refl s
    · exact .of_eq rfl rfl
  | advance target =>
    rw [carryOut, advance]
    split
    · exact .of_eq rfl rfl
    · dsimp only
      split
      · exact Steady.plan (.of_eq rfl rfl) (List.forall_mem_singleton.mpr rfl)
      · exact Steady.plan (.of_eq rfl rfl) (by simp [Work.releases])
  | ring alarm =>
    rw [carryOut]
    cases alarm with
    | post n e => exact steady_post s n e
    | repeated k millis event times => exact (Steady.refl s).plan (by simp [Work.releases])
  | settle =>
    rw [carryOut, settle]
    dsimp only
    split
    · exact .refl s
    · exact Steady.plan (.of_eq rfl rfl) (by simp [Work.releases])

/-! ### Callback services -/

/-- Whether a callback service was just started, as the one of a number. -/
structure Launches (k : Nat) (t : Session) (c : Callback) : Prop where
  isOpen : c.disposed = false
  disposer : c.disposer = c.given
  /-- It is about to be registered, unless it fails to start. -/
  register : c.script.failure = none → ∃ service : Service,
    .register c.owner service ∈ t.agenda ∧ service.Fronts k c

theorem steady_startCallback (s : Session) (n : Nat) (service : Backing → Service) (script : Script)
    (input : Json) (trigger : Event) (hservice : ∀ backing, (service backing).backing = backing) :
  ∃ c, Steady { s with callbacks := s.callbacks ++ [c] }
      (s.startCallback n service script input trigger) ∧
    Launches s.callbacks.length (s.startCallback n service script input trigger) c
  := by
  rw [startCallback]
  generalize hown : service (.callback s.callbacks.length) = own
  have hbacking : own.backing = .callback s.callbacks.length := hown ▸ hservice _
  refine ⟨{
    src := own.src
    id := own.id
    generation := own.generation
    owner := n
    script
    disposer := if script.failure.isSome then none else script.dispose }, ?_, rfl, rfl, ?_⟩
  · cases script.failure with
    | some data =>
      apply Steady.trans _ (steady_startFailed _ n _ _)
      exact (Steady.refl _).observe _
    | none =>
      apply ((Steady.refl _).observe _).plan
      exact List.forall_mem_append.mpr ⟨releases_operate, List.forall_mem_singleton.mpr rfl⟩
  · intro hnone
    refine ⟨own, ?_, ⟨hbacking, rfl, rfl⟩⟩
    dsimp only at hnone ⊢
    rw [hnone]
    apply List.mem_append_left
    exact List.mem_append_right _ List.mem_cons_self

/-- The start of an invocation starts one callback service at most. -/
theorem steady_invoke (s : Session) (n : Nat) (snapshot : Snapshot) (action : ResolvedAction)
    (later : List ResolvedAction) :
  Steady s (s.invoke n snapshot action later) ∨
    ∃ c, Steady { s with callbacks := s.callbacks ++ [c] } (s.invoke n snapshot action later) ∧
      Launches s.callbacks.length (s.invoke n snapshot action later) c
  := by
  rw [invoke]
  split
  · split
    · exact Or.inl (.refl s)
    · rw [startService]
      split
      · next source a hsource ha =>
        have hissued := (Steady.refl s).modify n
          (fun b => { b with generation := a.generation + 1 })
        dsimp only
        split
        · left
          rw [startMachine]
          apply Steady.plan
          · exact .of_eq rfl rfl
          · simp [Work.releases]
        · left
          rw [startTask]
          dsimp only
          split
          · exact hissued.trans (steady_startFailed _ n _ _)
          · apply Steady.plan
            · apply Steady.observe
              exact .of_eq rfl rfl
            · exact List.forall_mem_singleton.mpr rfl
        · right
          obtain ⟨c, hsteady, hlaunches⟩ := steady_startCallback
            (s.modify n (fun b => { b with generation := a.generation + 1 })) n
            (Service.mk _ _ _ _) _ _ _ (fun _ => rfl)
          exact ⟨c, hsteady.of_callbacks rfl rfl, hlaunches⟩
      · exact Or.inl ((Steady.refl s).diagnose _)
  · exact Or.inl (.refl s)

/-- The callback service with its gate closed and its disposer taken. -/
def closed (c : Callback) : Callback :=
  { c with disposed := true, disposer := none }

/-- The stop of a service closes the gate of the callback service behind it, if there is one. -/
theorem steady_stopService (s : Session) (service : Service) :
  Steady s (s.stopService service) ∧ (∀ k, service.backing ≠ .callback k) ∨
    ∃ k, service.backing = .callback k ∧
      Steady (s.modifyCallback k closed) (s.stopService service)
  := by
  rw [stopService]
  split
  · next hbacking =>
    exact Or.inl ⟨(Steady.refl s).plan (List.forall_mem_singleton.mpr rfl), by simp [hbacking]⟩
  · next hbacking => exact Or.inl ⟨.of_eq rfl rfl, by simp [hbacking]⟩
  · next k hbacking =>
    refine Or.inr ⟨k, hbacking, ?_⟩
    split
    · next hnone =>
      refine .of_eq ?_ rfl
      rw [modifyCallback, List.modify_eq_self]
      exact List.getElem?_eq_none_iff.mp hnone
    · dsimp only
      split
      · exact .refl _
      · exact Steady.plan (Steady.observe (.refl _) _) releases_operate

/-! ### Interpreters that are going to be emptied -/

theorem steady_foldl_cancelSend (timers : List (SendId × DelayedSend)) (s : Session) (n : Nat) :
  Steady s (timers.foldl (fun s t => s.cancelSend n t.1) s)
  := by
  induction timers generalizing s with
  | nil => exact .refl s
  | cons t timers ih => exact (steady_cancelSend s n t.1).trans (ih _)

/-- An interpreter that is stopped has its services stopped, and is emptied then. -/
theorem exists_stop_eq (ha : s.actor? n = some a) (hstatus : a.status ≠ .stopped) :
  ∃ t, Steady s t ∧
    s.stop n = t.plan (a.services.map (fun e => .stopService e.2) ++ [.release n])
  := by
  rw [stop, ha]
  dsimp only
  rw [if_neg hstatus]
  refine ⟨_, ?_, rfl⟩
  exact (((Steady.refl s).modify n _).trans (steady_foldl_cancelSend a.timers _ n)).modify n _

theorem exists_stopped (ha : s.actor? n = some a) :
  ∃ b, (s.stop n).actor? n = some b ∧ b.status = .stopped
  := by
  rw [stop, ha]
  dsimp only
  split
  · next hstatus => exact ⟨a, ha, hstatus⟩
  · obtain ⟨b, hb, hlike⟩ := (calm_foldl_cancelSend (n := n) a.timers
      (s.modify n (fun a => { a with status := .stopped })) n).actor
        { a with status := .stopped } (by rw [actor?_modify_self, ha]; rfl)
    rw [actor?_plan, actor?_modify_self, hb]
    exact ⟨_, rfl, hlike.status⟩

/-- Only the stop of an interpreter asks for it to be emptied. -/
theorem of_release_mem (h : .release n ∈ (s.carryOut w).agenda) :
  .release n ∈ s.agenda ∨ w = .stop n
  := by
  have hsteady : ∀ {t}, Steady t (s.carryOut w) → t.agenda = s.agenda →
      .release n ∈ s.agenda ∨ w = .stop n := by
    intro t hsteady ht
    obtain ⟨ws, hws, hreleases⟩ := hsteady.agenda
    rw [hws, ht] at h
    rcases List.mem_append.mp h with hmem | hmem
    · cases hreleases _ hmem
    · exact Or.inl hmem
  cases w with
  | invoke k snapshot action later =>
    rcases steady_invoke s k snapshot action later with hsame | ⟨c, hlaunched, -⟩
    · exact hsteady hsame rfl
    · exact hsteady hlaunched rfl
  | stopService service =>
    rcases steady_stopService s service with ⟨hsame, -⟩ | ⟨k, -, hclosed⟩
    · exact hsteady hsame rfl
    · exact hsteady hclosed rfl
  | stop k =>
    cases ha : s.actor? k with
    | none =>
      rw [carryOut, stop, ha] at h
      exact Or.inl h
    | some a =>
      by_cases hstatus : a.status = .stopped
      · rw [carryOut, stop, ha] at h
        dsimp only at h
        rw [if_pos hstatus] at h
        exact Or.inl h
      · obtain ⟨t, ht, heq⟩ := exists_stop_eq ha hstatus
        obtain ⟨ws, hws, hreleases⟩ := ht.agenda
        rw [carryOut, heq, agenda_plan, hws, List.mem_append, List.mem_append, List.mem_append] at h
        rcases h with (hmem | hmem) | hmem | hmem
        · obtain ⟨e, -, he⟩ := List.mem_map.mp hmem
          cases he
        · cases List.mem_singleton.mp hmem
          exact Or.inr rfl
        · cases hreleases _ hmem
        · exact Or.inl hmem
  | _ => exact hsteady (steady_carryOut rfl) rfl

theorem Called.steady (h : s.Called t) :
  Steady s t
  := by
  cases h with
  | @work w h =>
    have hw : w.releases = false := by
      cases w <;> first | rfl | cases h
    exact (Steady.refl s).plan (List.forall_mem_singleton.mpr hw)
  | emit h =>
    rw [emitting]
    split
    · exact .refl s
    · exact (Steady.refl s).plan (List.forall_mem_singleton.mpr rfl)
  | @resume n persisted => exact (Steady.refl s).modify n _
  | configure settings => exact (Steady.refl s).modify root _
  | subscribe listener =>
    rw [Session.subscribe]
    split
    · exact .refl s
    · dsimp only
      split
      · apply Steady.observe
        exact .of_eq rfl rfl
      · exact .of_eq rfl rfl
  | takeFault => exact (Steady.refl s).modify root _
  | forget => exact .of_eq rfl rfl

/-- An interpreter that is going to be emptied is stopped. -/
theorem Course.halted (h₀ : s₀.Fresh) (h : Course s₀ ms s) (hmem : .release n ∈ s.agenda) :
  ∃ a, s.actor? n = some a ∧ a.status = .stopped
  := by
  induction h with
  | refl =>
    rw [h₀.agenda] at hmem
    cases hmem
  | call h hcall ih =>
    obtain ⟨ws, hws, hreleases⟩ := hcall.steady.agenda
    rw [hws] at hmem
    rcases List.mem_append.mp hmem with hmem | hmem
    · cases hreleases _ hmem
    · obtain ⟨a, ha, hstatus⟩ := ih hmem
      obtain ⟨b, hb, hlike⟩ := (hcall.calm (n := n)).actor a ha
      exact ⟨b, hb, hlike.status.trans hstatus⟩
  | @step ms t m h hm ih =>
    by_cases hbefore : .release n ∈ m.before.agenda
    · have ht : .release n ∈ t.agenda := by
        rw [hm.agenda]
        exact List.mem_cons_of_mem _ hbefore
      obtain ⟨a, ha, hstatus⟩ := ih ht
      obtain ⟨b, hb, hturn⟩ := h.exists_turn h₀ hm ((hm.actor? n).trans ha)
      exact ⟨b, hb, hturn.stopped hstatus⟩
    · have hwork := (of_release_mem hmem).resolve_left hbefore
      rw [Moment.after, hwork] at hmem ⊢
      cases ha : m.before.actor? n with
      | none =>
        rw [carryOut, stop, ha] at hmem
        exact absurd hmem hbefore
      | some a => exact exists_stopped ha

/-- A running interpreter is not emptied. -/
theorem Course.not_release (h₀ : s₀.Fresh) (h : Course s₀ ms s) (hm : s.Does m)
    (ha : s.actor? n = some a) (hrunning : a.status = .running) :
  m.work ≠ .release n
  := by
  intro hwork
  have hmem : .release n ∈ s.agenda := by
    rw [hm.agenda, hwork]
    exact List.mem_cons_self
  obtain ⟨a', ha', hstopped⟩ := h.halted h₀ hmem
  rw [ha, Option.some.injEq] at ha'
  subst ha'
  rw [hrunning] at hstopped
  cases hstopped

end Session

end Statechart
