import Statechart.Proofs.Session.Stage

/-!
# Lone interpreters

The machine of a lone interpreter invokes nothing, so that nobody but its caller and itself sends
it events.  Whatever it does, it stays alone, and asks for nothing but works of its own; an
envelope that it is to handle was in its mailbox, and no envelope of a timer comes there
(`Lone.proceeds`).
-/

namespace Statechart

/-- Whether an envelope comes from a timer. -/
def Envelope.isTimed (e : Envelope) : Bool :=
  match e.origin with
  | .timer .. => true
  | _ => false

/-- Whether a work is one of the root, or one that a caller or an action of it may ask for. -/
def Work.isOwn : Work → Bool
  | .start n => n == Session.root
  | .send n _ => n == Session.root
  | .pump n => n == Session.root
  | .handle n _ => n == Session.root
  | .macrostep n _ _ => n == Session.root
  | .react n _ _ => n == Session.root
  | .perform n _ _ => n == Session.root
  | .publish n _ => n == Session.root
  | .stop n => n == Session.root
  | .release n => n == Session.root
  | .recordFault n _ => n == Session.root
  | .unsubscribe _ => true
  | _ => false

namespace Session

/-- Whether an interpreter of a machine is the only one of a session, and has no live services. -/
structure Lone (m : Machine) (s : Session) (a : Actor) : Prop where
  actors : s.actors = [a]
  machine : a.machine = m
  link : a.link = none
  services : a.services = []
  hasTimers : s.hasTimers = true

/-- Whether a session goes on to another one with a lone interpreter: further works are its own,
those of them that handle envelopes take these from the mailbox, and no envelopes of timers come
in. -/
structure Proceeds (m : Machine) (s : Session) (a : Actor) (t : Session) : Prop where
  lone : ∃ b, t.Lone m b ∧ ∀ e ∈ b.mailbox.queue, e ∈ a.mailbox.queue ∨ e.isTimed = false
  agenda : ∃ ws, t.agenda = ws ++ s.agenda ∧
    ∀ w ∈ ws, w.isOwn = true ∧ ∀ e, w.envelope? = some e → e ∈ a.mailbox.queue

variable {m : Machine} {s t : Session} {a b : Actor} {w : Work} {e : Envelope}
  {snapshot : Snapshot}

theorem Lone.actor?_root (h : s.Lone m a) :
  s.actor? root = some a
  := by
  rw [actor?, h.actors]
  rfl

theorem Lone.eq (h : s.Lone m a) (hb : s.actor? root = some b) :
  b = a
  := Option.some.inj (hb.symm.trans h.actor?_root)

namespace Proceeds

theorem refl (h : s.Lone m a) :
  Proceeds m s a s
  := ⟨⟨a, h, fun _ => Or.inl⟩, [], rfl, List.forall_mem_nil _⟩

/-- Neither the clock nor the observations play a part. -/
theorem of_eq {u : Session} (h : Proceeds m s a t) (hactors : u.actors = t.actors)
    (htimers : u.hasTimers = t.hasTimers) (hagenda : u.agenda = t.agenda) :
  Proceeds m s a u
  := by
  obtain ⟨b, hb, hqueue⟩ := h.lone
  refine ⟨⟨b, ⟨hactors.trans hb.actors, hb.machine, hb.link, hb.services, ?_⟩, hqueue⟩, ?_⟩
  · exact htimers.trans hb.hasTimers
  · rw [hagenda]
    exact h.agenda

theorem observe (h : Proceeds m s a t) (o : Observation) :
  Proceeds m s a (t.observe o)
  := h.of_eq rfl rfl rfl

theorem diagnose (h : Proceeds m s a t) (d : Diagnostic) :
  Proceeds m s a (t.diagnose d)
  := h.of_eq rfl rfl rfl

theorem plan (h : Proceeds m s a t) {ws : List Work}
    (hws : ∀ w ∈ ws, w.isOwn = true ∧ ∀ e, w.envelope? = some e → e ∈ a.mailbox.queue) :
  Proceeds m s a (t.plan ws)
  := by
  obtain ⟨b, hb, hqueue⟩ := h.lone
  obtain ⟨ws', hagenda, hown⟩ := h.agenda
  refine ⟨⟨b, ⟨hb.actors, hb.machine, hb.link, hb.services, hb.hasTimers⟩, hqueue⟩, ws ++ ws', ?_,
    List.forall_mem_append.mpr ⟨hws, hown⟩⟩
  rw [agenda_plan, hagenda, List.append_assoc]

/-- Own works that handle no envelope may come at any time. -/
theorem plan_own (h : Proceeds m s a t) {ws : List Work}
    (hws : ∀ w ∈ ws, w.isOwn = true ∧ w.envelope? = none) :
  Proceeds m s a (t.plan ws)
  := by
  refine h.plan (fun w hw => ⟨(hws w hw).1, fun e he => ?_⟩)
  rw [(hws w hw).2] at he
  cases he

/-- The interpreter may change in what makes it no less alone. -/
theorem modify (h : Proceeds m s a t) {f : Actor → Actor}
    (hf : ∀ b, t.Lone m b → (f b).machine = m ∧ (f b).link = none ∧ (f b).services = [] ∧
      ∀ e ∈ (f b).mailbox.queue, e ∈ b.mailbox.queue ∨ e.isTimed = false) :
  Proceeds m s a (t.modify root f)
  := by
  obtain ⟨b, hb, hqueue⟩ := h.lone
  obtain ⟨hmachine, hlink, hservices, harrive⟩ := hf b hb
  refine ⟨⟨f b, ⟨?_, hmachine, hlink, hservices, hb.hasTimers⟩, ?_⟩, h.agenda⟩
  · rw [Session.modify, hb.actors]
    rfl
  · intro e he
    exact (harrive e he).elim (hqueue e) Or.inr

/-- What has nothing to do with being alone may change. -/
theorem modify_same (h : Proceeds m s a t) {f : Actor → Actor}
    (hf : ∀ b : Actor, ((f b).machine, (f b).link, (f b).services, (f b).mailbox.queue) =
      (b.machine, b.link, b.services, b.mailbox.queue)) :
  Proceeds m s a (t.modify root f)
  := by
  refine h.modify (fun b hb => ?_)
  have hsame := hf b
  simp only [Prod.mk.injEq] at hsame
  obtain ⟨hmachine, hlink, hservices, hqueue⟩ := hsame
  refine ⟨hmachine.trans hb.machine, hlink.trans hb.link, hservices.trans hb.services, ?_⟩
  rw [hqueue]
  exact fun _ => Or.inl

theorem queue (h : Proceeds m s a t) (he : e.isTimed = false) :
  Proceeds m s a (t.queue root e)
  := by
  refine h.modify (fun b hb => ⟨hb.machine, hb.link, hb.services, fun e' he' => ?_⟩)
  rcases List.mem_append.mp he' with he' | he'
  · exact Or.inl he'
  · rw [List.mem_singleton.mp he']
    exact Or.inr he

theorem drain (h : Proceeds m s a t) :
  Proceeds m s a (t.drain root)
  := by
  rw [Session.drain]
  split
  · exact h
  · next mailbox hclaim =>
    obtain ⟨b, hb, hclaim⟩ := Option.bind_eq_some_iff.mp hclaim
    have hqueue : mailbox.queue = b.mailbox.queue := by
      rw [Mailbox.claim?] at hclaim
      split at hclaim
      · cases hclaim
      · cases hclaim
        rfl
    refine (h.modify (fun c hc => ?_)).plan_own (List.forall_mem_singleton.mpr ⟨rfl, rfl⟩)
    rw [hc.eq hb] at hqueue
    refine ⟨hc.machine, hc.link, hc.services, ?_⟩
    dsimp only
    rw [hqueue]
    exact fun _ => Or.inl

theorem enqueue (h : Proceeds m s a t) (he : e.isTimed = false) :
  Proceeds m s a (t.enqueue root e)
  := by
  rw [Session.enqueue]
  split
  · exact (h.queue he).drain
  · exact h

theorem cancelSend (h : Proceeds m s a t) (id : SendId) :
  Proceeds m s a (t.cancelSend root id)
  := by
  rw [Session.cancelSend]
  split
  · exact h
  · refine Proceeds.of_eq (t := t.modify root
      (fun a => { a with timers := Association.erase id a.timers })) ?_ rfl rfl rfl
    exact h.modify_same (fun _ => rfl)

theorem armSend (h : Proceeds m s a t) (send : Send) (delay : Nat) :
  Proceeds m s a (t.armSend root send delay)
  := by
  rw [Session.armSend]
  split
  · exact h
  · next b _ =>
    have hcancelled := fun id => (h.modify_same
      (f := fun a => { a with timerGeneration := b.timerGeneration + 1 })
      (fun _ => rfl)).cancelSend id
    dsimp only
    split
    · exact (hcancelled _).diagnose _
    · refine Proceeds.of_eq (Proceeds.modify_same (hcancelled _) (f := fun a => { a with
        timers := (_, _) :: a.timers }) (fun _ => rfl)) rfl rfl rfl

/-- A lone interpreter reaches nobody but itself. -/
theorem route (h : Proceeds m s a t) (destination : Destination) (event : Event) :
  Proceeds m s a (t.route root destination event)
  := by
  obtain ⟨b, hb, -⟩ := h.lone
  cases destination with
  | myself => exact h.queue rfl
  | parent =>
    rw [Session.route, hb.actor?_root, Option.bind_some, hb.link]
    exact h.diagnose _
  | child id =>
    rw [Session.route, hb.actor?_root, Option.bind_some, hb.services]
    exact h.diagnose _

theorem foldl_cancelSend (h : Proceeds m s a t) (timers : List (SendId × DelayedSend)) :
  Proceeds m s a (timers.foldl (fun s e => s.cancelSend root e.1) t)
  := by
  induction timers generalizing t with
  | nil => exact h
  | cons e timers ih => exact ih (h.cancelSend e.1)

theorem foldl_observe {α : Type} (f : α → Observation) (h : Proceeds m s a t) (xs : List α) :
  Proceeds m s a (xs.foldl (fun s x => s.observe (f x)) t)
  := by
  induction xs generalizing t with
  | nil => exact h
  | cons x xs ih => exact ih (h.observe (f x))

/-- A new snapshot that starts no invocations is stored. -/
theorem commit (h : Proceeds m s a t)
    (hquiet : ∀ action ∈ snapshot.actions, ∀ i data, action.duty ≠ .start i data) :
  Proceeds m s a (t.commit root snapshot)
  := by
  have hinvocations : ∀ later, (∀ action ∈ later, ∀ i data, action.duty ≠ .start i data) →
      invocations root snapshot later = [] := by
    intro later hlater
    induction later with
    | nil => rfl
    | cons action later ih =>
      obtain ⟨hfirst, hrest⟩ := List.forall_mem_cons.mp hlater
      rw [invocations]
      split
      · next i data hduty => exact absurd hduty (hfirst i data)
      · exact ih hrest
  rw [Session.commit, hinvocations _ hquiet, List.append_nil]
  refine Proceeds.plan_own (.modify_same h ?_) ?_
  · exact fun _ => rfl
  refine List.forall_mem_append.mpr ⟨fun w hw => ?_, List.forall_mem_singleton.mpr ⟨rfl, rfl⟩⟩
  obtain ⟨action, -, rfl⟩ := List.mem_map.mp hw
  exact ⟨rfl, rfl⟩

theorem fail (h : Proceeds m s a t) (fault : Fault) {andThen : List Work}
    (hthen : ∀ w ∈ andThen, w.isOwn = true ∧ w.envelope? = none) :
  Proceeds m s a (t.fail root fault andThen)
  := (h.diagnose _).plan_own (List.forall_mem_cons.mpr ⟨⟨rfl, rfl⟩, hthen⟩)

end Proceeds

/-! ### Works -/

section

variable (hquiet : ∀ other, m.chart.invocation? other = none)

include hquiet

/-- A chart without invocations starts none. -/
theorem not_start_of_sound {actions : List ResolvedAction}
    (h : Collection.Sound m.chart actions) :
  ∀ action ∈ actions, ∀ i data, action.duty ≠ .start i data
  := by
  intro action haction i data hduty
  have hfound := h action haction i data hduty
  rw [hquiet] at hfound
  cases hfound

theorem Lone.proceeds_boot (h : s.Lone m a) :
  Proceeds m s a (s.boot root)
  := by
  have hcommit : ∀ {snapshot}, m.Starts snapshot →
      Proceeds m s a ((s.modify root (fun a => { a with resume := none })).commit root snapshot) :=
    fun hstarts => ((Proceeds.refl h).modify_same (f := fun a => { a with resume := none })
      (fun _ => rfl)).commit (not_start_of_sound hquiet hstarts.sound)
  have hfail : ∀ fault, Proceeds m s a ((s.modify root (fun a => { a with resume := none })).fail
      root fault [.recordFault root fault]) :=
    fun fault => ((Proceeds.refl h).modify_same (f := fun a => { a with resume := none })
      (fun _ => rfl)).fail fault (List.forall_mem_singleton.mpr ⟨rfl, rfl⟩)
  rw [boot, h.actor?_root]
  dsimp only
  split
  · next snapshot hfirst =>
    rw [h.machine] at hfirst
    split at hfirst
    · exact hcommit (.restored hfirst)
    · exact hcommit (.initial hfirst)
  · next fault hfirst => exact hfail fault

omit hquiet in
theorem Lone.proceeds_start (h : s.Lone m a) :
  Proceeds m s a (s.start root)
  := by
  rw [Session.start]
  split
  · exact (Proceeds.refl h).diagnose _
  · refine .drain (.modify (.refl h) ?_)
    refine fun b hb => ⟨hb.machine, hb.link, hb.services, fun e he => ?_⟩
    rcases List.mem_cons.mp he with rfl | he
    · exact Or.inr rfl
    · exact Or.inl he

omit hquiet in
theorem Lone.proceeds_send (h : s.Lone m a) (event : Event) :
  Proceeds m s a (s.send root event)
  := by
  rw [Session.send, h.actor?_root]
  dsimp only
  split
  · exact (Proceeds.refl h).enqueue rfl
  · split
    · exact (Proceeds.refl h).queue rfl
    · exact (Proceeds.refl h).diagnose _
  · exact (Proceeds.refl h).diagnose _

omit hquiet in
/-- An envelope that is to be handled was in the mailbox. -/
theorem Lone.proceeds_pump (h : s.Lone m a) :
  Proceeds m s a (s.pump root)
  := by
  rw [pump, h.actor?_root]
  dsimp only
  split
  · refine .modify (.refl h) (fun b hb => ⟨hb.machine, hb.link, hb.services, ?_⟩)
    rw [h.eq hb.actor?_root]
    exact fun _ => Or.inl
  · next e mailbox hnext =>
    have hqueue : a.mailbox.queue = e :: mailbox.queue := by
      rw [Mailbox.next?] at hnext
      split at hnext
      · cases hnext
      · next hqueue =>
        cases hnext
        exact hqueue
    refine .plan (.modify (.refl h) ?_) ?_
    · refine fun b hb => ⟨hb.machine, hb.link, hb.services, fun e' he' => Or.inl ?_⟩
      rw [h.eq hb.actor?_root, hqueue]
      exact List.mem_cons_of_mem _ he'
    · have hqueued : e ∈ a.mailbox.queue := by
        rw [hqueue]
        exact List.mem_cons_self
      have hhandled : ∀ e', some e = some e' → e' ∈ a.mailbox.queue :=
        fun _ heq => Option.some.inj heq ▸ hqueued
      exact List.forall_mem_cons.mpr ⟨⟨rfl, hhandled⟩,
        List.forall_mem_singleton.mpr ⟨rfl, fun _ hnone => by cases hnone⟩⟩

omit hquiet in
/-- A lone interpreter forwards nothing. -/
theorem Lone.proceeds_macrostep (h : s.Lone m a) (event : Event) (origin : Origin) :
  Proceeds m s a (s.macrostep root event origin)
  := by
  rw [macrostep, h.actor?_root]
  dsimp only
  split
  · exact .refl h
  · rw [forwardTargets, h.services]
    exact (Proceeds.refl h).plan_own (List.forall_mem_singleton.mpr ⟨rfl, rfl⟩)

theorem Lone.proceeds_react (h : s.Lone m a) (snapshot : Snapshot) (event : Event) :
  Proceeds m s a (s.react root snapshot event)
  := by
  rw [react, h.actor?_root]
  dsimp only
  split
  · next next hnext =>
    rw [h.machine] at hnext
    exact (Proceeds.refl h).commit (not_start_of_sound hquiet (Machine.sound_transition hnext))
  · exact (Proceeds.refl h).fail _ (List.forall_mem_nil _)

theorem Lone.proceeds_handle (h : s.Lone m a) (e : Envelope) :
  Proceeds m s a (s.handle root e)
  := by
  have hgo : ∀ {t}, Proceeds m s a t →
      Proceeds m s a (t.plan [.macrostep root e.event e.origin]) :=
    fun ht => ht.plan_own (List.forall_mem_singleton.mpr ⟨rfl, rfl⟩)
  rw [handle]
  split
  · exact .refl h
  · split
    · exact h.proceeds_boot hquiet
    · exact hgo (.refl h)
    · next id generation _ =>
      split
      · next hlive =>
        rw [h.actor?_root, Option.any_some, Actor.isLive, h.services] at hlive
        cases hlive
      · exact .refl h
    · next id generation _ =>
      split
      · exact .refl h
      · next d _ =>
        split
        · dsimp only
          split
          · refine hgo (.modify_same (.refl h) ?_)
            exact fun _ => rfl
          · refine .route (.modify_same (.refl h) ?_) _ _
            exact fun _ => rfl
        · exact .refl h

omit hquiet in
theorem Lone.proceeds_perform (h : s.Lone m a) (snapshot : Snapshot) (action : ResolvedAction) :
  Proceeds m s a (s.perform root snapshot action)
  := by
  rw [perform]
  split
  · exact .refl h
  · split
    · exact .refl h
    · next effect _ =>
      refine ((Proceeds.refl h).observe _).plan_own (fun w hw => ?_)
      obtain ⟨request, -, rfl⟩ := List.mem_map.mp hw
      cases request <;> exact ⟨rfl, rfl⟩
    · next send _ =>
      rw [dispatch]
      split
      · exact (Proceeds.refl h).armSend _ _
      · exact (Proceeds.refl h).route _ _
    · next expression label _ =>
      cases expression with
      | none => exact (Proceeds.refl h).observe _
      | some e =>
        rw [log]
        split
        · exact (Proceeds.refl h).observe _
        · exact .refl h
    · exact (Proceeds.refl h).cancelSend _
    · split
      · exact .refl h
      · next service hservice =>
        rw [h.actor?_root, Option.bind_some, h.services] at hservice
        cases hservice
    · exact (Proceeds.refl h).diagnose _

omit hquiet in
theorem Lone.proceeds_publish (h : s.Lone m a) (snapshot : Snapshot) :
  Proceeds m s a (s.publish root snapshot)
  := by
  rw [publish, h.actor?_root]
  dsimp only
  split
  · exact .refl h
  · have hshown := Proceeds.foldl_observe (fun l => .published l snapshot) (.refl h)
      a.listeners.toList
    split
    · exact hshown
    · rw [h.link, if_pos rfl]
      exact (hshown.observe _).plan_own (List.forall_mem_singleton.mpr ⟨rfl, rfl⟩)

omit hquiet in
theorem Lone.proceeds_stop (h : s.Lone m a) :
  Proceeds m s a (s.stop root)
  := by
  rw [stop, h.actor?_root]
  dsimp only
  split
  · exact .refl h
  · have hstopped := ((Proceeds.refl h).modify_same (f := fun a => { a with status := .stopped })
      (fun _ => rfl)).foldl_cancelSend a.timers
    rw [h.services]
    refine (hstopped.modify (fun b hb => ?_)).plan_own (List.forall_mem_singleton.mpr ⟨rfl, rfl⟩)
    exact ⟨hb.machine, hb.link, rfl, fun _ => Or.inl⟩

/-- A lone interpreter stays alone, whatever it does. -/
theorem Lone.proceeds (h : s.Lone m a) (hw : w.isOwn = true) :
  Proceeds m s a (s.carryOut w)
  := by
  have hroot : ∀ {n : Nat}, (n == root) = true → n = root := fun h => beq_iff_eq.mp h
  cases w with
  | start n =>
    obtain rfl := hroot hw
    exact h.proceeds_start
  | send n event =>
    obtain rfl := hroot hw
    exact h.proceeds_send event
  | pump n =>
    obtain rfl := hroot hw
    exact h.proceeds_pump
  | handle n e =>
    obtain rfl := hroot hw
    exact h.proceeds_handle hquiet e
  | macrostep n event origin =>
    obtain rfl := hroot hw
    exact h.proceeds_macrostep event origin
  | react n snapshot event =>
    obtain rfl := hroot hw
    exact h.proceeds_react hquiet snapshot event
  | perform n snapshot action =>
    obtain rfl := hroot hw
    exact h.proceeds_perform snapshot action
  | publish n snapshot =>
    obtain rfl := hroot hw
    exact h.proceeds_publish snapshot
  | stop n =>
    obtain rfl := hroot hw
    exact h.proceeds_stop
  | release n =>
    obtain rfl := hroot hw
    exact (Proceeds.refl h).modify (fun b hb =>
      ⟨hb.machine, hb.link, hb.services, fun e he => absurd he List.not_mem_nil⟩)
  | recordFault n fault =>
    obtain rfl := hroot hw
    exact (Proceeds.refl h).modify_same (fun _ => rfl)
  | unsubscribe listener =>
    rw [carryOut, unsubscribe]
    split
    · exact .refl h
    · refine Proceeds.of_eq (.modify_same (.refl h) ?_) rfl rfl rfl
      exact fun _ => rfl
  | _ => cases hw

end

end Session

end Statechart
