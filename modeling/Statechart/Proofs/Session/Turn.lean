import Statechart.Proofs.Machine.Run
import Statechart.Proofs.Session.Frame

/-!
# Turns of an interpreter

A turn is what one work does to one interpreter and to its duties.  `Turn` lists all that can
happen, and `exists_turn` says that every work is one of these turns; what is said of
interpreters in the sequel is read off the turns and not off the works.
-/

namespace Statechart

open Session (committed)

/-- Whether a duty may come to nothing but further envelopes. -/
inductive Actor.Idles (n : Nat) (a : Actor) : Work → Prop where
  | handle {e} (h : a.status = .running → e.origin ≠ .start) : Idles n a (.handle n e)
  | macrostep {event origin} (h : a.state = none) : Idles n a (.macrostep n event origin)
  | react {snapshot event} (h : ∀ next, a.machine.transition snapshot event ≠ .ok next) :
      Idles n a (.react n snapshot event)
  | perform {snapshot action} (h : ∀ id, action.duty = .stop id → a.status = .running →
      a.services.lookup id = none) : Idles n a (.perform n snapshot action)
  | invoke {snapshot action later} : Idles n a (.invoke n snapshot action later)
  | publish {snapshot} : Idles n a (.publish n snapshot)
  | recordFault {fault} : Idles n a (.recordFault n fault)
  | confirmStart {child id generation} : Idles n a (.confirmStart n child id generation)

/-- The interpreter with an envelope admitted: the event that completes a service takes it out
of the registry. -/
def Actor.admitting (a : Actor) (e : Envelope) : Actor :=
  match e.origin with
  | .service id generation =>
    if Session.completes e.event.name id then a.without id generation else a
  | _ => a

/-- Nothing but the services changes when an envelope is admitted. -/
theorem Actor.exists_admitting (a : Actor) (e : Envelope) :
  ∃ services, services.Sublist a.services ∧ a.admitting e = { a with services }
  := by
  rw [Actor.admitting]
  split
  · split
    · exact a.exists_without _ _
    · exact ⟨_, List.Sublist.refl _, rfl⟩
  · exact ⟨_, List.Sublist.refl _, rfl⟩

/-- The works that follow the start of an invocation: the service is registered, and the start
of an invoked interpreter is confirmed. -/
inductive Issued (n : Nat) (service : Service) : List Work → Prop where
  | plain (h : ∀ child, service.backing ≠ .machine child) : Issued n service [.register n service]
  | machine {child} (h : service.backing = .machine child) : Issued n service
      [.register n service, .confirmStart n child service.id service.generation]

/-- What a work does to an interpreter and to its duties. -/
inductive Turn (n : Nat) : Work → Actor → List Work → Actor → List Work → Prop where
  /-- At most envelopes come in. -/
  | calm {w a b ds} (hduty : w.duty? ≠ some n) (h : a.Like b) : Turn n w a ds b ds
  /-- An envelope comes in, and the interpreter begins to drain its mailbox. -/
  | wake {w a b ds} (hduty : w.duty? ≠ some n) (hrunning : a.status = .running)
      (hfree : a.mailbox.draining = false) (h : a.Like b) :
      Turn n w a ds b.claimed (.pump n :: ds)
  | start {a ds} (h : a.status = .notStarted) :
      Turn n (.start n) a ds
        { a with
          status := .running
          mailbox := ⟨⟨.init, .start⟩ :: a.mailbox.queue, true⟩ }
        (if a.mailbox.draining then ds else .pump n :: ds)
  | stop {a b ds} (h : a.status ≠ .stopped)
      (hlike : Actor.Like { a with status := .stopped, services := [] } b) :
      Turn n (.stop n) a ds b ds
  | release {a b ds}
      (hlike : Actor.Like { a with mailbox := a.mailbox.clear } b) : Turn n (.release n) a ds b ds
  | rest {a ds} (h : a.mailbox.queue = []) :
      Turn n (.pump n) a (.pump n :: ds) { a with mailbox := a.mailbox.release } ds
  | take {a ds e queue} (h : a.mailbox.queue = e :: queue) :
      Turn n (.pump n) a (.pump n :: ds) { a with mailbox := { a.mailbox with queue } }
        (.handle n e :: .pump n :: ds)
  /-- A duty comes to nothing. -/
  | idle {w a b ds} (h : a.Idles n w) (hlike : a.Like b) : Turn n w a (w :: ds) b ds
  | boot {a b ds e snapshot} (hrunning : a.status = .running) (hstart : e.origin = .start)
      (h : a.machine.Starts snapshot) (hlike : Actor.Like { a with state := some snapshot } b) :
      Turn n (.handle n e) a (.handle n e :: ds) b (committed n snapshot ++ ds)
  | unbooted {a b ds e fault} (hrunning : a.status = .running) (hstart : e.origin = .start)
      (hlike : a.Like b) :
      Turn n (.handle n e) a (.handle n e :: ds) b (.recordFault n fault :: ds)
  | accept {a b ds e} (hrunning : a.status = .running) (hstart : e.origin ≠ .start)
      (hlive : ∀ id generation, e.origin = .service id generation →
        a.isLive id generation = true)
      (hlike : (a.admitting e).Like b) :
      Turn n (.handle n e) a (.handle n e :: ds) b (.macrostep n e.event e.origin :: ds)
  | forward {a ds snapshot event origin} (h : a.state = some snapshot) :
      Turn n (.macrostep n event origin) a (.macrostep n event origin :: ds) a
        (.react n snapshot event :: ds)
  | move {a ds snapshot event next} (h : a.machine.transition snapshot event = .ok next) :
      Turn n (.react n snapshot event) a (.react n snapshot event :: ds)
        { a with state := some next } (committed n next ++ ds)
  | remove {a ds snapshot action id service} (hrunning : a.status = .running)
      (hduty : action.duty = .stop id) (h : a.services.lookup id = some service) :
      Turn n (.perform n snapshot action) a (.perform n snapshot action :: ds)
        { a with services := Association.erase id a.services } ds
  /-- The start of an invocation fails at once. -/
  | refuse {a b ds snapshot action later invocation data} (hrunning : a.status = .running)
      (hduty : action.duty = .start invocation data)
      (hlike : Actor.Like { a with generation := a.generation + 1 } b) :
      Turn n (.invoke n snapshot action later) a (.invoke n snapshot action later :: ds) b ds
  | issue {a b ds snapshot action later invocation data service ws} (hrunning : a.status = .running)
      (hduty : action.duty = .start invocation data)
      (hactive : snapshot.isActive invocation.owner = true) (hid : service.id = invocation.id)
      (hgeneration : service.generation = a.generation + 1) (h : Issued n service ws)
      (hlike : Actor.Like { a with generation := a.generation + 1 } b) :
      Turn n (.invoke n snapshot action later) a (.invoke n snapshot action later :: ds) b
        (ws ++ ds)
  | register {a ds service} :
      Turn n (.register n service) a (.register n service :: ds)
        { a with services := Association.insertSorted service.id service a.services } ds
  /-- The start of an invoked interpreter fails. -/
  | retract {a b ds child id generation} (hlike : (a.without id generation).Like b) :
      Turn n (.confirmStart n child id generation) a (.confirmStart n child id generation :: ds)
        b ds

variable {n : Nat} {a b : Actor} {w : Work} {ds es : List Work}

/-- A turn leaves the status as it is, or starts or stops the interpreter, which has no services
any more then. -/
theorem Turn.status (h : Turn n w a ds b es) :
  b.status = a.status ∨ (a.status = .notStarted ∧ b.status = .running) ∨
    b.status = .stopped ∧ b.services = []
  := by
  cases h with
  | calm _ hlike => exact Or.inl hlike.status
  | wake _ _ _ hlike => exact Or.inl hlike.status
  | start hstatus => exact Or.inr (Or.inl ⟨hstatus, rfl⟩)
  | stop _ hlike => exact Or.inr (Or.inr ⟨hlike.status, hlike.services⟩)
  | release hlike => exact Or.inl hlike.status
  | rest => exact Or.inl rfl
  | take => exact Or.inl rfl
  | idle _ hlike => exact Or.inl hlike.status
  | boot _ _ _ hlike => exact Or.inl hlike.status
  | unbooted _ _ hlike => exact Or.inl hlike.status
  | @accept _ _ _ e _ _ _ hlike =>
    obtain ⟨services, -, heq⟩ := a.exists_admitting e
    rw [heq] at hlike
    exact Or.inl hlike.status
  | forward => exact Or.inl rfl
  | move => exact Or.inl rfl
  | remove => exact Or.inl rfl
  | refuse _ _ hlike => exact Or.inl hlike.status
  | issue _ _ _ _ _ _ hlike => exact Or.inl hlike.status
  | register => exact Or.inl rfl
  | @retract _ _ _ _ id generation hlike =>
    obtain ⟨services, -, heq⟩ := a.exists_without id generation
    rw [heq] at hlike
    exact Or.inl hlike.status

/-- An interpreter that is stopped stays stopped. -/
theorem Turn.stopped (h : Turn n w a ds b es) (ha : a.status = .stopped) :
  b.status = .stopped
  := by
  rcases h.status with hsame | ⟨hnew, -⟩ | ⟨hstopped, -⟩
  · exact hsame.trans ha
  · rw [ha] at hnew
    cases hnew
  · exact hstopped

/-- An interpreter that is started stays so. -/
theorem Turn.started (h : Turn n w a ds b es) (ha : a.status ≠ .notStarted) :
  b.status ≠ .notStarted
  := by
  rcases h.status with hsame | ⟨hnew, -⟩ | ⟨hstopped, -⟩
  · rw [hsame]
    exact ha
  · exact absurd hnew ha
  · rw [hstopped]
    exact Status.noConfusion

/-- An interpreter that runs after a turn was running before, if it was started. -/
theorem Turn.running_before (h : Turn n w a ds b es) (hstarted : a.status ≠ .notStarted)
    (hb : b.status = .running) :
  a.status = .running
  := by
  cases hcase : a.status with
  | notStarted => exact absurd hcase hstarted
  | running => rfl
  | stopped =>
    rw [h.stopped hcase] at hb
    cases hb

/-- A duty is there until it is done. -/
theorem Turn.mem_or_eq (h : Turn n w a ds b es) {x : Work} (hx : x ∈ ds) :
  x ∈ es ∨ x = w
  := by
  have hcons : ∀ {ds l}, x ∈ w :: ds → x ∈ l ++ ds ∨ x = w := by
    intro ds l hx
    rcases List.mem_cons.mp hx with rfl | hx
    · exact Or.inr rfl
    · exact Or.inl (List.mem_append_right l hx)
  cases h with
  | calm => exact Or.inl hx
  | wake => exact Or.inl (List.mem_cons_of_mem _ hx)
  | start =>
    left
    split
    · exact hx
    · exact List.mem_cons_of_mem _ hx
  | stop => exact Or.inl hx
  | release => exact Or.inl hx
  | rest => exact hcons (l := []) hx
  | take => exact Or.inl (List.mem_cons_of_mem _ hx)
  | idle => exact hcons (l := []) hx
  | boot => exact hcons hx
  | unbooted => exact hcons (l := [_]) hx
  | accept => exact hcons (l := [_]) hx
  | forward => exact hcons (l := [_]) hx
  | move => exact hcons hx
  | remove => exact hcons (l := []) hx
  | refuse => exact hcons (l := []) hx
  | issue => exact hcons hx
  | register => exact hcons (l := []) hx
  | retract => exact hcons (l := []) hx

/-- A work from outside leaves the snapshot as it is, and the services unless it stops the
interpreter. -/
theorem Turn.outside (h : Turn n w a ds b es) (hduty : w.duty? ≠ some n) :
  b.machine.chart = a.machine.chart ∧ b.state = a.state ∧
    (b.status ≠ .stopped → b.services = a.services)
  := by
  cases h with
  | calm _ hlike => exact ⟨hlike.chart, hlike.state, fun _ => hlike.services⟩
  | wake _ _ _ hlike => exact ⟨hlike.chart, hlike.state, fun _ => hlike.services⟩
  | start => exact ⟨rfl, rfl, fun _ => rfl⟩
  | stop _ hlike => exact ⟨hlike.chart, hlike.state, fun h => absurd hlike.status h⟩
  | release hlike => exact ⟨hlike.chart, hlike.state, fun _ => hlike.services⟩
  | idle hidle => cases hidle <;> exact absurd rfl hduty
  | _ => exact absurd rfl hduty

namespace Session

open Actor

variable {s t : Session}

/-! ### Works from outside -/

theorem Calm.exists_like (h : Calm n s t) (ha : s.actor? n = some a) :
  ∃ b, t.actor? n = some b ∧ a.Like b ∧ t.duties n = s.duties n
  := by
  obtain ⟨b, hb, hlike⟩ := h.actor a ha
  exact ⟨b, hb, hlike, h.duties⟩

/-- A drain claims the mailbox, and begins unless another one is under way. -/
theorem drain_spec (ha : s.actor? n = some a) :
  (s.drain n).actor? n = some a.claimed ∧
    (s.drain n).duties n =
      if a.mailbox.draining then s.duties n else .pump n :: s.duties n
  := by
  rw [drain, ha, Option.bind_some, Mailbox.claim?]
  cases hdraining : a.mailbox.draining with
  | true =>
    have hclaimed : a.claimed = a := by
      rw [claimed, ← hdraining]
    rw [hclaimed]
    exact ⟨ha, rfl⟩
  | false =>
    constructor
    · rw [if_neg Bool.false_ne_true, actor?_plan, actor?_modify_self, ha]
      rfl
    · simp [Work.duty?]

theorem turn_start (ha : s.actor? n = some a) :
  ∃ b, (s.start n).actor? n = some b ∧
    Turn n (.start n) a (s.duties n) b ((s.start n).duties n)
  := by
  rw [start, status, ha]
  split
  · exact ⟨a, ha, .calm (by simp [Work.duty?]) (.refl a)⟩
  · next hstatus =>
    have hstatus : a.status = .notStarted := by simpa using hstatus
    obtain ⟨hactor, hduties⟩ := drain_spec (n := n)
      (s := s.modify n (fun a => { a with
        mailbox := a.mailbox.pushFront ⟨.init, .start⟩
        status := .running }))
      (by rw [actor?_modify_self, ha]; rfl)
    rw [hactor, hduties]
    exact ⟨_, rfl, .start hstatus⟩

theorem turn_stop (ha : s.actor? n = some a) :
  ∃ b, (s.stop n).actor? n = some b ∧
    Turn n (.stop n) a (s.duties n) b ((s.stop n).duties n)
  := by
  rw [stop, ha]
  dsimp only
  split
  · exact ⟨a, ha, .calm (by simp [Work.duty?]) (.refl a)⟩
  · next hstatus =>
    have hcancelled := calm_foldl_cancelSend (n := n) a.timers
      (s.modify n (fun a => { a with status := .stopped })) n
    obtain ⟨b, hb, hlike, hduties⟩ := hcancelled.exists_like
      (a := { a with status := .stopped }) (by rw [actor?_modify_self, ha]; rfl)
    rw [actor?_plan, actor?_modify_self, hb]
    refine ⟨_, rfl, ?_⟩
    rw [duties_plan, duties_modify, hduties, duties_modify, List.filter_eq_nil_iff.mpr]
    · apply Turn.stop hstatus
      exact ⟨hlike.chart, hlike.status, hlike.state, rfl, hlike.generation, hlike.draining,
        hlike.queue⟩
    · intro w hw
      rcases List.mem_append.mp hw with hw | hw
      · obtain ⟨e, -, rfl⟩ := List.mem_map.mp hw
        simp [Work.duty?]
      · rw [List.mem_singleton.mp hw]
        simp [Work.duty?]

theorem Outside.exists_turn (h : Outside n s w t) (hduty : w.duty? ≠ some n)
    (ha : s.actor? n = some a) :
  ∃ b, t.actor? n = some b ∧ Turn n w a (s.duties n) b (t.duties n)
  := by
  cases h with
  | calm h =>
    obtain ⟨b, hb, hlike, hduties⟩ := h.exists_like ha
    rw [hduties]
    exact ⟨b, hb, .calm hduty hlike⟩
  | wakes h =>
    obtain ⟨a', b, ha', hrunning, hfree, hlike, hb⟩ := h.actor
    rw [ha, Option.some.injEq] at ha'
    subst ha'
    use b.claimed, hb
    have hduties : t.duties n = .pump n :: s.duties n := by
      simp [Session.duties, h.agenda, Work.duty?]
    rw [hduties]
    exact .wake hduty hrunning hfree hlike
  | start => exact turn_start ha
  | stop => exact turn_stop ha
  | release =>
    rw [Session.release, actor?_modify_self, ha]
    exact ⟨_, rfl, .release (.of_eq rfl)⟩

/-! ### Duties -/

/-- A duty that comes to nothing. -/
theorem exists_turn_of_calm (h : Calm n s t) (ha : s.actor? n = some a) (hidle : a.Idles n w) :
  ∃ b, t.actor? n = some b ∧ Turn n w a (w :: s.duties n) b (t.duties n)
  := by
  obtain ⟨b, hb, hlike, hduties⟩ := h.exists_like ha
  rw [hduties]
  exact ⟨b, hb, .idle hidle hlike⟩

theorem turn_pump (ha : s.actor? n = some a) :
  ∃ b, (s.pump n).actor? n = some b ∧
    Turn n (.pump n) a (.pump n :: s.duties n) b ((s.pump n).duties n)
  := by
  rw [pump, ha]
  dsimp only
  rw [Mailbox.next?]
  cases hqueue : a.mailbox.queue with
  | nil =>
    dsimp only
    rw [actor?_modify_self, ha]
    exact ⟨_, rfl, .rest hqueue⟩
  | cons e queue =>
    dsimp only
    rw [actor?_plan, actor?_modify_self, ha]
    refine ⟨_, rfl, ?_⟩
    have htake : Turn n (.pump n) a (.pump n :: s.duties n) _ _ := .take hqueue
    simpa [Work.duty?] using htake

/-- All works that follow a new snapshot are duties. -/
theorem duties_plan_committed (snapshot : Snapshot) :
  (s.plan (committed n snapshot)).duties n = committed n snapshot ++ s.duties n
  := by
  rw [duties_plan, List.filter_eq_self.mpr]
  intro w hw
  simpa using (duty_of_mem_committed hw).2

/-- An interpreter that is booted gets a first snapshot, or fails. -/
theorem boot_eq (ha : s.actor? n = some a) :
  (∃ snapshot, a.machine.Starts snapshot ∧
      s.boot n = (s.modify n (fun a => { a with resume := none })).commit n snapshot) ∨
    ∃ fault, s.boot n =
      (s.modify n (fun a => { a with resume := none })).fail n fault [.recordFault n fault]
  := by
  rw [boot, ha]
  dsimp only
  cases a.resume with
  | none =>
    cases hfirst : a.machine.initial with
    | ok snapshot => exact Or.inl ⟨snapshot, .initial hfirst, rfl⟩
    | error fault => exact Or.inr ⟨fault, rfl⟩
  | some persisted =>
    dsimp only
    cases hfirst : a.machine.restore persisted with
    | ok snapshot => exact Or.inl ⟨snapshot, .restored hfirst, rfl⟩
    | error fault => exact Or.inr ⟨fault, rfl⟩

theorem turn_boot {e : Envelope} (ha : s.actor? n = some a) (hrunning : a.status = .running)
    (hstart : e.origin = .start) :
  ∃ b, (s.boot n).actor? n = some b ∧
    Turn n (.handle n e) a (.handle n e :: s.duties n) b ((s.boot n).duties n)
  := by
  rcases boot_eq ha with ⟨snapshot, hstarts, heq⟩ | ⟨fault, heq⟩
  · rw [heq, commit, actor?_plan, actor?_modify_self, actor?_modify_self, ha]
    refine ⟨_, rfl, ?_⟩
    rw [← committed, duties_plan_committed, duties_modify, duties_modify]
    exact .boot hrunning hstart hstarts (.of_eq rfl)
  · rw [heq, fail, actor?_plan, actor?_diagnose, actor?_modify_self, ha]
    refine ⟨_, rfl, ?_⟩
    rw [duties_plan, duties_diagnose, duties_modify]
    have hrecord : [Work.stop n, .recordFault n fault].filter (fun w => w.duty? = some n) =
        [.recordFault n fault] := by
      simp [Work.duty?]
    rw [hrecord]
    exact .unbooted hrunning hstart (.of_eq rfl)

/-- The service that an event completes is not live any more. -/
theorem actor?_removeGeneration (ha : s.actor? n = some a) (id : String) (generation : Nat) :
  (s.removeGeneration n id generation).actor? n = some (a.without id generation)
  := by
  rw [removeGeneration, actor?_modify_self, ha]
  rfl

/-- An envelope that is admitted goes on to the next snapshot. -/
theorem exists_turn_of_admitting {e : Envelope} (hrunning : a.status = .running)
    (hstart : e.origin ≠ .start)
    (hlive : ∀ id generation, e.origin = .service id generation → a.isLive id generation = true)
    (hb : t.actor? n = some b) (hduties : t.duties n = s.duties n)
    (hlike : (a.admitting e).Like b) :
  ∃ b, (t.plan [.macrostep n e.event e.origin]).actor? n = some b ∧
    Turn n (.handle n e) a (.handle n e :: s.duties n) b
      ((t.plan [.macrostep n e.event e.origin]).duties n)
  := by
  refine ⟨b, hb, ?_⟩
  rw [duties_plan, hduties]
  have hadmitted : Turn n (.handle n e) a (.handle n e :: s.duties n) _ _ :=
    .accept hrunning hstart hlive hlike
  simpa [Work.duty?] using hadmitted

/-- An event of a live service is admitted, and takes the service along if it completes it. -/
theorem turn_handle_service {e : Envelope} {id : String} {generation : Nat}
    (ha : s.actor? n = some a) (hrunning : a.status = .running)
    (hservice : e.origin = .service id generation)
    (hlive : a.isLive id generation = true) :
  ∃ b, ((if completes e.event.name id then s.removeGeneration n id generation else s).plan
      [.macrostep n e.event e.origin]).actor? n = some b ∧
    Turn n (.handle n e) a (.handle n e :: s.duties n) b
      (((if completes e.event.name id then s.removeGeneration n id generation else s).plan
        [.macrostep n e.event e.origin]).duties n)
  := by
  have hlives : ∀ id' generation', e.origin = .service id' generation' →
      a.isLive id' generation' = true := by
    intro id' generation' heq
    rw [hservice] at heq
    cases heq
    exact hlive
  split
  · next hcompletes =>
    refine exists_turn_of_admitting hrunning (by simp [hservice]) hlives
      (actor?_removeGeneration ha id generation) rfl ?_
    rw [admitting, hservice]
    dsimp only
    rw [if_pos hcompletes]
    exact .refl _
  · next hgoes =>
    refine exists_turn_of_admitting hrunning (by simp [hservice]) hlives ha rfl ?_
    rw [admitting, hservice]
    dsimp only
    rw [if_neg hgoes]
    exact .refl _

theorem turn_handle (ha : s.actor? n = some a) (e : Envelope) :
  ∃ b, (s.handle n e).actor? n = some b ∧
    Turn n (.handle n e) a (.handle n e :: s.duties n) b ((s.handle n e).duties n)
  := by
  rw [handle]
  split
  · next hstopped =>
    have hidle : a.Idles n (.handle n e) := by
      refine .handle (fun hrunning => ?_)
      rw [(isRunning_iff ha).mpr hrunning] at hstopped
      cases hstopped
    exact exists_turn_of_calm (.refl n s) ha hidle
  next hrunning =>
    have hrunning : a.status = .running := (isRunning_iff ha).mp (by simpa using hrunning)
    split
    · next hstart => exact turn_boot ha hrunning hstart
    · next hexternal =>
      have hsame : a.admitting e = a := by rw [admitting, hexternal]
      refine exists_turn_of_admitting hrunning (by simp [hexternal]) (by simp [hexternal]) ha rfl ?_
      rw [hsame]
      exact .refl a
    · next id generation hservice =>
      rw [ha, Option.any_some]
      split
      · next hlive => exact turn_handle_service ha hrunning hservice hlive
      · exact exists_turn_of_calm (.refl n s) ha (.handle (fun _ => by simp [hservice]))
    · next id generation htimer =>
      have hidle : a.Idles n (.handle n e) := .handle (fun _ => by simp [htimer])
      split
      · exact exists_turn_of_calm (.refl n s) ha hidle
      · split
        · have herased : Calm n s (s.modify n
              (fun a => { a with timers := Association.erase id a.timers })) :=
            (Calm.refl n s).modify (fun _ a _ => .of_eq rfl)
          dsimp only
          split
          · obtain ⟨b, hb, hlike, hduties⟩ := herased.exists_like ha
            have hsame : a.admitting e = a := by rw [admitting, htimer]
            refine exists_turn_of_admitting hrunning (by simp [htimer]) (by simp [htimer]) hb
              hduties ?_
            rw [hsame]
            exact hlike
          · exact exists_turn_of_calm (herased.trans (calm_route _ n _ _)) ha hidle
        · exact exists_turn_of_calm (.refl n s) ha hidle

theorem turn_macrostep (ha : s.actor? n = some a) (event : Event) (origin : Origin) :
  ∃ b, (s.macrostep n event origin).actor? n = some b ∧
    Turn n (.macrostep n event origin) a (.macrostep n event origin :: s.duties n) b
      ((s.macrostep n event origin).duties n)
  := by
  rw [macrostep, ha]
  dsimp only
  cases hstate : a.state with
  | none => exact exists_turn_of_calm (.refl n s) ha (.macrostep hstate)
  | some snapshot =>
    dsimp only
    refine ⟨a, ha, ?_⟩
    rw [duties_plan, List.filter_append, List.filter_eq_nil_iff.mpr]
    · have hforward : Turn n (.macrostep n event origin) a
          (.macrostep n event origin :: s.duties n) _ _ := .forward hstate
      simpa [Work.duty?] using hforward
    · intro w hw
      obtain ⟨service, -, rfl⟩ := List.mem_map.mp hw
      simp [Work.duty?]

theorem turn_react (ha : s.actor? n = some a) (snapshot : Snapshot) (event : Event) :
  ∃ b, (s.react n snapshot event).actor? n = some b ∧
    Turn n (.react n snapshot event) a (.react n snapshot event :: s.duties n) b
      ((s.react n snapshot event).duties n)
  := by
  rw [react, ha]
  dsimp only
  split
  · next next hnext =>
    rw [commit, actor?_plan, actor?_modify_self, ha]
    refine ⟨_, rfl, ?_⟩
    rw [← committed, duties_plan_committed, duties_modify]
    exact .move hnext
  · next fault hfault =>
    have hidle : a.Idles n (.react n snapshot event) := by
      apply Idles.react
      intro next hnext
      rw [hfault] at hnext
      cases hnext
    exact exists_turn_of_calm (calm_fail s n _ (List.forall_mem_nil _)) ha hidle

/-- An action stops a live service: it leaves the registry first. -/
theorem perform_stop {snapshot : Snapshot} {action : ResolvedAction} {id : String}
    {service : Service} (ha : s.actor? n = some a) (hrunning : a.status = .running)
    (hduty : action.duty = .stop id) (hlookup : a.services.lookup id = some service) :
  s.perform n snapshot action =
    (s.modify n (fun a => { a with services := Association.erase id a.services })).plan
      [.stopService service]
  := by
  rw [perform, (isRunning_iff ha).mpr hrunning, hduty, ha]
  dsimp only [Option.bind_some]
  rw [hlookup]
  rfl

theorem turn_perform (ha : s.actor? n = some a) (snapshot : Snapshot) (action : ResolvedAction) :
  ∃ b, (s.perform n snapshot action).actor? n = some b ∧
    Turn n (.perform n snapshot action) a (.perform n snapshot action :: s.duties n) b
      ((s.perform n snapshot action).duties n)
  := by
  by_cases hremoves : a.status = .running ∧
      ∃ id service, action.duty = .stop id ∧ a.services.lookup id = some service
  · obtain ⟨hrunning, id, service, hduty, hlookup⟩ := hremoves
    rw [perform_stop ha hrunning hduty hlookup, actor?_plan, actor?_modify_self, ha]
    refine ⟨_, rfl, ?_⟩
    rw [duties_plan, duties_modify]
    exact .remove hrunning hduty hlookup
  · have hstays : ∀ id, action.duty = .stop id → a.status = .running →
        a.services.lookup id = none := by
      intro id hduty hrunning
      by_contra hne
      obtain ⟨service, hlookup⟩ := Option.ne_none_iff_exists'.mp hne
      exact hremoves ⟨hrunning, id, service, hduty, hlookup⟩
    refine exists_turn_of_calm (calm_perform s snapshot ?_) ha (.perform hstays)
    intro _ id a' hduty ha' hrunning
    rw [ha, Option.some.injEq] at ha'
    subst ha'
    exact hstays id hduty hrunning

/-- The start of an invocation is refused, or its service is about to be registered. -/
theorem turn_startService {snapshot : Snapshot} {action : ResolvedAction}
    {later : List ResolvedAction} {invocation : Invocation} {data : Option Json}
    (ha : s.actor? n = some a) (hrunning : a.status = .running)
    (hduty : action.duty = .start invocation data)
    (hactive : snapshot.isActive invocation.owner = true) (context : Json) (trigger : Event) :
  ∃ b, (s.startService n invocation data context trigger).actor? n = some b ∧
    Turn n (.invoke n snapshot action later) a
      (.invoke n snapshot action later :: s.duties n) b
      ((s.startService n invocation data context trigger).duties n)
  := by
  have hgenerated : (s.modify n (fun b => { b with generation := a.generation + 1 })).actor? n =
      some { a with generation := a.generation + 1 } := by
    rw [actor?_modify_self, ha]
    rfl
  have hrefuse : ∀ {u : Session},
      Calm n (s.modify n (fun b => { b with generation := a.generation + 1 })) u →
      ∃ b, u.actor? n = some b ∧ Turn n (.invoke n snapshot action later) a
        (.invoke n snapshot action later :: s.duties n) b (u.duties n) := by
    intro u hcalm
    obtain ⟨b, hb, hlike, hduties⟩ := hcalm.exists_like hgenerated
    rw [hduties, duties_modify]
    exact ⟨b, hb, .refuse hrunning hduty hlike⟩
  have hissue : ∀ {u : Session} {backing : Backing} {ws : List Work},
      Calm n (s.modify n (fun b => { b with generation := a.generation + 1 })) u →
      Issued n ⟨invocation.id, invocation.src, a.generation + 1, invocation.forward, backing⟩
        (ws.filter (fun w => w.duty? = some n)) →
      ∃ b, (u.plan ws).actor? n = some b ∧ Turn n (.invoke n snapshot action later) a
        (.invoke n snapshot action later :: s.duties n) b ((u.plan ws).duties n) := by
    intro u backing ws hcalm hissued
    obtain ⟨b, hb, hlike, hduties⟩ := hcalm.exists_like hgenerated
    rw [duties_plan, hduties, duties_modify]
    exact ⟨b, hb, .issue hrunning hduty hactive rfl rfl hissued hlike⟩
  rw [startService, ha]
  split
  next source a' hsource ha' =>
    cases ha'
    dsimp only
    split
    · next machine =>
      apply hissue ((Calm.refl n _).spawn (spawned_childActor hsource _ _ data))
      simpa [Work.duty?] using Issued.machine (n := n) rfl
    · rw [startTask]
      dsimp only
      split
      · exact hrefuse (calm_startFailed _ n _ _)
      · apply hissue (((Calm.refl n _).withJobs _).observe _)
        simpa [Work.duty?] using Issued.plain (n := n) (fun _ => Backing.noConfusion)
    · rw [startCallback]
      dsimp only
      have hstarted := fun callbacks o => ((Calm.refl n (s.modify n
        (fun b => { b with generation := a.generation + 1 }))).withCallbacks callbacks).observe o
      split
      · exact hrefuse ((hstarted _ _).trans (calm_startFailed _ n _ _))
      · apply hissue (hstarted _ _)
        rw [List.filter_append, List.filter_eq_nil_iff.mpr]
        · simpa [Work.duty?] using Issued.plain (n := n) (fun _ => Backing.noConfusion)
        · intro w hw
          simpa using (unmarked_operate w hw).2
  · exact exists_turn_of_calm ((Calm.refl n s).diagnose _) ha .invoke

theorem turn_invoke (ha : s.actor? n = some a) (snapshot : Snapshot) (action : ResolvedAction)
    (later : List ResolvedAction) :
  ∃ b, (s.invoke n snapshot action later).actor? n = some b ∧
    Turn n (.invoke n snapshot action later) a (.invoke n snapshot action later :: s.duties n) b
      ((s.invoke n snapshot action later).duties n)
  := by
  rw [invoke]
  split
  · next invocation data hduty =>
    split
    · exact exists_turn_of_calm (.refl n s) ha .invoke
    · next hstarts =>
      simp only [Bool.or_eq_true, Bool.not_eq_true', not_or, Bool.not_eq_false] at hstarts
      obtain ⟨⟨hrunning, -⟩, hactive⟩ := hstarts
      exact turn_startService ha ((isRunning_iff ha).mp hrunning) hduty hactive _ _
  · exact exists_turn_of_calm (.refl n s) ha .invoke

theorem turn_register (ha : s.actor? n = some a) (service : Service) :
  ∃ b, (s.register n service).actor? n = some b ∧
    Turn n (.register n service) a (.register n service :: s.duties n) b
      ((s.register n service).duties n)
  := by
  rw [Session.register, actor?_plan, actor?_modify_self, ha, duties_plan,
    List.filter_eq_nil_iff.mpr]
  · exact ⟨_, rfl, .register⟩
  · intro w hw
    obtain ⟨service, -, rfl⟩ := List.mem_map.mp hw
    simp [Work.duty?]

theorem turn_confirmStart (ha : s.actor? n = some a) (child : Nat) (id : String)
    (generation : Nat) :
  ∃ b, (s.confirmStart n child id generation).actor? n = some b ∧
    Turn n (.confirmStart n child id generation) a
      (.confirmStart n child id generation :: s.duties n) b
      ((s.confirmStart n child id generation).duties n)
  := by
  rw [confirmStart]
  split
  · exact exists_turn_of_calm (.refl n s) ha .confirmStart
  · have htaken : Calm n s (s.modify child (fun a => { a with startFault := none })) :=
      (Calm.refl n s).modify (fun _ a _ => .of_eq rfl)
    obtain ⟨b, hb, hlike, hduties⟩ := htaken.exists_like ha
    obtain ⟨c, hc, hlike', hduties'⟩ := (calm_startFailed (n := n) _ n id _).exists_like
      (actor?_removeGeneration hb id generation)
    refine ⟨c, hc, ?_⟩
    rw [hduties', removeGeneration, duties_modify, hduties]
    exact .retract (hlike.without id generation |>.trans hlike')

/-! ### Works -/

/-- Every work is a turn of every interpreter that there is. -/
theorem exists_turn (hw : w.Unmarked) (hpending : ∀ x ∈ s.clock.pending, x.task.Unmarked)
    (ha : s.actor? n = some a) :
  ∃ b, (s.carryOut w).actor? n = some b ∧
    Turn n w a ((if w.duty? = some n then [w] else []) ++ s.duties n) b
      ((s.carryOut w).duties n)
  := by
  by_cases hduty : w.duty? = some n
  · rw [if_pos hduty]
    cases w with
    | pump m =>
      cases hduty
      exact turn_pump ha
    | handle m e =>
      cases hduty
      exact turn_handle ha e
    | macrostep m event origin =>
      cases hduty
      exact turn_macrostep ha event origin
    | react m snapshot event =>
      cases hduty
      exact turn_react ha snapshot event
    | perform m snapshot action =>
      cases hduty
      exact turn_perform ha snapshot action
    | invoke m snapshot action later =>
      cases hduty
      exact turn_invoke ha snapshot action later
    | publish m snapshot =>
      cases hduty
      exact exists_turn_of_calm (calm_publish s n snapshot) ha .publish
    | recordFault m fault =>
      cases hduty
      have hrecorded : Calm n s (s.modify n (fun a => { a with startFault := some fault })) :=
        (Calm.refl n s).modify (fun _ a _ => .of_eq rfl)
      exact exists_turn_of_calm hrecorded ha .recordFault
    | confirmStart m child id generation =>
      cases hduty
      exact turn_confirmStart ha child id generation
    | register m service =>
      cases hduty
      exact turn_register ha service
    | _ => cases hduty
  · rw [if_neg hduty]
    exact (outside_carryOut hw hpending hduty).exists_turn hduty ha

/-- An interpreter that is not there gets no duties. -/
theorem duties_carryOut_of_none (hw : w.Unmarked)
    (hpending : ∀ x ∈ s.clock.pending, x.task.Unmarked) (hduty : w.duty? ≠ some n)
    (ha : s.actor? n = none) :
  (s.carryOut w).duties n = s.duties n ∧ ∀ b, (s.carryOut w).actor? n = some b →
    ∃ a : Actor, a.Spawned s.catalog ∧ a.Like b
  := by
  have houtside : Outside n s w (s.carryOut w) := outside_carryOut hw hpending hduty
  have hcalm : Calm n s (s.carryOut w) := by
    generalize s.carryOut w = t at houtside
    cases houtside with
    | calm h => exact h
    | wakes h =>
      obtain ⟨a, b, ha', -⟩ := h.actor
      rw [ha] at ha'
      cases ha'
    | start =>
      rw [start, status, ha, if_pos (by simp)]
      exact (Calm.refl n s).diagnose _
    | stop =>
      rw [stop, ha]
      exact .refl n s
    | release =>
      refine (Calm.refl n s).modify (fun _ a ha' => ?_)
      rw [ha] at ha'
      cases ha'
  exact ⟨hcalm.duties, hcalm.born ha⟩

end Session

end Statechart
