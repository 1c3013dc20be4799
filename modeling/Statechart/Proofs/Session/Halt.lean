import Statechart.Proofs.Session.Fate

/-!
# Interpreters that are stopped

An interpreter that was stopped stays stopped, has no delayed sends any more and carries out no
action.  It may still store the snapshot of an event that it was about to take, and register a
service that it was about to register; its other services have ended when the stop returns, unless
they have completed before (`Course.halts`).
-/

namespace Statechart

open Session (committed)

variable {n : Nat} {a b : Actor} {w x y : Work} {ds es ws l r : List Work}
  {ms xs ys : List Moment} {m z : Moment} {v : Service} {snapshot : Snapshot} {event : Event}

/-- Whether a work is one with which a running interpreter takes an envelope, carries out an action,
starts an invocation or shows a snapshot. -/
def Work.isDeed (n : Nat) : Work → Bool
  | .handle k _ => k == n
  | .perform k _ _ => k == n
  | .invoke k _ _ _ => k == n
  | .publish k _ => k == n
  | _ => false

/-- Whether a work takes an event on to the next snapshot of an interpreter. -/
inductive Work.Takes (n : Nat) (event : Event) : Work → Prop where
  | macrostep (origin : Origin) : Takes n event (.macrostep n event origin)
  | react (snapshot : Snapshot) : Takes n event (.react n snapshot event)

theorem Work.Takes.opens (h : w.Takes n event) :
  w.opens = true
  := by
  cases h <;> rfl

/-- A service of an interpreter was there before, or is registered now. -/
theorem Turn.mem_services (h : Turn n w a ds b es) {e : String × Service} (he : e ∈ b.services) :
  e ∈ a.services ∨ w = .register n e.2
  := by
  have hsame : ∀ {services : List (String × Service)}, b.services = services → e ∈ services :=
    fun h => h ▸ he
  cases h with
  | calm _ h => exact Or.inl (hsame h.services)
  | wake _ _ _ h => exact Or.inl (hsame h.services)
  | start => exact Or.inl he
  | stop _ h => exact absurd (hsame h.services) List.not_mem_nil
  | release h => exact Or.inl (hsame h.services)
  | rest => exact Or.inl he
  | take => exact Or.inl he
  | idle _ h => exact Or.inl (hsame h.services)
  | boot _ _ _ h => exact Or.inl (hsame h.services)
  | unbooted _ _ h => exact Or.inl (hsame h.services)
  | @accept _ _ _ e' _ _ _ h =>
    obtain ⟨services, hsublist, heq⟩ := a.exists_admitting e'
    rw [heq] at h
    exact Or.inl (hsublist.subset (hsame h.services))
  | forward => exact Or.inl he
  | move => exact Or.inl he
  | remove => exact Or.inl (List.mem_of_mem_filter he)
  | refuse _ _ h => exact Or.inl (hsame h.services)
  | issue _ _ _ _ _ _ h => exact Or.inl (hsame h.services)
  | @register _ _ service =>
    rcases Association.mem_of_mem_insertSorted he with rfl | he
    · exact Or.inr rfl
    · exact Or.inl he
  | @retract _ _ _ _ id generation h =>
    obtain ⟨services, hsublist, heq⟩ := a.exists_without id generation
    rw [heq] at h
    exact Or.inl (hsublist.subset (hsame h.services))

/-- An interpreter that is stopped gets no duties from outside. -/
theorem Turn.duties_of_stopped (h : Turn n w a ds b es) (hstopped : a.status = .stopped)
    (hduty : w.duty? ≠ some n) :
  es = ds
  := by
  cases h with
  | calm => rfl
  | wake _ hrunning =>
    rw [hstopped] at hrunning
    cases hrunning
  | start hnew =>
    rw [hstopped] at hnew
    cases hnew
  | stop => rfl
  | release => rfl
  | idle hidle => cases hidle <;> exact absurd rfl hduty
  | _ => exact absurd rfl hduty

/-- An interpreter that is stopped issues no service. -/
theorem Turn.register_of_stopped (h : Turn n w a ds b es) (horderly : a.Orderly n ds)
    (hstopped : a.status = .stopped) (hmem : .register n v ∈ es) :
  .register n v ∈ ds
  := by
  by_cases hduty : w.duty? = some n
  · have hrunning : a.status ≠ .running := by
      rw [hstopped]
      exact Status.noConfusion
    have hcons : ∀ {x : Work} {ds : List Work}, Work.register n v ∈ x :: ds →
        x.registers = false → .register n v ∈ ds := by
      rintro x ds hmem hx
      rcases List.mem_cons.mp hmem with rfl | hmem
      · cases hx
      · exact hmem
    cases h with
    | calm hother => exact absurd hduty hother
    | wake _ h => exact absurd h hrunning
    | rest => exact List.mem_cons_of_mem _ hmem
    | take => exact hcons hmem rfl
    | idle => exact List.mem_cons_of_mem _ hmem
    | boot h => exact absurd h hrunning
    | unbooted h => exact absurd h hrunning
    | accept h => exact absurd h hrunning
    | forward => exact List.mem_cons_of_mem _ (hcons hmem rfl)
    | move =>
      rw [horderly.stage.of_react.2] at hmem
      cases (performing_committed _).registers hmem
    | remove h => exact absurd h hrunning
    | refuse h => exact absurd h hrunning
    | issue h => exact absurd h hrunning
    | register => exact List.mem_cons_of_mem _ hmem
    | retract => exact List.mem_cons_of_mem _ hmem
    | _ => cases hduty
  · rwa [h.duties_of_stopped hstopped hduty] at hmem

/-- An interpreter that is stopped takes no further events. -/
theorem Turn.takes_of_stopped (h : Turn n w a ds b es) (horderly : a.Orderly n ds)
    (hstopped : a.status = .stopped) (hx : x ∈ es) (htakes : x.Takes n event) :
  ∃ y ∈ ds, y.Takes n event
  := by
  rcases h.of_opens horderly hx htakes.opens with
    ⟨-, hx⟩ | ⟨e, queue, -, rfl, -⟩ | ⟨e, -, -, hrunning, -⟩ | ⟨snapshot, event', origin, rfl, rfl⟩
  · exact ⟨x, hx, htakes⟩
  · cases htakes
  · rw [hstopped] at hrunning
    cases hrunning
  · cases htakes
    refine ⟨_, ?_, .macrostep origin⟩
    generalize hds : ds = ds' at h
    cases h with
    | calm hother => exact absurd rfl hother
    | wake hother => exact absurd rfl hother
    | idle => exact List.mem_cons_self
    | forward => exact List.mem_cons_self

namespace Session

variable {s s₀ t : Session}

/-- Whether an interpreter is about to take an event. -/
def AboutToTake (s : Session) (n : Nat) (event : Event) : Prop :=
  ∃ w ∈ s.agenda, w.Takes n event

/-! ### After the stop -/

/-- No work but the stop of an interpreter that is not stopped yet asks for it to be emptied. -/
theorem not_release_mem (hstopped : ∃ a, s.actor? n = some a ∧ a.status = .stopped)
    (hws : (s.carryOut w).agenda = ws ++ s.agenda) :
  .release n ∉ ws
  := by
  have hsteady : ∀ {t}, Steady t (s.carryOut w) → t.agenda = s.agenda → .release n ∉ ws := by
    intro t hsteady ht hmem
    obtain ⟨ws', hws', hreleases⟩ := hsteady.agenda
    rw [hws, ht] at hws'
    rw [List.append_cancel_right hws'] at hmem
    cases hreleases _ hmem
  cases w with
  | invoke k snapshot action later =>
    rcases steady_invoke s k snapshot action later with hsame | ⟨c, hlaunched, -⟩
    · exact hsteady hsame rfl
    · exact hsteady hlaunched rfl
  | stopService service =>
    rcases steady_stopService s service with ⟨hsame, -⟩ | ⟨k, -, hclosed⟩
    · exact hsteady hsame rfl
    · exact hsteady hclosed rfl
  | stop k =>
    have hidle : (s.stop k).agenda = s.agenda → .release n ∉ ws := by
      intro hsame
      rw [carryOut, hsame, List.self_eq_append_left] at hws
      rw [hws]
      exact List.not_mem_nil
    cases ha : s.actor? k with
    | none =>
      apply hidle
      rw [stop, ha]
    | some a =>
      by_cases hstatus : a.status = .stopped
      · apply hidle
        rw [stop, ha]
        dsimp only
        rw [if_pos hstatus]
      · rw [carryOut, agenda_stop ha hstatus, List.append_cons] at hws
        rw [← List.append_cancel_right hws]
        have hk : k ≠ n := by
          rintro rfl
          obtain ⟨a', ha', hstopped⟩ := hstopped
          rw [ha, Option.some.injEq] at ha'
          subst ha'
          exact hstatus hstopped
        simp [hk.symm]
  | _ => exact hsteady (steady_carryOut rfl) rfl

/-- Whether the stop of an interpreter is under way, which will leave the agenda as it was when the
stop was called. -/
structure Winding (n : Nat) (before : List Work) (s : Session) (l : List Work) : Prop where
  agenda : s.agenda = l ++ .release n :: before
  quiet : ∀ w ∈ l, w.duty? ≠ some n ∧ w ≠ .release n
  actor : ∃ a, s.actor? n = some a ∧ a.status = .stopped ∧ a.services = []

theorem Winding.call {before : List Work} (h : Winding n before s l) (hcall : s.Called t) :
  ∃ ws, Winding n before t (ws ++ l)
  := by
  obtain ⟨ws, hws, hduty⟩ := (hcall.calm (n := n)).agenda
  obtain ⟨ws', hws', hreleases⟩ := hcall.steady.agenda
  obtain rfl := List.append_cancel_right (hws.symm.trans hws')
  use ws
  constructor
  case agenda => rw [hws, h.agenda, List.append_assoc]
  case quiet =>
    refine List.forall_mem_append.mpr ⟨fun w hw => ⟨(hduty w hw).2, ?_⟩, h.quiet⟩
    rintro rfl
    cases hreleases _ hw
  case actor =>
    obtain ⟨a, ha, hstopped, hservices⟩ := h.actor
    obtain ⟨b, hb, hlike⟩ := (hcall.calm (n := n)).actor a ha
    exact ⟨b, hb, hlike.status.trans hstopped, hlike.services.trans hservices⟩

/-- While a stop is under way what it has asked for is done, and what comes from that; then the stop
returns. -/
theorem Winding.step {before : List Work} (h : Winding n before s l) (h₀ : s₀.Fresh)
    (hcourse : Course s₀ ms s) (hm : s.Does m) :
  (∃ ws l', l = m.work :: l' ∧ m.after.agenda = ws ++ m.before.agenda ∧
      Winding n before m.after (ws ++ l')) ∨
    (l = [] ∧ m.work = .release n ∧ m.after.agenda = before)
  := by
  have hagenda := h.agenda
  rw [hm.agenda] at hagenda
  cases l with
  | nil =>
    obtain ⟨hwork, hbefore⟩ := List.cons.inj hagenda
    refine Or.inr ⟨rfl, hwork, ?_⟩
    rw [← hbefore, Moment.after, hwork]
    rfl
  | cons x l =>
    obtain ⟨rfl, hbefore⟩ := List.cons.inj hagenda
    obtain ⟨ws, hws⟩ := hcourse.exists_agenda h₀ hm
    refine Or.inl ⟨ws, l, rfl, hws, ?_⟩
    obtain ⟨⟨hother, -⟩, hquiet⟩ := List.forall_mem_cons.mp h.quiet
    obtain ⟨a, ha, hstopped, hservices⟩ := h.actor
    rw [← hm.actor?] at ha
    obtain ⟨b, hb, hturn⟩ := hcourse.exists_turn h₀ hm ha
    constructor
    case agenda =>
      rw [hws, hbefore, List.append_assoc]
      rfl
    case quiet =>
      refine List.forall_mem_append.mpr ⟨fun w hw => ⟨?_, ?_⟩, hquiet⟩
      · intro hduty
        have hsame := hturn.duties_of_stopped hstopped hother
        rw [hm.duties, if_neg hother, List.nil_append, duties, hws, List.filter_append, ← duties,
          List.append_left_eq_self, List.filter_eq_nil_iff] at hsame
        exact hsame w hw (by simpa using hduty)
      · rintro rfl
        exact not_release_mem ⟨a, ha, hstopped⟩ hws hw
    case actor =>
      refine ⟨b, hb, hturn.stopped hstopped, ?_⟩
      rw [List.eq_nil_iff_forall_not_mem]
      intro e he
      rcases hturn.mem_services he with he | hwork
      · rw [hservices] at he
        cases he
      · rw [hwork] at hother
        exact hother rfl

/-- What an interpreter that was stopped goes on with: with its snapshot, or with the one of an
event that it was about to take. -/
inductive Remains (n : Nat) (m : Moment) (a : Actor) (ys : List Moment) (b : Actor)
    (ds : List Work) : Prop where
  | kept (hstate : b.state = a.state)
      (hds : ∀ w ∈ ds, ∀ event, w.Takes n event → m.before.AboutToTake n event)
  | moved {y : Moment} {c : Actor} {snapshot next : Snapshot} {event : Event} (hy : y ∈ ys)
      (hwork : y.work = .react n snapshot event) (habout : m.before.AboutToTake n event)
      (hsnapshot : a.state = some snapshot) (hc : y.before.actor? n = some c)
      (hnext : c.machine.transition snapshot event = .ok next) (hstate : b.state = some next)
      (hds : ∀ w ∈ ds, ∀ event, ¬ w.Takes n event)

/-- What is left of an interpreter after its stop: its services were about to be registered. -/
structure Leftover (n : Nat) (m : Moment) (a : Actor) (ys : List Moment) (b : Actor)
    (ds : List Work) : Prop where
  status : b.status = .stopped
  services : ∀ e ∈ b.services, .register n e.2 ∈ m.before.agenda
  registers : ∀ v, .register n v ∈ ds → .register n v ∈ m.before.agenda
  remains : Remains n m a ys b ds

theorem Leftover.like {a' : Actor} (h : Leftover n m a' ys a ds) (hlike : a.Like b) :
  Leftover n m a' ys b ds
  := by
  constructor
  case status => exact hlike.status.trans h.status
  case services =>
    rw [hlike.services]
    exact h.services
  case registers => exact h.registers
  case remains =>
    cases h.remains with
    | kept hstate hds => exact .kept (hlike.state.trans hstate) hds
    | moved hy hwork habout hsnapshot hc hnext hstate hds =>
      exact .moved hy hwork habout hsnapshot hc hnext (hlike.state.trans hstate) hds

/-- What is left after a turn of an interpreter that is stopped. -/
theorem Leftover.turn {a' : Actor} (h : Leftover n m a' ys a ds) (horderly : a.Orderly n ds)
    (hz : z.before.actor? n = some a) (hfirst : z.work.duty? = some n → ∃ ds', ds = z.work :: ds')
    (hturn : Turn n z.work a ds b es) :
  Leftover n m a' (ys ++ [z]) b es
  := by
  have hmem : z.work.duty? = some n → z.work ∈ ds := by
    intro hduty
    obtain ⟨ds', hds⟩ := hfirst hduty
    rw [hds]
    exact List.mem_cons_self
  constructor
  case status => exact hturn.stopped h.status
  case services =>
    intro e he
    rcases hturn.mem_services he with he | hwork
    · exact h.services e he
    · apply h.registers
      rw [← hwork]
      apply hmem
      rw [hwork]
      rfl
  case registers =>
    exact fun v hv => h.registers v (hturn.register_of_stopped horderly h.status hv)
  case remains =>
    have htakes : ∀ {w event}, w ∈ es → w.Takes n event → ∃ w ∈ ds, w.Takes n event :=
      fun hw htakes => hturn.takes_of_stopped horderly h.status hw htakes
    have hcases := hturn.state
    rw [h.status] at hcases
    rcases hcases with hsame | ⟨hrunning, -⟩ | ⟨snapshot, event, next, hwork, hnext, rfl⟩
    · cases h.remains with
      | kept hstate hds =>
        refine .kept (hsame.trans hstate) (fun w hw event hw' => ?_)
        obtain ⟨x, hx, hx'⟩ := htakes hw hw'
        exact hds x hx event hx'
      | moved hy hwork habout hsnapshot hc hnext hstate hds =>
        refine .moved (List.mem_append_left _ hy) hwork habout hsnapshot hc hnext
          (hsame.trans hstate) (fun w hw event hw' => ?_)
        obtain ⟨x, hx, hx'⟩ := htakes hw hw'
        exact hds x hx event hx'
    · cases hrunning
    · have hduty : z.work.duty? = some n := by
        rw [hwork]
        rfl
      have hw := hmem hduty
      rw [hwork] at hw
      cases h.remains with
      | moved _ _ _ _ _ _ _ hds => exact absurd (.react snapshot) (hds _ hw event)
      | kept hstate hds =>
        obtain ⟨ds', hds'⟩ := hfirst hduty
        have hstage := horderly.stage
        rw [hds', hwork] at hstage
        refine .moved (List.mem_append_right ys List.mem_cons_self) hwork
          (hds _ hw event (.react snapshot)) (hstate.symm.trans hstage.of_react.1) hz hnext rfl ?_
        intro w hw event' hw'
        rcases hturn.of_opens horderly hw hw'.opens with
          ⟨hother, -⟩ | ⟨e, _, heq, -⟩ | ⟨e, heq, -⟩ | ⟨_, _, _, heq, -⟩
        · exact hother hduty
        · cases hwork.symm.trans heq
        · cases hwork.symm.trans heq
        · cases hwork.symm.trans heq

/-- What is left of an interpreter that was stopped, all along the course. -/
theorem Course.leftover (h₀ : s₀.Fresh) (h : Course s₀ (xs ++ m :: ys) s) (hm : m.work = .stop n)
    (ha : m.before.actor? n = some a) (hopen : a.status ≠ .stopped) (hb : s.actor? n = some b) :
  Leftover n m a ys b (s.duties n)
  := by
  have hafter := actor?_stop ha hopen
  rw [← carryOut, ← hm] at hafter
  have hduties : m.after.duties n = m.before.duties n := by
    rw [duties, Moment.after, hm, carryOut, agenda_stop ha hopen, List.filter_append,
      List.filter_eq_nil_iff.mpr, List.filter_cons_of_neg]
    · rfl
    · simp [Work.duty?]
    · intro w hw
      obtain ⟨e, -, rfl⟩ := List.mem_map.mp hw
      simp [Work.duty?]
  refine h.induction_since (P := fun ys b ds => Leftover n m a ys b ds)
    (fun _ _ _ _ hleft hlike => hleft.like hlike) ?_ h₀ hafter ?_ hb
  · intro ys t z c d hcourse hz hleft hc hd hturn
    refine hleft.turn (hcourse.orderly h₀ hc) ((hz.actor? n).trans hc) ?_ hturn
    exact fun hduty => ⟨_, hz.duties_eq_cons rfl hduty⟩
  · rw [hduties]
    refine ⟨rfl, fun e he => absurd he List.not_mem_nil,
      fun v hv => mem_agenda_of_mem_duties hv, .kept rfl ?_⟩
    exact fun w hw event htakes => ⟨w, mem_agenda_of_mem_duties hw, htakes⟩

/-- An interpreter that is stopped arms no timer. -/
theorem Course.timers_eq_nil (h₀ : s₀.Fresh) (h : Course s₀ (xs ++ m :: ys) s)
    (hm : m.work = .stop n) (ha : m.before.actor? n = some a) (hopen : a.status ≠ .stopped) :
  ∃ b, s.actor? n = some b ∧ b.status = .stopped ∧ b.timers = []
  := by
  refine h.induction_after
    (P := fun _ t => ∃ b, t.actor? n = some b ∧ b.status = .stopped ∧ b.timers = []) ?_ ?_ ?_
  · rintro ys t u - ⟨b, hb, hstopped, htimers⟩ hcall
    obtain ⟨c, hc, -, hkept, -⟩ := hcall.exists_kept hb
    obtain ⟨d, hd, hlike⟩ := (hcall.calm (n := n)).actor b hb
    rw [hc, Option.some.injEq] at hd
    subst hd
    exact ⟨c, hc, hlike.status.trans hstopped, hkept.trans htimers⟩
  · rintro ys t z hcourse ⟨b, hb, hstopped, htimers⟩ hz
    rw [← hz.actor?] at hb
    obtain ⟨c, hc, hages⟩ := exists_ages z.before z.work hb
    obtain ⟨d, hd, hturn⟩ := hcourse.exists_turn h₀ hz hb
    rw [Moment.after, hc, Option.some.injEq] at hd
    subst hd
    refine ⟨c, hc, hturn.stopped hstopped, ?_⟩
    have hsublist := hages.timers (by rw [hstopped]; exact Status.noConfusion)
    rw [htimers] at hsublist
    exact List.sublist_nil.mp hsublist
  · have hafter := actor?_stop ha hopen
    rw [← carryOut, ← hm] at hafter
    exact ⟨_, hafter, rfl, rfl⟩

/-- An interpreter that does not run does nothing. -/
theorem carryOut_of_isDeed (hw : w.isDeed n = true) (hidle : s.isRunning n = false) :
  s.carryOut w = s
  := by
  cases w with
  | handle k e =>
    obtain rfl : k = n := by simpa [Work.isDeed] using hw
    rw [carryOut, handle, hidle]
    rfl
  | perform k snapshot action =>
    obtain rfl : k = n := by simpa [Work.isDeed] using hw
    rw [carryOut, perform, hidle]
    rfl
  | invoke k snapshot action later =>
    obtain rfl : k = n := by simpa [Work.isDeed] using hw
    rw [carryOut, invoke, hidle]
    split <;> rfl
  | publish k snapshot =>
    obtain rfl : k = n := by simpa [Work.isDeed] using hw
    rw [carryOut, publish]
    split
    · rfl
    · next a ha =>
      have hstatus : a.status ≠ .running := by
        intro hrunning
        rw [(isRunning_iff ha).mpr hrunning] at hidle
        cases hidle
      rw [if_pos hstatus]
  | _ => cases hw

/-- A service that is live when its interpreter is stopped has ended when the stop returns. -/
theorem Course.ended_of_serves (h₀ : s₀.Fresh) (h : Course s₀ (xs ++ m :: ys) s)
    (hm : m.work = .stop n) (hserves : m.before.Serves n v) (hcarries : m.after.Carries v)
    (hreturned : .release n ∉ s.agenda) :
  s.Ended v
  := by
  obtain ⟨a, ha, hrunning, hlookup⟩ := hserves
  have hopen : a.status ≠ .stopped := by
    rw [hrunning]
    exact Status.noConfusion
  have hwinds : s.Ended v ∨ ∃ l, Winding n m.before.agenda s l ∧ Ending v l := by
    refine h.induction_after
      (P := fun _ t => t.Ended v ∨ ∃ l, Winding n m.before.agenda t l ∧ Ending v l) ?_ ?_ ?_
    · rintro ys t u - hfate hcall
      refine hfate.imp (fun h => h.call hcall) ?_
      rintro ⟨l, hwinding, hending⟩
      obtain ⟨ws, hwinding⟩ := hwinding.call hcall
      exact ⟨ws ++ l, hwinding, hending.append ws⟩
    · rintro ys t z hcourse hfate hz
      have hbefore : z.before.Carries v := by
        rw [hz.before]
        exact hcourse.carries hcarries
      rcases hfate with hended | ⟨l, hwinding, hending⟩
      · have hended : z.before.Ended v := by
          rw [hz.before]
          exact hended
        exact Or.inl (hended.step h₀ hcourse hz)
      rcases hwinding.step h₀ hcourse hz with ⟨ws, l', rfl, hagenda, hwinding⟩ | ⟨rfl, -⟩
      · rcases ending_step hbefore hending with hending | hended | ⟨c, hbacking, hagenda'⟩
        · exact Or.inr ⟨_, hwinding, hending.append ws⟩
        · exact Or.inl hended
        · have hws : ws = [.stop c] :=
            List.append_cancel_right (hagenda.symm.trans hagenda')
          refine Or.inr ⟨_, hwinding, Or.inr ⟨c, hbacking, ?_⟩⟩
          rw [hws]
          exact List.mem_cons_self
      · rcases hending with hmem | ⟨c, -, hmem⟩
        · cases hmem
        · cases hmem
    · have hafter := actor?_stop ha hopen
      have hagenda := agenda_stop ha hopen
      rw [← carryOut, ← hm] at hafter hagenda
      have hmem := Association.mem_of_lookup hlookup
      refine Or.inr ⟨_, ⟨hagenda, ?_, _, hafter, rfl, rfl⟩,
        Or.inl (List.mem_map.mpr ⟨_, hmem, rfl⟩)⟩
      intro w hw
      obtain ⟨e, -, rfl⟩ := List.mem_map.mp hw
      exact ⟨by simp [Work.duty?], Work.noConfusion⟩
  refine hwinds.resolve_right ?_
  rintro ⟨l, hwinding, -⟩
  apply hreturned
  rw [hwinding.agenda]
  exact List.mem_append_right l List.mem_cons_self

/-- What was made of a service of an interpreter that is stopped at a moment. -/
inductive Settled (n : Nat) (v : Service) (xs : List Moment) (m : Moment) (s : Session) : Prop where
  | ended (h : s.Ended v)
  /-- Its stop was asked for before, by a call that goes on. -/
  | ending (hbefore : Ending v m.before.agenda) (h : Ending v s.agenda)
  | completed {z : Moment} (hz : z ∈ xs) (h : z.Reports n v)
  /-- It was about to be registered. -/
  | missed (h : .register n v ∈ m.before.agenda)

/-- When the stop of an interpreter returns, each of its services is settled. -/
theorem Course.settled (h₀ : s₀.Fresh) (h : Course s₀ (xs ++ m :: ys) s) (hm : m.work = .stop n)
    (ha : m.before.actor? n = some a) (hopen : a.status ≠ .stopped)
    (hreturned : .release n ∉ s.agenda) (hx : z ∈ xs) (hissues : z.Issues n v) :
  Settled n v xs m s
  := by
  obtain ⟨us, vs, rfl⟩ := List.append_of_mem hx
  obtain ⟨t, hcourse, hdoes, -⟩ := h.split
  obtain ⟨u, hcourse', hdoes', -⟩ := hcourse.split
  obtain ⟨_, _, _, _, _, -, -, -, hlaunched, -, -⟩ := hcourse'.launched h₀ hdoes' hissues
  have hcarries : m.before.Carries v := by
    rw [hdoes.before]
    exact hcourse.carries (carries_of_launched hlaunched)
  have hended : m.after.Ended v → Settled n v (us ++ z :: vs) m s :=
    fun hended => .ended (h.ended h₀ hended)
  have hending : Ending v m.before.agenda → Settled n v (us ++ z :: vs) m s := by
    intro hending
    obtain ⟨ws, hws⟩ := hcourse.exists_agenda h₀ hdoes
    have hafter : Ending v m.after.agenda := by
      rw [hws]
      exact hending.append ws
    rcases (h.ending h₀ (hcarries.step m.work) (Or.inl hafter)).2 with hstill | hended
    · exact .ending hending hstill
    · exact .ended hended
  have hcons : ∀ {w}, w ∈ t.agenda → w = .stop n ∨ w ∈ m.before.agenda := by
    intro w hw
    rw [hdoes.agenda, hm] at hw
    exact List.mem_cons.mp hw
  rcases hcourse.fate h₀ hissues ((hdoes.actor? n).symm.trans ha) hopen with
    hmem | hserves | ⟨y, hy, hreports⟩ | hmem | hstopped
  · exact .missed ((hcons hmem).resolve_left Work.noConfusion)
  · have hbefore : m.before.Serves n v := by
      obtain ⟨b, hb, hserves⟩ := hserves
      exact ⟨b, (hdoes.actor? n).trans hb, hserves⟩
    exact .ended (h.ended_of_serves h₀ hm hbefore (hcarries.step m.work) hreturned)
  · exact .completed (List.mem_append_right us (List.mem_cons_of_mem z hy)) hreports
  · rcases hmem with hmem | ⟨c, hbacking, hmem⟩
    · exact hending (Or.inl ((hcons hmem).resolve_left Work.noConfusion))
    · rcases hcons hmem with heq | hmem
      · cases heq
        apply hended
        rw [Ended, hbacking, Moment.after, hm]
        exact exists_stopped ha
      · exact hending (Or.inr ⟨c, hbacking, hmem⟩)
  · have hbefore : m.before.Ended v := by
      rw [hdoes.before]
      exact hstopped
    exact hended (hbefore.step h₀ hcourse hdoes)

/-- What holds of an interpreter ever after it was stopped at a moment: it is stopped and has no
delayed sends; its snapshot is the one that it had, or that of an event which it was about to take;
its services were about to be registered; it does nothing, and issues no service; and when the stop
has returned all services that it had issued are settled. -/
structure Halted (n : Nat) (xs : List Moment) (m : Moment) (ys : List Moment) (s : Session) :
    Prop where
  actor : ∃ b, s.actor? n = some b ∧ b.status = .stopped ∧ b.timers = [] ∧
    ∀ e ∈ b.services, .register n e.2 ∈ m.before.agenda
  state : s.state? n = m.before.state? n ∨ ∃ y ∈ ys, ∃ c snapshot event next,
    y.work = .react n snapshot event ∧ m.before.AboutToTake n event ∧
      m.before.state? n = some snapshot ∧ y.before.actor? n = some c ∧
      c.machine.transition snapshot event = .ok next ∧ s.state? n = some next
  idle : ∀ y ∈ ys, y.work.isDeed n = true → y.after = y.before
  issues : ∀ y ∈ ys, ∀ v, ¬ y.Issues n v
  settled : .release n ∉ s.agenda → ∀ x ∈ xs, ∀ v, x.Issues n v → Settled n v xs m s

/-- An interpreter that is stopped stays so and does nothing, whatever called for the stop; only
what was under way is brought to its end. -/
theorem Course.halts (h₀ : s₀.Fresh) (h : Course s₀ (xs ++ m :: ys) s) (hm : m.work = .stop n)
    (ha : m.before.actor? n = some a) (hopen : a.status ≠ .stopped) :
  Halted n xs m ys s
  := by
  have hidle : ∀ y ∈ ys, y.before.isRunning n = false := by
    intro y hy
    obtain ⟨us, vs, rfl⟩ := List.append_of_mem hy
    rw [← List.cons_append, ← List.append_assoc] at h
    obtain ⟨t, hcourse, hdoes, -⟩ := h.split
    obtain ⟨b, hb, hstopped, -⟩ := hcourse.timers_eq_nil h₀ hm ha hopen
    rw [← hdoes.actor?] at hb
    rw [isRunning, status, hb]
    exact beq_eq_false_iff_ne.mpr (by simp [hstopped])
  obtain ⟨b, hb, hstopped, htimers⟩ := h.timers_eq_nil h₀ hm ha hopen
  have hleft := h.leftover h₀ hm ha hopen hb
  have hbefore : m.before.state? n = a.state := by
    rw [state?, ha]
    rfl
  have hafter : s.state? n = b.state := by
    rw [state?, hb]
    rfl
  constructor
  case actor => exact ⟨b, hb, hstopped, htimers, hleft.services⟩
  case state =>
    rw [hbefore, hafter]
    cases hleft.remains with
    | kept hstate => exact Or.inl hstate
    | @moved y c snapshot next event hy hwork habout hsnapshot hc hnext hstate =>
      exact Or.inr ⟨y, hy, c, snapshot, event, next, hwork, habout, hsnapshot, hc, hnext, hstate⟩
  case idle => exact fun y hy hdeed => carryOut_of_isDeed hdeed (hidle y hy)
  case issues =>
    intro y hy v hissues
    obtain ⟨us, vs, rfl⟩ := List.append_of_mem hy
    rw [← List.cons_append, ← List.append_assoc] at h
    obtain ⟨t, hcourse, hdoes, -⟩ := h.split
    obtain ⟨_, _, _, _, _, -, -, hrunning, -⟩ := hcourse.launched h₀ hdoes hissues
    rw [hidle y hy] at hrunning
    cases hrunning
  case settled =>
    exact fun hreturned x hx v hissues => h.settled h₀ hm ha hopen hreturned hx hissues

/-! ### Stops in the middle of a macrostep -/

/-- Whether a work stops an interpreter. -/
def isStop (n : Nat) : Work → Bool
  | .stop k => k == n
  | _ => false

theorem eq_stop_of_isStop (h : isStop n w = true) :
  w = .stop n
  := by
  cases w with
  | stop k => rw [eq_of_beq h]
  | _ => cases h

theorem eq_release_of_releases (h : w.releases = true) (hn : w.actors = [n]) :
  w = .release n
  := by
  cases w with
  | release k =>
    cases hn
    rfl
  | _ => cases h

/-- An action that stops the interpreter at the root. -/
def halt : Action :=
  .inline "halt" (fun _ _ => [.stop])

/-- A machine that stops while its callback service is live. -/
def quitting : Document.Machine where
  root := .node { initial := some "a" }
    [("a", .node { invoke := [{ id := some "x", src := "callback" }],
                   on := [("GO", [{ actions := [halt], internal := true }])] } [])]

/-- A script that has a disposer. -/
def lingering : Script where
  dispose := some []

theorem halts_quitting :
  ∃ chart, Chart.ofDocument quitting = .ok chart ∧
    ∃ xs m ys s a, (ofScript chart lingering).Fresh ∧
      Course (ofScript chart lingering) (xs ++ m :: ys) s ∧ m.work = .stop root ∧
      m.before.actor? root = some a ∧ a.status ≠ .stopped ∧ a.services ≠ [] ∧ s.agenda = [] ∧
      Halted root xs m ys s
  := by
  obtain ⟨chart, h, hp⟩ := Outcome.exists_of_any (x := Chart.ofDocument quitting)
    (p := fun chart =>
      let run := (ofScript chart lingering).conduct 50 [.start root, .send root (.bare "GO")]
      run.2.agenda.isEmpty = true ∧ run.1[14]?.any (fun m => isStop root m.work = true ∧
        (m.before.actor? root).any (fun a => a.status = .running ∧ a.services.isEmpty = false)))
    (by decide +kernel)
  obtain ⟨hagenda, hm⟩ := of_decide_eq_true hp
  obtain ⟨m, hm, hfacts⟩ := (Option.any_eq_true _ _).mp hm
  obtain ⟨hstop, ha⟩ := of_decide_eq_true hfacts
  obtain ⟨a, ha, hfacts⟩ := (Option.any_eq_true _ _).mp ha
  obtain ⟨hrunning, hservices⟩ := of_decide_eq_true hfacts
  have h₀ := fresh_ofScript ⟨quitting, h⟩ lingering
  have hcourse := course_conduct 50 (ofScript chart lingering)
    [.start root, .send root (.bare "GO")] (by decide)
  rw [eq_take_append_cons_drop hm] at hcourse
  have hwork := eq_stop_of_isStop hstop
  have hopen : a.status ≠ .stopped := by
    rw [hrunning]
    exact Status.noConfusion
  exact ⟨chart, h, _, m, _, _, a, h₀, hcourse, hwork, ha, hopen,
    List.isEmpty_eq_false_iff.mp hservices, List.isEmpty_iff.mp hagenda,
    hcourse.halts h₀ hwork ha hopen⟩

/-- A machine that forwards an event to a child before it takes it. -/
def forwarding : Document.Machine where
  root := .node { initial := some "a" }
    [("a", .node { invoke := [{ id := some "x", src := "child", forward := true }],
                   on := [("GO", [{ targets := ["b"] }])] } []),
     ("b", .node {} [])]

/-- A machine that stops the root with an event. -/
def breaking : Document.Machine where
  root := .node { initial := some "s" }
    [("s", .node { on := [("GO", [{ actions := [halt] }])] } [])]

/-- The session of a chart that invokes the machine of another one. -/
def ofChild (chart child : Chart) : Session :=
  ofMachine (.ofChart chart) [("child", .machine (.ofChart child))]

theorem fresh_ofChild {chart child : Chart} (h : chart.Compiled) (hchild : child.Compiled) :
  (ofChild chart child).Fresh
  := by
  apply fresh_ofMachine h
  intro src m hm
  rw [List.lookup_cons] at hm
  split at hm
  · cases hm
    exact hchild
  · cases hm

/-- An interpreter that is stopped while it forwards an event takes the event all the same: its
snapshot changes after the stop has returned. -/
theorem moves_after_stop :
  ∃ chart child, Chart.ofDocument forwarding = .ok chart ∧ Chart.ofDocument breaking = .ok child ∧
    ∃ xs m us r vs s c d, (ofChild chart child).Fresh ∧
      Course (ofChild chart child) (xs ++ m :: (us ++ r :: vs)) s ∧ s.agenda = [] ∧
      m.work = .stop root ∧ r.work = .release root ∧ r.after.state? root = some c ∧
      c.covers "a" = true ∧ s.state? root = some d ∧ d.covers "a" = false
  := by
  obtain ⟨chart, h, hp⟩ := Outcome.exists_of_any (x := Chart.ofDocument forwarding)
    (p := fun chart => (Chart.ofDocument breaking).toOption.any (fun child =>
      let run := (ofChild chart child).conduct 50 [.start root, .send root (.bare "GO")]
      run.2.agenda.isEmpty = true ∧ run.1[24]?.any (fun m => isStop root m.work) = true ∧
        (run.1.drop 25)[3]?.any (fun r => r.work.releases = true ∧ r.work.actors = [root] ∧
          (r.after.state? root).any (fun c => c.covers "a") = true) ∧
        (run.2.state? root).any (fun d => d.covers "a" = false)))
    (by decide +kernel)
  obtain ⟨child, hchild, hp⟩ := Outcome.exists_of_any hp
  obtain ⟨hagenda, hm, hr, hd⟩ := of_decide_eq_true hp
  obtain ⟨m, hm, hstop⟩ := (Option.any_eq_true _ _).mp hm
  obtain ⟨r, hr, hfacts⟩ := (Option.any_eq_true _ _).mp hr
  obtain ⟨hreleases, hactors, hc⟩ := of_decide_eq_true hfacts
  obtain ⟨c, hc, hcovers⟩ := (Option.any_eq_true _ _).mp hc
  obtain ⟨d, hd, hmoved⟩ := (Option.any_eq_true _ _).mp hd
  have hcourse := course_conduct 50 (ofChild chart child) [.start root, .send root (.bare "GO")]
    (by decide)
  rw [eq_take_append_cons_drop hm, eq_take_append_cons_drop hr] at hcourse
  exact ⟨chart, child, h, hchild, _, m, _, r, _, _, c, d,
    fresh_ofChild ⟨forwarding, h⟩ ⟨breaking, hchild⟩, hcourse, List.isEmpty_iff.mp hagenda,
    eq_stop_of_isStop hstop, eq_release_of_releases hreleases hactors, hc, hcovers, hd,
    of_decide_eq_true hmoved⟩

end Session

end Statechart
