import Statechart.Proofs.Session.Arming
import Statechart.Proofs.Session.Delivery
import Statechart.Proofs.Session.Lone
import Statechart.Proofs.Session.Pending
import Statechart.Proofs.Session.Timetable

/-!
# Interpreters that are operated from outside

A lone interpreter is started, sent events and stopped, and its clock is moved, each call being
carried out to its end before the next.  The clock moves only when nothing else is left to do, so
that the envelope of a timer is handled before anything else happens (`Phase`).  The timers of the
clock match the delayed sends of the interpreter all the time, but for the one whose envelope is on
its way (`Operating.step`), so between the calls they correspond one to one
(`Operated.timers_correspond`).
-/

namespace Statechart

/-! ### The timetable under works -/

section

variable {n : Nat} {s t : Session} {a b : Actor} {w : Work} {id : SendId}

theorem Actor.unwound_eq (a : Actor) (id : SendId) (clock : Clock Alarm) :
  (a.unwound id clock).pending = clock.pending ∧ (a.unwound id clock).now = clock.now
  := by
  rw [Actor.unwound]
  split
  · exact ⟨rfl, rfl⟩
  · exact ⟨Clock.pending_cancel _ _, (Clock.now_cancel _ _).1⟩

/-- The cancellation of a delayed send keeps the match, be the send armed or not. -/
theorem Timetable.unwound {clock : Clock Alarm} (h : Timetable a.timers [] clock) (id : SendId) :
  Timetable (Association.erase id a.timers) [] (a.unwound id clock)
  := by
  rw [Actor.unwound]
  cases hlookup : a.timers.lookup id with
  | none =>
    rw [Association.erase, List.filter_eq_self.mpr]
    · exact h
    · intro e he
      have hne := List.lookup_eq_none_iff.mp hlookup e he
      simpa using fun heq : e.1 = id => (bne_iff_ne.mp hne) heq.symm
  | some d => exact h.cancel hlookup

/-- The cancellation of delayed sends one after the other keeps the match. -/
theorem Timetable.foldl_cancelSend (ha : s.actor? n = some a) (h : Timetable a.timers [] s.clock)
    (timers : List (SendId × DelayedSend)) :
  ∃ b, (timers.foldl (fun s e => s.cancelSend n e.1) s).actor? n = some b ∧
    Timetable b.timers [] (timers.foldl (fun s e => s.cancelSend n e.1) s).clock ∧
    (timers.foldl (fun s e => s.cancelSend n e.1) s).clock.pending = s.clock.pending ∧
    (timers.foldl (fun s e => s.cancelSend n e.1) s).clock.now = s.clock.now
  := by
  induction timers generalizing s a with
  | nil => exact ⟨a, ha, h, rfl, rfl⟩
  | cons e timers ih =>
    have hclock := Session.clock_cancelSend ha e.1
    have hcancelled : Timetable (a.disarm e.1).timers [] (s.cancelSend n e.1).clock :=
      hclock ▸ h.unwound e.1
    obtain ⟨b, hb, htable, hpending, hnow⟩ := ih (Session.actor?_cancelSend ha e.1) hcancelled
    rw [hclock] at hpending hnow
    exact ⟨b, hb, htable, hpending.trans (a.unwound_eq e.1 _).1, hnow.trans (a.unwound_eq e.1 _).2⟩

/-- Whether no timer of a clock is due yet. -/
def Clock.IsAhead (c : Clock Alarm) : Prop :=
  ∀ t ∈ c.pending, c.now < t.deadline

/-- What an interpreter does to its delayed sends keeps the match, and takes no time. -/
theorem Timetable.alters (h : Timetable a.timers [] s.clock) (ha : s.actor? Session.root = some a)
    (halters : Alters Session.root s a w t b) (hw : w.winds Session.root = false)
    (htimers : s.hasTimers = true)
    (huntimed : ∀ e, w = .handle Session.root e → e.isTimed = false) :
  Timetable b.timers [] t.clock ∧ t.clock.now = s.clock.now ∧ (s.clock.IsAhead → t.clock.IsAhead)
  := by
  cases halters with
  | keep hkept _ hclock =>
    rw [hkept, hclock hw]
    exact ⟨h, rfl, fun hahead => hahead⟩
  | cancel _ _ hkept _ hclock =>
    rw [hkept, hclock, Clock.IsAhead, Clock.IsAhead, (a.unwound_eq _ _).1, (a.unwound_eq _ _).2]
    exact ⟨h.unwound _, rfl, fun hahead => hahead⟩
  | @arm _ _ send delay _ _ _ _ _ hkept _ hclock =>
    obtain ⟨hpending, hnow⟩ := a.unwound_eq (a.keyOf send) s.clock
    rw [hkept, hclock]
    refine ⟨(h.unwound _).schedule (Association.lookup_erase_self _ _) _ _ _ _, hnow, ?_⟩
    intro hahead x hx
    rcases Clock.mem_insertTimer.mp hx with rfl | hx
    · exact Nat.lt_add_of_pos_right (Nat.succ_pos _)
    · rw [hpending] at hx
      exact hnow ▸ hahead x hx
  | displace htimerless => exact absurd (htimers.symm.trans htimerless) Bool.noConfusion
  | @take e id d _ _ _ horigin =>
    have htimed := huntimed e rfl
    rw [Envelope.isTimed, horigin] at htimed
    cases htimed
  | stop _ hkept _ hclock =>
    obtain ⟨c, hc, htable, hpending, hnow⟩ := h.foldl_cancelSend ha a.timers
    rw [Session.actor?_foldl_cancelSend ha a.timers, Option.some.injEq] at hc
    have hnone : c.timers = [] := by
      rw [← hc, List.filter_eq_nil_iff]
      intro e he hall
      exact of_decide_eq_true (List.all_eq_true.mp hall e he) rfl
    rw [hkept, hclock, Clock.IsAhead, Clock.IsAhead, hpending, hnow, ← hnone]
    exact ⟨htable, rfl, fun hahead => hahead⟩

end

/-- Only its stop stops an interpreter. -/
theorem Turn.of_stopped {n : Nat} {a b : Actor} {w : Work} {ds es : List Work}
    (h : Turn n w a ds b es) (ha : a.status ≠ .stopped) (hb : b.status = .stopped) :
  w = .stop n
  := by
  cases h with
  | calm _ hlike => exact absurd (hlike.status.symm.trans hb) ha
  | wake _ _ _ hlike => exact absurd (hlike.status.symm.trans hb) ha
  | start => cases hb
  | stop => rfl
  | release hlike => exact absurd (hlike.status.symm.trans hb) ha
  | rest => exact absurd hb ha
  | take => exact absurd hb ha
  | idle _ hlike => exact absurd (hlike.status.symm.trans hb) ha
  | boot _ _ _ hlike => exact absurd (hlike.status.symm.trans hb) ha
  | unbooted _ _ hlike => exact absurd (hlike.status.symm.trans hb) ha
  | @accept _ _ _ e _ _ _ hlike =>
    obtain ⟨services, -, heq⟩ := a.exists_admitting e
    rw [heq] at hlike
    exact absurd (hlike.status.symm.trans hb) ha
  | forward => exact absurd hb ha
  | move => exact absurd hb ha
  | remove => exact absurd hb ha
  | refuse _ _ hlike => exact absurd (hlike.status.symm.trans hb) ha
  | issue _ _ _ _ _ _ hlike => exact absurd (hlike.status.symm.trans hb) ha
  | register => exact absurd hb ha
  | @retract _ _ _ _ id generation hlike =>
    obtain ⟨services, -, heq⟩ := a.exists_without id generation
    rw [heq] at hlike
    exact absurd (hlike.status.symm.trans hb) ha

/-- An interpreter that is running goes on unless it is stopped. -/
theorem Turn.running {n : Nat} {a b : Actor} {w : Work} {ds es : List Work}
    (h : Turn n w a ds b es) (ha : a.status = .running) (hw : w ≠ .stop n) :
  b.status = .running
  := by
  have hopen : a.status ≠ .stopped := by
    rw [ha]
    exact Status.noConfusion
  rcases h.status with hsame | ⟨-, hrunning⟩ | ⟨hstopped, -⟩
  · exact hsame.trans ha
  · exact hrunning
  · exact absurd (h.of_stopped hopen hstopped) hw

/-- Whether an interpreter that is running has an empty mailbox unless it drains it. -/
def Actor.Tidy (a : Actor) : Prop :=
  a.status = .running → a.mailbox.draining = false → a.mailbox.queue = []

theorem Actor.Tidy.of_draining {a : Actor}
    (h : a.mailbox.draining = true ∨ a.mailbox.queue = []) :
  a.Tidy
  := by
  intro _ hfree
  rcases h with hdraining | hqueue
  · rw [hdraining] at hfree
    cases hfree
  · exact hqueue

namespace Session

/-! ### Operations -/

/-- What a caller does with an interpreter and with its clock. -/
inductive Operates (s : Session) : Session → Prop where
  | start : Operates s s.starting
  | startFrom (persisted : Persisted) : Operates s (s.startingFrom persisted)
  | send (event : Event) : Operates s (s.sending event)
  | advance (micros : Nat) : Operates s (s.advancing micros)
  | stop : Operates s s.stopping

/-- The courses of calls that are carried out to their ends one after the other. -/
inductive Operated (s₀ : Session) : List Moment → Session → Prop where
  | refl : Operated s₀ [] s₀
  | call {ms s t} (h : Operated s₀ ms s) (hrest : s.agenda = []) (hcall : s.Operates t) :
      Operated s₀ ms t
  | step {ms s m} (h : Operated s₀ ms s) (hm : s.Does m) : Operated s₀ (ms ++ [m]) m.after

/-- The session of a machine with settings that is not started yet. -/
def prepared (machine : Machine) (settings : Settings) (catalog : List (String × Source)) :
    Session :=
  (ofMachine machine catalog).withSettings settings

variable {m : Machine} {s s₀ t : Session} {a b : Actor} {w : Work} {ms xs ys : List Moment}
  {x y : Moment} {flying : List (Timer Alarm)}

theorem fresh_prepared {settings : Settings} {catalog : List (String × Source)}
    (hmachine : m.chart.Compiled)
    (hcatalog : ∀ src m, catalog.lookup src = some (.machine m) → m.chart.Compiled) :
  (prepared m settings catalog).Fresh
  := ⟨⟨_, rfl, hmachine, rfl, rfl, rfl, rfl, rfl⟩, hcatalog, rfl, rfl, rfl⟩

/-- A call brings no duties. -/
theorem Operates.duties (h : s.Operates t) (n : Nat) :
  t.duties n = s.duties n
  := by
  cases h <;> rfl

theorem Operated.course (h : Operated s₀ ms s) :
  Course s₀ ms s
  := by
  induction h with
  | refl => exact .refl
  | call h hrest hcall ih =>
    cases hcall with
    | start => exact .call ih (.work rfl)
    | startFrom persisted => exact .call (.call ih (.resume persisted)) (.work rfl)
    | send event => exact .call ih (.work rfl)
    | advance micros => exact .call ih (.work rfl)
    | stop => exact .call ih (.work rfl)
  | step h hm ih => exact .step ih hm

/-- What is done at a moment is done in the session that the moments before it lead to. -/
theorem Operated.split (h : Operated s₀ (xs ++ x :: ys) s) :
  ∃ t, Operated s₀ xs t ∧ t.Does x
  := by
  generalize hms : xs ++ x :: ys = ms at h
  induction h generalizing ys with
  | refl => simp at hms
  | call h hrest hcall ih => exact ih hms
  | @step ms s m h hm ih =>
    rcases List.eq_nil_or_concat ys with rfl | ⟨zs, z, rfl⟩
    · obtain ⟨rfl, hlast⟩ := List.append_inj' hms rfl
      cases hlast
      exact ⟨s, h, hm⟩
    · rw [List.concat_eq_append, ← List.cons_append, ← List.append_assoc] at hms
      exact ih (List.append_inj' hms rfl).1

/-- The moments of the runs that follow operations, and where the last one ends.  A call for which
something is still left to do is not made. -/
def conductCalls (fuel : Nat) (s : Session) : List (Session → Session) → List Moment × Session
  | [] => ([], s)
  | call :: calls =>
    if s.agenda.isEmpty then
      let first := (call s).trail fuel
      (first.1 ++ (first.2.conductCalls fuel calls).1, (first.2.conductCalls fuel calls).2)
    else ([], s)

theorem Operated.trail (h : Operated s₀ ms s) (fuel : Nat) :
  Operated s₀ (ms ++ (s.trail fuel).1) (s.trail fuel).2
  := by
  induction fuel generalizing ms s with
  | zero =>
    rw [Session.trail, List.append_nil]
    exact h
  | succ fuel ih =>
    rw [Session.trail]
    split
    · rw [List.append_nil]
      exact h
    · next w rest hagenda =>
      have hdoes : s.Does ⟨{ s with agenda := rest }, w⟩ := ⟨hagenda, rfl⟩
      have hrun := ih (.step h hdoes)
      rw [List.append_assoc] at hrun
      exact hrun

theorem Operated.conductCalls (h : Operated s₀ ms s) (fuel : Nat) {calls : List (Session → Session)}
    (hcalls : ∀ call ∈ calls, ∀ s : Session, s.Operates (call s)) :
  Operated s₀ (ms ++ (s.conductCalls fuel calls).1) (s.conductCalls fuel calls).2
  := by
  induction calls generalizing ms s with
  | nil =>
    rw [Session.conductCalls, List.append_nil]
    exact h
  | cons call calls ih =>
    obtain ⟨hcall, hcalls⟩ := List.forall_mem_cons.mp hcalls
    rw [Session.conductCalls]
    split
    · next hrest =>
      have hfirst := (Operated.call h (List.isEmpty_iff.mp hrest) (hcall s)).trail fuel
      have hrun := ih hfirst hcalls
      rw [List.append_assoc] at hrun
      exact hrun
    · rw [List.append_nil]
      exact h

/-! ### Phases -/

/-- An interpreter that has no duties does not drain its mailbox. -/
theorem Course.not_draining (h₀ : s₀.Fresh) (h : Course s₀ ms s) (ha : s.actor? root = some a)
    (hduties : s.duties root = []) :
  a.mailbox.draining = false
  := by
  rw [(h.orderly h₀ ha).draining, hduties]
  rfl

/-- An interpreter that does a duty drains its mailbox. -/
theorem Course.draining (h₀ : s₀.Fresh) (h : Course s₀ ms s) (ha : s.actor? root = some a)
    (hdoes : s.Does y) (hduty : y.work.duty? = some root) :
  a.mailbox.draining = true
  := by
  rw [(h.orderly h₀ ha).draining, hdoes.duties_eq_cons rfl hduty]
  rfl

/-- An interpreter that is woken drains its mailbox. -/
theorem Lone.tidy (h : s.Lone m a) (htidy : a.Tidy) (hown : w.isOwn = true)
    (hduty : w.duty? = none) (hb : (s.carryOut w).actor? root = some b) :
  b.Tidy
  := by
  have ha := h.actor?_root
  have hsame : ∀ {t : Session}, t.actor? root = s.actor? root → t.actor? root = some b →
      b.Tidy := by
    intro t heq hb
    rw [heq, ha, Option.some.injEq] at hb
    exact hb ▸ htidy
  have hdrains : b.mailbox.draining = true → b.Tidy := fun h => .of_draining (Or.inl h)
  have hroot : ∀ {n : Nat}, (n == root) = true → n = root := fun h => beq_iff_eq.mp h
  cases w with
  | start n =>
    obtain rfl := hroot hown
    rw [carryOut, Session.start] at hb
    split at hb
    · exact hsame rfl hb
    · rw [(drain_spec (by rw [actor?_modify_self, ha]; rfl)).1, Option.some.injEq] at hb
      exact hdrains (hb ▸ rfl)
  | send n event =>
    obtain rfl := hroot hown
    rw [carryOut, Session.send, ha] at hb
    dsimp only at hb
    split at hb
    · next hrunning =>
      obtain ⟨c, hc, -, hdraining, -⟩ := exists_enqueued ha hrunning (.external event)
      rw [hc, Option.some.injEq] at hb
      exact hdrains (hb ▸ hdraining)
    · next hstatus =>
      split at hb
      · rw [Session.queue, actor?_modify_self, ha, Option.map_some, Option.some.injEq] at hb
        rintro hrunning
        rw [← hb] at hrunning
        cases hstatus.symm.trans hrunning
      · exact hsame rfl hb
    · exact hsame rfl hb
  | stop n =>
    obtain rfl := hroot hown
    by_cases hstatus : a.status = .stopped
    · rw [carryOut, Session.stop, ha] at hb
      dsimp only at hb
      rw [if_pos hstatus] at hb
      exact hsame rfl hb
    · rw [carryOut, actor?_stop ha hstatus, Option.some.injEq] at hb
      rw [← hb]
      exact fun hrunning => Status.noConfusion hrunning
  | release n =>
    obtain rfl := hroot hown
    rw [carryOut, Session.release, actor?_modify_self, ha, Option.map_some,
      Option.some.injEq] at hb
    rw [← hb]
    exact fun _ _ => rfl
  | unsubscribe listener =>
    rw [carryOut, Session.unsubscribe] at hb
    split at hb
    · exact hsame rfl hb
    · change (s.modify root _).actor? root = some b at hb
      rw [actor?_modify_self, ha, Option.map_some, Option.some.injEq] at hb
      rw [← hb]
      exact htidy
  | _ => exact absurd (And.intro hown hduty) (by simp [Work.isOwn, Work.duty?])

/-- Where the envelope of a timer that has run may be: a timer has run and its envelope comes in,
waits in the mailbox, or is about to be handled, and nothing else is to be done but to move the
clock on.  Else no envelope of a timer is on its way, and the clock is moved last. -/
inductive Phase (s : Session) (a : Actor) : List (Timer Alarm) → Prop where
  | calm (ws rest) (hagenda : s.agenda = ws ++ rest) (hown : ∀ w ∈ ws, w.isOwn = true)
      (hworks : ∀ w ∈ ws, ∀ e, w.envelope? = some e → e.isTimed = false)
      (hqueue : ∀ e ∈ a.mailbox.queue, e.isTimed = false)
      (hrest : (rest = [] ∧ s.clock.IsAhead) ∨ ∃ target, rest = [.advance target]) : Phase s a []
  | ringing {t target} (hagenda : s.agenda = [.ring t.task, .advance target])
      (hqueue : a.mailbox.queue = []) (hrunning : a.status = .running)
      (hnow : s.clock.now = t.deadline) : Phase s a [t]
  | waiting {t e target} (hagenda : s.agenda = [.pump root, .advance target])
      (htask : t.task = .post root e) (hqueue : a.mailbox.queue = [e])
      (hrunning : a.status = .running) (hnow : s.clock.now = t.deadline) : Phase s a [t]
  | handling {t e target} (hagenda : s.agenda = [.handle root e, .pump root, .advance target])
      (htask : t.task = .post root e) (hqueue : a.mailbox.queue = [])
      (hrunning : a.status = .running) (hnow : s.clock.now = t.deadline) : Phase s a [t]

/-- What holds of a lone interpreter that is operated from outside, and of its clock. -/
structure Operating (m : Machine) (s : Session) (a : Actor) (flying : List (Timer Alarm)) :
    Prop where
  lone : s.Lone m a
  table : Timetable a.timers flying s.clock
  idle : a.status ≠ .running → a.timers = []
  tidy : a.Tidy
  phase : s.Phase a flying

/-- Nothing is on its way when nothing is left to do. -/
theorem Phase.of_agenda_eq_nil (h : s.Phase a flying) (hagenda : s.agenda = []) :
  flying = [] ∧ s.clock.IsAhead ∧ ∀ e ∈ a.mailbox.queue, e.isTimed = false
  := by
  cases h with
  | calm _ _ hall _ _ hqueue hrest =>
    rw [hagenda] at hall
    rcases hrest with ⟨-, hahead⟩ | ⟨target, rfl⟩
    · exact ⟨rfl, hahead, hqueue⟩
    · cases (List.append_eq_nil_iff.mp hall.symm).2
  | ringing hall => cases hagenda.symm.trans hall
  | waiting hall => cases hagenda.symm.trans hall
  | handling hall => cases hagenda.symm.trans hall

/-- A new interpreter waits for its operation. -/
theorem operating_prepared (machine : Machine) (settings : Settings)
    (catalog : List (String × Source)) :
  ∃ a, (prepared machine settings catalog).Operating (machine.withLimit settings.limit) a [] ∧
    a.status = .notStarted
  := by
  refine ⟨_, ⟨⟨rfl, rfl, rfl, rfl, rfl⟩, ?_, fun _ => rfl, fun _ _ => rfl, ?_⟩, rfl⟩
  · exact ⟨.nil, List.forall_mem_nil _, List.forall_mem_nil _, List.nodup_nil, List.nodup_nil,
      List.forall_mem_nil _, List.forall_mem_nil _, List.forall_mem_nil _⟩
  · exact .calm [] [] rfl (List.forall_mem_nil _) (List.forall_mem_nil _)
      (List.forall_mem_nil _) (Or.inl ⟨rfl, List.forall_mem_nil _⟩)

/-- A call gives an interpreter something to do, and leaves its delayed sends and the clock as they
are. -/
theorem Operating.call (h : s.Operating m a flying) (hrest : s.agenda = []) (hcall : s.Operates t) :
  flying = [] ∧ t.clock = s.clock ∧ ∃ b, t.Operating m b [] ∧ b.timers = a.timers ∧
    b.status = a.status
  := by
  obtain ⟨rfl, hahead, hqueue⟩ := h.phase.of_agenda_eq_nil hrest
  have hplan : ∀ {t : Session} {b : Actor} {w : Work}, t.Operating m b [] → t.agenda = [] →
      w.isOwn = true ∧ w.envelope? = none → (t.plan [w]).Operating m b [] := by
    intro t b w ht hagenda hw
    obtain ⟨-, hahead, hqueue⟩ := ht.phase.of_agenda_eq_nil hagenda
    refine ⟨⟨ht.lone.actors, ht.lone.machine, ht.lone.link, ht.lone.services, ht.lone.hasTimers⟩,
      ht.table, ht.idle, ht.tidy, ?_⟩
    refine .calm [w] [] ?_ (List.forall_mem_singleton.mpr hw.1)
      (List.forall_mem_singleton.mpr ?_) hqueue (Or.inl ⟨rfl, hahead⟩)
    · rw [agenda_plan, hagenda]
    · intro e he
      cases hw.2.symm.trans he
  cases hcall with
  | start => exact ⟨rfl, rfl, a, hplan h hrest ⟨rfl, rfl⟩, rfl, rfl⟩
  | startFrom persisted =>
    have hresumed : (s.modify root (fun a => { a with resume := some persisted })).Operating m
        { a with resume := some persisted } [] := by
      refine ⟨⟨?_, h.lone.machine, h.lone.link, h.lone.services, h.lone.hasTimers⟩, h.table, h.idle,
        h.tidy, ?_⟩
      · rw [Session.modify, h.lone.actors]
        rfl
      · exact .calm [] [] hrest (List.forall_mem_nil _) (List.forall_mem_nil _)
          hqueue (Or.inl ⟨rfl, hahead⟩)
    exact ⟨rfl, rfl, _, hplan hresumed hrest ⟨rfl, rfl⟩, rfl, rfl⟩
  | send event => exact ⟨rfl, rfl, a, hplan h hrest ⟨rfl, rfl⟩, rfl, rfl⟩
  | stop => exact ⟨rfl, rfl, a, hplan h hrest ⟨rfl, rfl⟩, rfl, rfl⟩
  | advance micros =>
    refine ⟨rfl, rfl, a, ⟨⟨h.lone.actors, h.lone.machine, h.lone.link, h.lone.services,
      h.lone.hasTimers⟩, h.table, h.idle, h.tidy, ?_⟩, rfl, rfl⟩
    refine .calm [] [.advance (s.clock.now + micros)] ?_ (List.forall_mem_nil _)
      (List.forall_mem_nil _) hqueue (Or.inr ⟨_, rfl⟩)
    rw [advancing, agenda_plan, hrest]
    rfl

/-! ### Steps -/

/-- What a moment does to the delayed sends of a lone interpreter and to the timers that count. -/
inductive Shifts (flying : List (Timer Alarm)) (a : Actor) (y : Moment) (b : Actor) :
    List (Timer Alarm) → Prop where
  | keep {flying'} (htimers : b.timers = a.timers)
      (hlive : flying' ++ y.after.clock.live = flying ++ y.before.clock.live)
      (hclock : y.after.clock = y.before.clock ∨ y.before.agenda = [])
      (haction : y.work.action? root = none)
      (huntimed : ∀ e, y.work = .handle root e → e.isTimed = false) : Shifts flying a y b flying'
  | alter (hflying : flying = []) (haction : y.work.action? root ≠ none)
      (halters : Alters root y.before a y.work y.after b) : Shifts flying a y b []
  | stop (hwork : y.work = .stop root) (hstopped : b.status = .stopped) : Shifts flying a y b []
  | take {t e id d} (hflying : flying = [t]) (htask : t.task = .post root e)
      (hwork : y.work = .handle root e) (hrunning : a.status = .running)
      (hnow : y.before.clock.now = t.deadline) (horigin : e.origin = .timer id d.generation)
      (hlookup : a.timers.lookup id = some d) (htimer : d.timer = t.number)
      (htimers : b.timers = Association.erase id a.timers)
      (hclock : y.after.clock = y.before.clock) : Shifts flying a y b []

theorem duty?_of_isOwn (h : w.isOwn = true) (hduty : w.duty? ≠ none) :
  w.duty? = some root
  := by
  cases w <;> simp_all [Work.isOwn, Work.duty?]

theorem winds_of_isOwn (h : w.isOwn = true) :
  w.winds root = false
  := by
  cases w <;> simp_all [Work.isOwn, Work.winds]

/-- An interpreter that is not running has no delayed sends. -/
theorem Lone.idle {ds es : List Work} (h : s.Lone m a) (hidle : a.status ≠ .running → a.timers = [])
    (hturn : Turn root w a ds b es) (halters : Alters root s a w (s.carryOut w) b)
    (hafter : (s.carryOut w).actor? root = some b) (hb : b.status ≠ .running) :
  b.timers = []
  := by
  have hstays : a.status ≠ .running → b.timers = [] := by
    intro ha
    have hnone := hidle ha
    cases halters with
    | keep htimers => exact htimers.trans hnone
    | cancel hrunning => exact absurd hrunning ha
    | arm hrunning => exact absurd hrunning ha
    | displace htimerless => exact absurd (h.hasTimers.symm.trans htimerless) Bool.noConfusion
    | take hrunning => exact absurd hrunning ha
    | stop _ htimers => exact htimers
  rcases hturn.status with hsame | ⟨-, hrunning⟩ | ⟨hstopped, -⟩
  · exact hstays (hsame ▸ hb)
  · exact absurd hrunning hb
  · by_cases ha : a.status = .stopped
    · exact hstays (by rw [ha]; exact Status.noConfusion)
    · rw [hturn.of_stopped ha hstopped, carryOut, actor?_stop h.actor?_root ha,
        Option.some.injEq] at hafter
      rw [← hafter]

theorem Does.clock (hdoes : s.Does y) :
  y.before.clock = s.clock
  := by rw [hdoes.before]

theorem Does.lone (hdoes : s.Does y) (h : s.Lone m a) :
  y.before.Lone m a
  := by
  rw [hdoes.before]
  exact ⟨h.actors, h.machine, h.link, h.services, h.hasTimers⟩

/-- A work of its own shifts nothing in a lone interpreter but what it does to the delayed sends. -/
theorem Operating.step_own (hquiet : ∀ other, m.chart.invocation? other = none) (h₀ : s₀.Fresh)
    (hcourse : Course s₀ ms s) (hdoes : s.Does y) (h : s.Operating m a [])
    {ws rest : List Work} (hagenda : y.before.agenda = ws ++ rest)
    (hown : ∀ w ∈ y.work :: ws, w.isOwn = true)
    (hworks : ∀ w ∈ y.work :: ws, ∀ e, w.envelope? = some e → e.isTimed = false)
    (hqueue : ∀ e ∈ a.mailbox.queue, e.isTimed = false)
    (hrest : (rest = [] ∧ s.clock.IsAhead) ∨ ∃ target, rest = [.advance target]) :
  ∃ b, y.after.Operating m b [] ∧ Shifts [] a y b []
  := by
  obtain ⟨hfirst, hown⟩ := List.forall_mem_cons.mp hown
  obtain ⟨huntimed, hworks⟩ := List.forall_mem_cons.mp hworks
  have hclock := hdoes.clock
  have hbefore := hdoes.lone h.lone
  have ha := hbefore.actor?_root
  obtain ⟨⟨b, hb, harrive⟩, ws', hws', hown'⟩ := hbefore.proceeds hquiet hfirst
  have hafter := hb.actor?_root
  obtain ⟨c, hc, halters⟩ := exists_alters y.before y.work ha
  obtain ⟨d, hd, hturn⟩ := hcourse.exists_turn h₀ hdoes ha
  rw [hafter, Option.some.injEq] at hc
  subst hc
  rw [Moment.after, hafter, Option.some.injEq] at hd
  subst hd
  have hhandle : ∀ e, y.work = .handle root e → e.isTimed = false := by
    intro e he
    exact huntimed e (by rw [he]; rfl)
  obtain ⟨htable, hnow, hahead⟩ := Timetable.alters (hclock ▸ h.table) ha halters
    (winds_of_isOwn hfirst) hbefore.hasTimers hhandle
  refine ⟨b, ⟨hb, htable, ?_, ?_, ?_⟩, ?_⟩
  · exact hbefore.idle h.idle hturn halters hafter
  · by_cases hduty : y.work.duty? = none
    · exact hbefore.tidy h.tidy hfirst hduty hafter
    · have hdraining := hcourse.draining h₀ h.lone.actor?_root hdoes (duty?_of_isOwn hfirst hduty)
      exact .of_draining (hturn.draining hdraining)
  · refine .calm (ws' ++ ws) rest ?_ ?_ ?_ ?_ ?_
    · rw [Moment.after, hws', hagenda, List.append_assoc]
    · exact List.forall_mem_append.mpr ⟨fun w hw => (hown' w hw).1, hown⟩
    · refine List.forall_mem_append.mpr ⟨fun w hw e he => ?_, hworks⟩
      exact hqueue e ((hown' w hw).2 e he)
    · exact fun e he => (harrive e he).elim (hqueue e) id
    · exact hrest.imp_left (And.imp_right (fun hfirst => hahead (hclock ▸ hfirst)))
  · by_cases haction : y.work.action? root = none
    · have hperform : ∀ snapshot action, y.work ≠ .perform root snapshot action := by
        intro snapshot action hwork
        rw [hwork] at haction
        cases haction
      generalize hwork : y.work = w at halters
      cases halters with
      | keep htimers _ hsame =>
        have hclock : y.after.clock = y.before.clock := by
          rw [Moment.after, hwork, hsame (hwork ▸ winds_of_isOwn hfirst)]
        exact .keep htimers (by rw [hclock]) (Or.inl hclock) haction hhandle
      | cancel => exact absurd hwork (hperform _ _)
      | arm => exact absurd hwork (hperform _ _)
      | displace => exact absurd hwork (hperform _ _)
      | take _ horigin =>
        have hsame := hhandle _ hwork
        rw [Envelope.isTimed, horigin] at hsame
        cases hsame
      | stop hopen =>
        rw [hwork, carryOut, actor?_stop ha hopen, Option.some.injEq] at hafter
        exact .stop hwork (hafter ▸ rfl)
    · exact .alter rfl haction halters

/-- The clock is moved to the next timer, or to the time asked for. -/
theorem Operating.step_advance (h₀ : s₀.Fresh) (hcourse : Course s₀ ms s) (hdoes : s.Does y)
    (h : s.Operating m a []) {target : Nat} (hwork : y.work = .advance target)
    (hagenda : y.before.agenda = []) (hqueue : ∀ e ∈ a.mailbox.queue, e.isTimed = false) :
  ∃ flying, y.after.Operating m a flying ∧ Shifts [] a y a flying
  := by
  have haction : y.work.action? root = none := by
    rw [hwork]
    rfl
  have huntimed : ∀ e, y.work = .handle root e → e.isTimed = false :=
    fun e he => by cases hwork.symm.trans he
  have hclock := hdoes.clock
  have hbefore := hdoes.lone h.lone
  have hlone : ∀ clock agenda, Lone m { y.before with clock, agenda } a := fun _ _ =>
    ⟨hbefore.actors, hbefore.machine, hbefore.link, hbefore.services, hbefore.hasTimers⟩
  have htable : Timetable a.timers [] y.before.clock := hclock ▸ h.table
  cases hdue : y.before.clock.due? target with
  | none =>
    have hafter : y.after = { y.before with clock := y.before.clock.arrive target } := by
      rw [Moment.after, hwork, carryOut, advance, hdue]
    obtain ⟨harrived, hahead⟩ := htable.arrive hdue
    refine ⟨[], ?_, .keep rfl ?_ (Or.inr hagenda) haction huntimed⟩
    · rw [hafter]
      refine ⟨hlone _ _, harrived, h.idle, h.tidy, ?_⟩
      exact .calm [] [] hagenda (List.forall_mem_nil _) (List.forall_mem_nil _) hqueue
        (Or.inl ⟨rfl, hahead⟩)
    · rw [hafter]
      rfl
  | some p =>
    obtain ⟨x, clock⟩ := p
    obtain ⟨hrun, hnow, hlive⟩ := htable.run hdue
    have hcancelled : clock.isCancelled x.number = y.before.clock.isCancelled x.number := by
      obtain ⟨rest, -, -, rfl⟩ := Clock.due?_eq_some hdue
      rfl
    cases hcase : y.before.clock.isCancelled x.number with
    | true =>
      have hafter : y.after = { y.before with clock, agenda := [.advance target] } := by
        rw [Moment.after, hwork, carryOut, advance, hdue]
        dsimp only
        rw [hcancelled, hcase, if_pos rfl, Session.plan, hagenda]
        rfl
      rw [hcase, if_pos rfl] at hrun hlive
      refine ⟨[], ?_, .keep rfl ?_ (Or.inr hagenda) haction huntimed⟩
      · rw [hafter]
        refine ⟨hlone _ _, hrun, h.idle, h.tidy, ?_⟩
        exact .calm [] [.advance target] rfl (List.forall_mem_nil _) (List.forall_mem_nil _) hqueue
          (Or.inr ⟨_, rfl⟩)
      · rw [hafter, hlive]
        rfl
    | false =>
      have hafter : y.after =
          { y.before with clock, agenda := [.ring x.task, .advance target] } := by
        rw [Moment.after, hwork, carryOut, advance, hdue]
        dsimp only
        rw [hcancelled, hcase, if_neg Bool.false_ne_true, Session.plan, hagenda]
        rfl
      rw [hcase, if_neg Bool.false_ne_true] at hrun hlive
      have hrunning : a.status = .running := by
        by_contra hidle
        obtain ⟨e, he, -⟩ := hrun.serves x List.mem_cons_self
        rw [h.idle hidle] at he
        cases he
      have hfree := hcourse.not_draining h₀ h.lone.actor?_root
        (by rw [duties, hdoes.agenda, hwork, hagenda]; rfl)
      refine ⟨[x], ?_, .keep rfl ?_ (Or.inr hagenda) haction huntimed⟩
      · rw [hafter]
        refine ⟨hlone _ _, hrun, h.idle, h.tidy, ?_⟩
        exact .ringing rfl (h.tidy hrunning hfree) hrunning hnow
      · rw [hafter, hlive]
        rfl

/-- The envelope of a timer that has run gets into the mailbox, and out again. -/
theorem Operating.step_flight (h₀ : s₀.Fresh) (hcourse : Course s₀ ms s) (hdoes : s.Does y)
    {x : Timer Alarm} (h : s.Operating m a [x]) (hwork : ∀ e, y.work ≠ .handle root e) :
  ∃ b, y.after.Operating m b [x] ∧ Shifts [x] a y b [x]
  := by
  have hclock := hdoes.clock
  have hbefore := hdoes.lone h.lone
  have ha := hbefore.actor?_root
  -- all that changes is the mailbox and what is to be done
  have hflies : ∀ {mailbox agenda}, y.after = { y.before with
        actors := [{ a with mailbox }], agenda } →
      (mailbox.draining = true ∨ mailbox.queue = []) → Phase y.after { a with mailbox } [x] →
      y.work.action? root = none →
      ∃ b, y.after.Operating m b [x] ∧ Shifts [x] a y b [x] := by
    intro mailbox agenda hafter hdraining hphase haction
    refine ⟨{ a with mailbox }, ⟨?_, ?_, h.idle, .of_draining hdraining, hphase⟩,
      .keep rfl ?_ (Or.inl ?_) haction (fun e he => absurd he (hwork e))⟩
    · rw [hafter]
      exact ⟨rfl, h.lone.machine, h.lone.link, h.lone.services, hbefore.hasTimers⟩
    · rw [hafter]
      exact hdoes.clock ▸ h.table
    · rw [hafter]
    · rw [hafter]
  cases h.phase with
  | @ringing _ target hagenda hqueue hrunning hnow =>
    obtain ⟨id, d, event, htask, -⟩ := h.table.take
    rw [hdoes.agenda] at hagenda
    obtain ⟨hring, hagenda⟩ := List.cons.inj hagenda
    have hfree := hcourse.not_draining h₀ h.lone.actor?_root
      (by rw [duties, hdoes.agenda, hring, hagenda]; rfl)
    have hafter : y.after = { y.before with
        actors := [{ a with mailbox := ⟨[⟨event, .timer id d.generation⟩], true⟩ }]
        agenda := [.pump root, .advance target] } := by
      rw [Moment.after, hring, carryOut, htask, ring, post, if_pos (isPresent_root _), enqueue,
        if_pos ((isRunning_iff ha).mpr hrunning), drain, Session.queue, actor?_modify_self, ha]
      simp [Mailbox.claim?, Mailbox.push, hfree, hqueue, Session.plan, hagenda, Session.modify,
        hbefore.actors, root]
    refine hflies hafter (Or.inl rfl) ?_ (by rw [hring]; rfl)
    rw [hafter]
    exact .waiting rfl htask rfl hrunning (hdoes.clock ▸ hnow)
  | @waiting _ e target hagenda htask hqueue hrunning hnow =>
    rw [hdoes.agenda] at hagenda
    obtain ⟨hpump, hagenda⟩ := List.cons.inj hagenda
    have hafter : y.after = { y.before with
        actors := [{ a with mailbox := ⟨[], a.mailbox.draining⟩ }]
        agenda := [.handle root e, .pump root, .advance target] } := by
      rw [Moment.after, hpump, carryOut, pump, ha]
      simp [Mailbox.next?, hqueue, Session.plan, hagenda, Session.modify, hbefore.actors, root]
    refine hflies hafter (Or.inr rfl) ?_ (by rw [hpump]; rfl)
    rw [hafter]
    exact .handling rfl htask rfl hrunning (hdoes.clock ▸ hnow)
  | @handling _ e target hagenda htask hqueue hrunning hnow =>
    rw [hdoes.agenda] at hagenda
    exact absurd (List.cons.inj hagenda).1 (hwork e)

/-- The envelope of a timer that has run is handled, and its send is taken from the table. -/
theorem Operating.step_take (hquiet : ∀ other, m.chart.invocation? other = none) (h₀ : s₀.Fresh)
    (hcourse : Course s₀ ms s) (hdoes : s.Does y) {x : Timer Alarm} {e : Envelope} {target : Nat}
    (h : s.Operating m a [x]) (hagenda : s.agenda = [.handle root e, .pump root, .advance target])
    (htask : x.task = .post root e) (hqueue : a.mailbox.queue = []) (hrunning : a.status = .running)
    (hnow : s.clock.now = x.deadline) :
  ∃ b, y.after.Operating m b [] ∧ Shifts [x] a y b []
  := by
  have hbefore := hdoes.lone h.lone
  have ha := hbefore.actor?_root
  rw [hdoes.agenda] at hagenda
  obtain ⟨hwork, hbehind⟩ := List.cons.inj hagenda
  obtain ⟨id, d, event, htask', hlookup, htimer, htable⟩ := h.table.take
  rw [htask, Alarm.post.injEq] at htask'
  obtain ⟨-, rfl⟩ := htask'
  obtain ⟨⟨b, hb, harrive⟩, ws, hws, hown⟩ := hbefore.proceeds hquiet (w := y.work)
    (by rw [hwork]; rfl)
  have hafter := hb.actor?_root
  obtain ⟨c, hc, hturn⟩ := hcourse.exists_turn h₀ hdoes ha
  rw [Moment.after, hafter, Option.some.injEq] at hc
  subst hc
  have hlasts : Lasts (y.before.modify root (fun a => a.disarm id)) (y.before.carryOut y.work) := by
    rw [hwork, carryOut, handle, (isRunning_iff ha).mpr hrunning, ha]
    rw [Bool.not_true, if_neg Bool.false_ne_true]
    dsimp only [Option.bind_some]
    rw [hlookup]
    dsimp only
    rw [if_pos rfl]
    split
    · exact (Lasts.refl _).plan _
    · exact lasts_route _ root _ _
  obtain ⟨c, hc, htaken⟩ := hlasts.actor root (a.disarm id) (by rw [actor?_modify_self, ha]; rfl)
  rw [hafter, Option.some.injEq] at hc
  subst hc
  have hclock : y.after.clock = y.before.clock := hlasts.clock
  have hopen : b.status = .running :=
    hturn.running hrunning (by rw [hwork]; exact Work.noConfusion)
  have hdraining := hcourse.draining h₀ h.lone.actor?_root hdoes (by rw [hwork]; rfl)
  refine ⟨b, ⟨hb, ?_, fun hidle => absurd hopen hidle, .of_draining (hturn.draining hdraining), ?_⟩,
    .take rfl htask hwork hrunning (hdoes.clock ▸ hnow) rfl hlookup htimer htaken.timers hclock⟩
  · rw [htaken.timers, hclock, hdoes.clock]
    exact htable
  · have hnone : ∀ {e'}, e' ∉ a.mailbox.queue := by
      rw [hqueue]
      exact List.not_mem_nil
    refine .calm (ws ++ [.pump root]) [.advance target] ?_ ?_ ?_ ?_ (Or.inr ⟨_, rfl⟩)
    · rw [Moment.after, hws, hbehind, List.append_assoc]
      rfl
    · exact List.forall_mem_append.mpr ⟨fun w hw => (hown w hw).1,
        List.forall_mem_singleton.mpr rfl⟩
    · refine List.forall_mem_append.mpr ⟨fun w hw e' he' => ?_, List.forall_mem_singleton.mpr ?_⟩
      · exact absurd ((hown w hw).2 e' he') hnone
      · exact fun e' he' => by cases he'
    · exact fun e' he' => (harrive e' he').resolve_left hnone

/-- Whatever a lone interpreter that is operated from outside does next, its delayed sends and the
timers of the clock go on to match. -/
theorem Operating.step (hquiet : ∀ other, m.chart.invocation? other = none) (h₀ : s₀.Fresh)
    (hcourse : Course s₀ ms s) (hdoes : s.Does y) (h : s.Operating m a flying) :
  ∃ b flying', y.after.Operating m b flying' ∧ Shifts flying a y b flying'
  := by
  cases h.phase with
  | calm ws rest hagenda hown hworks hqueue hrest =>
    rw [hdoes.agenda] at hagenda
    cases ws with
    | nil =>
      obtain ⟨target, rfl⟩ : ∃ target, rest = [.advance target] := by
        rcases hrest with ⟨rfl, -⟩ | hadvance
        · cases hagenda
        · exact hadvance
      obtain ⟨hwork, hagenda⟩ := List.cons.inj hagenda
      exact ⟨a, h.step_advance h₀ hcourse hdoes hwork hagenda hqueue⟩
    | cons w ws =>
      obtain ⟨rfl, hbehind⟩ := List.cons.inj hagenda
      obtain ⟨b, hb, hshifts⟩ :=
        h.step_own hquiet h₀ hcourse hdoes hbehind hown hworks hqueue hrest
      exact ⟨b, [], hb, hshifts⟩
  | ringing hagenda =>
    rw [hdoes.agenda] at hagenda
    have hwork : ∀ e, y.work ≠ .handle root e := by
      intro e he
      cases he.symm.trans (List.cons.inj hagenda).1
    obtain ⟨b, hb, hshifts⟩ := h.step_flight h₀ hcourse hdoes hwork
    exact ⟨b, _, hb, hshifts⟩
  | waiting hagenda =>
    rw [hdoes.agenda] at hagenda
    have hwork : ∀ e, y.work ≠ .handle root e := by
      intro e he
      cases he.symm.trans (List.cons.inj hagenda).1
    obtain ⟨b, hb, hshifts⟩ := h.step_flight h₀ hcourse hdoes hwork
    exact ⟨b, _, hb, hshifts⟩
  | handling hagenda htask hqueue hrunning hnow =>
    obtain ⟨b, hb, hshifts⟩ :=
      h.step_take hquiet h₀ hcourse hdoes hagenda htask hqueue hrunning hnow
    exact ⟨b, [], hb, hshifts⟩

/-! ### Runs -/

variable {settings : Settings} {catalog : List (String × Source)}

/-- All along the operation of an interpreter that invokes nothing, its delayed sends and the timers
of the clock match. -/
theorem Operated.operating (hmachine : m.chart.Compiled)
    (hcatalog : ∀ src m, catalog.lookup src = some (.machine m) → m.chart.Compiled)
    (hquiet : ∀ other, m.chart.invocation? other = none)
    (h : Operated (prepared m settings catalog) ms s) :
  ∃ a flying, s.Operating (m.withLimit settings.limit) a flying
  := by
  have h₀ : (prepared m settings catalog).Fresh := fresh_prepared hmachine hcatalog
  have hquiet' : ∀ other, (m.withLimit settings.limit).chart.invocation? other = none := hquiet
  induction h with
  | refl =>
    obtain ⟨a, ha, -⟩ := operating_prepared m settings catalog
    exact ⟨a, [], ha⟩
  | call _ hrest hcall ih =>
    obtain ⟨a, flying, ha⟩ := ih
    obtain ⟨-, -, b, hb, -⟩ := ha.call hrest hcall
    exact ⟨b, [], hb⟩
  | step h hdoes ih =>
    obtain ⟨a, flying, ha⟩ := ih
    obtain ⟨b, flying', hb, -⟩ := ha.step hquiet' h₀ h.course hdoes
    exact ⟨b, flying', hb⟩

/-- Between the calls each delayed send of the interpreter has one timer that counts, and each timer
that counts has one delayed send. -/
theorem Operated.timers_correspond (hmachine : m.chart.Compiled)
    (hcatalog : ∀ src m, catalog.lookup src = some (.machine m) → m.chart.Compiled)
    (hquiet : ∀ other, m.chart.invocation? other = none)
    (h : Operated (prepared m settings catalog) ms s) (hrest : s.agenda = [])
    (ha : s.actor? root = some a) :
  (∀ e ∈ a.timers, ∃! t, t ∈ s.clock.live ∧ t.Serves e) ∧
    ∀ t ∈ s.clock.live, ∃! e, e ∈ a.timers ∧ t.Serves e
  := by
  obtain ⟨b, flying, hb⟩ := h.operating hmachine hcatalog hquiet
  obtain ⟨rfl, -⟩ := hb.phase.of_agenda_eq_nil hrest
  obtain rfl := hb.lone.eq ha
  exact ⟨fun e he => hb.table.existsUnique_timer he, fun t ht => hb.table.existsUnique_entry ht⟩

end Session

end Statechart
