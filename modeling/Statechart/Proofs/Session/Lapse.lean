import Statechart.Proofs.Machine.Delays
import Statechart.Proofs.Session.Arming
import Statechart.Proofs.Session.Pending

/-!
# Delayed transitions whose nodes are exited

The event of a delayed transition is held back by a timer if its delay is positive.  When the node is
exited the send leaves the table of the interpreter, so that the envelope of the timer counts no more.
If the delay is zero, however, the event is put into the mailbox at once, where no exit reaches it
(`Course.delay_handed`).
-/

namespace Statechart

/-- Whether an interpreter exits a node at a moment, in one of the microsteps with which it takes an
event. -/
def Moment.Exits (n k : Nat) (m : Moment) : Prop :=
  ∃ a snapshot event next steps, m.work = .react n snapshot event ∧
    m.before.actor? n = some a ∧ a.machine.transition snapshot event = .ok next ∧
    a.machine.Moves snapshot event steps next ∧
    ∃ x ∈ steps, Progress.Step.Exits a.machine.chart k x

/-- Whether a running interpreter carries out at a moment an action that sends it the event of a
delayed transition after a delay. -/
structure Moment.Delays (n : Nat) (a : Actor) (snapshot : Snapshot) (action : ResolvedAction)
    (id : String) (delay : Nat) (m : Moment) : Prop where
  work : m.work = .perform n snapshot action
  duty : action.duty = .send ⟨.bare id, .myself, some delay, some id⟩
  actor : m.before.actor? n = some a
  running : a.status = .running

/-- The envelope that the timer of a delayed transition posts, if it is the next one to be armed. -/
def Actor.nextAlarm (a : Actor) (id : String) : Envelope :=
  ⟨.bare id, .timer (.named id) (a.timerGeneration + 1)⟩

variable {n k : Nat} {a b c : Actor} {ds : List Work} {ms xs ys us vs : List Moment}
  {m u v y : Moment} {e : Envelope} {generation : Nat} {snapshot : Snapshot}
  {action : ResolvedAction} {id : String}

/-- Whether a node that was active before an event is inactive after it. -/
def Moment.leaves (n k : Nat) (m : Moment) : Bool :=
  match m.work with
  | .react i snapshot event =>
    i == n && snapshot.isActive k && (m.before.actor? n).any fun a =>
      (a.machine.transition snapshot event).toOption.any fun next => !next.isActive k
  | _ => false

theorem exits_of_leaves (h : m.leaves n k = true) :
  m.Exits n k
  := by
  rw [Moment.leaves] at h
  split at h
  · next i snapshot event hwork =>
    rw [Bool.and_eq_true, Bool.and_eq_true, beq_iff_eq] at h
    obtain ⟨⟨rfl, hactive⟩, h⟩ := h
    obtain ⟨a, ha, h⟩ := (Option.any_eq_true _ _).mp h
    obtain ⟨next, hnext, h⟩ := (Option.any_eq_true _ _).mp h
    have hnext : a.machine.transition snapshot event = .ok next := by
      cases htransition : a.machine.transition snapshot event with
      | ok next' =>
        rw [htransition] at hnext
        cases hnext
        rfl
      | error fault =>
        rw [htransition] at hnext
        cases hnext
    obtain ⟨steps, hmoves⟩ := Machine.exists_moves hnext
    refine ⟨a, snapshot, event, next, steps, hwork, ha, hnext, hmoves, ?_⟩
    by_contra hnone
    push Not at hnone
    rw [hmoves.isActive hactive hnone] at h
    cases h
  · cases h

/-- Whether a work sends an interpreter the event of a delayed transition after a delay. -/
def Work.delays (n : Nat) (id : String) (delay : Nat) : Work → Bool
  | .perform k _ action =>
    k == n && match action.duty with
      | .send own => own.event.name == id && own.event.data.isNull &&
          own.destination == .myself && own.delay == some delay && own.id == some id
      | _ => false
  | _ => false

theorem exists_delays_of_delays {delay : Nat} (h : m.work.delays n id delay = true)
    (ha : m.before.actor? n = some a) (hrunning : a.status = .running) :
  ∃ snapshot action, m.Delays n a snapshot action id delay
  := by
  unfold Work.delays at h
  split at h
  · next k snapshot action hwork =>
    rw [Bool.and_eq_true, beq_iff_eq] at h
    obtain ⟨rfl, h⟩ := h
    split at h
    · next own hduty =>
      obtain ⟨⟨name, data⟩, destination, held, key⟩ := own
      simp only [Bool.and_eq_true, beq_iff_eq] at h
      obtain ⟨⟨⟨⟨rfl, hdata⟩, rfl⟩, rfl⟩, rfl⟩ := h
      rw [Session.eq_null_of_isNull hdata] at hduty
      exact ⟨snapshot, action, hwork, hduty, ha, hrunning⟩
    · cases h
  · cases h

namespace Session

variable {s s₀ t : Session}

/-! ### Sends that are cancelled -/

/-- The envelope of a timer is handed on only while its send is in the table. -/
theorem exists_lookup_of_hands {key : SendId} (h : m.Hands n e)
    (horigin : e.origin = .timer key generation) (ha : m.before.actor? n = some a)
    (hnone : .macrostep n e.event e.origin ∉ m.before.agenda) :
  ∃ d, a.timers.lookup key = some d ∧ d.generation = generation
  := by
  obtain ⟨hwork, hagenda⟩ := h
  rw [Moment.after, hwork, carryOut, handle] at hagenda
  split at hagenda
  · exact absurd hagenda hnone
  · rw [horigin, ha] at hagenda
    dsimp only [Option.bind_some] at hagenda
    split at hagenda
    · exact absurd (horigin ▸ hagenda) hnone
    · next d hd =>
      split at hagenda
      · next hgeneration => exact ⟨d, hd, hgeneration⟩
      · exact absurd (horigin ▸ hagenda) hnone

/-- If the cancellation of a send is pending while it is armed, its envelope is never handed on. -/
theorem Course.not_hands_of_cancel (h₀ : s₀.Fresh) (h : Course s₀ (xs ++ u :: ys) s)
    (hb : u.after.actor? n = some b) (hstarted : b.status ≠ .notStarted)
    (hbounded : generation ≤ b.timerGeneration) (haction : action ∈ pending n (u.after.duties n))
    (hduty : action.duty = .cancel id) (hv : v ∈ ys) (event : Event) :
  ¬ v.Hands n ⟨event, .timer (.named id) generation⟩
  := by
  intro hhands
  obtain ⟨us, vs, rfl⟩ := List.append_of_mem hv
  rw [← List.cons_append, ← List.append_assoc] at h
  obtain ⟨t, hcourse, hdoes, -⟩ := h.split
  obtain ⟨c, hc⟩ := hcourse.exists_actor h₀ (hdoes.mem_duties hhands.1 rfl)
  have hbefore := (hdoes.actor? n).trans hc
  obtain ⟨_, -, hturn⟩ := hcourse.exists_turn h₀ hdoes hbefore
  obtain ⟨hrunning, hduties, -⟩ := hhands.accepts (hcourse.orderly h₀ hc) hturn
  obtain ⟨snapshot, hperform⟩ := exists_perform_of_mem_pending haction
  -- the cancellation is carried out before the envelope is handled
  rcases hcourse.done_or_pending h₀ hb hstarted hperform hc hrunning with
    hpending | ⟨zs, z, ws, rfl, hwork, hz⟩
  · rw [hduties] at hpending
    simp at hpending
  · have hnone : .macrostep n event (.timer (.named id) generation) ∉ v.before.agenda := by
      intro hmem
      have hrest := hdoes.duties_eq_cons hhands.1 rfl
      rw [hduties, List.cons.injEq] at hrest
      have hmem := mem_duties_of_mem (n := n) rfl hmem
      rw [← hrest.2] at hmem
      simp at hmem
    obtain ⟨d, hlookup, hgeneration⟩ := exists_lookup_of_hands hhands rfl hbefore hnone
    rw [← List.cons_append, ← List.append_assoc] at hcourse
    obtain ⟨t₁, hfirst, hdoes₁, hrest⟩ := hcourse.split
    obtain ⟨t₀, -, -, hsince⟩ := hfirst.split
    obtain ⟨b₁, hb₁, -, hle, -⟩ := hsince.exists_later hb
    rw [← hdoes₁.actor?] at hb₁
    have hcancelled : z.after.actor? n = some (b₁.disarm (.named id)) := by
      rw [Moment.after, hwork, carryOut, perform, hz, hduty]
      exact actor?_cancelSend hb₁ _
    have hlapsed : (b₁.disarm (.named id)).Lapsed (.named id) generation :=
      Actor.lapsed_of_erase (Nat.le_trans hbounded hle) rfl
    obtain ⟨c', hc', -, -, hkept⟩ := hrest.exists_later hcancelled
    rw [hc, Option.some.injEq] at hc'
    subst hc'
    exact (hkept _ _ hlapsed).gone d hlookup hgeneration

/-! ### Envelopes that wait -/

/-- Let an interpreter that carries out the actions of a snapshot put an envelope into its mailbox
while others wait, and let it have handled as many since when it takes the next one.  Unless it was
stopped before, it has handled those that waited, and takes that envelope. -/
theorem Course.queued_handed {e₀ : Envelope} (h₀ : s₀.Fresh)
    (h : Course s₀ (xs ++ m :: (us ++ y :: vs)) s) (ha : m.before.actor? n = some a)
    (hrunning : a.status = .running) (hqueues : Queues n e₀ a m.before m.after)
    (hexternal : e₀.origin = .external) (hperforming : Performing n snapshot (m.before.duties n))
    (hcount : (handled n us).length = a.mailbox.queue.length) (hy : y.work = .handle n e)
    (hb : y.before.actor? n = some b) :
  (b.status = .running → e = e₀ ∧ handled n us = a.mailbox.queue) ∧
    (y.Hands n e ↔ b.status = .running)
  := by
  rw [← List.cons_append, ← List.append_assoc] at h
  obtain ⟨t, hcourse, hdoes, -⟩ := h.split
  have ht : t.actor? n = some b := (hdoes.actor? n).symm.trans hb
  obtain ⟨t₀, hstart, hdoes₀, -⟩ := hcourse.split
  obtain ⟨⟨c, hc, hqueue⟩, hduties⟩ := hqueues
  have htaken : b.status = .running → e = e₀ ∧ handled n us = a.mailbox.queue := by
    intro hruns
    obtain ⟨c', hc', hturn⟩ := hstart.exists_turn h₀ hdoes₀ ha
    rw [hc, Option.some.injEq] at hc'
    subst hc'
    have hstarted := hturn.started (fun hnew => by rw [hrunning] at hnew; cases hnew)
    obtain ⟨arrivals, hfifo⟩ := hcourse.fifo h₀ hc hstarted ht hruns
    rw [hdoes.duties_eq_cons hy rfl, backlog_cons, hduties, hperforming.backlog, hqueue,
      List.append_assoc] at hfifo
    obtain ⟨hhandled, hrest⟩ := List.append_inj hfifo hcount
    exact ⟨(List.cons.inj hrest).1, hhandled⟩
  refine ⟨htaken, ⟨?_, ?_⟩⟩
  · intro hhands
    obtain ⟨b', -, hturn⟩ := hcourse.exists_turn h₀ hdoes hb
    exact (hhands.accepts (hcourse.orderly h₀ ht) hturn).1
  · intro hruns
    exact hands_of_running hy ((htaken hruns).1 ▸ hexternal) hb hruns

/-! ### Delayed transitions -/

/-- After a node was exited no send of its delayed transitions that was armed before is handed on. -/
theorem Course.not_hands_of_exits (h₀ : s₀.Fresh) (h : Course s₀ (xs ++ u :: ys) s)
    (hexits : u.Exits n k) (hc : u.before.actor? n = some c)
    (hcancel : .cancel id ∈ c.machine.chart.exitActions k)
    (hbounded : generation ≤ c.timerGeneration) (hv : v ∈ ys) (event : Event) :
  ¬ v.Hands n ⟨event, .timer (.named id) generation⟩
  := by
  obtain ⟨c', current, trigger, next, steps, hwork, hc', hnext, hmoves, x, hx, hexits⟩ := hexits
  rw [hc, Option.some.injEq] at hc'
  subst hc'
  obtain ⟨stop, hstop, hduty⟩ := hmoves.exists_cancel hx hexits hcancel
  have hafter : u.after = u.before.commit n next := by
    rw [Moment.after, hwork, carryOut, react, hc]
    dsimp only
    rw [hnext]
  have hleaves : u.after.actor? n = some { c with state := some next } := by
    rw [hafter, commit, actor?_plan, actor?_modify_self, hc]
    rfl
  obtain ⟨t, hcourse, hdoes, -⟩ := h.split
  have hstarted := hcourse.started_of_duty h₀ hdoes hc (by rw [hwork]; rfl)
  refine h.not_hands_of_cancel h₀ hleaves hstarted hbounded ?_ hduty hv event
  rw [hafter, pending_commit]
  exact List.mem_append_left _ hstop

/-- What a moment does at which the send of a delayed transition is armed. -/
theorem Course.exists_delays {later : Nat} (h₀ : s₀.Fresh) (h : Course s₀ xs t) (hdoes : t.Does m)
    (hm : m.Delays n a snapshot action id (later + 1)) :
  ∃ b, m.after.actor? n = some b ∧ b.status ≠ .notStarted ∧
    b.machine.chart = a.machine.chart ∧ b.timerGeneration = a.timerGeneration + 1 ∧
    m.after.duties n = m.before.duties n ∧
    (m.before.hasTimers = true → ∃ c : Clock Alarm,
      m.after.clock = c.schedule (later + 1) (.post n (a.nextAlarm id)))
  := by
  have hafter : m.after = m.before.armSend n ⟨.bare id, .myself, some (later + 1), some id⟩
      (later + 1) := by
    rw [Moment.after, hm.work, carryOut, perform, (isRunning_iff hm.actor).mpr hm.running, hm.duty]
    rfl
  obtain ⟨b, hb, hlast, -, harmed⟩ :=
    exists_armed hm.actor ⟨.bare id, .myself, some (later + 1), some id⟩ (later + 1)
  rw [← hafter] at hb harmed
  obtain ⟨b', hb', hturn⟩ := h.exists_turn h₀ hdoes hm.actor
  rw [hb, Option.some.injEq] at hb'
  subst hb'
  obtain ⟨d, hd, hages⟩ := exists_ages m.before m.work hm.actor
  rw [← Moment.after, hb, Option.some.injEq] at hd
  subst hd
  refine ⟨b, hb, hturn.started (by rw [hm.running]; exact Status.noConfusion),
    congrArg Machine.chart hages.machine, hlast, ?_, fun htimers => ⟨_, (harmed htimers).2⟩⟩
  rcases hturn.pending (h.orderly h₀ ((hdoes.actor? n).symm.trans hm.actor)) with
    ⟨-, -, hnone⟩ | ⟨_, _, -, hds, -⟩ | ⟨_, -, -, -, ⟨e, hwork, -⟩ | ⟨_, _, hwork, -⟩⟩
  · rw [hm.work] at hnone
    cases hnone.symm.trans (if_pos rfl)
  · rw [hdoes.duties_eq_cons hm.work rfl, hm.work] at hds
    exact (List.cons.inj hds).2.symm
  · cases hm.work.symm.trans hwork
  · cases hm.work.symm.trans hwork

/-- The actions that come after one that is carried out are pending. -/
theorem Course.exists_earlier (h₀ : s₀.Fresh) (h : Course s₀ xs t) (hdoes : t.Does m)
    (hwork : m.work = .perform n snapshot action) (ha : m.before.actor? n = some a) :
  ∃ earlier, snapshot.actions = earlier ++ action :: pending n (m.before.duties n)
  := by
  have ht : t.actor? n = some a := (hdoes.actor? n).symm.trans ha
  have horderly := h.orderly h₀ ht
  have hduties := hdoes.duties_eq_cons hwork rfl
  rw [hduties] at horderly
  have hsuffix := h.pending_suffix h₀ ht horderly.stage.of_perform.1
  rw [hduties, pending_perform] at hsuffix
  obtain ⟨earlier, hearlier⟩ := hsuffix
  exact ⟨earlier, hearlier.symm⟩

/-- What is appended to more than the front of a list is in the rest of it. -/
theorem mem_of_append_eq {α : Type} {front back added : List α} {x z : α} {rest : List α}
    (h : front ++ x :: rest = back ++ added) (hlt : front.length < back.length) (hz : z ∈ added) :
  z ∈ rest
  := by
  rcases List.append_eq_append_iff.mp h with ⟨middle, hback, hrest⟩ | ⟨middle, hfront, -⟩
  · cases middle with
    | nil => simp [hback] at hlt
    | cons x' middle =>
      rw [(List.cons.inj hrest).2]
      exact List.mem_append_right _ hz
  · rw [hfront, List.length_append] at hlt
    omega

/-- Let a running interpreter send itself the event of a delayed transition on the entry of a node.
If the delay is positive, the envelope of the timer is never handed on after the node was exited, be it
in a later macrostep or in one of the microsteps that follow in the same one.  If the delay is zero,
the event waits in the mailbox behind those that were there before; a macrostep is run for it if and
only if the interpreter is still running when its turn comes, whether or not the node was exited in
between. -/
theorem Course.delay_handed {document : Document.Machine} {p : Chart.Place} {key : String}
    {ts : List Document.Transition} {delay : Nat} (h₀ : s₀.Fresh)
    (h : Course s₀ (xs ++ m :: ys) s)
    (hm : m.Delays n a snapshot action (Chart.afterEvent key p.node.id) delay)
    (hchart : Chart.ofDocument document = .ok a.machine.chart)
    (hp : (Chart.places document)[k]? = some p) (hafter : (key, ts) ∈ p.own.after) :
  (0 < delay →
    (m.before.hasTimers = true → ∃ c : Clock Alarm, m.after.clock =
      c.schedule delay (.post n (a.nextAlarm (Chart.afterEvent key p.node.id)))) ∧
    (∀ us u vs, ys = us ++ u :: vs → u.Exits n k →
      ∀ v ∈ vs, ¬ v.Hands n (a.nextAlarm (Chart.afterEvent key p.node.id))) ∧
    ∃ earlier, snapshot.actions = earlier ++ action :: pending n (m.before.duties n) ∧
      ∀ event q steps q',
        Progress.Settles a.machine.chart a.machine.implementations event q steps q' →
        q'.collected.actions = snapshot.actions →
        (∃ x ∈ steps, x.Exits a.machine.chart k ∧
          earlier.length < x.before.collected.actions.length) →
        ∀ v ∈ ys, ¬ v.Hands n (a.nextAlarm (Chart.afterEvent key p.node.id))) ∧
  (delay = 0 → ∀ us y vs b e, ys = us ++ y :: vs →
    (handled n us).length = a.mailbox.queue.length → y.work = .handle n e →
    y.before.actor? n = some b →
    (b.status = .running → e = .external (.bare (Chart.afterEvent key p.node.id)) ∧
      handled n us = a.mailbox.queue) ∧
    (y.Hands n e ↔ b.status = .running))
  := by
  have hcancel := Chart.cancel_mem_exitActions hchart hp hafter
  generalize Chart.afterEvent key p.node.id = id at hm hcancel ⊢
  obtain ⟨t, hcourse, hdoes, -⟩ := h.split
  constructor
  · intro hpositive
    obtain ⟨later, rfl⟩ := Nat.exists_eq_succ_of_ne_zero (Nat.ne_of_gt hpositive)
    obtain ⟨b, hb, hstarted, hkept, hlast, hduties, hclock⟩ := hcourse.exists_delays h₀ hdoes hm
    refine ⟨hclock, ?_, ?_⟩
    · rintro us u vs rfl hexits v hv
      rw [← List.cons_append, ← List.append_assoc] at h
      obtain ⟨t₁, hcourse₁, hdoes₁, -⟩ := h.split
      obtain ⟨_, -, -, hsince⟩ := hcourse₁.split
      obtain ⟨c, hc, hsame, hle, -⟩ := hsince.exists_later hb
      rw [← hkept, ← hsame] at hcancel
      exact h.not_hands_of_exits h₀ hexits ((hdoes₁.actor? n).trans hc) hcancel (hlast ▸ hle) hv _
    · obtain ⟨earlier, hearlier⟩ := hcourse.exists_earlier h₀ hdoes hm.work hm.actor
      refine ⟨earlier, hearlier, ?_⟩
      rintro event q steps q' hsettles hactions ⟨x, hx, hexits, hlt⟩ v hv
      obtain ⟨added, hadded, stop, hstop, hduty⟩ := hsettles.exists_cancel hx hexits hcancel
      refine h.not_hands_of_cancel h₀ hb hstarted (Nat.le_of_eq hlast.symm) ?_ hduty hv _
      rw [hactions, hearlier] at hadded
      rw [hduties]
      exact mem_of_append_eq hadded hlt hstop
  · rintro rfl us y vs b e rfl hcount hy hb
    have hqueued : m.after = m.before.queue n (.external (.bare id)) := by
      rw [Moment.after, hm.work, carryOut, perform, (isRunning_iff hm.actor).mpr hm.running,
        hm.duty]
      rfl
    have horderly := hcourse.orderly h₀ ((hdoes.actor? n).symm.trans hm.actor)
    rw [hdoes.duties_eq_cons hm.work rfl] at horderly
    refine h.queued_handed h₀ hm.actor hm.running ⟨?_, ?_⟩ rfl horderly.stage.of_perform.2 hcount hy
      hb
    · rw [hqueued, Session.queue, actor?_modify_self, hm.actor]
      exact ⟨_, rfl, rfl⟩
    · rw [hqueued]
      exact duties_modify _

/-- A machine that leaves a node on `GO`, before the event of its delayed transition without delay is
taken; the next node takes all events. -/
def hurrying : Document.Machine where
  root := .node { initial := some "a" }
    [("a", .node { after := [("0", [{ targets := ["b"] }]), ("1000", [{ targets := ["b"] }])],
                   on := [("GO", [{ targets := ["c"] }])] } []),
     ("b", .node {} []),
     ("c", .node { on := [("*", [{ targets := ["d"] }])] } []),
     ("d", .node {} [])]

/-- The session of a chart. -/
def ofChart (chart : Chart) : Session :=
  ofMachine (.ofChart chart) []

/-- The moments of a run of `hurrying` in which `GO` waits when the interpreter is started, and the
clock is moved past the delay in the end. -/
def hurried (chart : Chart) : List Moment :=
  ((ofChart chart).conduct 40 [.send root (.bare "GO"), .start root, .advance 2000000]).1

/-- In that run the node with the delayed transitions is exited by the event that waits, and what comes
next is the event of the one without delay. -/
theorem exists_hurried :
  ∃ chart, Chart.ofDocument hurrying = .ok chart ∧
    (∃ p ts ts', (Chart.places hurrying)[1]? = some p ∧ p.node.id = "machine.a" ∧
      ("0", ts) ∈ p.own.after ∧ ("1000", ts') ∈ p.own.after) ∧
    ∃ xs m m' us u us' y vs a a' b,
      hurried chart = xs ++ m :: m' :: (us ++ u :: (us' ++ y :: vs)) ∧
      (∃ snapshot action, m.Delays root a snapshot action (Chart.afterEvent "0" "machine.a") 0) ∧
      (∃ snapshot action, m'.Delays root a' snapshot action
        (Chart.afterEvent "1000" "machine.a") 1000000) ∧
      u.Exits root 1 ∧
      (handled root (m' :: (us ++ u :: us'))).length = a.mailbox.queue.length ∧
      y.work = .handle root (.external (.bare (Chart.afterEvent "0" "machine.a"))) ∧
      y.before.actor? root = some b ∧ b.status = .running
  := by
  obtain ⟨chart, h, hp⟩ := Outcome.exists_of_any (x := Chart.ofDocument hurrying)
    (p := fun chart =>
      let xs := (hurried chart).drop 5
      let ys := xs.drop 1
      let zs := ys.drop 5
      (hurried chart)[4]?.any fun m => xs[0]?.any fun m' => ys[4]?.any fun u => zs[4]?.any fun y =>
        (m.before.actor? root).any fun a => (m'.before.actor? root).any fun a' =>
        (y.before.actor? root).any fun b => (y.work.handled? root).any fun e =>
          m.work.delays root (Chart.afterEvent "0" "machine.a") 0 = true ∧
            m'.work.delays root (Chart.afterEvent "1000" "machine.a") 1000000 = true ∧
            u.leaves root 1 = true ∧ (a.status = .running ∧ a'.status = .running) ∧
            (handled root (m' :: (ys.take 4 ++ u :: zs.take 4))).length = a.mailbox.queue.length ∧
            (e.origin = .external ∧ e.event.name = Chart.afterEvent "0" "machine.a" ∧
              e.event.data.isNull = true) ∧ b.status = .running)
    (by decide +kernel)
  obtain ⟨m, hm, hp⟩ := (Option.any_eq_true _ _).mp hp
  obtain ⟨m', hm', hp⟩ := (Option.any_eq_true _ _).mp hp
  obtain ⟨u, hu, hp⟩ := (Option.any_eq_true _ _).mp hp
  obtain ⟨y, hy, hp⟩ := (Option.any_eq_true _ _).mp hp
  obtain ⟨a, ha, hp⟩ := (Option.any_eq_true _ _).mp hp
  obtain ⟨a', ha', hp⟩ := (Option.any_eq_true _ _).mp hp
  obtain ⟨b, hb, hp⟩ := (Option.any_eq_true _ _).mp hp
  obtain ⟨⟨⟨name, data⟩, origin⟩, he, hp⟩ := (Option.any_eq_true _ _).mp hp
  obtain ⟨hdelays, hdelays', hleaves, ⟨hrunning, hrunning'⟩, hcount, ⟨rfl, rfl, hdata⟩, hruns⟩ :=
    of_decide_eq_true hp
  have hempty : data = .null := eq_null_of_isNull hdata
  subst hempty
  have hms := (eq_take_append_cons_drop hm).trans
    (congrArg (fun ms => (hurried chart).take 4 ++ m :: ms) (eq_take_append_cons_drop hm'))
  rw [List.take_zero, List.nil_append, eq_take_append_cons_drop hu,
    eq_take_append_cons_drop hy] at hms
  refine ⟨chart, h, ?_, _, m, m', _, u, _, y, _, a, a', b, hms,
    exists_delays_of_delays hdelays ha hrunning, exists_delays_of_delays hdelays' ha' hrunning',
    exits_of_leaves hleaves, hcount, handled?_eq_some_iff.mp he, hb, hruns⟩
  exact ⟨_, _, _, rfl, by decide +kernel, List.mem_cons_self, List.mem_cons_of_mem _
    List.mem_cons_self⟩

theorem fresh_ofChart {chart : Chart} (h : chart.Compiled) :
  (ofChart chart).Fresh
  := fresh_ofMachine h nofun

theorem course_hurried (chart : Chart) :
  ∃ s, Course (ofChart chart) (hurried chart) s
  := ⟨_, course_conduct 40 (ofChart chart) _ (by decide)⟩

/-- The event of a delayed transition without delay outlives the node: a macrostep is run for it after
the node was exited. -/
theorem delay_outlives_node :
  ∃ chart, Chart.ofDocument hurrying = .ok chart ∧ ∃ p ts xs m us y vs s a snapshot action,
    (ofChart chart).Fresh ∧ Course (ofChart chart) (xs ++ m :: (us ++ y :: vs)) s ∧
    (Chart.places hurrying)[1]? = some p ∧ ("0", ts) ∈ p.own.after ∧
    m.Delays root a snapshot action (Chart.afterEvent "0" p.node.id) 0 ∧
    (handled root us).length = a.mailbox.queue.length ∧ (∃ u ∈ us, u.Exits root 1) ∧
    y.Hands root (.external (.bare (Chart.afterEvent "0" p.node.id)))
  := by
  obtain ⟨chart, h, ⟨p, ts, -, hp, hid, hafter, -⟩, xs, m, m', us, u, us', y, vs, a, -, b, hms,
    ⟨snapshot, action, hdelays⟩, -, hexits, hcount, hy, hb, hrunning⟩ := exists_hurried
  obtain ⟨s, hcourse⟩ := course_hurried chart
  have hsplit : hurried chart = xs ++ m :: ((m' :: (us ++ u :: us')) ++ y :: vs) := by
    rw [hms]
    simp
  rw [hsplit] at hcourse
  rw [← hid] at hdelays hy
  exact ⟨chart, h, p, ts, xs, m, m' :: (us ++ u :: us'), y, vs, s, a, snapshot, action,
    fresh_ofChart ⟨hurrying, h⟩, hcourse, hp, hafter, hdelays, hcount,
    ⟨u, by simp, hexits⟩, hands_of_running hy rfl hb hrunning⟩

theorem delay_handed_hurrying :
  ∃ chart, Chart.ofDocument hurrying = .ok chart ∧ ∃ p ts ts' xs m m' us u us' y vs s a a' b
      snapshot snapshot' action action',
    (ofChart chart).Fresh ∧
    Course (ofChart chart) (xs ++ m :: m' :: (us ++ u :: (us' ++ y :: vs))) s ∧
    (Chart.places hurrying)[1]? = some p ∧ ("0", ts) ∈ p.own.after ∧ ("1000", ts') ∈ p.own.after ∧
    a.machine.chart = chart ∧ a'.machine.chart = chart ∧
    m.Delays root a snapshot action (Chart.afterEvent "0" p.node.id) 0 ∧
    m'.Delays root a' snapshot' action' (Chart.afterEvent "1000" p.node.id) 1000000 ∧
    u.Exits root 1 ∧ (handled root (m' :: (us ++ u :: us'))).length = a.mailbox.queue.length ∧
    y.work = .handle root (.external (.bare (Chart.afterEvent "0" p.node.id))) ∧
    y.before.actor? root = some b ∧ b.status = .running ∧
    handled root (m' :: (us ++ u :: us')) = a.mailbox.queue ∧
    y.Hands root (.external (.bare (Chart.afterEvent "0" p.node.id))) ∧
    ∀ v ∈ us' ++ y :: vs, ¬ v.Hands root (a'.nextAlarm (Chart.afterEvent "1000" p.node.id))
  := by
  obtain ⟨chart, h, ⟨p, ts, ts', hp, hid, hafter, hafter'⟩, xs, m, m', us, u, us', y, vs, a, a', b,
    hms, ⟨snapshot, action, hdelays⟩, ⟨snapshot', action', hdelays'⟩, hexits, hcount, hy, hb,
    hrunning⟩ := exists_hurried
  obtain ⟨s, hcourse⟩ := course_hurried chart
  have h₀ := fresh_ofChart ⟨hurrying, h⟩
  rw [hms] at hcourse
  rw [← hid] at hdelays hdelays' hy
  have hsplit : xs ++ m :: m' :: (us ++ u :: (us' ++ y :: vs)) =
      xs ++ m :: ((m' :: (us ++ u :: us')) ++ y :: vs) := by simp
  have hsplit' : xs ++ m :: m' :: (us ++ u :: (us' ++ y :: vs)) =
      (xs ++ [m]) ++ m' :: (us ++ u :: (us' ++ y :: vs)) := by simp
  have hchart : ∀ {ms₁ z ms₂} {c : Actor}, Course (ofChart chart) (ms₁ ++ z :: ms₂) s →
      z.before.actor? root = some c → c.machine.chart = chart := by
    intro ms₁ z ms₂ c hz hc
    obtain ⟨t, hfirst, hdoes, -⟩ := hz.split
    obtain ⟨c', hc', hsame, -⟩ := hfirst.exists_later (a := _) (n := root) rfl
    rw [← hdoes.actor?, hc, Option.some.injEq] at hc'
    exact hc' ▸ hsame
  have ha := hchart hcourse hdelays.actor
  have ha' := hchart (hsplit' ▸ hcourse) hdelays'.actor
  obtain ⟨-, hzero⟩ := hcourse.delay_handed h₀ hdelays (ha.symm ▸ h) hp hafter
  obtain ⟨hlapses, -⟩ := (hsplit' ▸ hcourse).delay_handed h₀ hdelays' (ha'.symm ▸ h) hp hafter'
  obtain ⟨htaken, hhands⟩ := hzero rfl (m' :: (us ++ u :: us')) y vs b _ (by simp) hcount hy hb
  obtain ⟨-, hnever, -⟩ := hlapses (by decide)
  exact ⟨chart, h, p, ts, ts', xs, m, m', us, u, us', y, vs, s, a, a', b, snapshot, snapshot',
    action, action', h₀, hcourse, hp, hafter, hafter', ha, ha', hdelays, hdelays', hexits, hcount,
    hy, hb, hrunning, (htaken hrunning).2, hhands.mpr hrunning, hnever us u _ rfl hexits⟩

end Session

end Statechart
