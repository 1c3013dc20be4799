import Statechart.Proofs.Session.Operated
import Statechart.Proofs.Session.Visits

/-!
# Delayed transitions whose nodes are not exited

The event of a delayed transition is taken exactly when its delay is over since the node was
entered last, unless the node is exited or the interpreter is stopped before
(`Operated.delay_punctual`).  The proof keeps account of the time when the send is due: this is the
time of the entry and the delay, as soon as the actions of the snapshot are carried out.
-/

namespace Statechart

/-- The time when a node was entered last, if it was not exited since and the event of its delayed
transition was not handed on. -/
def Since (k : Nat) (id : String) (ms : List Moment) : Option Nat → Prop
  | none => ∀ xs m ys, ms = xs ++ m :: ys → m.visit? Session.root k = some .enter →
      ∃ y ∈ ys, y.visit? Session.root k ≠ none ∨ y.Fires Session.root id
  | some time => ∃ xs m ys, ms = xs ++ m :: ys ∧ m.visit? Session.root k = some .enter ∧
      m.before.clock.now = time ∧ ∀ y ∈ ys, y.IsIdle Session.root k id

section

variable {k : Nat} {id : String} {ms : List Moment} {y : Moment} {since since' : Option Nat}

theorem Since.nil :
  Since k id [] none
  := by
  intro xs m ys hsplit
  simp at hsplit

theorem Since.quiet (h : Since k id ms since) (hvisit : y.visit? Session.root k = none)
    (hfires : ¬ y.Fires Session.root id) :
  Since k id (ms ++ [y]) since
  := by
  cases since with
  | none =>
    intro xs m ys hsplit henter
    rcases List.eq_nil_or_concat ys with rfl | ⟨zs, z, rfl⟩
    · obtain ⟨-, hlast⟩ := List.append_inj' hsplit rfl
      cases hlast
      rw [hvisit] at henter
      cases henter
    · rw [List.concat_eq_append, ← List.cons_append, ← List.append_assoc] at hsplit
      obtain ⟨hfirst, -⟩ := List.append_inj' hsplit rfl
      obtain ⟨x, hx, hx'⟩ := h xs m zs hfirst henter
      rw [List.concat_eq_append]
      exact ⟨x, List.mem_append_left _ hx, hx'⟩
  | some time =>
    obtain ⟨xs, m, ys, rfl, henter, htime, hquiet⟩ := h
    refine ⟨xs, m, ys ++ [y], by simp, henter, htime, ?_⟩
    exact List.forall_mem_append.mpr ⟨hquiet, List.forall_mem_singleton.mpr ⟨hvisit, hfires⟩⟩

theorem Since.enter (henter : y.visit? Session.root k = some .enter) :
  Since k id (ms ++ [y]) (some y.before.clock.now)
  := ⟨ms, y, [], rfl, henter, rfl, List.forall_mem_nil _⟩

theorem Since.over (hother : y.visit? Session.root k ≠ some .enter)
    (hover : y.visit? Session.root k ≠ none ∨ y.Fires Session.root id) :
  Since k id (ms ++ [y]) none
  := by
  intro xs m ys hsplit henter
  rcases List.eq_nil_or_concat ys with rfl | ⟨zs, z, rfl⟩
  · obtain ⟨-, hlast⟩ := List.append_inj' hsplit rfl
    cases hlast
    exact absurd henter hother
  · rw [List.concat_eq_append, ← List.cons_append, ← List.append_assoc] at hsplit
    obtain ⟨-, hlast⟩ := List.append_inj' hsplit rfl
    cases hlast
    rw [List.concat_eq_append]
    exact ⟨y, List.mem_append_right _ List.mem_cons_self, hover⟩

/-- There is one such time at most. -/
theorem Since.unique (h : Since k id ms since) (h' : Since k id ms since') :
  since = since'
  := by
  have hnone : ∀ {time}, Since k id ms none → ¬ Since k id ms (some time) := by
    rintro time hnone ⟨xs, m, ys, hsplit, henter, -, hquiet⟩
    obtain ⟨y, hy, hover⟩ := hnone xs m ys hsplit henter
    obtain ⟨hvisit, hfires⟩ := hquiet y hy
    rcases hover with hover | hover
    · exact hover hvisit
    · exact hfires hover
  cases since with
  | none =>
    cases since' with
    | none => rfl
    | some time' => exact absurd h' (hnone h)
  | some time =>
    cases since' with
    | none => exact absurd h (hnone h')
    | some time' =>
      obtain ⟨xs, m, ys, hsplit, henter, rfl, hquiet⟩ := h
      obtain ⟨xs', m', ys', hsplit', henter', rfl, hquiet'⟩ := h'
      rw [hsplit'] at hsplit
      -- of two entries the later one would be a visit after the earlier one
      rcases List.append_eq_append_iff.mp hsplit with ⟨zs, -, hzs⟩ | ⟨zs, -, hzs⟩
      · cases zs with
        | nil =>
          cases hzs
          rfl
        | cons z zs =>
          obtain ⟨-, rfl⟩ := List.cons.inj hzs
          rw [(hquiet' m (List.mem_append_right _ List.mem_cons_self)).1] at henter
          cases henter
      · cases zs with
        | nil =>
          cases hzs
          rfl
        | cons z zs =>
          obtain ⟨-, rfl⟩ := List.cons.inj hzs
          rw [(hquiet m' (List.mem_append_right _ List.mem_cons_self)).1] at henter'
          cases henter'

end

/-- How the time when a delayed send is due follows from the last entry of the node: the send is
armed, is about to be armed, or is about to be cancelled. -/
inductive Told (now delay : Nat) : Option Visit → Option Nat → Option Nat → Prop where
  | settled {since} : Told now delay none since (since.map (· + delay))
  | entered {due} : Told now delay (some .enter) (some now) due
  | exited {due} : Told now delay (some .exit) none due

/-- A send that was about to be armed is due after its delay. -/
theorem Told.of_enter {now delay : Nat} {since due : Option Nat} {next : Option Visit}
    (h : Told now delay (next.or (some .enter)) since due) :
  Told now delay next since (some (now + delay))
  := by
  cases next with
  | none =>
    cases h
    exact .settled
  | some visit => cases h <;> constructor

/-- A send that was about to be cancelled is due no more. -/
theorem Told.of_exit {now delay : Nat} {since due : Option Nat} {next : Option Visit}
    (h : Told now delay (next.or (some .exit)) since due) :
  Told now delay next since none
  := by
  cases next with
  | none =>
    cases h
    exact .settled
  | some visit => cases h <;> constructor

namespace Session

open Collection (Tells)

variable {k delay : Nat} {id : String} {m : Machine} {s s₀ t : Session} {a b : Actor}
  {ms xs ys : List Moment} {y : Moment} {flying flying' : List (Timer Alarm)} {w : Work}
  {snapshot : Snapshot} {action : ResolvedAction} {last : Option Visit} {since due : Option Nat}

/-! ### When the send is due -/

/-- What is known of the delayed send of a node: its last visit that is still to be carried out, the
time since when the node is active, and the time when the send is due. -/
structure Accounts (k delay : Nat) (id : String) (ms : List Moment) (s : Session) (a : Actor)
    (flying : List (Timer Alarm)) (last : Option Visit) (since due : Option Nat) : Prop where
  tells : Tells id delay (pending root (s.duties root)) last
  entered : Since k id ms since
  awaits : Awaits (.named id) (.bare id) a.timers (flying ++ s.clock.live) due
  told : Told s.clock.now delay last since due

/-- When no action is pending, no visit is still to be carried out. -/
theorem Accounts.settled (h : Accounts k delay id ms s a flying last since due)
    (hpending : pending root (s.duties root) = []) :
  last = none
  := by
  have htells := h.tells
  rw [hpending] at htells
  exact htells.last.symm

/-- No action is pending when an envelope is handled. -/
theorem Does.pending_of_handle {e : Envelope} (hdoes : s.Does y)
    (horderly : a.Orderly root (s.duties root)) (hwork : y.work = .handle root e) :
  pending root (s.duties root) = []
  := by
  rw [hdoes.duties_eq_cons hwork rfl] at horderly ⊢
  rw [horderly.stage.of_handle]
  rfl

theorem tells_of_cons {actions : List ResolvedAction}
    (h : Tells id delay (action :: actions) last) :
  ∃ next, Tells id delay actions next ∧ last = next.or (action.visit? id) ∧ action.Arms id delay
  := by
  obtain ⟨hfirst, hrest⟩ := List.forall_mem_cons.mp h.arms
  refine ⟨_, ⟨rfl, hrest⟩, ?_, hfirst⟩
  rw [← h.last, Collection.getLast?_filterMap_cons]

theorem awaits_unwound {key other : SendId} {event : Event} {clock : Clock Alarm}
    (h : Awaits key event a.timers clock.live due) (htable : Timetable a.timers [] clock)
    (hne : key ≠ other) :
  Awaits key event (Association.erase other a.timers) (a.unwound other clock).live due
  := by
  rw [Actor.unwound]
  cases hlookup : a.timers.lookup other with
  | none =>
    have hsame := Association.lookup_erase_of_ne hne a.timers
    cases due with
    | none => exact hsame.trans h
    | some deadline =>
      obtain ⟨generation, number, hown, hlive⟩ := h
      exact ⟨generation, number, hsame.trans hown, hlive⟩
  | some d => exact h.cancel htable hlookup hne

theorem duty_of_exit (h : action.visit? id = some .exit) :
  action.duty = .cancel id
  := by
  rw [ResolvedAction.visit?] at h
  cases hduty : action.duty with
  | cancel other =>
    rw [hduty, Duty.visit?] at h
    split at h
    · next heq => rw [heq]
    · cases h
  | send send =>
    rw [hduty, Duty.visit?] at h
    split at h <;> cases h
  | _ =>
    rw [hduty] at h
    cases h

theorem not_fires (huntimed : ∀ e, y.work = .handle root e → e.isTimed = false) :
  ¬ y.Fires root id
  := by
  rintro ⟨generation, hwork, -⟩
  cases huntimed _ hwork

/-- An action that has nothing to do with the send leaves it as it is. -/
theorem awaits_alters (h : Awaits (.named id) (.bare id) a.timers s.clock.live due)
    (htable : Timetable a.timers [] s.clock) (htimers : s.hasTimers = true)
    (halters : Alters root s a (.perform root snapshot action) t b)
    (hvisit : action.visit? id = none) :
  Awaits (.named id) (.bare id) b.timers t.clock.live due
  := by
  rw [ResolvedAction.visit?] at hvisit
  cases halters with
  | keep hkept _ hclock =>
    rw [hkept, hclock (by simp [Work.winds])]
    exact h
  | @cancel _ _ other _ _ _ hduty hkept _ hclock =>
    have hne : SendId.named id ≠ .named other := by
      intro heq
      rw [hduty, SendId.named.inj heq] at hvisit
      simp [Duty.visit?] at hvisit
    rw [hkept, hclock]
    exact awaits_unwound h htable hne
  | @arm _ _ send later _ _ _ hduty _ hkept _ hclock =>
    have hne : SendId.named id ≠ a.keyOf send := by
      intro heq
      have hid : send.id = some id := by
        rw [Actor.keyOf] at heq
        cases hsend : send.id with
        | none =>
          rw [hsend] at heq
          cases heq
        | some other =>
          rw [hsend] at heq
          exact congrArg some (SendId.named.inj heq).symm
      rw [hduty, Duty.visit?, if_pos hid] at hvisit
      cases hvisit
    rw [hkept, hclock]
    exact (awaits_unwound h htable hne).schedule (htable.unwound _) hne _ _
  | displace htimerless => exact absurd (htimers.symm.trans htimerless) Bool.noConfusion

/-- An action is carried out, which may arm or cancel the send. -/
theorem Accounts.perform (h : Accounts k delay id ms s a [] last since due) (hdelay : 0 < delay)
    (hdoes : s.Does y) (hlone : s.Lone m a) (htable : Timetable a.timers [] s.clock)
    (hrunning : a.status = .running) (hwork : y.work = .perform root snapshot action)
    (hpending : pending root (s.duties root) = action :: pending root (y.after.duties root))
    (hvisit : y.visit? root k = none) (hb : y.after.actor? root = some b)
    (halters : Alters root y.before a y.work y.after b) :
  ∃ last due, Accounts k delay id (ms ++ [y]) y.after b [] last since due
  := by
  have hclock := hdoes.clock
  have hbefore := hdoes.lone hlone
  have ha := hbefore.actor?_root
  have htells := h.tells
  rw [hpending] at htells
  obtain ⟨next, hnext, rfl, harms⟩ := tells_of_cons htells
  have huntimed : ∀ e, y.work = .handle root e → e.isTimed = false := by
    intro e he
    cases hwork.symm.trans he
  have hnow : y.after.clock.now = s.clock.now := by
    rw [← hclock]
    refine (Timetable.alters (hclock ▸ htable) ha halters ?_ hbefore.hasTimers huntimed).2.1
    rw [hwork]
    rfl
  have hentered : Since k id (ms ++ [y]) since := h.entered.quiet hvisit (not_fires huntimed)
  have htold := h.told
  rw [← hnow] at htold
  have hruns := (isRunning_iff ha).mpr hrunning
  cases hcase : action.visit? id with
  | none =>
    rw [hcase, Option.or_none] at htold
    rw [hwork] at halters
    refine ⟨next, due, hnext, hentered, ?_, htold⟩
    exact awaits_alters (hclock ▸ h.awaits) (hclock ▸ htable) hbefore.hasTimers halters hcase
  | some visit =>
    rw [hcase] at htold
    cases visit with
    | enter =>
      have hduty := harms hcase
      obtain ⟨later, rfl⟩ := Nat.exists_eq_succ_of_ne_zero (Nat.ne_of_gt hdelay)
      have hafter : y.after =
          y.before.armSend root ⟨.bare id, .myself, some (later + 1), some id⟩ (later + 1) := by
        rw [Moment.after, hwork, carryOut, Session.perform, hruns, hduty]
        rfl
      obtain ⟨c, hc, -, -, harmed⟩ :=
        exists_armed ha ⟨.bare id, .myself, some (later + 1), some id⟩ (later + 1)
      rw [← hafter, hb, Option.some.injEq] at hc
      subst hc
      obtain ⟨htimers, hscheduled⟩ := harmed hbefore.hasTimers
      rw [← hafter] at hscheduled
      refine ⟨next, some (y.after.clock.now + (later + 1)), hnext, hentered, ?_, ?_⟩
      · rw [htimers, hscheduled]
        exact Awaits.armed (Timetable.unwound (hclock ▸ htable) _) _ _ _ _
      · exact htold.of_enter
    | exit =>
      have hduty := duty_of_exit hcase
      have hafter : y.after = y.before.cancelSend root (.named id) := by
        rw [Moment.after, hwork, carryOut, Session.perform, hruns, hduty]
        rfl
      rw [hafter, actor?_cancelSend ha, Option.some.injEq] at hb
      subst hb
      refine ⟨next, none, hnext, hentered, Awaits.erase _ _ _ _, ?_⟩
      exact htold.of_exit

/-- The envelope of a timer is handed on while its send is in the table, if it is one of the
interpreter to itself. -/
theorem handed {key : SendId} {event : Event} {d : DelayedSend}
    (hwork : y.work = .handle root ⟨event, .timer key d.generation⟩)
    (ha : y.before.actor? root = some a) (hrunning : a.status = .running)
    (hlookup : a.timers.lookup key = some d) (hmyself : d.destination = .myself) :
  .macrostep root event (.timer key d.generation) ∈ y.after.agenda
  := by
  rw [Moment.after, hwork, carryOut, handle, (isRunning_iff ha).mpr hrunning, ha, Bool.not_true,
    if_neg Bool.false_ne_true]
  dsimp only [Option.bind_some]
  rw [hlookup]
  dsimp only
  rw [if_pos rfl, hmyself]
  exact List.mem_cons_self

/-- Neither the calls that carry out no action of the interpreter nor its own works without effect
on the send change when the send is due; the handling of its envelope does. -/
theorem Accounts.pass (h : Accounts k delay id ms s a flying last since due) (hdoes : s.Does y)
    (htable : Timetable a.timers flying s.clock) (hvisit : y.visit? root k = none)
    (haction : y.work.action? root = none)
    (hpending : pending root (y.after.duties root) = pending root (s.duties root))
    (ha : s.actor? root = some a) (horderly : a.Orderly root (s.duties root))
    (hshifts : Shifts flying a y b flying') (hopen : b.status ≠ .stopped) :
  ∃ since due, Accounts k delay id (ms ++ [y]) y.after b flying' last since due
  := by
  have htells := h.tells
  have hclock := hdoes.clock
  rw [← hpending] at htells
  -- the clock is moved only when no action is pending
  have hnone : y.before.agenda = [] → last = none := by
    intro hagenda
    have hnil : pending root (s.duties root) = [] := by
      rw [hdoes.duties, pending_append, duties, hagenda]
      split
      · rw [pending_cons_of_none haction]
        rfl
      · rfl
    exact h.settled hnil
  cases hshifts with
  | keep htimers hlive hsame _ huntimed =>
    refine ⟨since, due, htells, h.entered.quiet hvisit (not_fires huntimed), ?_, ?_⟩
    · rw [htimers, hlive, hclock]
      exact h.awaits
    · rcases hsame with hsame | hagenda
      · rw [hsame, hclock]
        exact h.told
      · have htold := h.told
        rw [hnone hagenda] at htold ⊢
        cases htold
        exact .settled
  | alter _ hne => exact absurd haction hne
  | stop _ hstopped => exact absurd hstopped hopen
  | @take x e key d hflying htask hwork hrunning hnow horigin hlookup htimer htimers hsame =>
    subst hflying
    by_cases hkey : .named id = key
    · subst hkey
      obtain ⟨-, hmyself, htask'⟩ := h.awaits.taken htable hlookup htimer
      rw [htask, Alarm.post.injEq] at htask'
      obtain ⟨-, rfl⟩ := htask'
      have hnone := h.settled (hdoes.pending_of_handle horderly hwork)
      have hfires : y.Fires root id :=
        ⟨d.generation, hwork, handed hwork ((hdoes.actor? root).trans ha) hrunning hlookup hmyself⟩
      refine ⟨none, none, htells, .over ?_ (Or.inr hfires), ?_, ?_⟩
      · rw [hvisit]
        exact (Option.some_ne_none _).symm
      · rw [htimers]
        exact Awaits.erase _ _ _ _
      · rw [hnone]
        exact .settled
    · refine ⟨since, due, htells, h.entered.quiet hvisit ?_, ?_, ?_⟩
      · rintro ⟨generation, hhandles, -⟩
        rw [hwork, Work.handle.injEq] at hhandles
        rw [hhandles.2, Origin.timer.injEq] at horigin
        exact hkey horigin.1
      · rw [htimers, hsame, hclock]
        have htask' : x.task = .post root ⟨e.event, .timer key d.generation⟩ := by
          rw [htask, ← horigin]
        exact h.awaits.take hkey htask'
      · rw [hsame, hclock]
        exact h.told

/-- A new snapshot is stored, whose actions tell what was done last to the node. -/
theorem Accounts.visit (h : Accounts k delay id ms s a flying last since due) (hdoes : s.Does y)
    (hduty : y.work.duty? = some root) (haction : y.work.action? root = none)
    (huntimed : ∀ e, y.work = .handle root e → e.isTimed = false) (hagenda : y.before.agenda ≠ [])
    (hpending : pending root (s.duties root) = [])
    (htells : Tells id delay (pending root (y.after.duties root)) (y.visit? root k))
    (hshifts : Shifts flying a y b flying') :
  ∃ last since due, Accounts k delay id (ms ++ [y]) y.after b flying' last since due
  := by
  have hnone := h.settled hpending
  cases hshifts with
  | keep htimers hlive hsame _ _ =>
    have hsame := hsame.resolve_right hagenda
    have hfires : ¬ y.Fires root id := not_fires huntimed
    have hawaits : Awaits (.named id) (.bare id) b.timers (flying' ++ y.after.clock.live) due := by
      rw [htimers, hlive, hdoes.clock]
      exact h.awaits
    cases hvisit : y.visit? root k with
    | none =>
      rw [hvisit] at htells
      have htold := h.told
      rw [hnone] at htold
      cases htold
      exact ⟨none, since, _, htells, h.entered.quiet hvisit hfires, hawaits, .settled⟩
    | some visit =>
      rw [hvisit] at htells
      cases visit with
      | enter =>
        have htold : Told y.after.clock.now delay (some .enter) (some y.before.clock.now) due := by
          rw [hsame]
          exact .entered
        exact ⟨_, _, due, htells, .enter hvisit, hawaits, htold⟩
      | exit =>
        have hother : y.visit? root k ≠ some .enter := by
          rw [hvisit]
          exact fun heq => Visit.noConfusion (Option.some.inj heq)
        have hsome : y.visit? root k ≠ none := by
          rw [hvisit]
          exact Option.some_ne_none _
        have hover : Since k id (ms ++ [y]) none := .over hother (Or.inl hsome)
        exact ⟨_, none, due, htells, hover, hawaits, .exited⟩
  | alter _ hne => exact absurd haction hne
  | stop hwork =>
    rw [hwork] at hduty
    cases hduty
  | take _ _ hwork _ _ horigin =>
    have hsame := huntimed _ hwork
    rw [Envelope.isTimed, horigin] at hsame
    cases hsame

/-- Whatever is done next, the account of the delayed send goes on, unless the interpreter is
stopped. -/
theorem Accounts.step (h : Accounts k delay id ms s a flying last since due) (hdelay : 0 < delay)
    (htimes : m.chart.Times m.implementations k id delay) (h₀ : s₀.Fresh) {zs : List Moment}
    (hcourse : Course s₀ zs s) (hdoes : s.Does y) (hs : s.Operating m a flying)
    (hstatus : a.status ≠ .stopped) (hb : y.after.Operating m b flying')
    (hshifts : Shifts flying a y b flying') (hopen : b.status ≠ .stopped) :
  ∃ last since due, Accounts k delay id (ms ++ [y]) y.after b flying' last since due
  := by
  have ha := (hdoes.lone hs.lone).actor?_root
  have horderly := hcourse.orderly h₀ hs.lone.actor?_root
  rcases hcourse.visits h₀ hdoes ha hstatus (hs.lone.machine ▸ htimes) with
    ⟨hvisit, hrunning, snapshot, action, hwork, hpending⟩ | ⟨hvisit, haction, hpending⟩ |
      ⟨hduty, haction, huntimed, hagenda, hpending, htells⟩
  · cases hshifts with
    | keep _ _ _ haction =>
      rw [hwork] at haction
      cases haction
    | alter hflying _ halters =>
      subst hflying
      obtain ⟨last, due, hnext⟩ := h.perform hdelay hdoes hs.lone hs.table hrunning hwork hpending
        hvisit hb.lone.actor?_root halters
      exact ⟨last, since, due, hnext⟩
    | stop hstop => cases hwork.symm.trans hstop
    | take _ _ hhandle => cases hwork.symm.trans hhandle
  · obtain ⟨since, due, hnext⟩ := h.pass hdoes hs.table hvisit haction hpending
      hs.lone.actor?_root horderly hshifts hopen
    exact ⟨last, since, due, hnext⟩
  · exact h.visit hdoes hduty haction huntimed hagenda hpending htells hshifts

/-- All along the operation of an interpreter account is kept of the delayed send, until the
interpreter is stopped. -/
theorem Operated.accounts {settings : Settings} {catalog : List (String × Source)}
    (hmachine : m.chart.Compiled)
    (hcatalog : ∀ src m, catalog.lookup src = some (.machine m) → m.chart.Compiled)
    (htimes : m.chart.Times m.implementations k id delay) (hdelay : 0 < delay)
    (h : Operated (prepared m settings catalog) ms s) :
  ∃ a flying, s.Operating (m.withLimit settings.limit) a flying ∧ (a.status ≠ .stopped →
    ∃ last since due, Accounts k delay id ms s a flying last since due)
  := by
  have h₀ : (prepared m settings catalog).Fresh := fresh_prepared hmachine hcatalog
  have htimes' : (m.withLimit settings.limit).chart.Times
      (m.withLimit settings.limit).implementations k id delay := htimes
  induction h with
  | refl =>
    obtain ⟨a, ha, hstatus⟩ := operating_prepared m settings catalog
    refine ⟨a, [], ha, fun _ => ⟨none, none, none, .nil, .nil, ?_, .settled⟩⟩
    have hidle : a.status ≠ .running := by
      rw [hstatus]
      exact Status.noConfusion
    rw [ha.idle hidle]
    rfl
  | @call ms s t h hrest hcall ih =>
    obtain ⟨a, flying, ha, haccounts⟩ := ih
    obtain ⟨rfl, hclock, b, hb, htimers, hstatus⟩ := ha.call hrest hcall
    refine ⟨b, [], hb, fun hopen => ?_⟩
    obtain ⟨last, since, due, htells, hentered, hawaits, htold⟩ := haccounts (hstatus ▸ hopen)
    refine ⟨last, since, due, ?_, hentered, ?_, ?_⟩
    · rw [hcall.duties]
      exact htells
    · rw [htimers, hclock]
      exact hawaits
    · rw [hclock]
      exact htold
  | @step ms s y h hdoes ih =>
    obtain ⟨a, flying, ha, haccounts⟩ := ih
    obtain ⟨b, flying', hb, hshifts⟩ := ha.step htimes'.invocation h₀ h.course hdoes
    refine ⟨b, flying', hb, fun hopen => ?_⟩
    obtain ⟨c, hc, hturn⟩ := h.course.exists_turn h₀ hdoes (hdoes.lone ha.lone).actor?_root
    rw [hb.lone.actor?_root, Option.some.injEq] at hc
    subst hc
    have hstatus : a.status ≠ .stopped := fun hstopped => hopen (hturn.stopped hstopped)
    obtain ⟨last, since, due, haccount⟩ := haccounts hstatus
    exact haccount.step hdelay htimes' h₀ h.course hdoes ha hstatus hb hshifts hopen

/-! ### Punctuality -/

variable {settings : Settings} {catalog : List (String × Source)}

theorem Phase.now_eq {x : Timer Alarm} (h : s.Phase a flying) (hx : x ∈ flying) :
  s.clock.now = x.deadline
  := by
  cases h with
  | calm => cases hx
  | ringing _ _ _ hnow => exact List.mem_singleton.mp hx ▸ hnow
  | waiting _ _ _ _ hnow => exact List.mem_singleton.mp hx ▸ hnow
  | handling _ _ _ _ hnow => exact List.mem_singleton.mp hx ▸ hnow

/-- A node that was entered last at some time is active no longer than for the delay, unless the
event of its delayed transition is handed on. -/
theorem Accounts.le {time : Nat} (h : Accounts k delay id ms s a flying last since due)
    (hs : s.Operating m a flying) (hsince : Since k id ms (some time)) :
  s.clock.now ≤ time + delay
  := by
  obtain rfl := h.entered.unique hsince
  cases h.told with
  | settled =>
    obtain ⟨generation, number, -, hmem⟩ := h.awaits
    rcases List.mem_append.mp hmem with hflying | hlive
    · exact Nat.le_of_eq (hs.phase.now_eq hflying)
    · exact hs.table.due _ (Clock.mem_live.mp hlive).1
  | entered => exact Nat.le_add_right _ _

/-- When nothing is left to do, the delay is not over yet. -/
theorem Accounts.lt {time : Nat} (h : Accounts k delay id ms s a flying last since due)
    (hs : s.Operating m a flying) (hrest : s.agenda = []) (hsince : Since k id ms (some time)) :
  s.clock.now < time + delay
  := by
  obtain ⟨rfl, hahead, -⟩ := hs.phase.of_agenda_eq_nil hrest
  obtain rfl := h.settled (by rw [duties, hrest]; rfl)
  obtain rfl := h.entered.unique hsince
  cases h.told with
  | settled =>
    obtain ⟨generation, number, -, hlive⟩ := h.awaits
    exact hahead _ (Clock.mem_live.mp hlive).1

/-- The event is handed on when the delay is over since the last entry. -/
theorem Accounts.fires (h : Accounts k delay id ms s a flying last since due) (hdoes : s.Does y)
    (hs : s.Operating m a flying) (horderly : a.Orderly root (s.duties root))
    (hfires : y.Fires root id) :
  ∃ time, Since k id ms (some time) ∧ y.before.clock.now = time + delay
  := by
  obtain ⟨generation, hwork, -⟩ := hfires
  obtain rfl := h.settled (hdoes.pending_of_handle horderly hwork)
  cases hs.phase with
  | calm ws rest hagenda _ hworks _ hrest =>
    rw [hdoes.agenda, hwork] at hagenda
    cases ws with
    | nil =>
      rcases hrest with ⟨rfl, -⟩ | ⟨target, rfl⟩
      · cases hagenda
      · cases (List.cons.inj hagenda).1
    | cons w ws =>
      obtain ⟨rfl, -⟩ := List.cons.inj hagenda
      cases hworks _ List.mem_cons_self _ rfl
  | ringing hagenda =>
    rw [hdoes.agenda, hwork] at hagenda
    cases (List.cons.inj hagenda).1
  | waiting hagenda =>
    rw [hdoes.agenda, hwork] at hagenda
    cases (List.cons.inj hagenda).1
  | @handling x e target hagenda htask _ _ hnow =>
    rw [hdoes.agenda, hwork] at hagenda
    obtain ⟨-, rfl⟩ := Work.handle.inj (List.cons.inj hagenda).1
    obtain ⟨key, d, event, htask', hlookup, htimer, -⟩ := hs.table.take
    rw [htask] at htask'
    simp only [Alarm.post.injEq, Envelope.mk.injEq, Origin.timer.injEq] at htask'
    obtain ⟨-, -, rfl, -⟩ := htask'
    obtain ⟨hdue, -⟩ := h.awaits.taken hs.table hlookup htimer
    subst hdue
    have htold := h.told
    have hentered := h.entered
    generalize hdeadline : some x.deadline = deadline at htold
    cases htold with
    | settled =>
      cases since with
      | none => cases hdeadline
      | some time =>
        rw [hdoes.clock, hnow]
        exact ⟨time, hentered, Option.some.inj hdeadline⟩

/-- An interpreter that is running after a moment and after all later ones is running. -/
theorem Course.running_since {x : Moment} (h₀ : s₀.Fresh) (h : Course s₀ (xs ++ x :: ys) s)
    (hx : x.after.isRunning root = true) (hys : ∀ y ∈ ys, y.after.isRunning root = true) :
  s.isRunning root = true
  := by
  obtain ⟨b, hb, hrunning⟩ := exists_of_isRunning hx
  obtain ⟨a, ha, -⟩ := h.started_since h₀ hb (by rw [hrunning]; exact Status.noConfusion)
  rw [isRunning_iff ha]
  refine h.induction_since
    (P := fun ys a _ => (∀ y ∈ ys, y.after.isRunning root = true) → a.status = .running)
    ?_ ?_ h₀ hb (fun _ => hrunning) ha hys
  · intro ys a b ds hsame hlike hys
    exact hlike.status.trans (hsame hys)
  · intro ys t y a b _ _ _ _ hb _ hys
    exact (isRunning_iff hb).mp (hys y (List.mem_append_right ys List.mem_cons_self))

/-- An interpreter runs before and after a visit, which does not stop it. -/
theorem Course.running_of_visit {x : Moment} (h₀ : s₀.Fresh) (h : Course s₀ ms s)
    (hdoes : s.Does x) (hvisit : x.visit? root k ≠ none) :
  x.after.isRunning root = true
  := by
  obtain ⟨hruns, hwork⟩ := Session.running_of_visit hvisit
  obtain ⟨a, ha, hrunning⟩ := exists_of_isRunning hruns
  obtain ⟨b, hb, hturn⟩ := h.exists_turn h₀ hdoes ha
  refine (isRunning_iff hb).mpr (hturn.running hrunning ?_)
  rcases hwork with ⟨snapshot, event, hwork⟩ | ⟨e, hwork, -⟩
  · rw [hwork]
    exact Work.noConfusion
  · rw [hwork]
    exact Work.noConfusion

/-- Account is kept of a delayed send as long as the interpreter is running and nothing was done to
the node since it was entered. -/
theorem Operated.waits {x : Moment} (hmachine : m.chart.Compiled)
    (hcatalog : ∀ src m, catalog.lookup src = some (.machine m) → m.chart.Compiled)
    (htimes : m.chart.Times m.implementations k id delay) (hdelay : 0 < delay)
    (h : Operated (prepared m settings catalog) (xs ++ x :: ys) s)
    (henter : x.visit? root k = some .enter)
    (hidle : ∀ y ∈ ys, y.IsIdle root k id ∧ y.after.isRunning root = true) :
  ∃ a flying last since due, s.Operating (m.withLimit settings.limit) a flying ∧
    Accounts k delay id (xs ++ x :: ys) s a flying last since due ∧
    Since k id (xs ++ x :: ys) (some x.before.clock.now)
  := by
  have h₀ : (prepared m settings catalog).Fresh := fresh_prepared hmachine hcatalog
  obtain ⟨t, hfirst, hdoes⟩ := h.split
  have hafter := hfirst.course.running_of_visit h₀ hdoes
    (by rw [henter]; exact Option.some_ne_none _)
  have hruns := h.course.running_since h₀ hafter (fun y hy => (hidle y hy).2)
  obtain ⟨a, flying, ha, haccounts⟩ := h.accounts hmachine hcatalog htimes hdelay
  have hrunning := (isRunning_iff ha.lone.actor?_root).mp hruns
  obtain ⟨last, since, due, haccount⟩ := haccounts (by rw [hrunning]; exact Status.noConfusion)
  exact ⟨a, flying, last, since, due, ha, haccount, xs, x, ys, rfl, henter, rfl,
    fun y hy => (hidle y hy).1⟩

/-- The event of a delayed transition is handed to a macrostep only if the interpreter is running,
and the delay is over since the node was entered last. -/
theorem Operated.of_fires (hmachine : m.chart.Compiled)
    (hcatalog : ∀ src m, catalog.lookup src = some (.machine m) → m.chart.Compiled)
    (htimes : m.chart.Times m.implementations k id delay) (hdelay : 0 < delay)
    (h : Operated (prepared m settings catalog) (xs ++ y :: ys) s) (hfires : y.Fires root id) :
  y.before.isRunning root = true ∧
    ∃ time, Since k id xs (some time) ∧ y.before.clock.now = time + delay
  := by
  have h₀ : (prepared m settings catalog).Fresh := fresh_prepared hmachine hcatalog
  obtain ⟨t, hfirst, hdoes⟩ := h.split
  obtain ⟨a, flying, ha, haccounts⟩ := hfirst.accounts hmachine hcatalog htimes hdelay
  have horderly := hfirst.course.orderly h₀ ha.lone.actor?_root
  have hbefore := (hdoes.lone ha.lone).actor?_root
  obtain ⟨b, -, hturn⟩ := hfirst.course.exists_turn h₀ hdoes hbefore
  obtain ⟨hrunning, -⟩ := hfires.choose_spec.accepts horderly hturn
  obtain ⟨last, since, due, haccount⟩ := haccounts (by rw [hrunning]; exact Status.noConfusion)
  exact ⟨(isRunning_iff hbefore).mpr hrunning, haccount.fires hdoes ha horderly hfires⟩

/-- When the clock has got past the delay after an entry of the node, the wait was ended: the event
was handed on to the moment, or else the node was entered anew or exited before, or the interpreter
was stopped. -/
theorem Operated.wait_ends {x : Moment} (hmachine : m.chart.Compiled)
    (hcatalog : ∀ src m, catalog.lookup src = some (.machine m) → m.chart.Compiled)
    (htimes : m.chart.Times m.implementations k id delay) (hdelay : 0 < delay)
    (h : Operated (prepared m settings catalog) (xs ++ x :: ys) s)
    (henter : x.visit? root k = some .enter) (hrest : s.agenda = [])
    (hover : x.before.clock.now + delay ≤ s.clock.now) :
  ∃ us y vs, ys = us ++ y :: vs ∧
    (∀ u ∈ us, u.IsIdle root k id ∧ u.after.isRunning root = true) ∧
    y.before.clock.now ≤ x.before.clock.now + delay ∧
    (y.Fires root id ∧ y.before.clock.now = x.before.clock.now + delay ∨
      y.visit? root k ≠ none ∨ y.after.isRunning root = false)
  := by
  classical
  -- the first moment at which something is done to the node or the interpreter is over
  cases hfind : ys.find? (fun y => ¬ (y.IsIdle root k id ∧ y.after.isRunning root = true)) with
  | none =>
    have hidle : ∀ y ∈ ys, y.IsIdle root k id ∧ y.after.isRunning root = true := by
      simpa only [List.find?_eq_none, decide_eq_true_eq, not_not] using hfind
    obtain ⟨a, flying, last, since, due, ha, haccount, hsince⟩ :=
      h.waits hmachine hcatalog htimes hdelay henter hidle
    exact absurd (haccount.lt ha hrest hsince) (Nat.not_lt.mpr hover)
  | some y =>
    obtain ⟨hends, us, vs, rfl, hidle⟩ := List.find?_eq_some_iff_append.mp hfind
    simp only [Bool.not_eq_true', decide_eq_false_iff_not, not_not] at hidle
    rw [← List.cons_append, ← List.append_assoc] at h
    obtain ⟨t, hfirst, hdoes⟩ := h.split
    obtain ⟨a, flying, last, since, due, ha, haccount, hsince⟩ :=
      hfirst.waits hmachine hcatalog htimes hdelay henter hidle
    refine ⟨us, y, vs, rfl, hidle, ?_, ?_⟩
    · rw [hdoes.clock]
      exact haccount.le ha hsince
    · by_cases hfires : y.Fires root id
      · obtain ⟨-, time, hsince', hnow⟩ := h.of_fires hmachine hcatalog htimes hdelay hfires
        obtain rfl := Option.some.inj (hsince.unique hsince')
        exact Or.inl ⟨hfires, hnow⟩
      · right
        by_contra hneither
        obtain ⟨hvisit, hrunning⟩ := not_or.mp hneither
        refine of_decide_eq_true hends ⟨⟨not_not.mp hvisit, hfires⟩, ?_⟩
        exact Bool.not_eq_false _ ▸ hrunning

/-- Let an interpreter of a machine that invokes nothing be operated with a clock of its own.
Whenever nothing is left to do, the timers of the clock match the delayed sends of the interpreter
one to one.  The event of a delayed transition, with any positive delay, is handed to a macrostep
only if the interpreter is running and the delay is over, to the moment, since the node was entered
last; the node was not exited since, and the event was not handed on since.  If the clock has got
past the delay after an entry of the node, then the event was handed on to the moment, unless the
node was entered anew or exited before, or the interpreter was stopped. -/
theorem Operated.delay_punctual {document : Document.Machine}
    (hchart : Chart.ofDocument document = .ok m.chart)
    (hcatalog : ∀ src m, catalog.lookup src = some (.machine m) → m.chart.Compiled)
    (hpaced : Chart.Paced document) (h : Operated (prepared m settings catalog) ms s) :
  (s.agenda = [] → ∀ a, s.actor? root = some a →
    (∀ e ∈ a.timers, ∃! t, t ∈ s.clock.live ∧ t.Serves e) ∧
    ∀ t ∈ s.clock.live, ∃! e, e ∈ a.timers ∧ t.Serves e) ∧
  ∀ (k : Nat) (p : Chart.Place) (key : String) (ts : List Document.Transition) (delay : Nat),
    (Chart.places document)[k]? = some p → (key, ts) ∈ p.own.after →
    (∀ context trigger, Collection.delayOf m.implementations (some (Delay.ofKey key)) context
      trigger = .ok (some delay)) →
    0 < delay →
    (∀ us y vs, ms = us ++ y :: vs → y.Fires root (Chart.afterEvent key p.node.id) →
      y.before.isRunning root = true ∧ ∃ xs x zs, us = xs ++ x :: zs ∧
        x.visit? root k = some .enter ∧ y.before.clock.now = x.before.clock.now + delay ∧
        ∀ z ∈ zs, z.IsIdle root k (Chart.afterEvent key p.node.id)) ∧
    ∀ xs x ys, ms = xs ++ x :: ys → x.visit? root k = some .enter →
      s.agenda = [] → x.before.clock.now + delay ≤ s.clock.now →
      ∃ us y vs, ys = us ++ y :: vs ∧
        (∀ u ∈ us, u.IsIdle root k (Chart.afterEvent key p.node.id) ∧
          u.after.isRunning root = true) ∧
        y.before.clock.now ≤ x.before.clock.now + delay ∧
        (y.Fires root (Chart.afterEvent key p.node.id) ∧
            y.before.clock.now = x.before.clock.now + delay ∨
          y.visit? root k ≠ none ∨ y.after.isRunning root = false)
  := by
  have hmachine : m.chart.Compiled := ⟨document, hchart⟩
  constructor
  · intro hrest a ha
    apply h.timers_correspond hmachine hcatalog (Chart.invocation?_eq_none hchart hpaced) hrest ha
  · intro k p key ts delay hp hafter hkey hdelay
    have htimes := Chart.times_of_ofDocument hchart hpaced hp hafter hkey
    generalize Chart.afterEvent key p.node.id = id at htimes ⊢
    constructor
    · rintro us y vs rfl hfires
      obtain ⟨hruns, time, ⟨xs, x, zs, hsplit, henter, rfl, hidle⟩, hnow⟩ :=
        h.of_fires hmachine hcatalog htimes hdelay hfires
      exact ⟨hruns, xs, x, zs, hsplit, henter, hnow, hidle⟩
    · rintro xs x ys rfl henter hrest hover
      exact h.wait_ends hmachine hcatalog htimes hdelay henter hrest hover

/-- A machine whose node logs when it was active for a second, and is entered anew by `AGAIN`. -/
def restarting : Document.Machine where
  root := .node { initial := some "a" }
    [("a", .node
      { after := [("1000", [{ actions := [.log none (some "late")], internal := true }])],
        on := [("AGAIN", [{ targets := ["a"] }])] } [])]

/-- A run of `restarting`. -/
def restarted (chart : Chart) (calls : List (Session → Session)) : List Moment × Session :=
  (prepared (.ofChart chart) {} []).conductCalls 20 calls

theorem operated_restarted (chart : Chart) {calls : List (Session → Session)}
    (hcalls : ∀ call ∈ calls, ∀ s : Session, s.Operates (call s)) :
  Operated (prepared (.ofChart chart) {} []) (restarted chart calls).1 (restarted chart calls).2
  := by
  rw [restarted, ← List.nil_append (conductCalls _ _ _).1]
  exact Operated.conductCalls .refl 20 hcalls

theorem paced_restarting :
  Chart.Paced restarting
  := ⟨by decide +kernel, by decide +kernel, by decide +kernel⟩

/-- When the node of `restarting` is entered, its send has one timer.  When it is entered anew
before the second is over, the second is counted from there on. -/
theorem delay_punctual_restarting :
  ∃ chart, Chart.ofDocument restarting = .ok chart ∧ Chart.Paced restarting ∧
    (∃ ms s a e, Operated (prepared (.ofChart chart) {} []) ms s ∧ s.agenda = [] ∧
      s.actor? root = some a ∧ e ∈ a.timers ∧ ∃! t, t ∈ s.clock.live ∧ t.Serves e) ∧
    ∃ p ts xs x us y vs s, (Chart.places restarting)[1]? = some p ∧ ("1000", ts) ∈ p.own.after ∧
    Operated (prepared (.ofChart chart) {} []) (xs ++ x :: (us ++ y :: vs)) s ∧
    (∃ z ∈ xs, z.visit? root 1 = some .enter ∧ z.before.clock.now = 0) ∧
    x.visit? root 1 = some .enter ∧ x.before.clock.now = 400000 ∧
    s.agenda = [] ∧ s.clock.now = 2400000 ∧
    (∀ u ∈ us, u.IsIdle root 1 (Chart.afterEvent "1000" p.node.id)) ∧
    y.Fires root (Chart.afterEvent "1000" p.node.id) ∧ y.before.clock.now = 1400000
  := by
  let calls : List (Session → Session) :=
    [(·.advancing 400000), (·.sending (.bare "AGAIN")), (·.advancing 2000000)]
  obtain ⟨chart, h, hp⟩ := Outcome.exists_of_any (x := Chart.ofDocument restarting)
    (p := fun chart =>
      let r := restarted chart (starting :: calls)
      let entered := (restarted chart [starting]).2
      (r.1.take 11).any (fun z => z.visit? root 1 = some .enter ∧ z.before.clock.now = 0) &&
        r.1[11]?.any (fun x => x.visit? root 1 = some .enter ∧ x.before.clock.now = 400000) &&
        (r.1.drop 12).all (fun y => y.visit? root 1 = none ∧ y.after.isRunning root = true) &&
        r.2.agenda.isEmpty && r.2.clock.now == 2400000 && entered.agenda.isEmpty &&
        (entered.actor? root).any (fun a => ¬ a.timers.isEmpty))
    (by decide +kernel)
  simp only [Bool.and_eq_true, List.any_eq_true, List.all_eq_true, decide_eq_true_eq,
    List.isEmpty_iff, beq_iff_eq] at hp
  obtain ⟨⟨⟨⟨⟨⟨hearlier, henter⟩, hidle⟩, hrest⟩, hnow⟩, hcalm⟩, hactor⟩ := hp
  obtain ⟨x, hx, henter⟩ := (Option.any_eq_true _ _).mp henter
  obtain ⟨hvisit, hentered⟩ := of_decide_eq_true henter
  obtain ⟨a, ha, htimers⟩ := (Option.any_eq_true _ _).mp hactor
  obtain ⟨e, he⟩ := List.exists_mem_of_ne_nil _ (of_decide_eq_true htimers)
  have hstarted : Operated (prepared (.ofChart chart) {} []) (restarted chart [starting]).1
      (restarted chart [starting]).2 :=
    operated_restarted chart (List.forall_mem_singleton.mpr fun _ => .start)
  have hmachine : Operated (prepared (.ofChart chart) {} []) (restarted chart (starting :: calls)).1
      (restarted chart (starting :: calls)).2 := by
    apply operated_restarted chart
    simp only [calls, List.forall_mem_cons]
    exact ⟨fun _ => .start, fun _ => .advance _, fun _ => .send _, fun _ => .advance _,
      List.forall_mem_nil _⟩
  have hsplit := eq_take_append_cons_drop hx
  have hcatalog : ∀ src m, ([] : List (String × Source)).lookup src = some (.machine m) →
      m.chart.Compiled := fun _ _ hm => by cases hm
  have hkey : ∀ context trigger, Collection.delayOf (Machine.ofChart chart).implementations
      (some (Delay.ofKey "1000")) context trigger = .ok (some 1000000) := fun _ _ => rfl
  obtain ⟨hmatch, -⟩ := hstarted.delay_punctual h hcatalog paced_restarting
  obtain ⟨-, hentry⟩ := hmachine.delay_punctual h hcatalog paced_restarting
  obtain ⟨-, hfires⟩ := hentry 1 _ _ _ _ rfl List.mem_cons_self hkey (by decide)
  obtain ⟨us, y, vs, hys, hus, -, hy⟩ := hfires _ x _ hsplit hvisit hrest
    (by rw [hentered, hnow]; decide)
  rw [hys] at hidle hsplit
  obtain ⟨hquiet, hruns⟩ := hidle y (List.mem_append_right _ List.mem_cons_self)
  refine ⟨chart, h, paced_restarting,
    ⟨_, _, a, e, hstarted, hcalm, ha, he, (hmatch hcalm a ha).1 e he⟩, ?_⟩
  rcases hy with ⟨hy, htime⟩ | hvisits | hstops
  · rw [hsplit] at hmachine
    rw [hentered] at htime
    exact ⟨_, _, _, x, us, y, vs, _, rfl, List.mem_cons_self, hmachine, hearlier, hvisit, hentered,
      hrest, hnow, fun u hu => (hus u hu).1, hy, htime⟩
  · exact absurd hquiet hvisits
  · cases hstops.symm.trans hruns

end Session

end Statechart
