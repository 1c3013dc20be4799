import Statechart.Proofs.Session.Failure
import Statechart.Proofs.Session.Tenure

/-!
# Starts of invoked interpreters

Only the start of an interpreter brings it a boot marker (`Turn.marked`), which it takes before it
has a snapshot.  An invoked interpreter that fails to start is stopped and never gets a snapshot
(`Course.unbooted`).
-/

namespace Statechart

open Session (committed)

variable {n c : Nat} {a b : Actor} {w x y : Work} {ds es ws l r : List Work}
  {ms xs ys : List Moment} {m z : Moment} {v : Service} {fault : Fault}

/-! ### The order of works -/

/-- Whether a work is to be done before another one. -/
def Work.Precedes (x y : Work) (agenda : List Work) : Prop :=
  ∃ l r, agenda = l ++ x :: r ∧ y ∉ l ∧ y ∈ r

/-- More works may come first. -/
theorem Work.Precedes.append (h : x.Precedes y l) (hws : y ∉ ws) :
  x.Precedes y (ws ++ l)
  := by
  obtain ⟨l, r, rfl, hl, hr⟩ := h
  refine ⟨ws ++ l, r, (List.append_assoc ..).symm, ?_, hr⟩
  exact List.not_mem_append hws hl

/-- The first work is the earlier one of the two, or another one. -/
theorem Work.Precedes.of_cons (h : x.Precedes y (w :: l)) :
  (w = x ∧ y ∈ l) ∨ (w ≠ y ∧ x.Precedes y l)
  := by
  obtain ⟨l', r, heq, hl, hr⟩ := h
  cases l' with
  | nil =>
    obtain ⟨rfl, rfl⟩ := List.cons.inj heq
    exact Or.inl ⟨rfl, hr⟩
  | cons w' l' =>
    obtain ⟨rfl, rfl⟩ := List.cons.inj heq
    refine Or.inr ⟨?_, l', r, rfl, fun h => hl (List.mem_cons_of_mem _ h), hr⟩
    rintro rfl
    exact hl List.mem_cons_self

/-- The later one of two different works does not come first. -/
theorem Work.Precedes.head_ne (h : x.Precedes y (w :: l)) (hne : x ≠ y) :
  w ≠ y
  := by
  rcases h.of_cons with ⟨rfl, -⟩ | ⟨hw, -⟩
  · exact hne
  · exact hw

/-! ### Boot markers and faults -/

/-- An interpreter gets its first snapshot when it is booted, and another one with each event. -/
theorem Turn.state (h : Turn n w a ds b es) :
  b.state = a.state ∨ (a.status = .running ∧ ∃ e, w = .handle n e ∧ e.origin = .start) ∨
    ∃ snapshot event next, w = .react n snapshot event ∧
      a.machine.transition snapshot event = .ok next ∧ b = { a with state := some next }
  := by
  cases h with
  | calm _ hlike => exact Or.inl hlike.state
  | wake _ _ _ hlike => exact Or.inl hlike.state
  | start => exact Or.inl rfl
  | stop _ hlike => exact Or.inl hlike.state
  | release hlike => exact Or.inl hlike.state
  | rest => exact Or.inl rfl
  | take => exact Or.inl rfl
  | idle _ hlike => exact Or.inl hlike.state
  | @boot _ _ _ e _ hrunning hstart => exact Or.inr (Or.inl ⟨hrunning, e, rfl, hstart⟩)
  | unbooted _ _ hlike => exact Or.inl hlike.state
  | @accept _ _ _ e _ _ _ hlike =>
    obtain ⟨services, -, heq⟩ := a.exists_admitting e
    rw [heq] at hlike
    exact Or.inl hlike.state
  | forward => exact Or.inl rfl
  | move hnext => exact Or.inr (Or.inr ⟨_, _, _, rfl, hnext, rfl⟩)
  | remove => exact Or.inl rfl
  | refuse _ _ hlike => exact Or.inl hlike.state
  | issue _ _ _ _ _ _ hlike => exact Or.inl hlike.state
  | register => exact Or.inl rfl
  | @retract _ _ _ _ id generation hlike =>
    obtain ⟨services, -, heq⟩ := a.exists_without id generation
    rw [heq] at hlike
    exact Or.inl hlike.state

/-- Only the start of an interpreter brings a boot marker. -/
theorem Turn.marked (h : Turn n w a ds b es) (horderly : a.Orderly n ds)
    (hstarted : a.status ≠ .notStarted) {e : Envelope} (he : e ∈ b.backlog es)
    (hstart : e.origin = .start) :
  e ∈ a.backlog ds
  := by
  have harrive : ∀ {q : List Envelope} {ds : List Work},
      (∃ es, b.mailbox.queue = q ++ es ∧ ∀ e ∈ es, e.origin ≠ .start) →
      e ∈ b.backlog ds → e ∈ ds.filterMap Work.envelope? ++ q := by
    rintro q ds ⟨es, hes, hunmarked⟩ he
    rw [Actor.backlog, hes, ← List.append_assoc] at he
    exact (List.mem_append.mp he).resolve_right (fun he => hunmarked e he hstart)
  have hcons : ∀ {ds}, e ∈ a.backlog ds → e ∈ a.backlog (w :: ds) := by
    intro ds he
    rw [backlog_cons]
    exact List.mem_append_right _ he
  have hnext : ∀ {x : Work} {b : Actor} {ds : List Work}, x.envelope? = none →
      e ∈ b.backlog (x :: ds) → e ∈ b.backlog ds := by
    intro x b ds hx he
    rw [backlog_cons, hx] at he
    exact he
  cases h with
  | calm _ h => exact harrive h.queue he
  | @wake _ _ c _ _ _ _ h => exact harrive (q := a.mailbox.queue) h.queue (hnext rfl he)
  | start hnew => exact absurd hnew hstarted
  | stop _ h => exact harrive h.queue he
  | release h =>
    have he := harrive (q := []) h.queue he
    rcases List.mem_append.mp he with he | he
    · exact List.mem_append_left _ he
    · cases he
  | rest _ => exact hcons he
  | @take _ ds e' queue hqueue =>
    rw [horderly.stage.of_pump] at he ⊢
    simpa [Actor.backlog, Work.envelope?, hqueue] using he
  | idle _ h => exact hcons (harrive h.queue he)
  | @boot _ _ ds e' snapshot _ _ _ h =>
    rw [backlog_committed] at he
    exact hcons (harrive h.queue he)
  | unbooted _ _ h => exact hcons (harrive h.queue (hnext rfl he))
  | @accept _ _ ds e' _ _ _ h =>
    obtain ⟨services, -, heq⟩ := a.exists_admitting e'
    rw [heq] at h
    exact hcons (harrive h.queue (hnext rfl he))
  | forward _ => exact hcons (hnext rfl he)
  | @move _ ds _ _ next _ =>
    rw [backlog_committed] at he
    exact hcons he
  | remove _ _ _ => exact hcons he
  | refuse _ _ h => exact hcons (harrive h.queue he)
  | issue _ _ _ _ _ hissued h =>
    cases hissued with
    | plain _ => exact hcons (harrive h.queue (hnext rfl he))
    | machine _ => exact hcons (harrive h.queue (hnext rfl (hnext rfl he)))
  | register => exact hcons he
  | @retract _ _ _ _ id generation h =>
    obtain ⟨services, -, heq⟩ := a.exists_without id generation
    rw [heq] at h
    exact hcons (harrive h.queue he)

/-- A fault is noted right after the boot marker was handled. -/
theorem Stage.of_recordFault_mem {state : Option Snapshot} (h : Stage n state ds)
    (hmem : .recordFault n fault ∈ ds) :
  ds = [.recordFault n fault, .pump n]
  := by
  have hperforming : ∀ {snapshot ds}, Performing n snapshot ds → .recordFault n fault ∉ ds := by
    intro snapshot ds h hmem
    cases h.follows hmem
  cases h with
  | resting => cases hmem
  | waiting => simp at hmem
  | handling => simp at hmem
  | forwarding => simp at hmem
  | reacting => simp at hmem
  | failing =>
    simp at hmem
    rw [hmem]
  | performing h => exact absurd hmem (hperforming h)
  | registering _ h =>
    exact absurd ((List.mem_cons.mp hmem).resolve_left Work.noConfusion) (hperforming (.starting h))
  | registeringMachine _ h =>
    have hmem := (List.mem_cons.mp hmem).resolve_left Work.noConfusion
    exact absurd ((List.mem_cons.mp hmem).resolve_left Work.noConfusion) (hperforming (.starting h))
  | confirming h =>
    exact absurd ((List.mem_cons.mp hmem).resolve_left Work.noConfusion) (hperforming (.starting h))

/-- Only an interpreter that takes its boot marker notes a fault. -/
theorem Turn.of_recordFault_mem (h : Turn n w a ds b es) (hmem : .recordFault n fault ∈ es) :
  .recordFault n fault ∈ ds ∨ ∃ e, w = .handle n e ∧ e.origin = .start
  := by
  have hcommitted : ∀ {snapshot ds}, .recordFault n fault ∈ committed n snapshot ++ ds →
      .recordFault n fault ∈ w :: ds := by
    intro snapshot ds hmem
    rcases List.mem_append.mp hmem with hmem | hmem
    · rw [committed, List.mem_append, List.mem_append] at hmem
      rcases hmem with (hmem | hmem) | hmem
      · obtain ⟨action, -, heq⟩ := List.mem_map.mp hmem
        cases heq
      · obtain ⟨action, later, heq, -⟩ := Session.duty?_of_mem_invocations hmem
        cases heq
      · cases List.mem_singleton.mp hmem
    · exact List.mem_cons_of_mem _ hmem
  have hcons : ∀ {x : Work} {ds : List Work}, Work.recordFault n fault ∈ x :: ds →
      .recordFault n fault ≠ x → .recordFault n fault ∈ ds :=
    fun hmem hx => (List.mem_cons.mp hmem).resolve_left hx
  cases h with
  | calm => exact Or.inl hmem
  | wake => exact Or.inl (hcons hmem Work.noConfusion)
  | start =>
    split at hmem
    · exact Or.inl hmem
    · exact Or.inl (hcons hmem Work.noConfusion)
  | stop => exact Or.inl hmem
  | release => exact Or.inl hmem
  | rest => exact Or.inl (List.mem_cons_of_mem _ hmem)
  | take => exact Or.inl (hcons hmem Work.noConfusion)
  | idle => exact Or.inl (List.mem_cons_of_mem _ hmem)
  | boot => exact Or.inl (hcommitted hmem)
  | @unbooted _ _ _ e _ _ hstart => exact Or.inr ⟨e, rfl, hstart⟩
  | accept => exact Or.inl (List.mem_cons_of_mem _ (hcons hmem Work.noConfusion))
  | forward => exact Or.inl (List.mem_cons_of_mem _ (hcons hmem Work.noConfusion))
  | move => exact Or.inl (hcommitted hmem)
  | remove => exact Or.inl (List.mem_cons_of_mem _ hmem)
  | refuse => exact Or.inl (List.mem_cons_of_mem _ hmem)
  | issue _ _ _ _ _ hissued _ =>
    left
    apply List.mem_cons_of_mem
    refine (List.mem_append.mp hmem).resolve_left (fun hmem => ?_)
    cases hissued <;> simp at hmem
  | register => exact Or.inl (List.mem_cons_of_mem _ hmem)
  | retract => exact Or.inl (List.mem_cons_of_mem _ hmem)

namespace Session

variable {s s₀ t u : Session}

/-- What is new on the agenda of an interpreter is among its duties. -/
theorem mem_duties_of_mem (hw : w.duty? = some n) (hmem : w ∈ s.agenda) :
  w ∈ s.duties n
  := List.mem_filter.mpr ⟨hmem, by simpa using hw⟩

theorem handle_of_start {e : Envelope} (ha : s.actor? n = some a) (hrunning : a.status = .running)
    (hstart : e.origin = .start) :
  s.handle n e = s.boot n
  := by
  rw [handle, (isRunning_iff ha).mpr hrunning, hstart]
  rfl

/-- An interpreter that was just made has no duties. -/
theorem Course.duties_newborn (h₀ : s₀.Fresh) (h : Course s₀ ms s) (hm : s.Does m)
    (hnone : m.before.actor? c = none) (hb : m.after.actor? c = some b) :
  b.status = .notStarted ∧ m.after.duties c = []
  := by
  obtain ⟨hw, hbefore⟩ := hm.unmarked (h.unmarked h₀).1
  have hduty : m.work.duty? ≠ some c := by
    intro hduty
    obtain ⟨a, ha⟩ := h.exists_actor h₀ (hm.mem_duties rfl hduty)
    rw [← hm.actor?, hnone] at ha
    cases ha
  obtain ⟨a, hspawned, hlike⟩ :=
    (duties_carryOut_of_none hw hbefore.pending hduty hnone).2 b hb
  have hstatus := hlike.status.trans hspawned.status
  exact ⟨hstatus, (((Course.step h hm).orderly h₀ hb).unstarted hstatus).1⟩

/-- An interpreter that stays stopped without a snapshot gets none. -/
theorem state_of_turn (hturn : Turn c w a ds b es) (horderly : a.Orderly c ds)
    (hstopped : a.status = .stopped) (hstate : a.state = none) :
  b.state = none
  := by
  rcases hturn.state with hsame | ⟨hrunning, -⟩ | ⟨snapshot, event, next, rfl, hnext, -⟩
  · rw [hsame, hstate]
  · rw [hstopped] at hrunning
    cases hrunning
  · generalize hds : ds = ds' at hturn
    cases hturn with
    | calm hother => exact absurd rfl hother
    | wake hother => exact absurd rfl hother
    | idle hidle hlike => rw [hlike.state, hstate]
    | move =>
      rw [hds] at horderly
      rw [(horderly.stage.of_react).1] at hstate
      cases hstate

/-- A fault is about to be noted when an interpreter fails to start, which is stopped before. -/
theorem precedes_boot (ha : s.actor? c = some a) (hnone : .recordFault c fault ∉ s.agenda)
    (hmem : .recordFault c fault ∈ (s.boot c).agenda) :
  (Work.stop c).Precedes (.recordFault c fault) (s.boot c).agenda ∧
    (s.boot c).actor? c = some { a with resume := none }
  := by
  rcases boot_eq ha with ⟨snapshot, -, heq⟩ | ⟨fault', heq⟩
  · rw [heq, commit, agenda_plan] at hmem
    rcases List.mem_append.mp hmem with hmem | hmem
    · rcases List.mem_append.mp hmem with hmem | hmem
      · rcases List.mem_append.mp hmem with hmem | hmem
        · obtain ⟨action, -, hw⟩ := List.mem_map.mp hmem
          cases hw
        · obtain ⟨action, later, hw, -⟩ := duty?_of_mem_invocations hmem
          cases hw
      · cases List.mem_singleton.mp hmem
    · exact absurd hmem hnone
  · rw [heq] at hmem ⊢
    constructor
    · refine ⟨[], _, rfl, List.not_mem_nil, ?_⟩
      exact (List.mem_cons.mp hmem).resolve_left Work.noConfusion
    · rw [fail, actor?_plan, actor?_diagnose, actor?_modify_self, ha]
      rfl

/-! ### Interpreters that fail to start -/

/-- What holds of an invoked interpreter at all times: when it fails to start it is stopped, or is
going to be before its fault is noted, and has no snapshot. -/
structure Unbooted (s : Session) (c : Nat) (b : Actor) : Prop where
  noted : b.startFault ≠ none → b.status = .stopped ∧ b.state = none
  pending : ∀ fault, .recordFault c fault ∈ s.agenda → b.state = none ∧
    (b.status = .stopped ∨ (Work.stop c).Precedes (.recordFault c fault) s.agenda)

/-- An interpreter that stays stopped without a snapshot gets none. -/
theorem stays_of_turn (hturn : Turn c w a ds b es) (horderly : a.Orderly c ds)
    (h : a.status = .stopped ∧ a.state = none) :
  b.status = .stopped ∧ b.state = none
  := ⟨hturn.stopped h.1, state_of_turn hturn horderly h.1 h.2⟩

/-- A call brings no fault, and what it brings comes before the faults that are to be noted. -/
theorem Unbooted.of_called (h : s.Unbooted c a) (hcall : s.Called t) (hc : c ≠ root)
    (ha : s.actor? c = some a) (hb : t.actor? c = some b) :
  t.Unbooted c b
  := by
  obtain ⟨b', hb', -, -, hfault⟩ := hcall.exists_kept ha
  obtain ⟨b'', hb'', hlike⟩ := (hcall.calm (n := c)).actor a ha
  rw [hb, Option.some.injEq] at hb' hb''
  subst hb' hb''
  constructor
  case noted =>
    rw [(hfault hc).2, hlike.status, hlike.state]
    exact h.noted
  case pending =>
    intro fault hmem
    obtain ⟨ws, hws, hnew⟩ := (hcall.calm (n := c)).agenda
    have hws' : .recordFault c fault ∉ ws := fun hmem => (hnew _ hmem).2 rfl
    rw [hws] at hmem ⊢
    rw [hlike.status, hlike.state]
    obtain ⟨hstate, hstops⟩ :=
      h.pending fault ((List.mem_append.mp hmem).resolve_left hws')
    exact ⟨hstate, hstops.imp_right (fun h => h.append hws')⟩

/-- A fault that is noted now is that of a stopped interpreter. -/
theorem Unbooted.noted_after (h : s.Unbooted c a) (hm : s.Does m)
    (horderly : a.Orderly c (s.duties c))
    (hturn : Turn c m.work a (s.duties c) b (m.after.duties c)) (hages : a.Ages c m.work b)
    (hsome : b.startFault ≠ none) :
  b.status = .stopped ∧ b.state = none
  := by
  rcases hages.startFault with hsame | ⟨fault, hwork, -⟩ | ⟨-, hnone⟩
  · rw [hsame] at hsome
    exact stays_of_turn hturn horderly (h.noted hsome)
  · have hmem : .recordFault c fault ∈ s.agenda := by
      rw [hm.agenda, hwork]
      exact List.mem_cons_self
    obtain ⟨hstate, hstopped | hprecedes⟩ := h.pending fault hmem
    · exact stays_of_turn hturn horderly ⟨hstopped, hstate⟩
    · rw [hm.agenda] at hprecedes
      exact absurd hwork (hprecedes.head_ne Work.noConfusion)
  · exact absurd hnone hsome

/-- A fault that is already to be noted is not put on the agenda again. -/
theorem Course.recordFault_notMem (h₀ : s₀.Fresh) (h : Course s₀ ms s) (hm : s.Does m)
    (hb : m.after.actor? c = some b) (hother : m.work.duty? ≠ some c)
    (hold : .recordFault c fault ∈ s.duties c) (hws : m.after.agenda = ws ++ m.before.agenda) :
  .recordFault c fault ∉ ws
  := by
  intro hnew
  obtain ⟨a, ha⟩ := h.exists_actor h₀ hold
  have hduties := (h.orderly h₀ ha).stage.of_recordFault_mem hold
  have hmem : .recordFault c fault ∈ m.after.agenda := by
    rw [hws]
    exact List.mem_append_left _ hnew
  have hafter := ((Course.step h hm).orderly h₀ hb).stage.of_recordFault_mem
    (mem_duties_of_mem rfl hmem)
  have hbefore := hm.duties c
  rw [if_neg hother, hduties, List.nil_append] at hbefore
  rw [duties, hws, List.filter_append, ← duties, ← hbefore] at hafter
  have hnil := List.append_left_eq_self.mp hafter
  have hin : .recordFault c fault ∈ ws.filter (fun w => w.duty? = some c) :=
    List.mem_filter.mpr ⟨hnew, decide_eq_true rfl⟩
  rw [hnil] at hin
  cases hin

/-- As long as a fault is to be noted, the interpreter is stopped, or the work that stops it is
still to be done. -/
theorem Unbooted.pending_after (h₀ : s₀.Fresh) (hcourse : Course s₀ ms s) (hm : s.Does m)
    (h : s.Unbooted c a) (ha : m.before.actor? c = some a) (hb : m.after.actor? c = some b)
    (hturn : Turn c m.work a (s.duties c) b (m.after.duties c))
    (hold : .recordFault c fault ∈ s.duties c) :
  b.state = none ∧
    (b.status = .stopped ∨ (Work.stop c).Precedes (.recordFault c fault) m.after.agenda)
  := by
  have horderly := hcourse.orderly h₀ ((hm.actor? c).symm.trans ha)
  obtain ⟨hstate, hstopped | hprecedes⟩ := h.pending fault (mem_agenda_of_mem_duties hold)
  · obtain ⟨hstopped, hstate⟩ := stays_of_turn hturn horderly ⟨hstopped, hstate⟩
    exact ⟨hstate, Or.inl hstopped⟩
  · rw [hm.agenda] at hprecedes
    have hother : m.work.duty? ≠ some c := by
      intro hduty
      have hfirst := hm.duties_eq_cons rfl hduty
      rw [horderly.stage.of_recordFault_mem hold] at hfirst
      exact hprecedes.head_ne Work.noConfusion (List.cons.inj hfirst).1.symm
    obtain ⟨-, hsame, -⟩ := hturn.outside hother
    refine ⟨hsame.trans hstate, ?_⟩
    rcases hprecedes.of_cons with ⟨hwork, -⟩ | ⟨-, hprecedes⟩
    · left
      obtain ⟨b', hb', hstopped⟩ := exists_stopped ha
      rw [Moment.after, hwork, carryOut, hb', Option.some.injEq] at hb
      rw [← hb]
      exact hstopped
    · right
      obtain ⟨ws, hws⟩ := hcourse.exists_agenda h₀ hm
      rw [hws]
      exact hprecedes.append (hcourse.recordFault_notMem h₀ hm hb hother hold hws)

/-- When the handling of a boot marker makes a fault to be noted, the interpreter is stopped
first, and has no snapshot. -/
theorem pending_of_boot {e : Envelope} (hm : s.Does m) (ha : m.before.actor? c = some a)
    (hb : m.after.actor? c = some b) (horderly : a.Orderly c (s.duties c))
    (hwork : m.work = .handle c e) (hstart : e.origin = .start)
    (hmem : .recordFault c fault ∈ m.after.agenda) :
  b.state = none ∧ (Work.stop c).Precedes (.recordFault c fault) m.after.agenda
  := by
  have hfirst := hm.duties_eq_cons hwork rfl
  have hbefore : .recordFault c fault ∉ m.before.agenda := by
    intro hmem
    have hduty := mem_duties_of_mem (n := c) rfl hmem
    rw [hfirst] at horderly
    rw [horderly.stage.of_handle] at hduty
    simp at hduty
  have hrunning : a.status = .running := by
    by_contra hidle
    rw [Moment.after, hwork, carryOut, handle] at hmem
    rw [if_pos] at hmem
    · exact hbefore hmem
    · simpa using fun h => hidle ((isRunning_iff ha).mp h)
  rw [Moment.after, hwork, carryOut, handle_of_start ha hrunning hstart] at hmem hb ⊢
  obtain ⟨hprecedes, hactor⟩ := precedes_boot ha hbefore hmem
  rw [hb, Option.some.injEq] at hactor
  rw [hactor]
  refine ⟨horderly.marked e ?_ hstart, hprecedes⟩
  rw [hfirst, backlog_cons]
  exact List.mem_append_left _ List.mem_cons_self

/-- An invoked interpreter that failed to start is stopped, or is going to be before the fault is
noted, and never gets a snapshot. -/
theorem Course.unbooted (h₀ : s₀.Fresh) (h : Course s₀ ms s) (hc : c ≠ root)
    (hb : s.actor? c = some b) :
  s.Unbooted c b
  := by
  induction h generalizing b with
  | refl =>
    obtain ⟨a, hactors, -⟩ := h₀.root
    rw [actor?, hactors] at hb
    cases c with
    | zero => exact absurd rfl hc
    | succ c => cases hb
  | call h hcall ih =>
    obtain ⟨a, ha⟩ := hcall.exists_before hb
    exact (ih ha).of_called hcall hc ha hb
  | @step ms s m h hm ih =>
    rw [← hm.actor?] at ih
    cases ha : m.before.actor? c with
    | none =>
      obtain ⟨-, hfault, -⟩ := newborn_carryOut ha hb
      refine ⟨fun hsome => absurd hfault hsome, fun fault hmem => ?_⟩
      have hduty := mem_duties_of_mem (n := c) rfl hmem
      rw [(h.duties_newborn h₀ hm ha hb).2] at hduty
      cases hduty
    | some a =>
      obtain ⟨b', hb', hturn⟩ := h.exists_turn h₀ hm ha
      obtain ⟨b'', hb'', hages⟩ := exists_ages m.before m.work ha
      rw [hb, Option.some.injEq] at hb'
      rw [← Moment.after, hb, Option.some.injEq] at hb''
      subst hb' hb''
      have horderly := h.orderly h₀ ((hm.actor? c).symm.trans ha)
      constructor
      case noted => exact (ih ha).noted_after hm horderly hturn hages
      case pending =>
        intro fault hmem
        rcases hturn.of_recordFault_mem (mem_duties_of_mem rfl hmem) with hold | ⟨e, hwork, hstart⟩
        · exact Unbooted.pending_after h₀ h hm (ih ha) ha hb hturn hold
        · obtain ⟨hstate, hprecedes⟩ := pending_of_boot hm ha hb horderly hwork hstart hmem
          exact ⟨hstate, Or.inr hprecedes⟩

end Session

end Statechart
