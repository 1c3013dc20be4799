import Statechart.Proofs.Machine.Delays
import Statechart.Proofs.Session.Lone
import Statechart.Proofs.Session.Pending

/-!
# Visits of a node

At a moment a node is entered or exited last when an interpreter gets a new snapshot, and the
actions that are pending then tell which of the two is done (`Course.visits`).
-/

namespace Statechart

/-- What the reaction of an interpreter to an event does last to a node, if it succeeds. -/
def Actor.nextVisit (a : Actor) (k : Nat) (snapshot : Snapshot) (event : Event) : Option Visit :=
  (a.machine.transition snapshot event).toOption.bind
    (fun _ => a.machine.reactionVisit k snapshot event)

/-- What the start of an interpreter does last to a node, if it succeeds; the nodes of a restored
configuration are entered. -/
def Actor.firstVisit (a : Actor) (k : Nat) : Option Visit :=
  match a.resume with
  | some persisted => (a.machine.restore persisted).toOption.bind
      (fun s => if k ∈ s.configuration then some .enter else none)
  | none => a.machine.initial.toOption.bind (fun _ => a.machine.initialVisit k)

/-- What an interpreter that is running does last to a node at a moment. -/
def Moment.visit? (n k : Nat) (m : Moment) : Option Visit :=
  match m.work with
  | .react i snapshot event =>
    if i = n ∧ m.before.isRunning n = true then
      (m.before.actor? n).bind (fun a => a.nextVisit k snapshot event)
    else none
  | .handle i e =>
    if i = n ∧ m.before.isRunning n = true ∧ e.origin = .start then
      (m.before.actor? n).bind (fun a => a.firstVisit k)
    else none
  | _ => none

/-- Whether the event of a delayed transition is handed to a macrostep at a moment, its timer having
run. -/
def Moment.Fires (n : Nat) (id : String) (m : Moment) : Prop :=
  ∃ generation, m.Hands n ⟨.bare id, .timer (.named id) generation⟩

/-- Whether at a moment neither a node is entered or exited nor the event of its delayed transition
is handed to a macrostep. -/
def Moment.IsIdle (n k : Nat) (id : String) (m : Moment) : Prop :=
  m.visit? n k = none ∧ ¬ m.Fires n id

namespace Session

open Collection (Tells)

variable {k delay : Nat} {id : String} {s s₀ : Session} {a : Actor} {ms : List Moment} {y : Moment}
  {snapshot : Snapshot}

/-- Only a reaction or a start of an interpreter that is running is a visit. -/
theorem running_of_visit (h : y.visit? root k ≠ none) :
  y.before.isRunning root = true ∧ ((∃ snapshot event, y.work = .react root snapshot event) ∨
    ∃ e, y.work = .handle root e ∧ e.origin = .start)
  := by
  rw [Moment.visit?] at h
  split at h
  · next i snapshot event hwork =>
    split at h
    · next hruns =>
      obtain ⟨rfl, hruns⟩ := hruns
      exact ⟨hruns, Or.inl ⟨snapshot, event, hwork⟩⟩
    · exact absurd rfl h
  · next i e hwork =>
    split at h
    · next hruns =>
      obtain ⟨rfl, hruns, hstart⟩ := hruns
      exact ⟨hruns, Or.inr ⟨e, hwork, hstart⟩⟩
    · exact absurd rfl h
  · exact absurd rfl h

/-- When an interpreter has got a new snapshot, its actions are pending, and tell what was done
last to the node. -/
theorem visits_of_commit {u : Session} (hafter : y.after = u.commit root snapshot)
    (hpending : pending root (u.duties root) = [])
    (htells : Tells id delay snapshot.actions (y.visit? root k)) :
  Tells id delay (pending root (y.after.duties root)) (y.visit? root k)
  := by
  rw [hafter, pending_commit, hpending, List.append_nil]
  exact htells

/-- When an interpreter fails nothing is pending. -/
theorem visits_of_fail {u : Session} {fault : Fault} {andThen : List Work}
    (hafter : y.after = u.fail root fault andThen) (hpending : pending root (u.duties root) = [])
    (hthen : pending root (andThen.filter (fun w => w.duty? = some root)) = [])
    (hvisit : y.visit? root k = none) :
  Tells id delay (pending root (y.after.duties root)) (y.visit? root k)
  := by
  rw [hafter, fail, duties_plan, duties_diagnose, pending_append, hpending, hvisit,
    List.filter_cons_of_neg (by simp [Work.duty?]), hthen]
  exact .nil

/-- The actions that a reaction to an event asks for tell what it does last to the node. -/
theorem visits_of_react {event : Event} (hwork : y.work = .react root snapshot event)
    (ha : y.before.actor? root = some a) (hrunning : a.status = .running)
    (hpending : pending root (y.before.duties root) = [])
    (htimes : a.machine.chart.Times a.machine.implementations k id delay) :
  Tells id delay (pending root (y.after.duties root)) (y.visit? root k)
  := by
  have hvisit : y.visit? root k = a.nextVisit k snapshot event := by
    rw [Moment.visit?, hwork]
    dsimp only
    rw [if_pos ⟨rfl, (isRunning_iff ha).mpr hrunning⟩, ha, Option.bind_some]
  have hafter : y.after = y.before.react root snapshot event := by
    rw [Moment.after, hwork, carryOut]
  rw [react, ha] at hafter
  dsimp only at hafter
  rw [Actor.nextVisit] at hvisit
  cases hnext : a.machine.transition snapshot event with
  | ok next =>
    rw [hnext] at hafter hvisit
    refine visits_of_commit hafter hpending ?_
    rw [hvisit]
    exact Machine.tells_transition htimes hnext
  | error fault =>
    rw [hnext] at hafter hvisit
    exact visits_of_fail hafter hpending rfl hvisit

/-- The actions that the start of an interpreter asks for tell what it does last to the node. -/
theorem visits_of_start {e : Envelope} (hwork : y.work = .handle root e)
    (hstart : e.origin = .start) (ha : y.before.actor? root = some a)
    (hrunning : a.status = .running) (hpending : pending root (y.before.duties root) = [])
    (htimes : a.machine.chart.Times a.machine.implementations k id delay) :
  Tells id delay (pending root (y.after.duties root)) (y.visit? root k)
  := by
  have hvisit : y.visit? root k = a.firstVisit k := by
    rw [Moment.visit?, hwork]
    dsimp only
    rw [if_pos ⟨rfl, (isRunning_iff ha).mpr hrunning, hstart⟩, ha, Option.bind_some]
  have hafter : y.after = y.before.boot root := by
    rw [Moment.after, hwork, carryOut, handle_of_start ha hrunning hstart]
  rw [boot, ha] at hafter
  dsimp only at hafter
  rw [Actor.firstVisit] at hvisit
  cases hresume : a.resume with
  | none =>
    rw [hresume] at hafter hvisit
    dsimp only at hafter hvisit
    cases hfirst : a.machine.initial with
    | ok snapshot =>
      rw [hfirst] at hafter hvisit
      refine visits_of_commit hafter hpending ?_
      rw [hvisit]
      exact Machine.tells_initial htimes hfirst
    | error fault =>
      rw [hfirst] at hafter hvisit
      exact visits_of_fail hafter hpending rfl hvisit
  | some persisted =>
    rw [hresume] at hafter hvisit
    dsimp only at hafter hvisit
    cases hfirst : a.machine.restore persisted with
    | ok snapshot =>
      rw [hfirst] at hafter hvisit
      refine visits_of_commit hafter hpending ?_
      rw [hvisit]
      exact Machine.tells_restore htimes hfirst
    | error fault =>
      rw [hfirst] at hafter hvisit
      exact visits_of_fail hafter hpending rfl hvisit

/-- What is done to a node at a moment is told by the actions that are pending then, or an action is
carried out. -/
theorem Course.visits (h₀ : s₀.Fresh) (hcourse : Course s₀ ms s) (hdoes : s.Does y)
    (ha : y.before.actor? root = some a) (hstatus : a.status ≠ .stopped)
    (htimes : a.machine.chart.Times a.machine.implementations k id delay) :
  (y.visit? root k = none ∧ a.status = .running ∧
      ∃ snapshot action, y.work = .perform root snapshot action ∧
        pending root (s.duties root) = action :: pending root (y.after.duties root)) ∨
    (y.visit? root k = none ∧ y.work.action? root = none ∧
      pending root (y.after.duties root) = pending root (s.duties root)) ∨
    (y.work.duty? = some root ∧ y.work.action? root = none ∧
      (∀ e, y.work = .handle root e → e.isTimed = false) ∧ y.before.agenda ≠ [] ∧
      pending root (s.duties root) = [] ∧
      Tells id delay (pending root (y.after.duties root)) (y.visit? root k))
  := by
  have hs : s.actor? root = some a := (hdoes.actor? root).symm.trans ha
  have horderly := hcourse.orderly h₀ hs
  have hrest : ∀ {w}, y.work = w → w.duty? = some root → w.action? root = none →
      y.before.duties root = [.pump root] → y.before.agenda ≠ [] ∧
        pending root (s.duties root) = [] ∧ pending root (y.before.duties root) = [] := by
    intro w hwork hduty haction hpump
    refine ⟨?_, ?_, by rw [hpump]; rfl⟩
    · intro hnil
      rw [duties, hnil] at hpump
      cases hpump
    · rw [hdoes.duties_eq_cons hwork hduty, hpump, pending_cons_of_none haction]
      rfl
  have hruns : ∀ {w}, y.work = w → w.duty? = some root → a.status = .running := by
    intro w hwork hduty
    have hstarted := hcourse.started_of_duty h₀ hdoes ha (by rw [hwork]; exact hduty)
    exact Status.eq_running hstarted hstatus
  by_cases hreact : ∃ snapshot event, y.work = .react root snapshot event
  · obtain ⟨snapshot, event, hwork⟩ := hreact
    rw [hdoes.duties_eq_cons hwork rfl] at horderly
    obtain ⟨hagenda, hnone, hpending⟩ := hrest hwork rfl rfl horderly.stage.of_react.2
    have huntimed : ∀ e, y.work = .handle root e → e.isTimed = false := by
      intro e he
      cases hwork.symm.trans he
    exact Or.inr (Or.inr ⟨by rw [hwork]; rfl, by rw [hwork]; rfl, huntimed, hagenda, hnone,
      visits_of_react hwork ha (hruns hwork rfl) hpending htimes⟩)
  by_cases hstart : ∃ e, y.work = .handle root e ∧ e.origin = .start
  · obtain ⟨e, hwork, horigin⟩ := hstart
    rw [hdoes.duties_eq_cons hwork rfl] at horderly
    obtain ⟨hagenda, hnone, hpending⟩ := hrest hwork rfl rfl horderly.stage.of_handle
    have huntimed : ∀ e, y.work = .handle root e → e.isTimed = false := by
      intro e' he'
      rw [hwork, Work.handle.injEq] at he'
      rw [← he'.2, Envelope.isTimed, horigin]
    exact Or.inr (Or.inr ⟨by rw [hwork]; rfl, by rw [hwork]; rfl, huntimed, hagenda, hnone,
      visits_of_start hwork horigin ha (hruns hwork rfl) hpending htimes⟩)
  have hvisit : y.visit? root k = none := by
    by_contra hvisit
    exact (running_of_visit hvisit).2.elim hreact hstart
  obtain ⟨b, -, hturn⟩ := hcourse.exists_turn h₀ hdoes ha
  rcases hturn.pending horderly with ⟨hsame, -, haction⟩ |
      ⟨snapshot, action, hwork, hds, -⟩ | ⟨next, -, -, -, ⟨e, hwork, hstarts, -⟩ | ⟨_, _, hwork, -⟩⟩
  · exact Or.inr (Or.inl ⟨hvisit, haction, hsame⟩)
  · refine Or.inl ⟨hvisit, hruns hwork rfl, snapshot, action, hwork, ?_⟩
    rw [hds, hwork, pending_perform]
  · exact absurd ⟨e, hwork, hstarts⟩ hstart
  · exact absurd ⟨_, _, hwork⟩ hreact

end Session

end Statechart
