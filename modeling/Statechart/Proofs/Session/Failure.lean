import Statechart.Proofs.Session.Freshness
import Statechart.Proofs.Session.Steady

/-!
# Starts that fail

A running interpreter handles its envelopes in the order in which they came in (`Course.fifo`).
The start of an invocation that fails puts an event at the end of the mailbox.  The event does not
tell of which start it comes, so that it is handed on to a macrostep when its turn comes, be the
owner of the invocation still active or not (`Course.failure_handed`).
-/

namespace Statechart

open Session (committed)

variable {n : Nat} {a b c : Actor} {w : Work} {ds es : List Work} {xs ys us vs : List Moment}
  {ms : List Moment} {m y : Moment} {e : Envelope} {id : String} {reason : Json}

/-! ### The order of envelopes -/

/-- The envelope that a work handles for an interpreter. -/
def Work.handled? (n : Nat) (w : Work) : Option Envelope :=
  if w.duty? = some n then w.envelope? else none

theorem handled?_eq_some_iff :
  w.handled? n = some e ↔ w = .handle n e
  := by
  constructor
  · intro h
    rw [Work.handled?] at h
    split at h
    · next hduty =>
      cases w with
      | handle k e' =>
        cases hduty
        cases h
        rfl
      | _ => cases h
    · cases h
  · rintro rfl
    exact if_pos rfl

/-- The envelopes that an interpreter handles at some moments, in their order. -/
def handled (n : Nat) (ms : List Moment) : List Envelope :=
  ms.filterMap (fun m => m.work.handled? n)

theorem handled_append (n : Nat) (xs ys : List Moment) :
  handled n (xs ++ ys) = handled n xs ++ handled n ys
  := List.filterMap_append ..

theorem handled_singleton (n : Nat) (m : Moment) :
  handled n [m] = (m.work.handled? n).toList
  := by
  rw [handled, List.filterMap_cons]
  cases m.work.handled? n <;> rfl

theorem Actor.Like.backlog (h : a.Like b) (ds : List Work) :
  ∃ arrivals, b.backlog ds = a.backlog ds ++ arrivals
  := by
  obtain ⟨arrivals, hqueue, -⟩ := h.queue
  use arrivals
  rw [Actor.backlog, Actor.backlog, hqueue, List.append_assoc]

/-- Unless an interpreter is emptied, what it handles and what is left is what it had before, and
what has come in since. -/
theorem Turn.backlog (h : Turn n w a ds b es) (horderly : a.Orderly n ds)
    (hstatus : a.status ≠ .notStarted) (hw : w ≠ .release n) :
  ∃ arrivals, (w.handled? n).toList ++ b.backlog es = a.backlog ds ++ arrivals
  := by
  have houtside : w.duty? ≠ some n → w.handled? n = none := fun hduty => if_neg hduty
  have hduty : ∀ {ds}, w.duty? = some n → b.backlog es = b.backlog ds →
      (∃ arrivals, b.mailbox.queue = a.mailbox.queue ++ arrivals ∧
        ∀ e ∈ arrivals, e.origin ≠ .start) →
      ∃ arrivals, (w.handled? n).toList ++ b.backlog es = a.backlog (w :: ds) ++ arrivals := by
    rintro ds hduty hsame ⟨arrivals, hqueue, -⟩
    use arrivals
    rw [Work.handled?, if_pos hduty, hsame, backlog_cons, List.append_assoc, Actor.backlog, hqueue,
      Actor.backlog, List.append_assoc]
  have hnext : ∀ {x : Work} (ds : List Work), x.envelope? = none →
      b.backlog (x :: ds) = b.backlog ds := by
    intro x ds hx
    rw [backlog_cons, hx]
    rfl
  have hsame := (Actor.Like.refl a).queue
  cases h with
  | calm hout hlike =>
    obtain ⟨arrivals, hbacklog⟩ := hlike.backlog ds
    rw [houtside hout]
    exact ⟨arrivals, hbacklog⟩
  | @wake _ _ b _ hout hrunning hfree hlike =>
    obtain ⟨arrivals, hbacklog⟩ := hlike.backlog ds
    rw [houtside hout]
    exact ⟨arrivals, hbacklog⟩
  | start hnew => exact absurd hnew hstatus
  | stop hopen hlike =>
    obtain ⟨arrivals, hbacklog⟩ := hlike.backlog ds
    exact ⟨arrivals, hbacklog⟩
  | release hlike => exact absurd rfl hw
  | rest hqueue => exact hduty rfl rfl hsame
  | @take _ ds e queue hqueue =>
    have hnil := horderly.stage.of_pump
    subst hnil
    refine ⟨[], ?_⟩
    rw [backlog_cons, backlog_cons, backlog_cons, List.append_nil]
    simp [Work.handled?, Work.duty?, Work.envelope?, Actor.backlog, hqueue]
  | idle hidle hlike =>
    have hown : w.duty? = some n := by cases hidle <;> rfl
    exact hduty hown rfl hlike.queue
  | @boot _ _ _ e snapshot hrunning hstart hstarts hlike =>
    exact hduty rfl (backlog_committed b snapshot _) hlike.queue
  | unbooted hrunning hstart hlike => exact hduty rfl (hnext _ rfl) hlike.queue
  | @accept _ _ _ e hrunning hstart hlive hlike =>
    obtain ⟨services, -, heq⟩ := a.exists_admitting e
    rw [heq] at hlike
    exact hduty rfl (hnext _ rfl) hlike.queue
  | forward hstate => exact hduty rfl (hnext _ rfl) hsame
  | @move _ _ _ _ next hnext' => exact hduty rfl (backlog_committed _ next _) hsame
  | remove hrunning hstop hlookup => exact hduty rfl rfl hsame
  | refuse hrunning hstart hlike => exact hduty rfl rfl hlike.queue
  | issue hrunning hstart hactive hid hgeneration hissued hlike =>
    refine hduty rfl ?_ hlike.queue
    cases hissued with
    | plain _ => exact hnext _ rfl
    | machine _ => exact (hnext _ rfl).trans (hnext _ rfl)
  | register => exact hduty rfl rfl hsame
  | @retract _ _ _ _ id generation hlike =>
    obtain ⟨services, -, heq⟩ := a.exists_without id generation
    rw [heq] at hlike
    exact hduty rfl rfl hlike.queue

namespace Session

variable {s s₀ : Session}

/-- While an interpreter runs, it handles its envelopes in the order in which they came in. -/
theorem Course.fifo (h₀ : s₀.Fresh) (h : Course s₀ (xs ++ m :: ys) s)
    (hb : m.after.actor? n = some b) (hstarted : b.status ≠ .notStarted)
    (ha : s.actor? n = some a) (hrunning : a.status = .running) :
  ∃ arrivals, handled n ys ++ a.backlog (s.duties n) =
    b.backlog (m.after.duties n) ++ arrivals
  := by
  refine (h.induction_since (P := fun ys a ds => a.status ≠ .notStarted ∧
    (a.status = .running → ∃ arrivals, handled n ys ++ a.backlog ds =
      b.backlog (m.after.duties n) ++ arrivals)) ?_ ?_ h₀ hb ?_ ha).2 hrunning
  · rintro ys a c ds ⟨hstatus, hfifo⟩ hlike
    rw [hlike.status]
    refine ⟨hstatus, fun hrunning => ?_⟩
    obtain ⟨arrivals, hfifo⟩ := hfifo hrunning
    obtain ⟨later, hlater⟩ := hlike.backlog ds
    use arrivals ++ later
    rw [hlater, ← List.append_assoc, hfifo, List.append_assoc]
  · rintro ys t y a c hcourse hdoes ⟨hstatus, hfifo⟩ ha hc hturn
    refine ⟨hturn.started hstatus, fun hrunning => ?_⟩
    have hrunning := hturn.running_before hstatus hrunning
    have hwork := hcourse.not_release h₀ hdoes ha hrunning
    obtain ⟨arrivals, hfifo⟩ := hfifo hrunning
    obtain ⟨later, hlater⟩ := hturn.backlog (hcourse.orderly h₀ ha) hstatus hwork
    use arrivals ++ later
    rw [handled_append, handled_singleton, List.append_assoc, hlater, ← List.append_assoc, hfifo,
      List.append_assoc]
  · exact ⟨hstarted, fun _ => ⟨[], (List.append_nil _).symm⟩⟩

end Session

/-! ### Starts and exits -/

/-- Why a service of a source cannot be started, if it cannot; whether an invoked interpreter
can be started is not known before. -/
def Source.refusal? (hasTasks : Bool) : Source → Option Json
  | .machine _ => none
  | .task _ => if hasTasks then none else some (reasonData Session.noTasksReason)
  | .callback script => script.failure

/-- The id of the invocation whose start fails at a moment, and why. -/
def Moment.failedStart? (m : Moment) : Option (String × Json) :=
  match m.work with
  | .invoke n snapshot action later =>
    match action.duty with
    | .start i _ =>
      if m.before.isRunning n = true ∧ Session.stopsLater i.id later = false ∧
          snapshot.isActive i.owner = true then
        (m.before.catalog.lookup i.src).bind fun source =>
          (source.refusal? m.before.hasTasks).map fun reason => (i.id, reason)
      else none
    | _ => none
  | .confirmStart _ child id _ =>
    ((m.before.actor? child).bind Actor.startFault).map fun fault =>
      (id, reasonData ("core error: " ++ fault.message))
  | _ => none

namespace Session

variable {s s₀ : Session}

/-- Whether a work leaves an interpreter with one more envelope at the end of its mailbox, and its
duties as they are. -/
structure Queues (n : Nat) (e : Envelope) (a : Actor) (s t : Session) : Prop where
  actor : ∃ b, t.actor? n = some b ∧ b.mailbox.queue = a.mailbox.queue ++ [e]
  duties : t.duties n = s.duties n

theorem queues_startFailed {t : Session} (hb : t.actor? n = some b)
    (hqueue : b.mailbox.queue = a.mailbox.queue) (hduties : t.duties n = s.duties n) (id : String)
    (reason : Json) :
  Queues n (.external (.invocationFailed id reason)) a s (t.startFailed n id reason)
  := by
  rw [startFailed, Session.queue]
  refine ⟨?_, hduties⟩
  rw [actor?_modify_self, hb]
  refine ⟨_, rfl, ?_⟩
  rw [← hqueue]
  rfl

theorem queues_startService {i : Invocation} {data : Option Json} {source : Source}
    (ha : s.actor? n = some a) (hsource : s.catalog.lookup i.src = some source)
    (hrefuses : source.refusal? s.hasTasks = some reason) (context : Json) (trigger : Event) :
  Queues n (.external (.invocationFailed i.id reason)) a s
    (s.startService n i data context trigger)
  := by
  have hissued : (s.modify n (fun b => { b with generation := a.generation + 1 })).actor? n =
      some { a with generation := a.generation + 1 } := by
    rw [actor?_modify_self, ha]
    rfl
  rw [startService, hsource, ha]
  cases source with
  | machine machine => cases hrefuses
  | task ending =>
    rw [Source.refusal?] at hrefuses
    split at hrefuses
    · cases hrefuses
    · next htasks =>
      cases hrefuses
      dsimp only
      rw [startTask]
      dsimp only
      rw [if_pos]
      · apply queues_startFailed (b := { a with generation := a.generation + 1 })
        · exact hissued
        · rfl
        · rfl
      · simpa [modify] using htasks
  | callback script =>
    have hfailure : script.failure = some reason := hrefuses
    dsimp only
    rw [startCallback]
    dsimp only
    rw [hfailure]
    apply queues_startFailed (b := { a with generation := a.generation + 1 })
    · exact hissued
    · rfl
    · rfl

/-- The failure of a start is queued behind all that waits already. -/
theorem queues_of_failedStart (hduty : m.work.duty? = some n)
    (hfails : m.failedStart? = some (id, reason)) (ha : m.before.actor? n = some a) :
  Queues n (.external (.invocationFailed id reason)) a m.before m.after
  := by
  obtain ⟨s, w⟩ := m
  cases w with
  | invoke k snapshot action later =>
    cases hduty
    rw [Moment.failedStart?] at hfails
    dsimp only at hfails
    split at hfails
    · next i data hstart =>
      split at hfails
      · next hstarts =>
        obtain ⟨hrunning, hlater, hactive⟩ := hstarts
        obtain ⟨source, hsource, hrefuses⟩ := Option.bind_eq_some_iff.mp hfails
        obtain ⟨reason', hrefuses, heq⟩ := Option.map_eq_some_iff.mp hrefuses
        cases heq
        rw [Moment.after, carryOut, invoke, hstart]
        dsimp only
        rw [hrunning, hlater, hactive]
        exact queues_startService ha hsource hrefuses _ _
      · cases hfails
    · cases hfails
  | confirmStart k child id' generation =>
    cases hduty
    obtain ⟨fault, hfault, heq⟩ := Option.map_eq_some_iff.mp hfails
    cases heq
    rw [Moment.after, carryOut, confirmStart, hfault]
    dsimp only
    obtain ⟨b, hb, hmailbox⟩ : ∃ b,
        (s.modify child (fun a => { a with startFault := none })).actor? n = some b ∧
          b.mailbox = a.mailbox := by
      rw [actor?_modify, ha]
      split
      · exact ⟨_, rfl, rfl⟩
      · exact ⟨_, rfl, rfl⟩
    obtain ⟨services, -, heq⟩ := b.exists_without id generation
    have hremoved := actor?_removeGeneration hb id generation
    rw [heq] at hremoved
    apply queues_startFailed hremoved
    · exact congrArg Mailbox.queue hmailbox
    · rfl
  | _ => cases hfails

/-- After a failed start an interpreter goes on to start its invocations. -/
theorem starting_of_failedStart (hduty : m.work.duty? = some n)
    (hfails : m.failedStart? = some (id, reason)) {state : Option Snapshot}
    (hstage : Stage n state (m.work :: ds)) :
  ∃ snapshot, Starting n snapshot ds
  := by
  obtain ⟨s, w⟩ := m
  cases w with
  | invoke k snapshot action later =>
    cases hduty
    obtain ⟨-, hstarting, -⟩ := hstage.of_invoke
    exact ⟨snapshot, hstarting⟩
  | confirmStart k child id' generation =>
    cases hduty
    obtain ⟨snapshot, -, hstarting⟩ := hstage.of_confirmStart
    exact ⟨snapshot, hstarting⟩
  | _ => cases hfails

/-- An interpreter that has handled no envelope since has none to react to, if it had none. -/
theorem Course.handles_first (h₀ : s₀.Fresh) (h : Course s₀ (xs ++ m :: ys) s)
    (hb : m.after.actor? n = some b) (hnone : ∀ w ∈ m.after.duties n, w.opens = false)
    (ha : s.actor? n = some a) (hys : handled n ys = []) :
  ∀ snapshot event, .react n snapshot event ∉ s.duties n
  := by
  have hopens : ∀ w ∈ s.duties n, w.opens = true → ∃ e, w = .handle n e := by
    refine h.induction_since (P := fun ys a ds => handled n ys = [] →
      ∀ w ∈ ds, w.opens = true → ∃ e, w = .handle n e) ?_ ?_ h₀ hb ?_ ha hys
    · exact fun ys a b ds ih _ => ih
    · intro ys t y a b hcourse hdoes ih ha hb hturn hys w hw hwopens
      rw [handled_append, List.append_eq_nil_iff, handled_singleton] at hys
      obtain ⟨hys, hy⟩ := hys
      rcases hturn.of_opens (hcourse.orderly h₀ ha) hw hwopens with ⟨-, hw⟩ |
          ⟨e, -, -, rfl, -⟩ | ⟨e, hwork, -⟩ | ⟨snapshot, event, origin, hwork, -⟩
      · exact ih hys w hw hwopens
      · exact ⟨e, rfl⟩
      · rw [handled?_eq_some_iff.mpr hwork] at hy
        cases hy
      · obtain ⟨e, he⟩ := ih hys _ (hdoes.mem_duties hwork rfl) rfl
        cases he
    · intro _ w hw hwopens
      rw [hnone w hw] at hwopens
      cases hwopens
  intro snapshot event hmem
  obtain ⟨e, he⟩ := hopens _ hmem rfl
  cases he

/-- A running interpreter runs a macrostep for an event that is not that of a service or a timer. -/
theorem hands_of_running (hy : y.work = .handle n e) (horigin : e.origin = .external)
    (hb : y.before.actor? n = some b) (hrunning : b.status = .running) :
  y.Hands n e
  := by
  refine ⟨hy, ?_⟩
  rw [Moment.after, hy, carryOut, handle, (isRunning_iff hb).mpr hrunning, horigin]
  exact List.mem_cons_self

/-- Let the start of an invocation fail while some envelopes wait, and let the interpreter have
handled as many since when it takes the next one.  Then it has handled those that waited, and what
it takes is the failure, unless it was stopped before.  A macrostep is run for the failure if and
only if the interpreter is still running, whether or not the owner of the invocation was exited in
between; but it can only be exited after the first of those that waited was handled. -/
theorem Course.failure_handed (h₀ : s₀.Fresh) (h : Course s₀ (xs ++ m :: (us ++ y :: vs)) s)
    (hduty : m.work.duty? = some n) (hfails : m.failedStart? = some (id, reason))
    (ha : m.before.actor? n = some a) (hcount : (handled n us).length = a.mailbox.queue.length)
    (hy : y.work = .handle n e) (hb : y.before.actor? n = some b) :
  (b.status = .running →
    e = .external (.invocationFailed id reason) ∧ handled n us = a.mailbox.queue) ∧
  (y.Hands n e ↔ b.status = .running) ∧
  ∀ us₁ u us₂ key, us = us₁ ++ u :: us₂ → u.ExitsOwner n key → handled n us₁ ≠ []
  := by
  rw [← List.cons_append, ← List.append_assoc] at h
  obtain ⟨t, hcourse, hdoes, -⟩ := h.split
  have ht : t.actor? n = some b := (hdoes.actor? n).symm.trans hb
  obtain ⟨t₀, hstart, hdoes₀, -⟩ := hcourse.split
  have horderly₀ := hstart.orderly h₀ ((hdoes₀.actor? n).symm.trans ha)
  rw [hdoes₀.duties_eq_cons rfl hduty] at horderly₀
  obtain ⟨⟨c, hc, hqueue⟩, hduties⟩ := queues_of_failedStart hduty hfails ha
  obtain ⟨snapshot, hstarting⟩ := starting_of_failedStart hduty hfails horderly₀.stage
  have hperforming : Performing n snapshot (m.after.duties n) := by
    rw [hduties]
    exact .starting hstarting
  have htaken : b.status = .running →
      e = .external (.invocationFailed id reason) ∧ handled n us = a.mailbox.queue := by
    intro hrunning
    obtain ⟨c', hc', hturn⟩ := hstart.exists_turn h₀ hdoes₀ ha
    rw [hc, Option.some.injEq] at hc'
    subst hc'
    have hstarted := hturn.started (horderly₀.started (List.cons_ne_nil _ _))
    obtain ⟨arrivals, hfifo⟩ := hcourse.fifo h₀ hc hstarted ht hrunning
    rw [hdoes.duties_eq_cons hy rfl, backlog_cons, hperforming.backlog, hqueue,
      List.append_assoc] at hfifo
    obtain ⟨hhandled, hrest⟩ := List.append_inj hfifo hcount
    exact ⟨(List.cons.inj hrest).1, hhandled⟩
  refine ⟨htaken, ⟨?_, ?_⟩, ?_⟩
  · intro hhands
    obtain ⟨b', -, hturn⟩ := hcourse.exists_turn h₀ hdoes hb
    exact (hhands.accepts (hcourse.orderly h₀ ht) hturn).1
  · intro hrunning
    apply hands_of_running hy _ hb hrunning
    rw [(htaken hrunning).1]
    rfl
  · rintro us₁ u us₂ key rfl ⟨c', i, snapshot', event, next, steps, hwork, hc', -⟩ hnone
    rw [← List.cons_append, ← List.append_assoc] at hcourse
    obtain ⟨t₁, hcourse₁, hdoes₁, -⟩ := hcourse.split
    exact hcourse₁.handles_first h₀ hc (fun w hw => hperforming.opens hw)
      ((hdoes₁.actor? n).symm.trans hc') hnone snapshot' event (hdoes₁.mem_duties hwork rfl)

/-- A machine that invokes a callback service, leaves the owner on `GO`, and takes the failure of
the service in the next state. -/
def abandoning : Document.Machine where
  root := .node { initial := some "a" }
    [("a", .node { invoke := [{ id := some "x", src := "callback" }],
                   on := [("GO", [{ targets := ["b"] }])] } []),
     ("b", .node { on := [("error.invoke.x", [{ targets := ["c"] }])] } []),
     ("c", .node {} [])]

/-- A script that fails to start. -/
def refusing : Script where
  failure := some .null

/-- The moments of a run of `abandoning` in which `GO` waits when the interpreter is started. -/
def abandoned (chart : Chart) : List Moment :=
  ((ofScript chart refusing).conduct 30 [.send root (.bare "GO"), .start root]).1

theorem eq_null_of_isNull {v : Json} (h : v.isNull = true) :
  v = .null
  := by
  cases v with
  | null => rfl
  | _ => cases h

/-- In that run the start fails while `GO` waits, which exits the owner before the failure is
handled. -/
theorem exists_abandoned :
  ∃ chart, Chart.ofDocument abandoning = .ok chart ∧ ∃ xs m us y vs a b u,
    abandoned chart = xs ++ m :: (us ++ y :: vs) ∧ issued root (abandoned chart) = [("x", 1)] ∧
    m.work.duty? = some root ∧ m.failedStart? = some ("x", .null) ∧
    m.before.actor? root = some a ∧ (handled root us).length = a.mailbox.queue.length ∧
    y.work = .handle root (.external (.invocationFailed "x" .null)) ∧
    y.before.actor? root = some b ∧ b.status = .running ∧
    u ∈ us ∧ u.ExitsOwner root "x"
  := by
  obtain ⟨chart, h, hp⟩ := Outcome.exists_of_any (x := Chart.ofDocument abandoning)
    (p := fun chart =>
      let ms := abandoned chart
      let us := (ms.drop 6).take 8
      issued root ms = [("x", 1)] ∧
        ms[5]?.any (fun m => m.work.duty? = some root ∧
          m.failedStart?.any (fun f => f.1 = "x" ∧ f.2.isNull = true) ∧
          (m.before.actor? root).any (fun a =>
            (handled root us).length = a.mailbox.queue.length)) ∧
        us.any (fun u => u.leavesOwner root "x") = true ∧
        (ms.drop 6)[8]?.any (fun y => (y.work.handled? root).any (fun e => e.origin = .external ∧
            e.event.name = "error.invoke.x" ∧ e.event.data.isNull = true) ∧
          (y.before.actor? root).any (fun b => b.status = .running)))
    (by decide +kernel)
  obtain ⟨hissued, hm, hu, hy⟩ := of_decide_eq_true hp
  obtain ⟨m, hm, hfails⟩ := (Option.any_eq_true _ _).mp hm
  obtain ⟨hduty, hfails, ha⟩ := of_decide_eq_true hfails
  obtain ⟨⟨id, reason⟩, hfails, hf⟩ := (Option.any_eq_true _ _).mp hfails
  obtain ⟨rfl, hnull⟩ := of_decide_eq_true hf
  obtain ⟨a, ha, hcount⟩ := (Option.any_eq_true _ _).mp ha
  obtain ⟨u, hu, hleaves⟩ := List.any_eq_true.mp hu
  obtain ⟨y, hy, htakes⟩ := (Option.any_eq_true _ _).mp hy
  obtain ⟨he, hb⟩ := of_decide_eq_true htakes
  obtain ⟨⟨⟨name, data⟩, origin⟩, hhandled, he⟩ := (Option.any_eq_true _ _).mp he
  obtain ⟨rfl, rfl, hdata⟩ := of_decide_eq_true he
  obtain ⟨b, hb, hrunning⟩ := (Option.any_eq_true _ _).mp hb
  have hreason : reason = .null := eq_null_of_isNull hnull
  have hempty : data = .null := eq_null_of_isNull hdata
  subst hreason
  subst hempty
  have hms := (eq_take_append_cons_drop hm).trans
    (congrArg (fun ms => (abandoned chart).take 5 ++ m :: ms) (eq_take_append_cons_drop hy))
  exact ⟨chart, h, _, m, _, y, _, a, b, u, hms, hissued, hduty, hfails, ha,
    of_decide_eq_true hcount, handled?_eq_some_iff.mp hhandled, hb, of_decide_eq_true hrunning, hu,
    exitsOwner_of_leavesOwner hleaves⟩

/-- A failed start outlives the owner of the invocation: a macrostep is run for it after the owner
was exited. -/
theorem failure_outlives_owner :
  ∃ chart, Chart.ofDocument abandoning = .ok chart ∧
    ∃ xs m us y vs s, (ofScript chart refusing).Fresh ∧
      Course (ofScript chart refusing) (xs ++ m :: (us ++ y :: vs)) s ∧
      issued root (xs ++ m :: (us ++ y :: vs)) = [("x", 1)] ∧ m.work.duty? = some root ∧
      m.failedStart? = some ("x", .null) ∧ (∃ u ∈ us, u.ExitsOwner root "x") ∧
      y.Hands root (.external (.invocationFailed "x" .null))
  := by
  obtain ⟨chart, h, xs, m, us, y, vs, a, b, u, hms, hissued, hduty, hfails, -, -, hy, hb,
    hrunning, hu, hexits⟩ := exists_abandoned
  have hcourse := course_conduct 30 (ofScript chart refusing)
    [.send root (.bare "GO"), .start root] (by decide)
  rw [← abandoned, hms] at hcourse
  rw [hms] at hissued
  exact ⟨chart, h, xs, m, us, y, vs, _, fresh_ofScript ⟨abandoning, h⟩ refusing, hcourse, hissued,
    hduty, hfails, ⟨u, hu, hexits⟩, hands_of_running hy rfl hb hrunning⟩

theorem failure_handed_abandoning :
  ∃ chart, Chart.ofDocument abandoning = .ok chart ∧
    ∃ xs m us y vs s a b e, (ofScript chart refusing).Fresh ∧
      Course (ofScript chart refusing) (xs ++ m :: (us ++ y :: vs)) s ∧
      m.work.duty? = some root ∧ m.failedStart? = some ("x", .null) ∧
      m.before.actor? root = some a ∧ (handled root us).length = a.mailbox.queue.length ∧
      y.work = .handle root e ∧ y.before.actor? root = some b ∧ b.status = .running ∧
      e = .external (.invocationFailed "x" .null) ∧ handled root us = a.mailbox.queue ∧
      y.Hands root e
  := by
  obtain ⟨chart, h, xs, m, us, y, vs, a, b, u, hms, -, hduty, hfails, ha, hcount, hy, hb,
    hrunning, -⟩ := exists_abandoned
  have hcourse := course_conduct 30 (ofScript chart refusing)
    [.send root (.bare "GO"), .start root] (by decide)
  rw [← abandoned, hms] at hcourse
  have h₀ := fresh_ofScript ⟨abandoning, h⟩ refusing
  obtain ⟨htaken, hhands, -⟩ := hcourse.failure_handed h₀ hduty hfails ha hcount hy hb
  obtain ⟨he, hhandled⟩ := htaken hrunning
  exact ⟨chart, h, xs, m, us, y, vs, _, a, b, _, h₀, hcourse, hduty, hfails, ha, hcount, hy, hb,
    hrunning, he, hhandled, hhands.mpr hrunning⟩

end Session

end Statechart
