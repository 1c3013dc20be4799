import Statechart.Chart.Compile
import Statechart.Proofs.Session.Turn

/-!
# Courses of a session

A course leads from a session to another one by works and by calls from outside, which may come
at any time.  It lists the works as moments, in the order in which they were done.  What holds
of a new interpreter, and is kept by envelopes that come in and by every turn, holds of an
interpreter all along a course (`Course.induction_view`).
-/

namespace Statechart

/-- A work that is being done, with the session that it is done in; the work is off the agenda
already. -/
structure Moment where
  before : Session
  work : Work

/-- The session after the work is done. -/
def Moment.after (m : Moment) : Session :=
  m.before.carryOut m.work

/-- Whether a work can be asked for from outside, by a caller or by a callback service. -/
def Work.isCall : Work → Bool
  | .start _ => true
  | .send .. => true
  | .stop _ => true
  | .deliver .. => true
  | .stopService _ => true
  | .operate .. => true
  | .unsubscribe _ => true
  | .advance _ => true
  | .settle => true
  | _ => false

/-- Whether a chart is that of a machine document. -/
def Chart.Compiled (chart : Chart) : Prop :=
  ∃ document, Chart.ofDocument document = .ok chart

/-- Whether an interpreter has a compiled machine and has done nothing yet. -/
structure Actor.Unstarted (a : Actor) : Prop where
  chart : a.machine.chart.Compiled
  status : a.status = .notStarted
  state : a.state = none
  services : a.services = []
  generation : a.generation = 0
  mailbox : a.mailbox = {}

namespace Session

/-- Whether a session gets to another one by a call from outside. -/
inductive Called : Session → Session → Prop where
  | work {s w} (h : w.isCall = true) : Called s (s.plan [w])
  | emit {s c event} (h : c ∈ s.callbacks) : Called s (s.emitting c event)
  | resume {s n} (persisted : Persisted) :
      Called s (s.modify n (fun a => { a with resume := some persisted }))
  | configure {s} (settings : Settings) : Called s (s.withSettings settings)
  | subscribe {s} (listener : String) : Called s (s.subscribe listener)
  | takeFault {s} : Called s s.takeFault.2
  | forget {s} : Called s s.forget

/-- Whether a session does the first work of its agenda at a moment. -/
structure Does (s : Session) (m : Moment) : Prop where
  agenda : s.agenda = m.work :: m.before.agenda
  before : m.before = { s with agenda := m.before.agenda }

/-- The courses that begin with a session. -/
inductive Course (s₀ : Session) : List Moment → Session → Prop where
  | refl : Course s₀ [] s₀
  | call {ms s t} (h : Course s₀ ms s) (hcall : s.Called t) : Course s₀ ms t
  | step {ms s m} (h : Course s₀ ms s) (hm : s.Does m) : Course s₀ (ms ++ [m]) m.after

/-- Whether a session has a sole interpreter that has done nothing yet, and has compiled
machines in its catalog. -/
structure Fresh (s : Session) : Prop where
  root : ∃ a, s.actors = [a] ∧ a.Unstarted
  catalog : ∀ src m, s.catalog.lookup src = some (.machine m) → m.chart.Compiled
  pending : s.clock.pending = []
  callbacks : s.callbacks = []
  agenda : s.agenda = []

variable {n : Nat} {s s₀ t u : Session} {ms xs ys : List Moment} {m : Moment} {a : Actor}
  {w : Work}

/-- The session of a compiled machine is fresh. -/
theorem fresh_ofMachine {machine : Machine} {catalog : List (String × Source)}
    (hmachine : machine.chart.Compiled)
    (hcatalog : ∀ src m, catalog.lookup src = some (.machine m) → m.chart.Compiled) :
  (ofMachine machine catalog).Fresh
  := ⟨⟨_, rfl, hmachine, rfl, rfl, rfl, rfl, rfl⟩, hcatalog, rfl, rfl, rfl⟩

/-! ### Calls -/

/-- A call brings envelopes at most. -/
theorem Called.calm (h : s.Called t) :
  Calm n s t
  := by
  cases h with
  | @work w h =>
    have hw : w.Unmarked ∧ w.duty? ≠ some n := by
      cases w <;> simp_all [Work.isCall, Work.Unmarked, Work.duty?]
    exact (Calm.refl n s).plan (List.forall_mem_singleton.mpr hw)
  | emit h =>
    rw [emitting]
    split
    · exact .refl n s
    · exact (Calm.refl n s).plan (by simp [Work.Unmarked, Work.duty?, Callback.envelope])
  | resume persisted => exact (Calm.refl n s).modify (fun _ _ _ => .of_eq rfl)
  | configure settings => exact (Calm.refl n s).modify (fun _ _ _ => .of_eq rfl)
  | subscribe listener =>
    rw [Session.subscribe]
    split
    · exact .refl n s
    · next a _ =>
      have hlisted : Calm n s (s.modify root
          (fun a => { a with listeners := a.listeners.subscribe listener })) :=
        (Calm.refl n s).modify (fun _ _ _ => .of_eq rfl)
      have hsubscribed : Calm n s
          { s.modify root (fun a => { a with listeners := a.listeners.subscribe listener }) with
            subscriptions :=
              Association.insert listener a.listeners.nextNumber s.subscriptions } :=
        hlisted.of_eq rfl rfl rfl (fun _ => Or.inl)
      dsimp only
      split
      · exact hsubscribed.observe _
      · exact hsubscribed
  | takeFault => exact (Calm.refl n s).modify (fun _ _ _ => .of_eq rfl)
  | forget => exact (Calm.refl n s).of_eq rfl rfl rfl (fun _ => Or.inl)

/-! ### Boot markers -/

theorem Unmarked.of_extends (hs : s.Unmarked) (h : s.Extends t) :
  t.Unmarked
  := by
  obtain ⟨ws, hws, hunmarked⟩ := h.agenda
  constructor
  case agenda =>
    rw [hws]
    exact List.forall_mem_append.mpr ⟨hunmarked, hs.agenda⟩
  case pending =>
    intro x hx
    rcases h.pending x hx with hx | hx
    · exact hs.pending x hx
    · exact hx

/-- No work posts a boot marker, or gets one posted. -/
theorem extends_carryOut (hw : w.Unmarked) (hpending : ∀ x ∈ s.clock.pending, x.task.Unmarked) :
  s.Extends (s.carryOut w)
  := by
  have hother : w.duty? ≠ some (w.duty?.getD 0 + 1) := by
    cases w.duty? <;> simp
  have houtside := outside_carryOut hw hpending hother
  have hne : ∀ n : Nat, n ≠ n + 1 := fun n => Nat.ne_of_lt (Nat.lt_succ_self n)
  generalize hn : w.duty?.getD 0 + 1 = n at houtside
  generalize s.carryOut w = t at houtside ⊢
  -- a work that concerns one interpreter leaves the next one as it is
  cases houtside with
  | calm h => exact h.extends
  | wakes h => exact h.extends
  | start => exact (calm_start (hne n) s).extends
  | stop => exact (calm_stop (hne n) s).extends
  | release => exact ((Calm.refl (n + 1) s).modify_of_ne (hne n) _).extends

theorem Fresh.unmarked (h : s.Fresh) :
  s.Unmarked
  := by
  constructor
  case agenda =>
    rw [h.agenda]
    exact List.forall_mem_nil _
  case pending =>
    rw [h.pending]
    exact List.forall_mem_nil _

theorem Does.actor? (h : s.Does m) (n : Nat) :
  m.before.actor? n = s.actor? n
  := by
  rw [h.before]
  rfl

theorem Does.callbacks (h : s.Does m) :
  m.before.callbacks = s.callbacks
  := by
  rw [h.before]

theorem Does.duties (h : s.Does m) (n : Nat) :
  s.duties n = (if m.work.duty? = some n then [m.work] else []) ++ m.before.duties n
  := by
  rw [Session.duties, h.agenda, List.filter_cons]
  split
  · next hduty => rw [if_pos (by simpa using hduty)]; rfl
  · next hduty => rw [if_neg (by simpa using hduty)]; rfl

/-- The work of a moment is the first duty before it, if it is one. -/
theorem Does.duties_eq_cons (h : s.Does m) (hwork : m.work = w) (hw : w.duty? = some n) :
  s.duties n = w :: m.before.duties n
  := by
  rw [h.duties, hwork, if_pos hw]
  rfl

theorem Does.mem_duties (h : s.Does m) (hwork : m.work = w) (hw : w.duty? = some n) :
  w ∈ s.duties n
  := by
  rw [h.duties_eq_cons hwork hw]
  exact List.mem_cons_self

theorem Does.unmarked (h : s.Does m) (hs : s.Unmarked) :
  m.work.Unmarked ∧ m.before.Unmarked
  := by
  have hmarks := hs.agenda
  rw [h.agenda] at hmarks
  obtain ⟨hw, hrest⟩ := List.forall_mem_cons.mp hmarks
  refine ⟨hw, hrest, ?_⟩
  rw [h.before]
  exact hs.pending

/-- All along a course no boot marker is on its way, and the catalog stays as it is. -/
theorem Course.unmarked (h : Course s₀ ms s) (h₀ : s₀.Fresh) :
  s.Unmarked ∧ s.catalog = s₀.catalog
  := by
  induction h with
  | refl => exact ⟨h₀.unmarked, rfl⟩
  | call h hcall ih =>
    have hextends := (hcall.calm (n := 0)).extends
    exact ⟨ih.1.of_extends hextends, hextends.catalog.trans ih.2⟩
  | step h hm ih =>
    obtain ⟨hw, hbefore⟩ := hm.unmarked ih.1
    have hextends := extends_carryOut hw hbefore.pending
    refine ⟨hbefore.of_extends hextends, hextends.catalog.trans ?_⟩
    rw [hm.before]
    exact ih.2

/-! ### Parts of a course -/

theorem Course.trans (h : Course s xs t) (h' : Course t ys u) :
  Course s (xs ++ ys) u
  := by
  induction h' with
  | refl =>
    rw [List.append_nil]
    exact h
  | call h' hcall ih => exact .call ih hcall
  | step h' hm ih =>
    rw [← List.append_assoc]
    exact .step ih hm

/-- Moments are split at one of them by its position. -/
theorem eq_take_append_cons_drop {k : Nat} (h : ms[k]? = some m) :
  ms = ms.take k ++ m :: ms.drop (k + 1)
  := by
  obtain ⟨hk, rfl⟩ := List.getElem?_eq_some_iff.mp h
  rw [List.getElem_cons_drop, List.take_append_drop]

/-- A course goes on from each of its moments. -/
theorem Course.split (h : Course s₀ (xs ++ m :: ys) s) :
  ∃ t, Course s₀ xs t ∧ t.Does m ∧ Course m.after ys s
  := by
  generalize hms : xs ++ m :: ys = ms at h
  induction h generalizing ys with
  | refl => simp at hms
  | call h hcall ih =>
    obtain ⟨t, hxs, hm, hys⟩ := ih hms
    exact ⟨t, hxs, hm, .call hys hcall⟩
  | step h hm ih =>
    rcases List.eq_nil_or_concat ys with rfl | ⟨zs, z, rfl⟩
    · obtain ⟨rfl, hlast⟩ := List.append_inj' hms rfl
      cases hlast
      exact ⟨_, h, hm, .refl⟩
    · rw [List.concat_eq_append, ← List.cons_append, ← List.append_assoc] at hms
      obtain ⟨hfirst, hlast⟩ := List.append_inj' hms rfl
      cases hlast
      obtain ⟨t, hxs, hm', hys⟩ := ih hfirst
      rw [List.concat_eq_append]
      exact ⟨t, hxs, hm', .step hys hm⟩

/-! ### Invariants of an interpreter -/

/-- Whether some moments have nothing to do with an interpreter but that they make it. -/
def Precedes (n : Nat) (ms : List Moment) : Prop :=
  ∀ m ∈ ms, m.before.actor? n = none ∧ m.work.duty? ≠ some n ∧
    ∀ a, m.after.actor? n = some a → a.status = .notStarted

theorem unstarted_of_spawned (h : a.Spawned s.catalog) (h₀ : s₀.Fresh)
    (hcatalog : s.catalog = s₀.catalog) :
  a.Unstarted
  := by
  obtain ⟨src, machine, hsrc, hchart⟩ := h.machine
  constructor
  case chart =>
    rw [hchart]
    exact h₀.catalog src machine (hcatalog ▸ hsrc)
  case status => exact h.status
  case state => exact h.state
  case services => exact h.services
  case generation => exact h.generation
  case mailbox => exact h.mailbox

/-- What is done at a moment is a turn of every interpreter that there is. -/
theorem Course.exists_turn (h₀ : s₀.Fresh) (h : Course s₀ ms s) (hm : s.Does m)
    (ha : m.before.actor? n = some a) :
  ∃ b, m.after.actor? n = some b ∧ Turn n m.work a (s.duties n) b (m.after.duties n)
  := by
  obtain ⟨hw, hbefore⟩ := hm.unmarked (h.unmarked h₀).1
  rw [hm.duties]
  exact Session.exists_turn hw hbefore.pending ha

/-- What holds of a new interpreter, and is kept by envelopes that come in and by every turn,
holds of an interpreter and its duties all along a course. -/
theorem Course.induction_view {P : List Moment → Actor → List Work → Prop}
    (hborn : ∀ ms a, Precedes n ms → a.Unstarted → P ms a [])
    (hlike : ∀ ms a b ds, P ms a ds → a.Like b → P ms b ds)
    (hturn : ∀ ms t m a b, Course s₀ ms t → t.Does m → P ms a (t.duties n) →
      m.before.actor? n = some a → m.after.actor? n = some b →
      Turn n m.work a (t.duties n) b (m.after.duties n) → P (ms ++ [m]) b (m.after.duties n))
    (h₀ : s₀.Fresh) (h : Course s₀ ms s) :
  (s.actor? n = none → Precedes n ms ∧ s.duties n = []) ∧
    ∀ a, s.actor? n = some a → P ms a (s.duties n)
  := by
  induction h with
  | refl =>
    have hduties : s₀.duties n = [] := by rw [duties, h₀.agenda, List.filter_nil]
    refine ⟨fun _ => ⟨List.forall_mem_nil _, hduties⟩, fun a ha => ?_⟩
    obtain ⟨a₀, hactors, hunstarted⟩ := h₀.root
    rw [actor?, hactors] at ha
    rw [hduties]
    cases n with
    | zero =>
      cases ha
      exact hborn [] a (List.forall_mem_nil _) hunstarted
    | succ n => cases ha
  | @call ms s t h hcall ih =>
    have hcalm := hcall.calm (n := n)
    rw [hcalm.duties]
    constructor
    · intro hnone
      apply ih.1
      by_contra hne
      obtain ⟨a, ha⟩ := Option.ne_none_iff_exists'.mp hne
      obtain ⟨b, hb, -⟩ := hcalm.actor a ha
      rw [hnone] at hb
      cases hb
    · intro b hb
      cases ha : s.actor? n with
      | none =>
        obtain ⟨hprecedes, hduties⟩ := ih.1 ha
        obtain ⟨a, hspawned, halike⟩ := hcalm.born ha b hb
        rw [hduties]
        exact hlike _ a b _
          (hborn ms a hprecedes (unstarted_of_spawned hspawned h₀ (h.unmarked h₀).2)) halike
      | some a =>
        obtain ⟨b', hb', halike⟩ := hcalm.actor a ha
        rw [hb, Option.some.injEq] at hb'
        subst hb'
        exact hlike _ a b _ (ih.2 a ha) halike
  | @step ms s m h hm ih =>
    obtain ⟨hw, hbefore⟩ := hm.unmarked (h.unmarked h₀).1
    rw [← hm.actor?] at ih
    cases ha : m.before.actor? n with
    | none =>
      obtain ⟨hprecedes, hduties⟩ := ih.1 ha
      rw [hm.duties, List.append_eq_nil_iff] at hduties
      have hduty : m.work.duty? ≠ some n := by
        intro hduty
        rw [if_pos hduty] at hduties
        cases hduties.1
      obtain ⟨hafter, hspawns⟩ := duties_carryOut_of_none hw hbefore.pending hduty ha
      have hprecedes : Precedes n (ms ++ [m]) := by
        refine List.forall_mem_append.mpr ⟨hprecedes, List.forall_mem_singleton.mpr ⟨ha, hduty, ?_⟩⟩
        intro b hb
        obtain ⟨a, hspawned, halike⟩ := hspawns b hb
        exact halike.status.trans hspawned.status
      rw [Moment.after, hafter, hduties.2]
      refine ⟨fun _ => ⟨hprecedes, rfl⟩, fun b hb => ?_⟩
      obtain ⟨a, hspawned, halike⟩ := hspawns b hb
      have hcatalog : m.before.catalog = s₀.catalog := by
        rw [hm.before]
        exact (h.unmarked h₀).2
      exact hlike _ a b _
        (hborn _ a hprecedes (unstarted_of_spawned hspawned h₀ hcatalog)) halike
    | some a =>
      obtain ⟨b, hb, hturned⟩ := h.exists_turn h₀ hm ha
      constructor
      · intro hnone
        rw [hb] at hnone
        cases hnone
      · intro b' hb'
        rw [hb, Option.some.injEq] at hb'
        subst hb'
        exact hturn ms s m a b h hm (ih.2 a ha) ha hb hturned

/-- What holds of an interpreter after some moment, and is kept by envelopes that come in and by
every turn, holds of it ever after. -/
theorem Course.induction_since {P : List Moment → Actor → List Work → Prop} {b : Actor}
    (hlike : ∀ ys a b ds, P ys a ds → a.Like b → P ys b ds)
    (hturn : ∀ ys t y a b, Course s₀ (xs ++ m :: ys) t → t.Does y → P ys a (t.duties n) →
      t.actor? n = some a → y.after.actor? n = some b →
      Turn n y.work a (t.duties n) b (y.after.duties n) → P (ys ++ [y]) b (y.after.duties n))
    (h₀ : s₀.Fresh) (h : Course s₀ (xs ++ m :: ys) s) (hb : m.after.actor? n = some b)
    (hfirst : P [] b (m.after.duties n)) (ha : s.actor? n = some a) :
  P ys a (s.duties n)
  := by
  obtain ⟨t, hcourse, hdoes, hrest⟩ := h.split
  suffices hP : ∃ a, s.actor? n = some a ∧ P ys a (s.duties n) by
    obtain ⟨a', ha', hP⟩ := hP
    rw [ha, Option.some.injEq] at ha'
    subst ha'
    exact hP
  have hfrom : ∀ {zs u}, Course m.after zs u → Course s₀ (xs ++ m :: zs) u := by
    intro zs u hzs
    have hall := (Course.step hcourse hdoes).trans hzs
    rw [List.append_assoc] at hall
    exact hall
  clear h ha
  induction hrest with
  | refl => exact ⟨b, hb, hfirst⟩
  | call hzs hcall ih =>
    obtain ⟨a, ha, hP⟩ := ih
    obtain ⟨c, hc, hlikes⟩ := (hcall.calm (n := n)).actor a ha
    refine ⟨c, hc, ?_⟩
    rw [(hcall.calm (n := n)).duties]
    exact hlike _ a c _ hP hlikes
  | step hzs hy ih =>
    obtain ⟨a, ha, hP⟩ := ih
    obtain ⟨c, hc, hturned⟩ := (hfrom hzs).exists_turn h₀ hy ((hy.actor? n).trans ha)
    exact ⟨c, hc, hturn _ _ _ a c (hfrom hzs) hy hP ha hc hturned⟩

/-- Only an interpreter that there is has duties. -/
theorem Course.exists_actor (h₀ : s₀.Fresh) (h : Course s₀ ms s) (hw : w ∈ s.duties n) :
  ∃ a, s.actor? n = some a
  := by
  by_contra hnone
  have hactor : s.actor? n = none := by
    cases hs : s.actor? n with
    | none => rfl
    | some a => exact absurd ⟨a, hs⟩ hnone
  have hduties := ((h.induction_view (P := fun _ _ _ => True) (fun _ _ _ _ => trivial)
    (fun _ _ _ _ _ _ => trivial) (fun _ _ _ _ _ _ _ _ _ _ _ => trivial) h₀).1 hactor).2
  rw [hduties] at hw
  cases hw

/-! ### Courses that are carried out -/

/-- The moments of a run, and where it ends. -/
def trail : Nat → Session → List Moment × Session
  | 0, s => ([], s)
  | fuel + 1, s =>
    match s.agenda with
    | [] => ([], s)
    | w :: rest =>
      let m : Moment := ⟨{ s with agenda := rest }, w⟩
      (m :: (trail fuel m.after).1, (trail fuel m.after).2)

/-- The moments of the runs that follow calls, and where the last one ends. -/
def conduct (fuel : Nat) (s : Session) : List Work → List Moment × Session
  | [] => ([], s)
  | w :: ws =>
    let first := (s.plan [w]).trail fuel
    (first.1 ++ (first.2.conduct fuel ws).1, (first.2.conduct fuel ws).2)

/-- The session of a chart with a callback service in its catalog. -/
def ofScript (chart : Chart) (script : Script) : Session :=
  ofMachine (.ofChart chart) [("callback", .callback script)]

theorem fresh_ofScript {chart : Chart} (h : chart.Compiled) (script : Script) :
  (ofScript chart script).Fresh
  := by
  apply fresh_ofMachine h
  intro src m hm
  rw [List.lookup_cons] at hm
  split at hm <;> cases hm

theorem course_trail (fuel : Nat) (s : Session) :
  Course s (s.trail fuel).1 (s.trail fuel).2
  := by
  induction fuel generalizing s with
  | zero => exact .refl
  | succ fuel ih =>
    rw [trail]
    split
    · exact .refl
    · next w rest hagenda =>
      have hdoes : s.Does ⟨{ s with agenda := rest }, w⟩ := ⟨hagenda, rfl⟩
      exact Course.trans (.step .refl hdoes) (ih _)

theorem course_conduct (fuel : Nat) (s : Session) (ws : List Work)
    (hws : ∀ w ∈ ws, w.isCall = true) :
  Course s (s.conduct fuel ws).1 (s.conduct fuel ws).2
  := by
  induction ws generalizing s with
  | nil => exact .refl
  | cons w ws ih =>
    obtain ⟨hw, hws⟩ := List.forall_mem_cons.mp hws
    have hcalled : Course s [] (s.plan [w]) := .call .refl (.work hw)
    exact (hcalled.trans (course_trail fuel _)).trans (ih _ hws)

end Session

end Statechart
