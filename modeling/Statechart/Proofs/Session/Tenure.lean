import Statechart.Proofs.Session.Disposal
import Statechart.Proofs.Session.Lasting

/-!
# What becomes of a service

When an invocation is started, an interpreter, a task or a callback service is made, and the
service is about to be registered (`Launched`).  After that it is live at its interpreter, until it
leaves the registry for good; it is never live if the interpreter was stopped before it is
registered (`Course.tenure`).
-/

namespace Statechart

open Session (committed)

variable {n : Nat} {a b : Actor} {w x y : Work} {ds es : List Work} {ms xs ys : List Moment}
  {m z : Moment} {v : Service} {id : String} {generation : Nat} {snapshot : Snapshot}

/-- What is made for a service, and what is to be done about it. -/
inductive Launched (n : Nat) (v : Service) (data : Option Json) (s t : Session) : Prop where
  | machine {a : Actor} {machine : Machine} (ha : s.actor? n = some a)
      (hsource : s.catalog.lookup v.src = some (.machine machine))
      (hbacking : v.backing = .machine s.actors.length)
      (hchild : t.actor? s.actors.length =
        some (Session.childActor ⟨n, v.id, v.generation⟩ a.settings machine data))
      (hlength : t.actors.length = s.actors.length + 1)
      (hagenda : t.agenda = .register n v :: .start s.actors.length ::
        .confirmStart n s.actors.length v.id v.generation :: s.agenda)
  | task {job : Job} (hbacking : v.backing = .task s.jobs.length) (hjobs : t.jobs = s.jobs ++ [job])
      (hagenda : t.agenda = .register n v :: s.agenda)
  | callback {c : Callback} (hbacking : v.backing = .callback s.callbacks.length)
      (hcallbacks : t.callbacks = s.callbacks ++ [c])
      (hagenda : ∃ operations : List Operation, t.agenda =
        operations.map (.operate s.callbacks.length) ++ .register n v :: s.agenda)

/-- Whether an interpreter issues a service at a moment. -/
def Moment.Issues (n : Nat) (v : Service) (m : Moment) : Prop :=
  (∃ snapshot action later, m.work = .invoke n snapshot action later) ∧
    .register n v ∈ m.after.agenda

/-- Whether a service is live at a running interpreter. -/
def Session.Serves (s : Session) (n : Nat) (v : Service) : Prop :=
  ∃ a, s.actor? n = some a ∧ a.status = .running ∧ a.services.lookup v.id = some v

/-- Whether a service leaves the registry at a moment, or is registered too late. -/
inductive Moment.Vacates (n : Nat) (v : Service) (m : Moment) : Prop where
  | leaves (h : m.before.Serves n v) (hafter : ¬ m.after.Serves n v)
  | misses (h : m.work = .register n v) (hstatus : m.before.isRunning n = false)

/-- Whether an event that completes a service is handed on to a macrostep of its interpreter. -/
def Moment.Reports (n : Nat) (v : Service) (m : Moment) : Prop :=
  ∃ event, m.Hands n ⟨event, .service v.id v.generation⟩ ∧ Session.completes event.name v.id = true

/-- The ways in which a service leaves the registry. -/
inductive Moment.Departs (n : Nat) (v : Service) (m : Moment) : Prop where
  | stopped (h : m.work = .stop n) (hserves : m.before.Serves n v)
  | performed {snapshot : Snapshot} {action : ResolvedAction}
      (h : m.work = .perform n snapshot action) (hduty : action.duty = .stop v.id)
      (hagenda : m.after.agenda = .stopService v :: m.before.agenda)
  | displaced {u : Service} (h : m.work = .register n u) (hid : u.id = v.id)
      (hagenda : m.after.agenda = .stopService v :: m.before.agenda)
  | reported (h : m.Reports n v)
  /-- The service is an interpreter that failed to start. -/
  | retracted {c : Nat} {b : Actor} (h : m.work = .confirmStart n c v.id v.generation)
      (hbacking : v.backing = .machine c) (hb : m.before.actor? c = some b)
      (hfault : b.startFault ≠ none)
  /-- The service is registered after its interpreter was stopped. -/
  | missed (h : m.work = .register n v) (hstatus : m.before.isRunning n = false)

/-- An interpreter that is made is not the root. -/
theorem Launched.ne_root {c : Nat} {data : Option Json} {s t : Session} (h : Launched n v data s t)
    (hbacking : v.backing = .machine c) :
  c ≠ Session.root
  := by
  cases h with
  | machine ha _ hmachine =>
    obtain rfl := Backing.machine.inj (hbacking.symm.trans hmachine)
    exact Nat.ne_of_gt ((Nat.zero_le n).trans_lt (List.getElem?_eq_some_iff.mp ha).1)
  | task htask => cases hbacking.symm.trans htask
  | callback hcallback => cases hbacking.symm.trans hcallback

namespace Session

variable {s s₀ t u : Session}

/-! ### Starts of invocations -/

/-- The start of an invocation makes what is behind the service that is to be registered. -/
theorem launched_startService {i : Invocation} {data : Option Json} {context : Json}
    {trigger : Event} (hnone : .register n v ∉ s.agenda)
    (hmem : .register n v ∈ (s.startService n i data context trigger).agenda) :
  Launched n v data s (s.startService n i data context trigger) ∧ v.id = i.id ∧
    v.generation = s.generation n + 1
  := by
  rw [startService] at hmem ⊢
  split at hmem
  · next source a hsource ha =>
    have hgeneration : s.generation n = a.generation := by
      rw [generation, ha]
      rfl
    rw [hgeneration]
    dsimp only at hmem ⊢
    split at hmem
    · next machine =>
      have hv : v = ⟨i.id, i.src, a.generation + 1, i.forward, .machine s.actors.length⟩ := by
        have hlength : (s.modify n fun b => { b with generation := a.generation + 1 }).actors.length
            = s.actors.length := List.length_modify ..
        rw [startMachine, agenda_plan] at hmem
        rcases List.mem_append.mp hmem with hmem | hmem
        · simp only [List.mem_cons, Work.register.injEq, hlength] at hmem
          simpa using hmem
        · exact absurd hmem hnone
      have hlength : (s.modify n fun b => { b with generation := a.generation + 1 }).actors.length
          = s.actors.length := List.length_modify ..
      subst hv
      refine ⟨.machine ha hsource rfl ?_ ?_ ?_, rfl, rfl⟩
      · rw [startMachine, actor?_plan, hlength]
        change (_ ++ _)[s.actors.length]? = _
        rw [List.getElem?_append_right hlength.le, hlength, Nat.sub_self]
        rfl
      · rw [startMachine]
        change List.length (_ ++ _) = _
        rw [List.length_append, hlength]
        rfl
      · rw [startMachine, hlength]
        rfl
    · rw [startTask] at hmem ⊢
      dsimp only at hmem ⊢
      split at hmem
      · exact absurd hmem hnone
      · next htasks =>
        rw [if_neg htasks]
        rw [agenda_plan] at hmem
        rcases List.mem_append.mp hmem with hmem | hmem
        · obtain rfl : v = ⟨i.id, i.src, a.generation + 1, i.forward, .task s.jobs.length⟩ := by
            simpa [modify] using hmem
          exact ⟨.task rfl rfl rfl, rfl, rfl⟩
        · exact absurd hmem hnone
    · next script =>
      rw [startCallback] at hmem ⊢
      dsimp only at hmem ⊢
      split at hmem
      · exact absurd hmem hnone
      · next hstarts =>
        rw [hstarts]
        rw [agenda_plan] at hmem
        rcases List.mem_append.mp hmem with hmem | hmem
        · rcases List.mem_append.mp hmem with hmem | hmem
          · obtain ⟨operation, -, heq⟩ := List.mem_map.mp hmem
            cases heq
          · obtain rfl : v = ⟨i.id, i.src, a.generation + 1, i.forward,
                .callback s.callbacks.length⟩ := by
              simpa [modify] using hmem
            refine ⟨.callback rfl rfl ⟨script.start, ?_⟩, rfl, rfl⟩
            rw [agenda_plan, List.append_assoc]
            rfl
        · exact absurd hmem hnone
  · exact absurd hmem hnone

theorem launched_invoke {action : ResolvedAction} {later : List ResolvedAction}
    (hnone : .register n v ∉ s.agenda)
    (hmem : .register n v ∈ (s.invoke n snapshot action later).agenda) :
  ∃ i data, action.duty = .start i data ∧ s.isRunning n = true ∧
    Launched n v data s (s.invoke n snapshot action later) ∧ v.id = i.id ∧
    v.generation = s.generation n + 1
  := by
  rw [invoke] at hmem ⊢
  split at hmem
  · next i data hduty =>
    split at hmem
    · exact absurd hmem hnone
    · next hstarts =>
      rw [if_neg hstarts]
      simp only [Bool.or_eq_true, Bool.not_eq_true', not_or, Bool.not_eq_false] at hstarts
      obtain ⟨hlaunched, hid, hgeneration⟩ := launched_startService hnone hmem
      exact ⟨i, data, hduty, hstarts.1.1, hlaunched, hid, hgeneration⟩
  · exact absurd hmem hnone

/-- A service is issued by a running interpreter, with the next generation. -/
theorem Course.launched (h₀ : s₀.Fresh) (h : Course s₀ ms s) (hm : s.Does m)
    (hissues : m.Issues n v) :
  ∃ snapshot action later i data, m.work = .invoke n snapshot action later ∧
    action.duty = .start i data ∧ m.before.isRunning n = true ∧
    Launched n v data m.before m.after ∧ v.id = i.id ∧
    v.generation = m.before.generation n + 1
  := by
  obtain ⟨⟨snapshot, action, later, hwork⟩, hmem⟩ := hissues
  have hduty := hm.duties_eq_cons hwork rfl
  obtain ⟨a, ha⟩ := h.exists_actor h₀ (hm.mem_duties hwork rfl)
  have hstage := (h.orderly h₀ ha).stage
  rw [hduty] at hstage
  have hnone : .register n v ∉ m.before.agenda := by
    intro hpending
    apply hstage.of_invoke.2.1.register_notMem v
    exact List.mem_filter.mpr ⟨hpending, by simp [Work.duty?]⟩
  rw [Moment.after, hwork] at hmem ⊢
  obtain ⟨i, data, hstart, hrunning, hlaunched, hid, hgeneration⟩ := launched_invoke hnone hmem
  exact ⟨snapshot, action, later, i, data, rfl, hstart, hrunning, hlaunched, hid, hgeneration⟩

/-! ### What is kept along a course -/

/-- What holds of a session after some moment, and is kept by every call and by every work, holds
ever after. -/
theorem Course.induction_after {P : List Moment → Session → Prop}
    (hcall : ∀ ys t u, Course s₀ (xs ++ m :: ys) t → P ys t → t.Called u → P ys u)
    (hstep : ∀ ys t y, Course s₀ (xs ++ m :: ys) t → P ys t → t.Does y → P (ys ++ [y]) y.after)
    (h : Course s₀ (xs ++ m :: ys) s) (hfirst : P [] m.after) :
  P ys s
  := by
  obtain ⟨t, hcourse, hdoes, hrest⟩ := h.split
  have hfrom : ∀ {zs u}, Course m.after zs u → Course s₀ (xs ++ m :: zs) u := by
    intro zs u hzs
    have hall := (Course.step hcourse hdoes).trans hzs
    rw [List.append_assoc] at hall
    exact hall
  clear h
  induction hrest with
  | refl => exact hfirst
  | call hzs hcalled ih => exact hcall _ _ _ (hfrom hzs) ih hcalled
  | step hzs hy ih => exact hstep _ _ _ (hfrom hzs) ih hy

/-- A call leaves an interpreter its place and its delayed sends, and unless it is the root, its
machine and the note why it failed to start. -/
theorem Called.exists_kept (h : s.Called t) (ha : s.actor? n = some a) :
  ∃ b, t.actor? n = some b ∧ b.link = a.link ∧ b.timers = a.timers ∧
    (n ≠ root → b.machine = a.machine ∧ b.startFault = a.startFault)
  := by
  have hsame : ∃ b, s.actor? n = some b ∧ b.link = a.link ∧ b.timers = a.timers ∧
      (n ≠ root → b.machine = a.machine ∧ b.startFault = a.startFault) :=
    ⟨a, ha, rfl, rfl, fun _ => ⟨rfl, rfl⟩⟩
  have hmodify : ∀ {k f}, (k = n → (f a).link = a.link ∧ (f a).timers = a.timers ∧
      (n ≠ root → (f a).machine = a.machine ∧ (f a).startFault = a.startFault)) →
      ∃ b, (s.modify k f).actor? n = some b ∧ b.link = a.link ∧ b.timers = a.timers ∧
        (n ≠ root → b.machine = a.machine ∧ b.startFault = a.startFault) := by
    intro k f hf
    rw [actor?_modify]
    split
    · next hk => exact ⟨f a, by rw [ha]; rfl, hf hk⟩
    · exact hsame
  cases h with
  | work h => exact hsame
  | emit h =>
    rw [emitting]
    split <;> exact hsame
  | resume persisted => exact hmodify (fun _ => ⟨rfl, rfl, fun _ => ⟨rfl, rfl⟩⟩)
  | configure settings => exact hmodify (fun hk => ⟨rfl, rfl, fun hn => absurd hk.symm hn⟩)
  | subscribe listener =>
    rw [Session.subscribe]
    split
    · exact hsame
    · have hlisted := hmodify (k := root)
        (f := fun a => { a with listeners := a.listeners.subscribe listener })
        (fun _ => ⟨rfl, rfl, fun _ => ⟨rfl, rfl⟩⟩)
      dsimp only
      split <;> exact hlisted
  | takeFault => exact hmodify (fun hk => ⟨rfl, rfl, fun hn => absurd hk.symm hn⟩)
  | forget => exact hsame

/-- A call makes no interpreters. -/
theorem Called.length (h : s.Called t) :
  t.actors.length = s.actors.length
  := by
  cases h with
  | work h => rfl
  | emit h =>
    rw [emitting]
    split <;> rfl
  | resume persisted => exact List.length_modify ..
  | configure settings => exact List.length_modify ..
  | subscribe listener =>
    rw [Session.subscribe]
    split
    · rfl
    · dsimp only
      split
      · exact List.length_modify ..
      · exact List.length_modify ..
  | takeFault => exact List.length_modify ..
  | forget => rfl

theorem Called.exists_before (h : s.Called t) (hb : t.actor? n = some b) :
  ∃ a, s.actor? n = some a
  := by
  obtain ⟨hn, -⟩ := List.getElem?_eq_some_iff.mp hb
  rw [h.length] at hn
  exact ⟨_, List.getElem?_eq_getElem hn⟩

/-- What is to be done stays so until it is done. -/
theorem Course.exists_agenda (h₀ : s₀.Fresh) (h : Course s₀ ms s) (hm : s.Does m) :
  ∃ ws, m.after.agenda = ws ++ m.before.agenda
  := by
  obtain ⟨hw, hbefore⟩ := hm.unmarked (h.unmarked h₀).1
  obtain ⟨ws, hws, -⟩ := (extends_carryOut hw hbefore.pending).agenda
  exact ⟨ws, hws⟩

/-- An interpreter keeps its place in the one that invoked it. -/
theorem Course.exists_link (h : Course s ms t) (ha : s.actor? n = some a) :
  ∃ b, t.actor? n = some b ∧ b.link = a.link
  := by
  induction h with
  | refl => exact ⟨a, ha, rfl⟩
  | call h hcall ih =>
    obtain ⟨b, hb, hlink⟩ := ih
    obtain ⟨c, hc, hsame, -⟩ := hcall.exists_kept hb
    exact ⟨c, hc, hsame.trans hlink⟩
  | @step ms t m h hm ih =>
    obtain ⟨b, hb, hlink⟩ := ih
    obtain ⟨c, hc, hages⟩ := exists_ages m.before m.work ((hm.actor? n).trans hb)
    exact ⟨c, hc, hages.link.trans hlink⟩

/-! ### The tenure of a service -/

theorem Serves.call (h : s.Serves n v) (hcall : s.Called t) :
  t.Serves n v
  := by
  obtain ⟨a, ha, hrunning, hlookup⟩ := h
  obtain ⟨b, hb, hlike⟩ := (hcall.calm (n := n)).actor a ha
  refine ⟨b, hb, hlike.status.trans hrunning, ?_⟩
  rw [hlike.services]
  exact hlookup

/-- A service that leaves the registry does so by a work that withdraws it. -/
theorem Course.withdraws (h₀ : s₀.Fresh) (h : Course s₀ ms s) (hm : s.Does m)
    (hserves : m.before.Serves n v) (hafter : ¬ m.after.Serves n v) :
  m.work.Withdraws n v.id v.generation
  := by
  obtain ⟨a, ha, hrunning, hlookup⟩ := hserves
  obtain ⟨b, hb, hturn⟩ := h.exists_turn h₀ hm ha
  rcases hturn.keeps_or_withdraws hrunning hlookup with ⟨hrunning', hlookup'⟩ | hwithdraws
  · exact absurd ⟨b, hb, hrunning', hlookup'⟩ hafter
  · exact hwithdraws

/-- What may have become of a service that was issued. -/
inductive Tenure (n : Nat) (v : Service) (ms : List Moment) (s : Session) : Prop where
  | pending (h : .register n v ∈ s.agenda)
  | serving (h : s.Serves n v)
  | past {m : Moment} (hm : m ∈ ms) (h : m.Vacates n v)

/-- A service that was issued is about to be registered or is live, unless it has left the registry,
or was registered too late. -/
theorem Course.tenure (h₀ : s₀.Fresh) (h : Course s₀ (xs ++ m :: ys) s) (hissues : m.Issues n v) :
  Tenure n v ys s
  := by
  refine h.induction_after (P := Tenure n v) ?_ ?_ (.pending hissues.2)
  · intro ys t u hcourse htenure hcall
    cases htenure with
    | pending hmem =>
      obtain ⟨ws, hws, -⟩ := hcall.steady.agenda
      refine .pending ?_
      rw [hws]
      exact List.mem_append_right ws hmem
    | serving hserves => exact .serving (hserves.call hcall)
    | past hz hvacates => exact .past hz hvacates
  · intro ys t y hcourse htenure hdoes
    cases htenure with
    | pending hmem =>
      rw [hdoes.agenda] at hmem
      rcases List.mem_cons.mp hmem with hwork | hmem
      · obtain ⟨a, ha⟩ := hcourse.exists_actor h₀ (hdoes.mem_duties hwork.symm rfl)
        rw [← hdoes.actor?] at ha
        cases hstatus : y.before.isRunning n with
        | true =>
          have hafter : y.after.actor? n = some { a with
              services := Association.insertSorted v.id v a.services } := by
            rw [Moment.after, ← hwork, carryOut, Session.register, actor?_plan, actor?_modify_self,
              ha]
            rfl
          exact .serving ⟨_, hafter, (isRunning_iff ha).mp hstatus,
            Association.lookup_insertSorted_self v.id v a.services⟩
        | false =>
          exact .past (List.mem_append_right ys List.mem_cons_self) (.misses hwork.symm hstatus)
      · obtain ⟨ws, hws⟩ := hcourse.exists_agenda h₀ hdoes
        refine .pending ?_
        rw [hws]
        exact List.mem_append_right ws hmem
    | serving hserves =>
      have hbefore : y.before.Serves n v := by
        obtain ⟨a, ha, hserves⟩ := hserves
        exact ⟨a, (hdoes.actor? n).trans ha, hserves⟩
      by_cases hafter : y.after.Serves n v
      · exact .serving hafter
      · exact .past (List.mem_append_right ys List.mem_cons_self) (.leaves hbefore hafter)
    | past hz hvacates => exact .past (List.mem_append_left _ hz) hvacates

/-- A service that leaves the registry is stopped, or has completed or failed to start; or it is
registered too late. -/
theorem Course.departs (h₀ : s₀.Fresh) (h : Course s₀ ms s) (hm : s.Does m)
    (hvacates : m.Vacates n v) :
  m.Departs n v
  := by
  cases hvacates with
  | misses hwork hstatus => exact .missed hwork hstatus
  | leaves hserves hafter =>
    have hwithdraws := h.withdraws h₀ hm hserves hafter
    obtain ⟨a, ha, hrunning, hlookup⟩ := id hserves
    generalize hwork : m.work = w at hwithdraws
    cases hwithdraws with
    | stop => exact .stopped hwork hserves
    | perform hduty =>
      refine .performed hwork hduty ?_
      rw [Moment.after, hwork, carryOut, perform_stop ha hrunning hduty hlookup]
      rfl
    | @handle e horigin hcompletes =>
      refine .reported ⟨e.event, ⟨?_, ?_⟩, hcompletes⟩
      · rw [hwork, ← horigin]
      · have hlive : (m.before.actor? n).any (fun a => a.isLive v.id v.generation) = true := by
          rw [ha, Option.any_some, Actor.isLive, hlookup, Option.any_some, beq_self_eq_true]
        rw [Moment.after, hwork, carryOut, handle, (isRunning_iff ha).mpr hrunning, horigin]
        dsimp only
        rw [if_pos hlive]
        exact List.mem_cons_self
    | @register u hid =>
      refine .displaced hwork hid ?_
      rw [Moment.after, hwork]
      rw [← hid] at hlookup
      exact agenda_register ha hlookup
    | @confirmStart c =>
      have hregistered := (h.registered h₀ ((hm.actor? n).symm.trans ha)).2
      have hbacking := (hregistered.confirming c v.id v.generation
        (hm.mem_duties hwork rfl)).1 _ (Association.mem_of_lookup hlookup) rfl
      cases hfault : (m.before.actor? c).bind Actor.startFault with
      | none =>
        have hsame : m.after = m.before := by
          rw [Moment.after, hwork, carryOut, Session.confirmStart, hfault]
        rw [hsame] at hafter
        exact absurd hserves hafter
      | some fault =>
        obtain ⟨b, hb, hsome⟩ := Option.bind_eq_some_iff.mp hfault
        refine .retracted hwork hbacking hb ?_
        rw [hsome]
        exact Option.some_ne_none fault

end Session

end Statechart
