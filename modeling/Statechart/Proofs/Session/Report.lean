import Statechart.Proofs.Machine.Cancellation
import Statechart.Proofs.Session.Confirmation
import Statechart.Proofs.Session.Halt

/-!
# Reports of invoked interpreters

An invoked interpreter that is done posts the event of its completion to the interpreter that
invoked it, and the failure of its start is queued there when the start is confirmed.  As long as
the invocation is neither stopped nor started once more, its service stays live until such an event
comes in (`Course.stays`), and exactly one is handed to a macrostep (`Course.reported_once`).
-/

namespace Statechart

open Session (committed)

variable {n c : Nat} {a b : Actor} {w : Work} {ds es : List Work} {ms xs ys us vs : List Moment}
  {m x y z : Moment} {u v : Service} {id : String} {generation : Nat} {snapshot : Snapshot}
  {action : ResolvedAction} {i : Invocation}

/-- Whether a running interpreter shows a snapshot at a moment that is done. -/
def Moment.Completes (c : Nat) (m : Moment) : Prop :=
  ∃ snapshot, m.work = .publish c snapshot ∧ snapshot.done = true ∧ m.before.isRunning c = true

/-- Whether an interpreter runs from the start of the invocation of a machine on until nothing is
left to be done, and the invocation is neither stopped nor started once more: its owner is not
exited, and nothing else asks for its stop. -/
structure Attends (n c : Nat) (v : Service) (x : Moment) (ys : List Moment) (s : Session) :
    Prop where
  issues : x.Issues n v
  backing : v.backing = .machine c
  agenda : s.agenda = []
  running : s.isRunning n = true
  present : ∀ y ∈ ys, y.before.isPresent n = true
  owner : ∀ y ∈ ys, ¬ y.ExitsOwner n v.id
  sole : ∀ y ∈ ys, ∀ u, y.Issues n u → u.id ≠ v.id
  reserves : ∀ a i, x.before.actor? n = some a → a.machine.chart.invocation? v.id = some i →
    a.machine.chart.reserves i = true

/-! ### Actions to be carried out -/

theorem Starting.perform_notMem (h : Starting n snapshot ds) (s : Snapshot)
    (action : ResolvedAction) :
  .perform n s action ∉ ds
  := by
  induction h with
  | publish => simp
  | invoke _ _ ih => simpa using ih

/-- Actions are to be carried out after a new snapshot is stored. -/
theorem Turn.of_perform_mem (h : Turn n w a ds b es) (hmem : .perform n snapshot action ∈ es) :
  .perform n snapshot action ∈ ds ∨ (∃ e, w = .handle n e ∧ e.origin = .start) ∨
    ∃ s event, w = .react n s event ∧ a.machine.transition s event = .ok snapshot ∧
      action ∈ snapshot.actions
  := by
  have hcons : ∀ {x : Work} {ds : List Work}, Work.perform n snapshot action ∈ x :: ds →
      .perform n snapshot action ≠ x → .perform n snapshot action ∈ ds :=
    fun hmem hx => (List.mem_cons.mp hmem).resolve_left hx
  have hcommitted : ∀ {next}, .perform n snapshot action ∈ committed n next →
      next = snapshot ∧ action ∈ snapshot.actions := by
    intro next hmem
    rw [committed, List.mem_append, List.mem_append] at hmem
    rcases hmem with (hmem | hmem) | hmem
    · obtain ⟨action', haction, heq⟩ := List.mem_map.mp hmem
      obtain ⟨-, rfl, rfl⟩ := Work.perform.inj heq
      exact ⟨rfl, haction⟩
    · obtain ⟨_, _, heq, -⟩ := Session.duty?_of_mem_invocations hmem
      cases heq
    · cases List.mem_singleton.mp hmem
  cases h with
  | calm => exact Or.inl hmem
  | wake => exact Or.inl (hcons hmem Work.noConfusion)
  | start =>
    left
    split at hmem
    · exact hmem
    · exact hcons hmem Work.noConfusion
  | stop => exact Or.inl hmem
  | release => exact Or.inl hmem
  | rest => exact Or.inl (List.mem_cons_of_mem _ hmem)
  | take => exact Or.inl (hcons hmem Work.noConfusion)
  | idle => exact Or.inl (List.mem_cons_of_mem _ hmem)
  | @boot _ _ _ e _ _ hstart => exact Or.inr (Or.inl ⟨e, rfl, hstart⟩)
  | unbooted => exact Or.inl (List.mem_cons_of_mem _ (hcons hmem Work.noConfusion))
  | accept => exact Or.inl (List.mem_cons_of_mem _ (hcons hmem Work.noConfusion))
  | forward => exact Or.inl (List.mem_cons_of_mem _ (hcons hmem Work.noConfusion))
  | @move _ _ s event next hnext =>
    rcases List.mem_append.mp hmem with hmem | hmem
    · obtain ⟨rfl, haction⟩ := hcommitted hmem
      exact Or.inr (Or.inr ⟨s, event, rfl, hnext, haction⟩)
    · exact Or.inl (List.mem_cons_of_mem _ hmem)
  | remove => exact Or.inl (List.mem_cons_of_mem _ hmem)
  | refuse => exact Or.inl (List.mem_cons_of_mem _ hmem)
  | issue _ _ _ _ _ hissued _ =>
    left
    refine List.mem_cons_of_mem _ ((List.mem_append.mp hmem).resolve_left (fun hmem => ?_))
    cases hissued <;> simp at hmem
  | register => exact Or.inl (List.mem_cons_of_mem _ hmem)
  | retract => exact Or.inl (List.mem_cons_of_mem _ hmem)

namespace Session

variable {s s₀ t : Session}

/-! ### What an interpreter keeps -/

/-- An interpreter that has got a snapshot always has one. -/
theorem state_ne_none_of_turn (hturn : Turn n w a ds b es) (hstate : a.state ≠ none) :
  b.state ≠ none
  := by
  rcases hturn.state with hsame | ⟨-, e, rfl, -⟩ | ⟨_, _, next, -, -, rfl⟩
  · rw [hsame]
    exact hstate
  · cases hturn with
    | calm hother => exact absurd rfl hother
    | wake hother => exact absurd rfl hother
    | idle _ hlike =>
      rw [hlike.state]
      exact hstate
    | boot _ _ _ hlike =>
      rw [hlike.state]
      exact Option.some_ne_none _
    | unbooted _ _ hlike =>
      rw [hlike.state]
      exact hstate
    | accept _ _ _ hlike =>
      obtain ⟨services, -, heq⟩ := a.exists_admitting e
      rw [heq] at hlike
      rw [hlike.state]
      exact hstate
  · exact Option.some_ne_none next

theorem Course.state_since (h₀ : s₀.Fresh) (h : Course s₀ (xs ++ m :: ys) s)
    (hb : m.after.actor? n = some b) (hstate : b.state ≠ none) (ha : s.actor? n = some a) :
  a.state ≠ none
  := by
  refine h.induction_since (P := fun _ a _ => a.state ≠ none) ?_ ?_ h₀ hb hstate ha
  · intro _ a b _ hstate hlike
    rw [hlike.state]
    exact hstate
  · exact fun _ _ _ _ _ _ _ hstate _ _ hturn => state_ne_none_of_turn hturn hstate

/-- A generation that is over at some moment is over ever after, and no event of it that completes
the service is handed on. -/
theorem Course.not_reports (h₀ : s₀.Fresh) (h : Course s₀ (xs ++ m :: ys) s)
    (hb : m.after.actor? n = some b) (hover : b.Over n v.id v.generation (m.after.duties n))
    (hz : z ∈ ys) :
  ¬ z.Reports n v
  := by
  rintro ⟨event, hhands, -⟩
  obtain ⟨us, vs, rfl⟩ := List.append_of_mem hz
  rw [← List.cons_append, ← List.append_assoc] at h
  obtain ⟨t, hcourse, hdoes, -⟩ := h.split
  obtain ⟨a, ha⟩ := hcourse.exists_actor h₀ (hdoes.mem_duties hhands.1 rfl)
  have hdead := hcourse.induction_since (P := fun _ a ds => a.Over n v.id v.generation ds)
    (fun _ _ _ _ hover hlike => hover.like hlike)
    (fun _ _ _ _ _ hcourse _ hover ha _ hturn => hover.turn (hcourse.orderly h₀ ha) hturn)
    h₀ hb hover ha
  obtain ⟨c, -, hturn⟩ := hcourse.exists_turn h₀ hdoes ((hdoes.actor? n).trans ha)
  obtain ⟨-, -, -, hlive⟩ := hhands.accepts (hcourse.orderly h₀ ha) hturn
  have hlive := hlive v.id v.generation rfl
  rw [hdead.dead] at hlive
  cases hlive

/-- The event that completes a service ends its generation. -/
theorem Course.over_of_reports (h₀ : s₀.Fresh) (h : Course s₀ ms s) (hm : s.Does m)
    (hreports : m.Reports n v) :
  ∃ b, m.after.actor? n = some b ∧ b.Over n v.id v.generation (m.after.duties n)
  := by
  obtain ⟨event, hhands, hcompletes⟩ := hreports
  obtain ⟨a, ht⟩ := h.exists_actor h₀ (hm.mem_duties hhands.1 rfl)
  have ha := (hm.actor? n).trans ht
  obtain ⟨b, hb, hturn⟩ := h.exists_turn h₀ hm ha
  have horderly := h.orderly h₀ ht
  obtain ⟨hlive, hdead⟩ := removes_of_hands hhands horderly ha hb hturn rfl hcompletes
  rw [isLive, ha] at hlive
  rw [isLive, hb] at hdead
  exact ⟨b, hb, (h.registered h₀ ht).2.over horderly hturn hlive hdead⟩

/-- At most one event that completes a service is handed on. -/
theorem Course.reports_once (h₀ : s₀.Fresh) (h : Course s₀ (xs ++ x :: (us ++ y :: vs)) s)
    (hreports : y.Reports n v) :
  ∀ z ∈ us ++ vs, ¬ z.Reports n v
  := by
  rw [← List.cons_append, ← List.append_assoc] at h
  have hlater : ∀ {zs m ws}, Course s₀ (zs ++ m :: ws) s → m.Reports n v →
      ∀ z ∈ ws, ¬ z.Reports n v := by
    intro zs m ws h hreports z hz
    obtain ⟨t, hcourse, hdoes, -⟩ := h.split
    obtain ⟨b, hb, hover⟩ := hcourse.over_of_reports h₀ hdoes hreports
    exact h.not_reports h₀ hb hover hz
  refine List.forall_mem_append.mpr ⟨?_, hlater h hreports⟩
  intro z hz hfirst
  obtain ⟨us₁, us₂, rfl⟩ := List.append_of_mem hz
  rw [← List.cons_append, ← List.append_assoc, List.append_assoc] at h
  exact hlater h hfirst y (List.mem_append_right _ List.mem_cons_self) hreports

/-! ### Services that stay live -/

/-- After the start of an invocation its stop is to be carried out only if its owner is exited. -/
theorem Course.exits_of_stop (h₀ : s₀.Fresh) (h : Course s₀ (xs ++ x :: ys) s)
    (hissues : x.Issues n v) (hbacking : v.backing = .machine c)
    (hreserves : ∀ a i, x.before.actor? n = some a →
      a.machine.chart.invocation? v.id = some i → a.machine.chart.reserves i = true)
    (ha : s.actor? n = some a) (hmem : .perform n snapshot action ∈ s.duties n)
    (hduty : action.duty = .stop v.id) :
  ∃ y ∈ ys, y.ExitsOwner n v.id
  := by
  obtain ⟨t₀, hcourse₀, hdoes₀, -⟩ := h.split
  obtain ⟨hlt, -, -, hplanned⟩ := hcourse₀.launched_machine h₀ hdoes₀ hissues hbacking
  obtain ⟨current, start, later, i, data, hwork, hstart, -, -, hid, -⟩ :=
    hcourse₀.launched h₀ hdoes₀ hissues
  obtain ⟨a₀, ht₀⟩ := hcourse₀.exists_actor h₀ (hdoes₀.mem_duties hwork rfl)
  have horderly := hcourse₀.orderly h₀ ht₀
  have hstage := horderly.stage
  rw [hdoes₀.duties_eq_cons hwork rfl] at hstage
  obtain ⟨hstate, hstarting, hlater⟩ := hstage.of_invoke
  have hi : a₀.machine.chart.invocation? v.id = some i := by
    rw [hid]
    exact horderly.sound current hstate start (hlater.subset List.mem_cons_self) i data hstart
  have ha₀ := (hdoes₀.actor? n).trans ht₀
  have hreserves := hreserves a₀ i ha₀ hi
  have howner : i.id = v.id := hid.symm
  obtain ⟨b, hb, hages⟩ := exists_ages x.before x.work ha₀
  obtain ⟨b', hb', hturn⟩ := hcourse₀.exists_turn h₀ hdoes₀ ha₀
  rw [Moment.after, hb, Option.some.injEq] at hb'
  subst hb'
  have hfirst : ∀ snapshot action, .perform n snapshot action ∉ x.after.duties n := by
    intro snapshot action hmem
    have hmem := mem_agenda_of_mem_duties hmem
    rw [hplanned] at hmem
    simp only [List.mem_cons, reduceCtorEq, false_or] at hmem
    exact hstarting.perform_notMem _ _ (mem_duties_of_mem rfl hmem)
  refine (h.induction_since (P := fun ys a ds =>
    a.machine.chart = a₀.machine.chart ∧ a.state ≠ none ∧ ∀ snapshot action,
      .perform n snapshot action ∈ ds → action.duty = .stop v.id →
      ∃ y ∈ ys, y.ExitsOwner n v.id) ?_ ?_ h₀ hb ?_ ha).2.2 snapshot action hmem hduty
  · rintro ys a b ds ⟨hchart, hstate, hstops⟩ hlike
    rw [hlike.chart, hlike.state]
    exact ⟨hchart, hstate, hstops⟩
  · rintro ys t y a b hcourse hdoes ⟨hchart, hstate, hstops⟩ ha hb hturn
    have hbefore := (hdoes.actor? n).trans ha
    obtain ⟨b', hb', hages⟩ := exists_ages y.before y.work hbefore
    rw [← Moment.after, hb, Option.some.injEq] at hb'
    subst hb'
    refine ⟨?_, state_ne_none_of_turn hturn hstate, ?_⟩
    · rw [hages.machine]
      exact hchart
    intro snapshot action hmem hduty
    rcases hturn.of_perform_mem hmem with hmem | ⟨e, hhandle, hmarked⟩ |
        ⟨current, event, hreact, hnext, haction⟩
    · obtain ⟨z, hz, hexits⟩ := hstops snapshot action hmem hduty
      exact ⟨z, List.mem_append_left _ hz, hexits⟩
    · refine absurd ((hcourse.orderly h₀ ha).marked e ?_ hmarked) hstate
      rw [hdoes.duties_eq_cons hhandle rfl, backlog_cons]
      exact List.mem_append_left _ List.mem_cons_self
    · obtain ⟨steps, hmoves⟩ := Machine.exists_moves hnext
      rw [← hchart] at hi hreserves
      rw [← howner] at hduty
      exact ⟨y, List.mem_append_right ys List.mem_cons_self, a, i, current, event, snapshot, steps,
        hreact, hbefore, hi, hnext, hmoves, hmoves.exits_of_stop hreserves haction hduty⟩
  · refine ⟨congrArg Machine.chart hages.machine, ?_, ?_⟩
    · apply state_ne_none_of_turn hturn
      rw [hstate]
      exact Option.some_ne_none current
    · exact fun snapshot action hmem _ => absurd hmem (hfirst snapshot action)

/-- After the start of an invocation only its own service is registered, and those that are issued
later. -/
theorem Course.eq_or_issues (h₀ : s₀.Fresh) (h : Course s₀ (xs ++ x :: ys) s)
    (hissues : x.Issues n v) (hbacking : v.backing = .machine c)
    (hmem : .register n u ∈ s.agenda) :
  u = v ∨ ∃ y ∈ ys, y.Issues n u
  := by
  obtain ⟨t₀, hcourse₀, hdoes₀, -⟩ := h.split
  obtain ⟨-, -, -, hplanned⟩ := hcourse₀.launched_machine h₀ hdoes₀ hissues hbacking
  refine h.induction_after (P := fun ys t => .register n u ∈ t.agenda →
    u = v ∨ ∃ y ∈ ys, y.Issues n u) ?_ ?_ ?_ hmem
  · intro ys t t' _ ih hcall hmem
    obtain ⟨ws, hws, hnew⟩ := (hcall.calm (n := n)).agenda
    have hold : .register n u ∉ ws := fun hmem => (hnew _ hmem).2 rfl
    rw [hws] at hmem
    exact ih ((List.mem_append.mp hmem).resolve_left hold)
  · intro ys t y hcourse ih hdoes hmem
    rcases hcourse.of_registers_mem h₀ hdoes hmem rfl rfl with hmem | ⟨w, ws, hlater, hissued, hx⟩
    · rcases ih hmem with rfl | ⟨z, hz, hlater⟩
      · exact Or.inl rfl
      · exact Or.inr ⟨z, List.mem_append_left _ hz, hlater⟩
    · obtain rfl : u = w := by
        cases hissued with
        | plain => simpa using hx
        | machine => simpa using hx
      exact Or.inr ⟨y, List.mem_append_right ys List.mem_cons_self, hlater⟩
  · intro hmem
    left
    rw [hplanned] at hmem
    simp only [List.mem_cons, Work.register.injEq, true_and, reduceCtorEq, false_or] at hmem
    refine hmem.resolve_right (fun hmem => ?_)
    obtain ⟨⟨_, _, _, hwork⟩, -⟩ := hissues
    obtain ⟨a, ha⟩ := hcourse₀.exists_actor h₀ (hdoes₀.mem_duties hwork rfl)
    have hstage := (hcourse₀.orderly h₀ ha).stage
    rw [hdoes₀.duties_eq_cons hwork rfl] at hstage
    exact hstage.of_invoke.2.1.register_notMem u (mem_duties_of_mem rfl hmem)

/-- The service of an invoked interpreter stays live until an event that completes it is handed on,
as long as the invocation is neither stopped nor started once more, and its start does not fail. -/
theorem Course.stays (h₀ : s₀.Fresh) (h : Course s₀ (xs ++ x :: ys) s)
    (hissues : x.Issues n v) (hbacking : v.backing = .machine c) (hrunning : s.isRunning n = true)
    (howner : ∀ y ∈ ys, ¬ y.ExitsOwner n v.id)
    (hsole : ∀ y ∈ ys, ∀ u, y.Issues n u → u.id ≠ v.id)
    (hreserves : ∀ a i, x.before.actor? n = some a →
      a.machine.chart.invocation? v.id = some i → a.machine.chart.reserves i = true)
    (hstarts : ∀ y ∈ ys, y.work = .confirmStart n c v.id v.generation →
      (y.before.actor? c).bind Actor.startFault = none) :
  .register n v ∈ s.agenda ∨ s.Serves n v ∨ ∃ y ∈ ys, y.Reports n v
  := by
  cases h.tenure h₀ hissues with
  | pending hmem => exact Or.inl hmem
  | serving hserves => exact Or.inr (Or.inl hserves)
  | @past z hz hvacates =>
    obtain ⟨us, vs, rfl⟩ := List.append_of_mem hz
    have hall := h
    rw [← List.cons_append, ← List.append_assoc] at hall
    obtain ⟨t, hcourse, hdoes, -⟩ := hall.split
    have hearlier : ∀ {P : Moment → Prop}, (∀ y ∈ us ++ z :: vs, ¬ P y) → ¬ ∃ y ∈ us, P y := by
      rintro P hnone ⟨y, hy, hP⟩
      exact hnone y (List.mem_append_left _ hy) hP
    cases hvacates with
    | misses hwork hstatus =>
      obtain ⟨a, ha, hactive⟩ := hall.running_of_duty h₀ (by rw [hwork]; rfl) hrunning
      rw [(isRunning_iff ha).mpr hactive] at hstatus
      cases hstatus
    | leaves hserves hafter =>
    obtain ⟨a, ha, hactive, hlookup⟩ := id hserves
    cases hcourse.departs h₀ hdoes (.leaves hserves hafter) with
    | reported hreports => exact Or.inr (Or.inr ⟨z, hz, hreports⟩)
    | stopped hwork =>
      exfalso
      obtain ⟨b, hb, hstopped⟩ := exists_stopped ha
      obtain ⟨d, hn, hactive⟩ := exists_of_isRunning hrunning
      have hstopped := hall.stopped_after h₀ (by rw [Moment.after, hwork]; exact hb) hstopped hn
      cases hactive.symm.trans hstopped
    | performed hwork hduty =>
      exfalso
      have hstops := hcourse.exits_of_stop h₀ hissues hbacking hreserves
        ((hdoes.actor? n).symm.trans ha) (hdoes.mem_duties hwork rfl) hduty
      obtain ⟨y, hy, hexits⟩ := hstops
      exact howner y (List.mem_append_left _ hy) hexits
    | @displaced u hwork hid =>
      exfalso
      have hmem : .register n u ∈ t.agenda := by
        rw [hdoes.agenda, hwork]
        exact List.mem_cons_self
      rcases hcourse.eq_or_issues h₀ hissues hbacking hmem with rfl | ⟨y, hy, hlater⟩
      · have hregistered : z.after.actor? n = some { a with
            services := Association.insertSorted u.id u a.services } := by
          rw [Moment.after, hwork, carryOut, Session.register, actor?_plan, actor?_modify_self, ha]
          rfl
        exact hafter ⟨_, hregistered, hactive, Association.lookup_insertSorted_self _ _ _⟩
      · exact hsole y (List.mem_append_left _ hy) u hlater hid
    | retracted hwork hbacking' hb hfault =>
      exfalso
      rw [hbacking, Backing.machine.injEq] at hbacking'
      subst hbacking'
      have hnone := hstarts z hz hwork
      rw [hb] at hnone
      exact hfault hnone
    | missed _ hstatus =>
      rw [(isRunning_iff ha).mpr hactive] at hstatus
      cases hstatus

/-! ### Completions and failures -/

/-- An invoked interpreter that is done posts the event of its completion. -/
theorem exists_post_of_completes (h : m.Completes c) (hb : m.before.actor? c = some b)
    (hlink : b.link = some ⟨n, id, generation⟩) :
  ∃ data, .post n ⟨.invocationDone id data, .service id generation⟩ ∈ m.after.agenda
  := by
  obtain ⟨snapshot, hwork, hdone, hrunning⟩ := h
  rw [Moment.after, hwork, carryOut, publish, hb]
  dsimp only
  rw [if_neg (by simpa using (isRunning_iff hb).mp hrunning), hdone, hlink]
  exact ⟨_, List.mem_cons_self⟩

theorem ne_none_of_publish {state : Option Snapshot}
    (h : Stage n state (.publish n snapshot :: ds)) :
  state ≠ none
  := by
  cases h with
  | performing h => exact Option.some_ne_none _

/-- An interpreter that shows a snapshot at some moment has not failed to start. -/
theorem Course.not_retracted (h₀ : s₀.Fresh) (h : Course s₀ ms s) (hc : c ≠ root) (hm : m ∈ ms)
    (hcompletes : m.Completes c) (hz : z ∈ ms) (hwork : z.work = .confirmStart n c id generation) :
  (z.before.actor? c).bind Actor.startFault = none
  := by
  obtain ⟨snapshot, hpublish, -, hrunning⟩ := hcompletes
  obtain ⟨l, r, rfl⟩ := List.append_of_mem hz
  obtain ⟨t, hcourse, hdoes, -⟩ := h.split
  by_contra hne
  obtain ⟨fault, hfault⟩ := Option.ne_none_iff_exists'.mp hne
  obtain ⟨b, hb, hnoted⟩ := Option.bind_eq_some_iff.mp hfault
  have ht := (hdoes.actor? c).symm.trans hb
  obtain ⟨hstopped, hstate⟩ := (hcourse.unbooted h₀ hc ht).noted
    (by rw [hnoted]; exact Option.some_ne_none fault)
  rcases List.mem_append.mp hm with hm | hm
  · -- it has got a snapshot before, and always has one
    obtain ⟨us, vs, rfl⟩ := List.append_of_mem hm
    obtain ⟨u, hearlier, hshows, -⟩ := hcourse.split
    obtain ⟨a, ha⟩ := hearlier.exists_actor h₀ (hshows.mem_duties hpublish rfl)
    have hstage := (hearlier.orderly h₀ ha).stage
    rw [hshows.duties_eq_cons hpublish rfl] at hstage
    obtain ⟨d, hd, hturn⟩ := hearlier.exists_turn h₀ hshows ((hshows.actor? c).trans ha)
    exact hcourse.state_since h₀ hd (state_ne_none_of_turn hturn (ne_none_of_publish hstage)) ht
      hstate
  · rcases List.mem_cons.mp hm with rfl | hm
    · rw [hwork] at hpublish
      cases hpublish
    · -- it is stopped, and stays so
      obtain ⟨us, vs, rfl⟩ := List.append_of_mem hm
      rw [← List.cons_append, ← List.append_assoc] at h
      obtain ⟨u, hlater, hshows, -⟩ := h.split
      obtain ⟨d, hd, hturn⟩ := hcourse.exists_turn h₀ hdoes hb
      obtain ⟨a, ha⟩ := hlater.exists_actor h₀ (hshows.mem_duties hpublish rfl)
      have hstays := hlater.stopped_after h₀ hd (hturn.stopped hstopped) ha
      rw [(isRunning_iff ((hshows.actor? c).trans ha)).mp hrunning] at hstays
      cases hstays

/-- The event of a completion is handed on while the service is live. -/
theorem reports_of_serves {data : Json}
    (hy : y.work = .handle n ⟨.invocationDone v.id data, .service v.id v.generation⟩)
    (hserves : y.before.Serves n v) :
  y.Reports n v
  := by
  obtain ⟨a, ha, hrunning, hlookup⟩ := hserves
  have hlive : (y.before.actor? n).any (fun a => a.isLive v.id v.generation) = true := by
    rw [ha, Option.any_some, Actor.isLive, hlookup, Option.any_some, beq_self_eq_true]
  refine ⟨_, ⟨hy, ?_⟩, ?_⟩
  · rw [Moment.after, hy, carryOut, handle, (isRunning_iff ha).mpr hrunning]
    dsimp only
    rw [if_pos hlive]
    exact List.mem_cons_self
  · rw [completes]
    exact Bool.or_eq_true_iff.mpr (Or.inl (beq_self_eq_true _))

/-- A service that was issued has a generation that its interpreter has reached. -/
theorem Course.generation_le (h₀ : s₀.Fresh) (h : Course s₀ (xs ++ x :: ys) s)
    (hissues : x.Issues n v) (ha : s.actor? n = some a) :
  v.generation ≤ a.generation
  := by
  obtain ⟨t, hcourse, hdoes, -⟩ := h.split
  have hafter := Course.step hcourse hdoes
  have hmem := mem_duties_of_mem (n := n) rfl hissues.2
  obtain ⟨b, hb⟩ := hafter.exists_actor h₀ hmem
  refine h.induction_since (P := fun _ a _ => v.generation ≤ a.generation) ?_ ?_ h₀ hb ?_ ha
  · intro _ a b _ hle hlike
    rw [hlike.generation]
    exact hle
  · intro _ _ _ a b _ _ hle _ _ hturn
    rcases hturn.generation with hsame | ⟨hnext, -⟩ <;> omega
  · exact ((hafter.registered h₀ hb).2.pending v hmem).2.2.1.le

/-- The failure of the start of an invoked interpreter ends the generation of its service. -/
theorem Course.over_of_failedStart (h₀ : s₀.Fresh) (h : Course s₀ ms s) (hm : s.Does m)
    (hwork : m.work = .confirmStart n c id generation) {fault : Fault}
    (hfault : (m.before.actor? c).bind Actor.startFault = some fault)
    (ha : m.before.actor? n = some a) (hbounded : generation ≤ a.generation) :
  ∃ b, m.after.actor? n = some b ∧ b.Over n id generation (m.after.duties n)
  := by
  have hstage := (h.orderly h₀ ((hm.actor? n).symm.trans ha)).stage
  rw [hm.duties_eq_cons hwork rfl] at hstage
  obtain ⟨snapshot, -, hstarting⟩ := hstage.of_confirmStart
  obtain ⟨d, hd, hsame⟩ : ∃ d,
      (m.before.modify c (fun a => { a with startFault := none })).actor? n = some d ∧
        d.generation = a.generation := by
    rw [actor?_modify, ha]
    split
    · exact ⟨_, rfl, rfl⟩
    · exact ⟨_, rfl, rfl⟩
  obtain ⟨services, -, hwithout⟩ := d.exists_without id generation
  have hafter : m.after.actor? n = some { d.without id generation with
      mailbox := (d.without id generation).mailbox.push (.external (.invocationFailed id
        (reasonData ("core error: " ++ fault.message)))) } := by
    rw [Moment.after, hwork, carryOut, confirmStart, hfault]
    dsimp only
    rw [startFailed, queue, actor?_modify_self, actor?_removeGeneration hd]
    rfl
  have hduties : m.after.duties n = m.before.duties n := by
    rw [Moment.after, hwork, carryOut, confirmStart, hfault]
    rfl
  refine ⟨_, hafter, ?_, ?_, ?_⟩
  · rw [hwithout]
    dsimp only
    rw [hsame]
    exact hbounded
  · exact d.isLive_without_self id generation
  · rw [hduties]
    exact fun service hmem => absurd hmem (hstarting.register_notMem service)

/-- An invoked interpreter that is done reports this, as long as the invocation is neither stopped
nor started once more. -/
theorem Course.reports (h₀ : s₀.Fresh) (h : Course s₀ (xs ++ x :: ys) s)
    (hattends : Attends n c v x ys s) (hm : m ∈ ys) (hcompletes : m.Completes c) :
  ∃ y ∈ ys, y.Reports n v
  := by
  obtain ⟨hissues, hbacking, hend, hrunning, hpresent, howner, hsole, hreserves⟩ := hattends
  obtain ⟨t₀, hcourse₀, hdoes₀, -⟩ := h.split
  obtain ⟨hlt, -, ⟨b, hb, hlink⟩, -⟩ := hcourse₀.launched_machine h₀ hdoes₀ hissues hbacking
  have hstarts : ∀ y ∈ ys, y.work = .confirmStart n c v.id v.generation →
      (y.before.actor? c).bind Actor.startFault = none := by
    intro y hy hwork
    exact h.not_retracted h₀ (Nat.ne_of_gt ((Nat.zero_le n).trans_lt hlt))
      (List.mem_append_right _ (List.mem_cons_of_mem _ hm)) hcompletes
      (List.mem_append_right _ (List.mem_cons_of_mem _ hy)) hwork
  obtain ⟨us, vs, rfl⟩ := List.append_of_mem hm
  have hall := h
  rw [← List.cons_append, ← List.append_assoc] at hall
  obtain ⟨t, hcourse, hdoes, -⟩ := hall.split
  -- the event is posted to the interpreter that is running
  obtain ⟨_, _, -, hrest⟩ := hcourse.split
  obtain ⟨d, hd, hplace⟩ := hrest.exists_link hb
  obtain ⟨data, hpost⟩ :=
    exists_post_of_completes hcompletes ((hdoes.actor? c).trans hd) (hplace.trans hlink)
  obtain ⟨a, ha, hstarted⟩ : ∃ a, m.after.actor? n = some a ∧ a.status ≠ .notStarted := by
    obtain ⟨_, _, _, _, _, hwork, -, hactive, -⟩ := hcourse₀.launched h₀ hdoes₀ hissues
    obtain ⟨a, ha⟩ := hcourse₀.exists_actor h₀ (hdoes₀.mem_duties hwork rfl)
    have ha := (hdoes₀.actor? n).trans ha
    obtain ⟨a', ha', hturn⟩ := hcourse₀.exists_turn h₀ hdoes₀ ha
    have hafter := Course.step hcourse hdoes
    rw [List.append_assoc] at hafter
    refine hafter.started_since h₀ ha' (hturn.started ?_)
    rw [(isRunning_iff ha).mp hactive]
    exact Status.noConfusion
  obtain ⟨us', y, vs', rfl, hwork⟩ := hall.delivered h₀ hpost ha hstarted
    (fun y hy => hpresent y (List.mem_append_right _ (List.mem_cons_of_mem _ hy))) hrunning hend
  -- the service is still live when the event is handled, or has been reported before
  rw [← List.cons_append, ← List.append_assoc] at hall
  obtain ⟨t', hcourse', hdoes', -⟩ := hall.split
  obtain ⟨a', ha', hactive⟩ := hall.running_of_duty h₀ (by rw [hwork]; rfl) hrunning
  have ht' := (hdoes'.actor? n).symm.trans ha'
  have hstage := (hcourse'.orderly h₀ ht').stage
  have hmem : ∀ {z}, z ∈ us ++ m :: us' → z ∈ us ++ m :: (us' ++ y :: vs') := by
    intro z hz
    rw [← List.cons_append, ← List.append_assoc]
    exact List.mem_append_left _ hz
  rw [List.append_assoc, List.cons_append] at hcourse'
  rcases hcourse'.stays h₀ hissues hbacking ((isRunning_iff ht').mpr hactive)
      (fun z hz => howner z (hmem hz)) (fun z hz => hsole z (hmem hz)) hreserves
      (fun z hz => hstarts z (hmem hz)) with hregister | ⟨d', hd', hserves⟩ | ⟨z, hz, hreports⟩
  · rw [hdoes'.duties_eq_cons hwork rfl] at hstage
    have hregister := mem_duties_of_mem (n := n) rfl hregister
    rw [hdoes'.duties_eq_cons hwork rfl, hstage.of_handle] at hregister
    simp at hregister
  · exact ⟨y, by simp, reports_of_serves hwork ⟨d', (hdoes'.actor? n).trans hd', hserves⟩⟩
  · exact ⟨z, hmem hz, hreports⟩

/-- The event of the failure of a start, with the fault behind it. -/
def startFailure (id : String) (fault : Fault) : Event :=
  .invocationFailed id (reasonData ("core error: " ++ fault.message))

/-- No start of an interpreter is to be confirmed any more, once none is while it is there. -/
theorem Course.unconfirmed (h₀ : s₀.Fresh) (h : Course s₀ (xs ++ m :: ys) s)
    (hb : m.after.actor? c = some b)
    (hnone : ∀ k id generation, .confirmStart k c id generation ∉ m.after.agenda) :
  ∀ k id generation, .confirmStart k c id generation ∉ s.agenda
  := by
  refine h.induction_after (P := fun _ t =>
    ∀ k id generation, .confirmStart k c id generation ∉ t.agenda) ?_ ?_ hnone
  · intro ys t u _ ih hcall k id generation hmem
    obtain ⟨ws, hws, hnew⟩ := (hcall.calm (n := k)).agenda
    have hold : .confirmStart k c id generation ∉ ws := fun hmem => (hnew _ hmem).2 rfl
    rw [hws] at hmem
    exact ih k id generation ((List.mem_append.mp hmem).resolve_left hold)
  · intro ys t y hcourse ih hdoes k id generation hmem
    rcases hcourse.of_registers_mem h₀ hdoes hmem rfl rfl with hmem | ⟨u, ws, hlater, hissued, hx⟩
    · exact ih k id generation hmem
    · cases hissued with
      | plain => simp at hx
      | @machine child hbacking =>
        obtain ⟨rfl, -, -⟩ : c = child ∧ id = u.id ∧ generation = u.generation := by simpa using hx
        obtain ⟨-, hnone, -⟩ := hcourse.launched_machine h₀ hdoes hlater hbacking
        obtain ⟨_, _, _, hrest⟩ := hcourse.split
        obtain ⟨d, hd, -⟩ := hrest.exists_link hb
        rw [hdoes.actor?, hd] at hnone
        cases hnone

/-- As long as the start of an invoked interpreter is to be confirmed, the interpreter that invoked
it hands on no event. -/
theorem Course.not_reports_of_confirmStart (h₀ : s₀.Fresh) (h : Course s₀ (xs ++ x :: ys) s)
    (hm : m ∈ ys) (hmem : .confirmStart n c id generation ∈ m.before.agenda) :
  ¬ m.Reports n v
  := by
  rintro ⟨event, hhands, -⟩
  obtain ⟨us, vs, rfl⟩ := List.append_of_mem hm
  rw [← List.cons_append, ← List.append_assoc] at h
  obtain ⟨t, hcourse, hdoes, -⟩ := h.split
  obtain ⟨a, ha⟩ := hcourse.exists_actor h₀ (hdoes.mem_duties hhands.1 rfl)
  have hstage := (hcourse.orderly h₀ ha).stage
  rw [hdoes.duties_eq_cons hhands.1 rfl] at hstage
  have hpending := mem_duties_of_mem (n := n) rfl hmem
  rw [hstage.of_handle] at hpending
  simp at hpending

theorem failedStart?_of_startFault {fault : Fault}
    (hwork : m.work = .confirmStart n c id generation)
    (hfault : (m.before.actor? c).bind Actor.startFault = some fault) :
  m.failedStart? = some (id, reasonData ("core error: " ++ fault.message))
  := by
  rw [Moment.failedStart?, hwork]
  dsimp only
  rw [hfault]
  rfl

/-- The start of an invoked interpreter is not confirmed any more, once all that came with it is
done. -/
theorem Course.confirmed_once {k : Moment} (h₀ : s₀.Fresh)
    (h : Course s₀ (xs ++ x :: (us ++ k :: ys)) s)
    (hissues : x.Issues n v) (hbacking : v.backing = .machine c)
    (hrest : k.after.agenda = x.before.agenda) (hz : m ∈ ys) :
  m.work ≠ .confirmStart n c v.id v.generation
  := by
  intro hconfirm
  obtain ⟨t₀, hcourse₀, hdoes₀, -⟩ := h.split
  obtain ⟨-, hnone, ⟨b, hb, -⟩, -⟩ := hcourse₀.launched_machine h₀ hdoes₀ hissues hbacking
  have hall := h
  rw [← List.cons_append, ← List.append_assoc] at hall
  obtain ⟨t, hcourse, hdoes, -⟩ := hall.split
  have hafter := Course.step hcourse hdoes
  rw [List.append_assoc] at hafter
  obtain ⟨_, _, _, hsince⟩ := hafter.split
  obtain ⟨d, hd, -⟩ := hsince.exists_link hb
  have hunconfirmed : ∀ k' id generation,
      .confirmStart k' c id generation ∉ k.after.agenda := by
    intro k' id generation hmem
    rw [hrest] at hmem
    obtain ⟨e, he, -⟩ := hcourse₀.linked (c := c) h₀
      (by rw [hdoes₀.agenda]; exact List.mem_cons_of_mem _ hmem)
    rw [hdoes₀.actor?, he] at hnone
    cases hnone
  obtain ⟨l, r, rfl⟩ := List.append_of_mem hz
  rw [← List.cons_append, ← List.append_assoc] at hall
  obtain ⟨u, hlater, hconfirms, -⟩ := hall.split
  refine hlater.unconfirmed h₀ hd hunconfirmed n v.id v.generation ?_
  rw [hconfirms.agenda, hconfirm]
  exact List.mem_cons_self

/-- The event of a start that fails when it is confirmed is queued behind all that waits at the
interpreter that invoked, and is handed on in its turn. -/
theorem Course.hands_failedStart (h₀ : s₀.Fresh) (h : Course s₀ (xs ++ m :: ys) s)
    (hend : s.agenda = []) (hrunning : s.isRunning n = true)
    (hwork : m.work = .confirmStart n c id generation) {fault : Fault}
    (hfault : (m.before.actor? c).bind Actor.startFault = some fault)
    (ha : m.before.actor? n = some a) (hactive : a.status = .running) :
  ∃ ws y vs, ys = ws ++ y :: vs ∧ handled n ws = a.mailbox.queue ∧
    y.Hands n (.external (startFailure id fault))
  := by
  obtain ⟨t, hcourse, hdoes, -⟩ := h.split
  have ht := (hdoes.actor? n).symm.trans ha
  obtain ⟨⟨d, hd, hqueue⟩, hduties⟩ := queues_of_failedStart (by rw [hwork]; rfl)
    (failedStart?_of_startFault hwork hfault) ha
  have hstage := (hcourse.orderly h₀ ht).stage
  rw [hdoes.duties_eq_cons hwork rfl] at hstage
  obtain ⟨snapshot, -, hstarting⟩ := hstage.of_confirmStart
  have hbacklog : d.backlog (m.after.duties n) =
      a.mailbox.queue ++ [.external (startFailure id fault)] := by
    rw [hduties, (Performing.starting hstarting).backlog, hqueue]
    rfl
  have hstarted : d.status ≠ .notStarted := by
    obtain ⟨d', hd', hturn⟩ := hcourse.exists_turn h₀ hdoes ha
    rw [hd, Option.some.injEq] at hd'
    subst hd'
    apply hturn.started
    rw [hactive]
    exact Status.noConfusion
  obtain ⟨ws, y, vs, rfl, hy, hhandled⟩ := h.handles h₀ hd hstarted
    (by rw [hduties]; exact hstarting.ne_nil) hrunning hend hbacklog
  refine ⟨ws, y, vs, rfl, hhandled, ?_⟩
  rw [← List.cons_append, ← List.append_assoc] at h
  obtain ⟨a', ha', hactive⟩ := h.running_of_duty h₀ (by rw [hy]; rfl) hrunning
  exact hands_of_running hy rfl ha' hactive

/-- An invoked interpreter that fails to start is reported when its start is confirmed: the event of
the failure is queued behind all that waits at the interpreter that invoked it, and is handed on in
its turn. -/
theorem Course.reports_failure (h₀ : s₀.Fresh) (h : Course s₀ (xs ++ x :: ys) s)
    (hend : s.agenda = []) (hissues : x.Issues n v) (hbacking : v.backing = .machine c)
    (hrunning : s.isRunning n = true) (hm : m ∈ ys) {fault : Fault}
    (hfails : m.FailsToStart c fault) :
  (∀ y ∈ ys, ¬ y.Reports n v) ∧ ∃ us k ws y vs a, ys = us ++ k :: (ws ++ y :: vs) ∧
    k.work = .confirmStart n c v.id v.generation ∧ k.before.actor? n = some a ∧
    handled n ws = a.mailbox.queue ∧ y.Hands n (.external (startFailure v.id fault)) ∧
    ∀ z ∈ us ++ (ws ++ y :: vs), z.work ≠ .confirmStart n c v.id v.generation
  := by
  obtain ⟨us, k, vs, rfl, hwork, hrest, hus, hfault⟩ :=
    h.confirms h₀ hissues hbacking hm hfails hend
  rw [hwork] at hus
  have hall := h
  rw [← List.cons_append, ← List.append_assoc] at hall
  obtain ⟨t, hcourse, hdoes, -⟩ := hall.split
  obtain ⟨a, ha, hactive⟩ := hall.running_of_duty h₀ (by rw [hwork]; rfl) hrunning
  have ht := (hdoes.actor? n).symm.trans ha
  obtain ⟨d, hd, hover⟩ := hcourse.over_of_failedStart h₀ hdoes hwork hfault ha
    (hcourse.generation_le h₀ hissues ht)
  constructor
  · -- nothing is handled before the confirmation, and the generation is over after it
    intro y hy
    rcases List.mem_append.mp hy with hy' | hy'
    · exact h.not_reports_of_confirmStart h₀ hy (hus y hy')
    · rcases List.mem_cons.mp hy' with rfl | hy'
      · rintro ⟨event, ⟨hhandle, -⟩, -⟩
        rw [hwork] at hhandle
        cases hhandle
      · exact hall.not_reports h₀ hd hover hy'
  · obtain ⟨ws, y, vs, rfl, hhandled, hhands⟩ :=
      hall.hands_failedStart h₀ hend hrunning hwork hfault ha hactive
    refine ⟨us, k, ws, y, vs, a, rfl, hwork, ha, hhandled, hhands, ?_⟩
    refine List.forall_mem_append.mpr ⟨fun z hz => ?_, fun z hz => ?_⟩
    · exact h.not_confirmed h₀ hissues hbacking (List.mem_append_left _ hz) (hus z hz)
    · apply h.confirmed_once h₀ hissues hbacking _ hz
      rw [← hrest, Moment.after, hwork, carryOut, confirmStart, hfault]
      rfl

/-- Let an interpreter run from the start of the invocation of a machine on, and let the invocation
be neither stopped nor started once more.  If the invoked interpreter is done, then exactly one
event that completes its service is handed to a macrostep, and its start is not reported as failed.
If it fails to start, then no such event is handed on, but the event of the failure is: it is queued
once, and handed on when those that waited before it were handled. -/
theorem Course.reported_once (h₀ : s₀.Fresh) (h : Course s₀ (xs ++ x :: ys) s)
    (hattends : Attends n c v x ys s) :
  ((∃ m ∈ ys, m.Completes c) →
    (∃ us y vs, ys = us ++ y :: vs ∧ y.Reports n v ∧ ∀ z ∈ us ++ vs, ¬ z.Reports n v) ∧
      ∀ k ∈ ys, k.work = .confirmStart n c v.id v.generation → k.failedStart? = none) ∧
  ∀ fault, (∃ m ∈ ys, m.FailsToStart c fault) → (∀ y ∈ ys, ¬ y.Reports n v) ∧
    ∃ us k ws y vs a, ys = us ++ k :: (ws ++ y :: vs) ∧
      k.work = .confirmStart n c v.id v.generation ∧ k.before.actor? n = some a ∧
      handled n ws = a.mailbox.queue ∧ y.Hands n (.external (startFailure v.id fault)) ∧
      ∀ z ∈ us ++ (ws ++ y :: vs), z.work ≠ .confirmStart n c v.id v.generation
  := by
  constructor
  · rintro ⟨m, hm, hcompletes⟩
    obtain ⟨y, hy, hreports⟩ := h.reports h₀ hattends hm hcompletes
    obtain ⟨us, vs, rfl⟩ := List.append_of_mem hy
    refine ⟨⟨us, y, vs, rfl, hreports, h.reports_once h₀ hreports⟩, fun k hk hwork => ?_⟩
    obtain ⟨t, hcourse, hdoes, -⟩ := h.split
    obtain ⟨hlt, -, -, -⟩ :=
      hcourse.launched_machine h₀ hdoes hattends.issues hattends.backing
    rw [Moment.failedStart?, hwork]
    dsimp only
    rw [h.not_retracted h₀ (Nat.ne_of_gt ((Nat.zero_le n).trans_lt hlt))
      (List.mem_append_right _ (List.mem_cons_of_mem _ hm)) hcompletes
      (List.mem_append_right _ (List.mem_cons_of_mem _ hk)) hwork]
    rfl
  · rintro fault ⟨m, hm, hfails⟩
    exact h.reports_failure h₀ hattends.agenda hattends.issues hattends.backing hattends.running hm
      hfails

/-! ### Runs with an invoked interpreter -/

/-- Whether an interpreter takes an event at a moment with which the stop of an invocation is asked
for. -/
def asksStop (n : Nat) (id : String) (m : Moment) : Bool :=
  match m.work with
  | .react k snapshot event => k == n && (m.before.actor? n).any fun a =>
    match a.machine.transition snapshot event with
    | .ok next => stopsLater id next.actions
    | .error _ => false
  | _ => false

/-- The exit of the owner of an invocation asks for its stop. -/
theorem Course.asksStop_of_exitsOwner (h₀ : s₀.Fresh) (h : Course s₀ ms s) (hm : m ∈ ms)
    (hexits : m.ExitsOwner n id) :
  asksStop n id m = true
  := by
  obtain ⟨a, i, snapshot, event, next, steps, hwork, ha, hi, hnext, hmoves, x, hx, hstep⟩ := hexits
  obtain ⟨us, vs, rfl⟩ := List.append_of_mem hm
  obtain ⟨t, hcourse, hdoes, -⟩ := h.split
  have hbracketed := (hcourse.orderly h₀ ((hdoes.actor? n).symm.trans ha)).bracketed
  obtain ⟨action, haction, hduty⟩ := hmoves.exists_stop hx hstep (hbracketed id i hi).2.2
  rw [asksStop, hwork]
  dsimp only
  rw [beq_self_eq_true, ha, Bool.true_and, Option.any_some, hnext]
  dsimp only
  rw [stopsLater, List.any_eq_true]
  refine ⟨action, haction, ?_⟩
  rw [hduty]
  exact beq_self_eq_true id

/-- The service of the first machine that the root invokes as `x`, and forwards its events to. -/
def firstChild : Service where
  id := "x"
  src := "child"
  generation := 1
  forward := true
  backing := .machine 1

/-- Whether a work starts an invocation. -/
def isInvocation : Work → Bool
  | .invoke .. => true
  | _ => false

/-- Whether a work registers the first child at the root. -/
def admitsChild : Work → Bool
  | .register k u => k == root && u == firstChild
  | _ => false

/-- Whether the first child is issued at a moment of a run, and no invocation is stopped or started
after that. -/
def isAttended (run : List Moment × Session) (k : Nat) : Bool :=
  run.2.agenda.isEmpty && run.2.isRunning root &&
    run.1[k]?.any (fun x => isInvocation x.work && x.work.duty? == some root &&
      x.after.agenda.any admitsChild && (x.before.actor? root).all (fun a =>
        (a.machine.chart.invocation? "x").all (fun i => a.machine.chart.reserves i))) &&
    (run.1.drop (k + 1)).all (fun y => !asksStop root "x" y && !isInvocation y.work)

theorem exists_eq_of_isInvocation (h : isInvocation w = true) (hduty : w.duty? = some n) :
  ∃ snapshot action later, w = .invoke n snapshot action later
  := by
  cases w with
  | invoke k snapshot action later =>
    cases hduty
    exact ⟨snapshot, action, later, rfl⟩
  | _ => cases h

theorem eq_register_of_admitsChild (h : admitsChild w = true) :
  w = .register root firstChild
  := by
  cases w with
  | register k u =>
    obtain ⟨hk, hu⟩ := Bool.and_eq_true_iff.mp h
    rw [eq_of_beq hk, eq_of_beq hu]
  | _ => cases h

theorem attends_of_isAttended {run : List Moment × Session} {k : Nat} (h₀ : s₀.Fresh)
    (h : Course s₀ run.1 run.2) (hattended : isAttended run k = true) :
  ∃ x, run.1 = run.1.take k ++ x :: run.1.drop (k + 1) ∧
    Attends root 1 firstChild x (run.1.drop (k + 1)) run.2
  := by
  simp only [isAttended, Bool.and_eq_true] at hattended
  obtain ⟨⟨⟨hagenda, hrunning⟩, hx⟩, hys⟩ := hattended
  obtain ⟨x, hx, hfacts⟩ := (Option.any_eq_true _ _).mp hx
  simp only [Bool.and_eq_true, beq_iff_eq] at hfacts
  obtain ⟨⟨⟨hinvokes, hduty⟩, hmem⟩, hreserves⟩ := hfacts
  obtain ⟨w, hmem, hw⟩ := List.any_eq_true.mp hmem
  rw [eq_register_of_admitsChild hw] at hmem
  have hsplit := eq_take_append_cons_drop hx
  have hys : ∀ y ∈ run.1.drop (k + 1),
      asksStop root "x" y = false ∧ isInvocation y.work = false := by
    intro y hy
    simpa using List.all_eq_true.mp hys y hy
  refine ⟨x, hsplit, ⟨⟨exists_eq_of_isInvocation hinvokes hduty, hmem⟩, rfl,
    List.isEmpty_iff.mp hagenda, hrunning, fun _ _ => isPresent_root _, ?_, ?_, ?_⟩⟩
  · intro y hy hexits
    have hstop := h.asksStop_of_exitsOwner h₀ (List.mem_of_mem_drop hy) hexits
    exact Bool.false_ne_true ((hys y hy).1.symm.trans hstop)
  · rintro y hy u ⟨⟨_, _, _, hwork⟩, -⟩
    have hnone := (hys y hy).2
    rw [hwork] at hnone
    cases hnone
  · intro a i ha hi
    have hi : a.machine.chart.invocation? "x" = some i := hi
    rw [ha, Option.all_some, hi, Option.all_some] at hreserves
    exact hreserves

/-- Whether an interpreter is done at a moment. -/
def isCompletion (c : Nat) (m : Moment) : Bool :=
  match m.work with
  | .publish k snapshot => k == c && snapshot.done && m.before.isRunning c
  | _ => false

theorem completes_of_isCompletion (h : isCompletion c m = true) :
  m.Completes c
  := by
  rw [isCompletion] at h
  split at h
  · next k snapshot hwork =>
    simp only [Bool.and_eq_true, beq_iff_eq] at h
    obtain ⟨⟨rfl, hdone⟩, hrunning⟩ := h
    exact ⟨snapshot, hwork, hdone, hrunning⟩
  · cases h

/-- Whether an interpreter fails to start at a moment. -/
def isFailedStart (c : Nat) (m : Moment) : Bool :=
  match m.work with
  | .handle k e => k == c && e.origin == .start && (m.before.actor? c).any fun a =>
    a.status == .running && a.outset.toOption.isNone
  | _ => false

theorem failsToStart_of_isFailedStart (h : isFailedStart c m = true) :
  ∃ fault, m.FailsToStart c fault
  := by
  rw [isFailedStart] at h
  split at h
  · next k e hwork =>
    simp only [Bool.and_eq_true, beq_iff_eq] at h
    obtain ⟨⟨rfl, hstart⟩, ha⟩ := h
    obtain ⟨a, ha, hfacts⟩ := (Option.any_eq_true _ _).mp ha
    simp only [Bool.and_eq_true, beq_iff_eq] at hfacts
    obtain ⟨hrunning, hnone⟩ := hfacts
    cases hfault : a.outset with
    | ok snapshot =>
      rw [hfault] at hnone
      cases hnone
    | error fault => exact ⟨fault, e, a, hwork, hstart, ha, hrunning, hfault⟩
  · cases h

/-- A machine that forwards its events to a child. -/
def attending : Document.Machine where
  root := .node { initial := some "a" }
    [("a", .node { invoke := [{ id := some "x", src := "child", forward := true }] } [])]

/-- A machine that is done with an event. -/
def concluding : Document.Machine where
  root := .node { initial := some "s" }
    [("s", .node { on := [("GO", [{ targets := ["f"] }])] } []),
     ("f", .node { type := some .final } [])]

/-- A machine that does not settle from the start. -/
def restless : Document.Machine where
  root := .node { initial := some "t" }
    [("t", .node { always := [{ targets := ["u"] }] } []),
     ("u", .node { always := [{ targets := ["t"] }] } [])]

/-- A machine that does not settle with an event. -/
def wavering : Document.Machine where
  root := .node { initial := some "s" }
    [("s", .node { on := [("GO", [{ targets := ["t"] }])] } []),
     ("t", .node { always := [{ targets := ["u"] }] } []),
     ("u", .node { always := [{ targets := ["t"] }] } [])]

/-- The run of a machine with a child, in which both are started and the root gets an event. -/
def companionship (chart child : Chart) : List Moment × Session :=
  (ofChild chart child).conduct 60 [.start root, .send root (.bare "GO")]

theorem course_companionship (chart child : Chart) :
  Course (ofChild chart child) (companionship chart child).1 (companionship chart child).2
  := course_conduct 60 _ _ (by decide)

theorem reported_once_attending :
  ∃ chart, Chart.ofDocument attending = .ok chart ∧
    (∃ child, Chart.ofDocument concluding = .ok child ∧ ∃ xs x us y vs s,
      (ofChild chart child).Fresh ∧
      Course (ofChild chart child) (xs ++ x :: (us ++ y :: vs)) s ∧
      Attends root 1 firstChild x (us ++ y :: vs) s ∧ (∃ m ∈ us ++ y :: vs, m.Completes 1) ∧
      y.Reports root firstChild ∧ ∀ z ∈ us ++ vs, ¬ z.Reports root firstChild) ∧
    ∃ child, Chart.ofDocument restless = .ok child ∧ ∃ xs x ys s fault,
      (ofChild chart child).Fresh ∧ Course (ofChild chart child) (xs ++ x :: ys) s ∧
      Attends root 1 firstChild x ys s ∧ (∃ m ∈ ys, m.FailsToStart 1 fault) ∧
      (∀ z ∈ ys, ¬ z.Reports root firstChild) ∧
      ∃ y ∈ ys, y.Hands root (.external (startFailure "x" fault))
  := by
  obtain ⟨chart, h, hp⟩ := Outcome.exists_of_any (x := Chart.ofDocument attending)
    (p := fun chart =>
      (Chart.ofDocument concluding).toOption.any (fun child =>
        isAttended (companionship chart child) 4 &&
          ((companionship chart child).1.drop 5).any (isCompletion 1)) &&
      (Chart.ofDocument restless).toOption.any (fun child =>
        isAttended (companionship chart child) 4 &&
          ((companionship chart child).1.drop 5).any (isFailedStart 1)))
    (by decide +kernel)
  obtain ⟨hdone, hfailed⟩ := Bool.and_eq_true_iff.mp hp
  refine ⟨chart, h, ?_, ?_⟩
  · obtain ⟨child, hchild, hp⟩ := Outcome.exists_of_any hdone
    obtain ⟨hattended, hcompletion⟩ := Bool.and_eq_true_iff.mp hp
    have h₀ := fresh_ofChild ⟨attending, h⟩ ⟨concluding, hchild⟩
    have hcourse := course_companionship chart child
    obtain ⟨x, hsplit, hattends⟩ := attends_of_isAttended h₀ hcourse hattended
    obtain ⟨m, hm, hcompletion⟩ := List.any_eq_true.mp hcompletion
    have hcompletes : ∃ m ∈ (companionship chart child).1.drop 5, m.Completes 1 :=
      ⟨m, hm, completes_of_isCompletion hcompletion⟩
    rw [hsplit] at hcourse
    obtain ⟨⟨us, y, vs, hys, hreports, hnone⟩, -⟩ :=
      (hcourse.reported_once h₀ hattends).1 hcompletes
    rw [hys] at hcourse hattends hcompletes
    exact ⟨child, hchild, _, x, us, y, vs, _, h₀, hcourse, hattends, hcompletes, hreports, hnone⟩
  · obtain ⟨child, hchild, hp⟩ := Outcome.exists_of_any hfailed
    obtain ⟨hattended, hfailure⟩ := Bool.and_eq_true_iff.mp hp
    have h₀ := fresh_ofChild ⟨attending, h⟩ ⟨restless, hchild⟩
    have hcourse := course_companionship chart child
    obtain ⟨x, hsplit, hattends⟩ := attends_of_isAttended h₀ hcourse hattended
    obtain ⟨m, hm, hfailure⟩ := List.any_eq_true.mp hfailure
    obtain ⟨fault, hfails⟩ := failsToStart_of_isFailedStart hfailure
    rw [hsplit] at hcourse
    obtain ⟨hnone, us, k, ws, y, vs, a, hys, -, -, -, hhands, -⟩ :=
      (hcourse.reported_once h₀ hattends).2 fault ⟨m, hm, hfails⟩
    refine ⟨child, hchild, _, x, _, _, fault, h₀, hcourse, hattends, ⟨m, hm, hfails⟩, hnone, y, ?_,
      hhands⟩
    rw [hys]
    simp

/-- Whether an interpreter cannot take an event at a moment. -/
def isFailedTurn (c : Nat) (m : Moment) : Bool :=
  match m.work with
  | .react k snapshot event => k == c && (m.before.actor? c).any fun a =>
    a.status == .running && (a.machine.transition snapshot event).toOption.isNone
  | _ => false

/-- Whether an event that completes the first child is handled at the root at a moment. -/
def isVerdict (m : Moment) : Bool :=
  match m.work with
  | .handle k e => k == root && completes e.event.name "x"
  | _ => false

/-- An invoked interpreter that fails with an event, and not with its start, is stopped without any
report: no event named after its completion or its failure is handed to a macrostep. -/
theorem unreported_wavering :
  ∃ chart child, Chart.ofDocument attending = .ok chart ∧ Chart.ofDocument wavering = .ok child ∧
    ∃ xs x ys s, (ofChild chart child).Fresh ∧ Course (ofChild chart child) (xs ++ x :: ys) s ∧
      Attends root 1 firstChild x ys s ∧
      (∃ m ∈ ys, ∃ a snapshot event fault, m.work = .react 1 snapshot event ∧
        m.before.actor? 1 = some a ∧ a.status = .running ∧
        a.machine.transition snapshot event = .error fault) ∧
      s.status 1 = .stopped ∧
      ∀ y ∈ ys, ∀ e, y.Hands root e → completes e.event.name firstChild.id = false
  := by
  obtain ⟨chart, h, hp⟩ := Outcome.exists_of_any (x := Chart.ofDocument attending)
    (p := fun chart => (Chart.ofDocument wavering).toOption.any (fun child =>
      let run := companionship chart child
      isAttended run 4 ∧ (run.1.drop 5).any (isFailedTurn 1) = true ∧ run.2.status 1 = .stopped ∧
        (run.1.drop 5).all (fun y => !isVerdict y) = true))
    (by decide +kernel)
  obtain ⟨child, hchild, hp⟩ := Outcome.exists_of_any hp
  obtain ⟨hattended, hfailed, hstopped, hsilent⟩ := of_decide_eq_true hp
  have h₀ := fresh_ofChild ⟨attending, h⟩ ⟨wavering, hchild⟩
  have hcourse := course_companionship chart child
  obtain ⟨x, hsplit, hattends⟩ := attends_of_isAttended h₀ hcourse hattended
  rw [hsplit] at hcourse
  refine ⟨chart, child, h, hchild, _, x, _, _, h₀, hcourse, hattends, ?_, hstopped, ?_⟩
  · obtain ⟨m, hm, hfails⟩ := List.any_eq_true.mp hfailed
    rw [isFailedTurn] at hfails
    split at hfails
    · next k snapshot event hwork =>
      simp only [Bool.and_eq_true, beq_iff_eq] at hfails
      obtain ⟨rfl, ha⟩ := hfails
      obtain ⟨a, ha, hfacts⟩ := (Option.any_eq_true _ _).mp ha
      simp only [Bool.and_eq_true, beq_iff_eq] at hfacts
      obtain ⟨hrunning, hnone⟩ := hfacts
      refine ⟨m, hm, a, snapshot, event, ?_⟩
      cases hfault : a.machine.transition snapshot event with
      | ok next =>
        rw [hfault] at hnone
        cases hnone
      | error fault => exact ⟨fault, hwork, ha, hrunning, rfl⟩
    · cases hfails
  · rintro y hy e ⟨hwork, -⟩
    have hnone := List.all_eq_true.mp hsilent y hy
    rw [isVerdict, hwork] at hnone
    have hnone : completes e.event.name "x" = false := by simpa using hnone
    exact hnone

end Session

end Statechart
