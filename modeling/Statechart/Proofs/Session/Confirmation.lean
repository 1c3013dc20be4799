import Statechart.Proofs.Session.Boot
import Statechart.Proofs.Session.Delivery

/-!
# Confirmations of starts

The agenda is a stack: a work stays on it until all is done that was put ahead of it, and is done
then (`Course.exists_done`).  So an invoked interpreter has taken its boot marker before its start
is confirmed to the interpreter that invoked it, and if it fails to start, then this is found out at
the confirmation (`Course.confirms`).
-/

namespace Statechart

open Session (committed)

variable {n c : Nat} {a b : Actor} {w x : Work} {ds es ws l r : List Work} {ms xs ys : List Moment}
  {m z : Moment} {v : Service} {fault : Fault} {id : String} {generation : Nat}

/-- What an interpreter begins with when it takes its boot marker. -/
def Actor.outset (a : Actor) : Except Fault Snapshot :=
  match a.resume with
  | some persisted => a.machine.restore persisted
  | none => a.machine.initial

/-- Whether a running interpreter takes its boot marker at a moment, and cannot begin because of a
fault. -/
def Moment.FailsToStart (c : Nat) (fault : Fault) (m : Moment) : Prop :=
  ∃ e a, m.work = .handle c e ∧ e.origin = .start ∧ m.before.actor? c = some a ∧
    a.status = .running ∧ a.outset = .error fault

/-! ### Works that register -/

/-- What has a part in a registration was there before, or comes with the start of an
invocation. -/
theorem Turn.of_registers_mem (h : Turn n w a ds b es) (hx : x ∈ es) (hregisters : x.registers) :
  x ∈ ds ∨ ∃ snapshot action later v ws, w = .invoke n snapshot action later ∧ Issued n v ws ∧
    x ∈ ws ∧ .register n v ∈ es
  := by
  have hcons : ∀ {y : Work} {ds : List Work}, x ∈ y :: ds → y.registers = false → x ∈ ds := by
    intro y ds hx hy
    refine (List.mem_cons.mp hx).resolve_left ?_
    rintro rfl
    rw [hy] at hregisters
    cases hregisters
  have hcommitted : ∀ {snapshot ds}, x ∈ committed n snapshot ++ ds → x ∈ w :: ds := by
    intro snapshot ds hx
    refine List.mem_cons_of_mem _ ((List.mem_append.mp hx).resolve_left (fun hx => ?_))
    have hnone := (performing_committed (n := n) snapshot).registers (List.mem_append_left _ hx)
    rw [hnone] at hregisters
    cases hregisters
  cases h with
  | calm => exact Or.inl hx
  | wake => exact Or.inl (hcons hx rfl)
  | start =>
    left
    split at hx
    · exact hx
    · exact hcons hx rfl
  | stop => exact Or.inl hx
  | release => exact Or.inl hx
  | rest => exact Or.inl (List.mem_cons_of_mem _ hx)
  | take => exact Or.inl (hcons hx rfl)
  | idle => exact Or.inl (List.mem_cons_of_mem _ hx)
  | boot => exact Or.inl (hcommitted hx)
  | unbooted => exact Or.inl (List.mem_cons_of_mem _ (hcons hx rfl))
  | accept => exact Or.inl (List.mem_cons_of_mem _ (hcons hx rfl))
  | forward => exact Or.inl (List.mem_cons_of_mem _ (hcons hx rfl))
  | move => exact Or.inl (hcommitted hx)
  | remove => exact Or.inl (List.mem_cons_of_mem _ hx)
  | refuse => exact Or.inl (List.mem_cons_of_mem _ hx)
  | @issue _ _ ds snapshot action later _ _ v ws _ _ _ _ _ hissued _ =>
    rcases List.mem_append.mp hx with hx | hx
    · have hmem : .register n v ∈ ws := by
        cases hissued <;> exact List.mem_cons_self
      exact Or.inr ⟨snapshot, action, later, v, ws, rfl, hissued, hx, List.mem_append_left _ hmem⟩
    · exact Or.inl (List.mem_cons_of_mem _ hx)
  | register => exact Or.inl (List.mem_cons_of_mem _ hx)
  | retract => exact Or.inl (List.mem_cons_of_mem _ hx)

namespace Session

variable {s s₀ t u : Session}

/-- What has a part in a registration was to be done before, or comes with a service that is
issued. -/
theorem Course.of_registers_mem (h₀ : s₀.Fresh) (h : Course s₀ ms s) (hm : s.Does m)
    (hx : x ∈ m.after.agenda) (hduty : x.duty? = some n) (hregisters : x.registers) :
  x ∈ s.agenda ∨ ∃ v ws, m.Issues n v ∧ Issued n v ws ∧ x ∈ ws
  := by
  have hx := mem_duties_of_mem hduty hx
  cases ha : m.before.actor? n with
  | none =>
    obtain ⟨hw, hbefore⟩ := hm.unmarked (h.unmarked h₀).1
    have hother : m.work.duty? ≠ some n := by
      intro hduty
      obtain ⟨a, ha'⟩ := h.exists_actor h₀ (hm.mem_duties rfl hduty)
      rw [← hm.actor?, ha] at ha'
      cases ha'
    rw [Moment.after, (duties_carryOut_of_none hw hbefore.pending hother ha).1] at hx
    left
    rw [hm.agenda]
    exact List.mem_cons_of_mem _ (mem_agenda_of_mem_duties hx)
  | some a =>
    obtain ⟨b, -, hturn⟩ := h.exists_turn h₀ hm ha
    rcases hturn.of_registers_mem hx hregisters with
      hx | ⟨snapshot, action, later, v, ws, hwork, hissued, hx, hmem⟩
    · exact Or.inl (mem_agenda_of_mem_duties hx)
    · exact Or.inr ⟨v, ws, ⟨⟨snapshot, action, later, hwork⟩, mem_agenda_of_mem_duties hmem⟩,
        hissued, hx⟩

/-- An interpreter whose start is to be confirmed has its place in the one that invoked it. -/
theorem Course.linked (h₀ : s₀.Fresh) (h : Course s₀ ms s)
    (hmem : .confirmStart n c id generation ∈ s.agenda) :
  ∃ b, s.actor? c = some b ∧ b.link = some ⟨n, id, generation⟩
  := by
  induction h with
  | refl =>
    rw [h₀.agenda] at hmem
    cases hmem
  | call h hcall ih =>
    obtain ⟨ws, hws, hnew⟩ := (hcall.calm (n := n)).agenda
    have hold : .confirmStart n c id generation ∉ ws := fun hmem => (hnew _ hmem).2 rfl
    rw [hws] at hmem
    obtain ⟨a, ha, hlink⟩ := ih ((List.mem_append.mp hmem).resolve_left hold)
    obtain ⟨b, hb, hsame, -⟩ := hcall.exists_kept ha
    exact ⟨b, hb, hsame.trans hlink⟩
  | step h hm ih =>
    rcases h.of_registers_mem h₀ hm hmem rfl rfl with hmem | ⟨v, ws, hissues, hissued, hx⟩
    · obtain ⟨a, ha, hlink⟩ := ih hmem
      obtain ⟨b, hb, hages⟩ := exists_ages _ _ ((hm.actor? c).trans ha)
      exact ⟨b, hb, hages.link.trans hlink⟩
    · obtain ⟨_, _, _, _, _, -, -, -, hlaunched, -, -⟩ := h.launched h₀ hm hissues
      cases hissued with
      | plain => simp at hx
      | @machine child hbacking =>
        obtain ⟨rfl, rfl, rfl⟩ : c = child ∧ id = v.id ∧ generation = v.generation := by
          simpa using hx
        cases hlaunched with
        | machine _ _ hbacking' hchild =>
          rw [hbacking, Backing.machine.injEq] at hbacking'
          rw [hbacking']
          exact ⟨_, hchild, rfl⟩
        | task hbacking' =>
          rw [hbacking] at hbacking'
          cases hbacking'
        | callback hbacking' =>
          rw [hbacking] at hbacking'
          cases hbacking'

/-! ### The agenda as a stack -/

/-- A work stays on the agenda, and what is below it stays as it is, until it is done. -/
theorem Course.exists_done (h₀ : s₀.Fresh) (h : Course s₀ (xs ++ m :: ys) s)
    (hagenda : m.after.agenda = l ++ w :: r) :
  ((∃ l, s.agenda = l ++ w :: r) ∧ ∀ y ∈ ys, w ∈ y.before.agenda) ∨
    ∃ us z vs, ys = us ++ z :: vs ∧ z.work = w ∧ z.before.agenda = r ∧ ∀ y ∈ us, w ∈ y.before.agenda
  := by
  refine h.induction_after (P := fun ys t =>
    ((∃ l, t.agenda = l ++ w :: r) ∧ ∀ y ∈ ys, w ∈ y.before.agenda) ∨
      ∃ us z vs, ys = us ++ z :: vs ∧ z.work = w ∧ z.before.agenda = r ∧
        ∀ y ∈ us, w ∈ y.before.agenda) ?_ ?_ (Or.inl ⟨⟨l, hagenda⟩, List.forall_mem_nil _⟩)
  · intro ys t u _ hfate hcall
    refine hfate.imp_left ?_
    rintro ⟨⟨l, hl⟩, hys⟩
    obtain ⟨ws, hws, -⟩ := hcall.steady.agenda
    refine ⟨⟨ws ++ l, ?_⟩, hys⟩
    rw [hws, hl, List.append_assoc]
  · intro ys t y hcourse hfate hy
    rcases hfate with ⟨⟨l, hl⟩, hys⟩ | ⟨us, z, vs, rfl, hwork, hrest, hus⟩
    · rw [hy.agenda] at hl
      cases l with
      | nil =>
        obtain ⟨hwork, hrest⟩ := List.cons.inj hl
        exact Or.inr ⟨ys, y, [], rfl, hwork, hrest, hys⟩
      | cons x l =>
        have hrest : y.before.agenda = l ++ w :: r := (List.cons.inj hl).2
        obtain ⟨ws, hws⟩ := hcourse.exists_agenda h₀ hy
        refine Or.inl ⟨⟨ws ++ l, ?_⟩, ?_⟩
        · rw [hws, hrest, List.append_assoc]
        · refine List.forall_mem_append.mpr ⟨hys, List.forall_mem_singleton.mpr ?_⟩
          rw [hrest]
          exact List.mem_append_right l List.mem_cons_self
    · exact Or.inr ⟨us, z, vs ++ [y], by simp, hwork, hrest, hus⟩

/-- A work on top of which there is nothing but what was below it has been done. -/
theorem Course.exists_done_of_le (h₀ : s₀.Fresh) (h : Course s₀ (xs ++ m :: ys) s)
    (hagenda : m.after.agenda = l ++ w :: r) (hlength : s.agenda.length ≤ r.length) :
  ∃ us z vs, ys = us ++ z :: vs ∧ z.work = w ∧ z.before.agenda = r ∧ ∀ y ∈ us, w ∈ y.before.agenda
  := by
  rcases h.exists_done h₀ hagenda with ⟨⟨l, hl⟩, -⟩ | hdone
  · rw [hl, List.length_append, List.length_cons] at hlength
    omega
  · exact hdone

/-! ### Boot markers -/

/-- A started interpreter without duties has taken its boot marker. -/
theorem Course.booted (h₀ : s₀.Fresh) (h : Course s₀ ms s) (ha : s.actor? n = some a)
    (hstarted : a.status ≠ .notStarted) (hnil : s.duties n = []) :
  ∀ e ∈ a.backlog (s.duties n), e.origin ≠ .start
  := by
  refine (h.induction_view (P := fun _ a ds => a.status ≠ .notStarted → ds = [] →
    ∀ e ∈ a.backlog ds, e.origin ≠ .start) ?_ ?_ ?_ h₀).2 a ha hstarted hnil
  · exact fun ms a _ hnew hstarted => absurd hnew.status hstarted
  · intro ms a b ds ih hlike hstarted hds e he
    obtain ⟨arrivals, hqueue, hunmarked⟩ := hlike.queue
    rw [hlike.status] at hstarted
    rw [Actor.backlog, hqueue, ← List.append_assoc] at he
    exact (List.mem_append.mp he).elim (ih hstarted hds e) (hunmarked e)
  · intro ms t m a b hcourse hm ih ha hb hturn hstarted hnil e he hstart
    have horderly := hcourse.orderly h₀ ((hm.actor? n).symm.trans ha)
    have hdrained := ((Course.step hcourse hm).orderly h₀ hb).draining
    rw [hnil, List.isEmpty_nil] at hdrained
    by_cases hds : t.duties n = []
    · by_cases hnew : a.status = .notStarted
      · -- it is stopped before it takes anything
        have hqueue := (horderly.unstarted hnew).2.2
        have hdraining := horderly.draining
        generalize t.duties n = ds at hturn hds hdraining
        generalize m.after.duties n = es at hturn hnil he
        generalize m.work = w at hturn
        cases hturn with
        | calm _ hlike =>
          rw [hlike.status] at hstarted
          exact hstarted hnew
        | start =>
          rw [hdraining, hds] at hnil
          cases hnil
        | stop _ hlike =>
          obtain ⟨arrivals, harrivals, hunmarked⟩ := hlike.queue
          rw [Actor.backlog, hnil, harrivals, List.filterMap_nil, List.nil_append] at he
          exact (List.mem_append.mp he).elim (fun he => hqueue e he hstart)
            (fun he => hunmarked e he hstart)
        | release hlike =>
          rw [hlike.status] at hstarted
          exact hstarted hnew
        | wake => cases hnil
        | _ => cases hds
      · exact ih hnew hds e (hturn.marked horderly hnew he hstart) hstart
    · have hdraining := horderly.draining
      rw [List.isEmpty_eq_false_iff.mpr hds] at hdraining
      rcases hturn.draining hdraining with hstays | hqueue
      · rw [hdrained] at hstays
        cases hstays
      · rw [hnil, Actor.backlog, hqueue] at he
        cases he

/-- A started interpreter that has no boot marker never gets one. -/
theorem Course.unmarked_from (h₀ : s₀.Fresh) (h : Course s₀ xs t) (hrest : Course t ys s)
    (ha : t.actor? n = some a) (hstarted : a.status ≠ .notStarted)
    (hunmarked : ∀ e ∈ a.backlog (t.duties n), e.origin ≠ .start) :
  ∃ b, s.actor? n = some b ∧ b.status ≠ .notStarted ∧
    ∀ e ∈ b.backlog (s.duties n), e.origin ≠ .start
  := by
  induction hrest with
  | refl => exact ⟨a, ha, hstarted, hunmarked⟩
  | call hrest hcall ih =>
    obtain ⟨b, hb, hstarted, hunmarked⟩ := ih
    obtain ⟨c, hc, hlike⟩ := (hcall.calm (n := n)).actor b hb
    obtain ⟨arrivals, hqueue, hnew⟩ := hlike.queue
    refine ⟨c, hc, ?_, ?_⟩
    · rw [hlike.status]
      exact hstarted
    · rw [(hcall.calm (n := n)).duties, Actor.backlog, hqueue, ← List.append_assoc]
      exact List.forall_mem_append.mpr ⟨hunmarked, hnew⟩
  | step hrest hm ih =>
    obtain ⟨b, hb, hstarted, hunmarked⟩ := ih
    have hcourse := h.trans hrest
    obtain ⟨c, hc, hturn⟩ := hcourse.exists_turn h₀ hm ((hm.actor? n).trans hb)
    refine ⟨c, hc, hturn.started hstarted, fun e he hstart => ?_⟩
    exact hunmarked e (hturn.marked (hcourse.orderly h₀ hb) hstarted he hstart) hstart

/-! ### Starts that are confirmed -/

/-- An interpreter that cannot begin is stopped, and the fault is noted after that. -/
theorem boot_of_fault (ha : s.actor? c = some a) (h : a.outset = .error fault) :
  s.boot c =
    (s.modify c (fun a => { a with resume := none })).fail c fault [.recordFault c fault]
  := by
  rw [Actor.outset] at h
  rw [boot, ha]
  dsimp only
  cases hresume : a.resume with
  | none =>
    rw [hresume] at h
    dsimp only at h ⊢
    rw [h]
  | some persisted =>
    rw [hresume] at h
    dsimp only at h ⊢
    rw [h]

/-- An interpreter has been started after its start. -/
theorem exists_started (ha : s.actor? c = some a) :
  ∃ b, (s.start c).actor? c = some b ∧ b.status ≠ .notStarted
  := by
  rw [start, status, ha]
  split
  · next hstatus => exact ⟨a, ha, hstatus⟩
  · refine ⟨_, (drain_spec (by rw [actor?_modify_self, ha]; rfl)).1, ?_⟩
    exact Status.noConfusion

/-- What is made for an invoked machine. -/
theorem Course.launched_machine (h₀ : s₀.Fresh) (h : Course s₀ ms s) (hm : s.Does m)
    (hissues : m.Issues n v) (hbacking : v.backing = .machine c) :
  n < c ∧ m.before.actor? c = none ∧
    (∃ b, m.after.actor? c = some b ∧ b.link = some ⟨n, v.id, v.generation⟩) ∧
    m.after.agenda = .register n v :: .start c ::
      .confirmStart n c v.id v.generation :: m.before.agenda
  := by
  obtain ⟨_, _, _, _, _, -, -, -, hlaunched, -, -⟩ := h.launched h₀ hm hissues
  cases hlaunched with
  | task hbacking' =>
    rw [hbacking] at hbacking'
    cases hbacking'
  | callback hbacking' =>
    rw [hbacking] at hbacking'
    cases hbacking'
  | machine ha _ hbacking' hchild _ hagenda =>
    rw [hbacking, Backing.machine.injEq] at hbacking'
    rw [← hbacking'] at hchild hagenda
    refine ⟨?_, ?_, ⟨_, hchild, rfl⟩, hagenda⟩
    · rw [hbacking']
      exact (List.getElem?_eq_some_iff.mp ha).1
    · rw [hbacking']
      exact List.getElem?_eq_none_iff.mpr (Nat.le_refl _)

/-- When the start of an invoked interpreter is confirmed, it was started and has no boot marker
left. -/
theorem Course.booted_at (h₀ : s₀.Fresh) (h : Course s₀ (xs ++ m :: ys) s)
    (hissues : m.Issues n v) (hbacking : v.backing = .machine c)
    (hagenda : s.agenda = .confirmStart n c v.id v.generation :: m.before.agenda) :
  ∃ b, s.actor? c = some b ∧ b.status ≠ .notStarted ∧
    ∀ e ∈ b.backlog (s.duties c), e.origin ≠ .start
  := by
  obtain ⟨t, hcourse, hdoes, hrest⟩ := h.split
  obtain ⟨hlt, hnone, ⟨b, hb, -⟩, hplanned⟩ := hcourse.launched_machine h₀ hdoes hissues hbacking
  obtain ⟨us, z, vs, rfl, hwork, -, -⟩ := h.exists_done_of_le h₀
    (l := [.register n v]) (w := .start c) hplanned (by rw [hagenda])
  obtain ⟨u, hbefore, hz, -⟩ := hrest.split
  obtain ⟨a, ha, -⟩ := hbefore.exists_link hb
  obtain ⟨b, hb, hstarted⟩ := exists_started ((hz.actor? c).trans ha)
  have hall := h
  rw [← List.cons_append, ← List.append_assoc] at hall
  obtain ⟨a, ha, hstarted⟩ := hall.started_since (b := b) h₀ (by rw [Moment.after, hwork]; exact hb)
    hstarted
  refine ⟨a, ha, hstarted, h.booted h₀ ha hstarted ?_⟩
  -- whatever the interpreter has to do is put ahead of the confirmation
  rw [duties, hagenda, List.filter_cons, if_neg (by simpa [Work.duty?] using hlt.ne), ← duties]
  cases hduties : m.before.duties c with
  | nil => rfl
  | cons w ds =>
    have hw : w ∈ t.duties c := by
      rw [hdoes.duties, hduties]
      exact List.mem_append_right _ List.mem_cons_self
    obtain ⟨a, ha⟩ := hcourse.exists_actor h₀ hw
    rw [← hdoes.actor?, hnone] at ha
    cases ha

/-- The start of an invoked interpreter is confirmed only to the one that invoked it. -/
theorem Course.confirmStart_eq (h₀ : s₀.Fresh) (h : Course s₀ (xs ++ m :: ys) s)
    (hissues : m.Issues n v) (hbacking : v.backing = .machine c) {k : Nat}
    (hmem : .confirmStart k c id generation ∈ s.agenda) :
  Work.confirmStart k c id generation = .confirmStart n c v.id v.generation
  := by
  obtain ⟨t, hcourse, hdoes, hrest⟩ := h.split
  obtain ⟨-, -, ⟨b, hb, hplace⟩, -⟩ := hcourse.launched_machine h₀ hdoes hissues hbacking
  obtain ⟨a, ha, hkept⟩ := hrest.exists_link hb
  obtain ⟨a', ha', hlink⟩ := h.linked h₀ hmem
  rw [ha, Option.some.injEq] at ha'
  subst ha'
  rw [hlink, hplace, Option.some.injEq, Link.mk.injEq] at hkept
  obtain ⟨rfl, rfl, rfl⟩ := hkept
  rfl

/-- As long as the start of an invoked interpreter is to be confirmed, no start of it is. -/
theorem Course.not_confirmed (h₀ : s₀.Fresh) (h : Course s₀ (xs ++ m :: ys) s)
    (hissues : m.Issues n v) (hbacking : v.backing = .machine c) (hz : z ∈ ys)
    (hmem : .confirmStart n c v.id v.generation ∈ z.before.agenda) {k : Nat} :
  z.work ≠ .confirmStart k c id generation
  := by
  intro hwork
  obtain ⟨us, vs, rfl⟩ := List.append_of_mem hz
  rw [← List.cons_append, ← List.append_assoc] at h
  obtain ⟨t, hcourse, hdoes, -⟩ := h.split
  have hwork := hwork.trans (hcourse.confirmStart_eq h₀ hissues hbacking
    (by rw [hdoes.agenda, hwork]; exact List.mem_cons_self))
  obtain ⟨a, ha⟩ := hcourse.exists_actor h₀ (hdoes.mem_duties hwork rfl)
  have hstage := (hcourse.orderly h₀ ha).stage
  rw [hdoes.duties_eq_cons hwork rfl] at hstage
  obtain ⟨snapshot, -, hstarting⟩ := hstage.of_confirmStart
  cases (Performing.starting hstarting).follows (mem_duties_of_mem (n := n) rfl hmem)

/-- A fault that was noted stays so until it is taken by a confirmation. -/
theorem Course.fault_stays (h₀ : s₀.Fresh) (h : Course s₀ (xs ++ m :: ys) s) (hc : c ≠ root)
    (hwork : m.work = .recordFault c fault) (ha : m.before.actor? c = some a)
    (hunmarked : ∀ e ∈ a.backlog (m.before.duties c), e.origin ≠ .start)
    (hys : ∀ y ∈ ys, ∀ k id generation, y.work ≠ .confirmStart k c id generation) :
  (s.actor? c).bind Actor.startFault = some fault
  := by
  obtain ⟨t₀, hcourse₀, hdoes₀, -⟩ := h.split
  have horderly := hcourse₀.orderly h₀ ((hdoes₀.actor? c).symm.trans ha)
  have hduties := hdoes₀.duties_eq_cons hwork rfl
  rw [hduties] at horderly
  have hstarted := horderly.started (List.cons_ne_nil _ _)
  have hafter : m.after.actor? c = some { a with startFault := some fault } := by
    rw [Moment.after, hwork, carryOut, actor?_modify_self, ha]
    rfl
  have hsame : m.after.duties c = m.before.duties c := by
    rw [Moment.after, hwork]
    rfl
  suffices hnoted : (∀ f, .recordFault c f ∉ s.duties c) ∧
      ∃ b, s.actor? c = some b ∧ b.startFault = some fault by
    obtain ⟨-, b, hb, hfault⟩ := hnoted
    rw [hb]
    exact hfault
  refine h.induction_after (P := fun ys t =>
    (∀ y ∈ ys, ∀ k id generation, y.work ≠ .confirmStart k c id generation) →
      (∀ f, .recordFault c f ∉ t.duties c) ∧
        ∃ b, t.actor? c = some b ∧ b.startFault = some fault) ?_ ?_ ?_ hys
  · intro ys t u _ ih hcall hys
    obtain ⟨hnone, b, hb, hfault⟩ := ih hys
    obtain ⟨b', hb', -, -, hkept⟩ := hcall.exists_kept hb
    rw [(hcall.calm (n := c)).duties]
    exact ⟨hnone, b', hb', (hkept hc).2.trans hfault⟩
  · intro ys t y hcourse ih hy hys
    obtain ⟨hys, hlast⟩ := List.forall_mem_append.mp hys
    obtain ⟨hnone, b, hb, hfault⟩ := ih hys
    have hb := (hy.actor? c).trans hb
    obtain ⟨b', hb', hages⟩ := exists_ages y.before y.work hb
    obtain ⟨b'', hb'', hturn⟩ := hcourse.exists_turn h₀ hy hb
    constructor
    · intro f hmem
      rcases hturn.of_recordFault_mem hmem with hmem | ⟨e, hhandle, hstart⟩
      · exact hnone f hmem
      · -- there is no boot marker any more
        obtain ⟨_, _, _, hrest⟩ := hcourse.split
        obtain ⟨d, hd, -, hnever⟩ := (Course.step hcourse₀ hdoes₀).unmarked_from h₀ hrest hafter
          hstarted (by rw [hsame]; exact hunmarked)
        refine hnever e ?_ hstart
        rw [hy.duties_eq_cons hhandle rfl, backlog_cons]
        exact List.mem_append_left _ List.mem_cons_self
    · refine ⟨b', hb', ?_⟩
      rcases hages.startFault with hkept | ⟨f, hrecord, -⟩ | ⟨⟨k, id, generation, hconfirm⟩, -⟩
      · exact hkept.trans hfault
      · exact absurd (hy.mem_duties hrecord rfl) (hnone f)
      · exact absurd hconfirm (hlast y (List.mem_singleton_self y) k id generation)
  · intro _
    refine ⟨fun f hmem => ?_, _, hafter, rfl⟩
    rw [hsame, horderly.stage.of_recordFault] at hmem
    cases List.mem_singleton.mp hmem

/-- An invoked interpreter takes its boot marker while its start is still to be confirmed. -/
theorem Course.awaits (h₀ : s₀.Fresh) (h : Course s₀ (xs ++ m :: ys) s) (hz : s.Does z)
    (hissues : m.Issues n v) (hbacking : v.backing = .machine c) {e : Envelope}
    (hwork : z.work = .handle c e) (hstart : e.origin = .start) :
  (∃ l, z.before.agenda = l ++ .confirmStart n c v.id v.generation :: m.before.agenda) ∧
    ∀ y ∈ ys, .confirmStart n c v.id v.generation ∈ y.before.agenda
  := by
  obtain ⟨t, hcourse, hdoes, -⟩ := h.split
  obtain ⟨-, -, -, hplanned⟩ := hcourse.launched_machine h₀ hdoes hissues hbacking
  rcases h.exists_done h₀ (l := [.register n v, .start c]) hplanned with
    ⟨⟨l, hl⟩, hys⟩ | ⟨us, k, vs, rfl, hk, hrest, -⟩
  · refine ⟨?_, hys⟩
    rw [hz.agenda, hwork] at hl
    cases l with
    | nil => cases (List.cons.inj hl).1
    | cons w l => exact ⟨l, (List.cons.inj hl).2⟩
  · -- there was no boot marker any more when the start was confirmed
    exfalso
    rw [← List.cons_append, ← List.append_assoc] at h
    obtain ⟨u, hbefore, hdoes', hafter⟩ := h.split
    obtain ⟨b, hb, hstarted, hunmarked⟩ :=
      hbefore.booted_at h₀ hissues hbacking (by rw [hdoes'.agenda, hk, hrest])
    obtain ⟨a, ha, -, hnever⟩ :=
      hbefore.unmarked_from h₀ ((Course.step .refl hdoes').trans hafter) hb hstarted hunmarked
    refine hnever e ?_ hstart
    rw [hz.duties_eq_cons hwork rfl, backlog_cons]
    exact List.mem_append_left _ List.mem_cons_self

/-- When an interpreter fails to start, it is going to be stopped and the fault noted, and it has no
boot marker left. -/
theorem Course.fails (h₀ : s₀.Fresh) (h : Course s₀ ms s) (hz : s.Does z)
    (hfails : z.FailsToStart c fault) :
  z.after.agenda = .stop c :: .recordFault c fault :: z.before.agenda ∧
    ∃ b, z.after.actor? c = some b ∧ b.status ≠ .notStarted ∧
      ∀ e ∈ b.backlog (z.after.duties c), e.origin ≠ .start
  := by
  obtain ⟨e, a, hwork, hstart, ha, hrunning, hfault⟩ := hfails
  have hboot : z.after = (z.before.modify c (fun a => { a with resume := none })).fail c fault
      [.recordFault c fault] := by
    rw [Moment.after, hwork, carryOut, handle_of_start ha hrunning hstart, boot_of_fault ha hfault]
  have hafter : z.after.actor? c = some { a with resume := none } := by
    rw [hboot, fail, actor?_plan, actor?_diagnose, actor?_modify_self, ha]
    rfl
  have hagenda : z.after.agenda = .stop c :: .recordFault c fault :: z.before.agenda := by
    rw [hboot]
    rfl
  have hduties : z.after.duties c = .recordFault c fault :: z.before.duties c := by
    rw [duties, hagenda]
    simp [Work.duty?, duties]
  refine ⟨hagenda, _, hafter, ?_, ?_⟩
  · dsimp only
    rw [hrunning]
    exact Status.noConfusion
  · have hunmarked := (h.orderly h₀ ((hz.actor? c).symm.trans ha)).unmarked
    rw [hz.duties_eq_cons hwork rfl, backlog_cons] at hunmarked
    rw [hduties, backlog_cons]
    exact hunmarked

/-- An invoked interpreter that fails to start does so before its start is confirmed, and the fault
is noted then. -/
theorem Course.confirms (h₀ : s₀.Fresh) (h : Course s₀ (xs ++ m :: ys) s)
    (hissues : m.Issues n v) (hbacking : v.backing = .machine c) (hz : z ∈ ys)
    (hfails : z.FailsToStart c fault) (hend : s.agenda = []) :
  ∃ us k vs, ys = us ++ k :: vs ∧ k.work = .confirmStart n c v.id v.generation ∧
    k.before.agenda = m.before.agenda ∧ (∀ y ∈ us, k.work ∈ y.before.agenda) ∧
    (k.before.actor? c).bind Actor.startFault = some fault
  := by
  obtain ⟨us, vs, rfl⟩ := List.append_of_mem hz
  obtain ⟨t₀, hcourse₀, hdoes₀, -⟩ := h.split
  obtain ⟨hlt, -, -, -⟩ := hcourse₀.launched_machine h₀ hdoes₀ hissues hbacking
  have hall := h
  rw [← List.cons_append, ← List.append_assoc] at hall
  obtain ⟨t, hcourse, hdoes, -⟩ := hall.split
  obtain ⟨hafter, b, hb, hstarted, hunmarked⟩ := hcourse.fails h₀ hdoes hfails
  obtain ⟨⟨l, hl⟩, hus⟩ : (∃ l, z.before.agenda =
      l ++ .confirmStart n c v.id v.generation :: m.before.agenda) ∧
      ∀ y ∈ us, .confirmStart n c v.id v.generation ∈ y.before.agenda := by
    obtain ⟨e, a, hwork, hstart, -⟩ := hfails
    exact hcourse.awaits h₀ hdoes hissues hbacking hwork hstart
  rw [hl] at hafter
  obtain ⟨us', k, vs', rfl, hk, hrest, hus'⟩ := hall.exists_done_of_le h₀
    (l := .stop c :: .recordFault c fault :: l) hafter (by rw [hend]; exact Nat.zero_le _)
  refine ⟨us ++ z :: us', k, vs', by simp, hk, hrest, ?_, ?_⟩
  · rw [hk]
    refine List.forall_mem_append.mpr ⟨hus, List.forall_mem_cons.mpr ⟨?_, hus'⟩⟩
    rw [hl]
    exact List.mem_append_right _ List.mem_cons_self
  -- between the note and the confirmation nothing takes the fault
  rw [← List.cons_append, ← List.append_assoc] at hall
  obtain ⟨u, hcourse', hk', -⟩ := hall.split
  have hagenda : u.agenda = .confirmStart n c v.id v.generation :: m.before.agenda := by
    rw [hk'.agenda, hk, hrest]
  obtain ⟨us₁, f, us₂, rfl, hrecord, -, -⟩ := hcourse'.exists_done_of_le h₀ (l := [.stop c])
    hafter (by rw [hagenda, List.length_append]; exact Nat.le_add_left _ _)
  have hnoted := hcourse'
  rw [← List.cons_append, ← List.append_assoc] at hnoted
  obtain ⟨t', hbefore, hf, -⟩ := hnoted.split
  obtain ⟨_, -, -, hrestz⟩ := hbefore.split
  obtain ⟨a, ha, -, hnever⟩ :=
    (Course.step hcourse hdoes).unmarked_from h₀ hrestz hb hstarted hunmarked
  rw [hf.duties_eq_cons hrecord rfl, backlog_cons] at hnever
  rw [hk'.actor?]
  refine hnoted.fault_stays h₀ (Nat.ne_of_gt ((Nat.zero_le n).trans_lt hlt)) hrecord
    ((hf.actor? c).trans ha) hnever ?_
  intro y hy k' id generation
  have hmem : y ∈ us₁ ++ f :: us₂ := List.mem_append_right _ (List.mem_cons_of_mem _ hy)
  apply h.not_confirmed h₀ hissues hbacking _ (hus' y hmem)
  exact List.mem_append_right _ (List.mem_cons_of_mem _ (List.mem_append_left _ hmem))

end Session

end Statechart
