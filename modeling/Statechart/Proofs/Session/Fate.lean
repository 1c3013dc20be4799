import Statechart.Proofs.Session.Boot

/-!
# Ends of services

A service ends when the interpreter behind it is stopped, when the result of its task is not to be
delivered any more, or when the gate of the callback service is closed.  As long as its interpreter
is not stopped, a service that was issued is about to be registered or is live, or has completed, or
has ended, or is going to be stopped next (`Course.fate`).
-/

namespace Statechart

variable {n : Nat} {a b : Actor} {w : Work} {l : List Work} {ms xs ys : List Moment}
  {m : Moment} {v : Service}

namespace Session

variable {s s₀ t : Session}

/-- Whether what is behind a service has ended: the interpreter is stopped, the result of the task
is not to be delivered any more, or the gate of the callback service is closed. -/
def Ended (s : Session) (v : Service) : Prop :=
  match v.backing with
  | .machine c => ∃ b, s.actor? c = some b ∧ b.status = .stopped
  | .task j => ∃ job, s.jobs[j]? = some job ∧ job.isOpen = false
  | .callback k => ∃ c, s.callbacks[k]? = some c ∧ c.disposed = true

/-- Whether a service is about to be stopped by one of some works. -/
def Ending (v : Service) (ws : List Work) : Prop :=
  .stopService v ∈ ws ∨ ∃ c, v.backing = .machine c ∧ .stop c ∈ ws

/-- Whether there is what is behind a service. -/
def Carries (s : Session) (v : Service) : Prop :=
  match v.backing with
  | .machine c => ∃ b, s.actor? c = some b
  | .task j => ∃ job, s.jobs[j]? = some job
  | .callback k => ∃ c, s.callbacks[k]? = some c

/-! ### Steps -/

theorem Called.jobs (h : s.Called t) :
  t.jobs = s.jobs
  := by
  cases h with
  | work h => rfl
  | emit h =>
    rw [emitting]
    split <;> rfl
  | resume persisted => rfl
  | configure settings => rfl
  | subscribe listener =>
    rw [Session.subscribe]
    split
    · rfl
    · dsimp only
      split <;> rfl
  | takeFault => rfl
  | forget => rfl

theorem carries_of_launched {data : Option Json} (h : Launched n v data s t) :
  t.Carries v
  := by
  rw [Carries]
  cases h with
  | machine ha hsource hbacking hchild hlength hagenda =>
    rw [hbacking]
    exact ⟨_, hchild⟩
  | @task job hbacking hjobs hagenda =>
    rw [hbacking]
    refine ⟨job, ?_⟩
    rw [hjobs]
    exact List.getElem?_concat_length
  | @callback c hbacking hcallbacks hagenda =>
    rw [hbacking]
    refine ⟨c, ?_⟩
    rw [hcallbacks]
    exact List.getElem?_concat_length

theorem Carries.call (h : s.Carries v) (hcall : s.Called t) :
  t.Carries v
  := by
  rw [Carries] at h ⊢
  split at h
  · obtain ⟨a, ha⟩ := h
    obtain ⟨b, hb, -⟩ := hcall.exists_kept ha
    exact ⟨b, hb⟩
  · rw [hcall.jobs]
    exact h
  · rw [hcall.steady.callbacks]
    exact h

theorem Carries.step (h : s.Carries v) (w : Work) :
  (s.carryOut w).Carries v
  := by
  rw [Carries] at h ⊢
  split at h
  · obtain ⟨a, ha⟩ := h
    obtain ⟨b, hb, -⟩ := exists_ages s w ha
    exact ⟨b, hb⟩
  · obtain ⟨job, hjob⟩ := h
    obtain ⟨job', hjob', -⟩ := exists_job s w hjob
    exact ⟨job', hjob'⟩
  · obtain ⟨c, hc⟩ := h
    exact ⟨_, callback_carryOut hc⟩

theorem Ended.call (h : s.Ended v) (hcall : s.Called t) :
  t.Ended v
  := by
  rw [Ended] at h ⊢
  split at h
  · next c _ =>
    obtain ⟨a, ha, hstopped⟩ := h
    obtain ⟨b, hb, hlike⟩ := (hcall.calm (n := c)).actor a ha
    exact ⟨b, hb, hlike.status.trans hstopped⟩
  · rw [hcall.jobs]
    exact h
  · rw [hcall.steady.callbacks]
    exact h

/-- What has ended stays so. -/
theorem Ended.step (h : m.before.Ended v) (h₀ : s₀.Fresh) (hcourse : Course s₀ ms s)
    (hm : s.Does m) :
  m.after.Ended v
  := by
  rw [Ended] at h ⊢
  split at h
  · obtain ⟨a, ha, hstopped⟩ := h
    obtain ⟨b, hb, hturn⟩ := hcourse.exists_turn h₀ hm ha
    exact ⟨b, hb, hturn.stopped hstopped⟩
  · obtain ⟨job, hjob, hclosed⟩ := h
    obtain ⟨job', hjob', hstays, -⟩ := exists_job m.before m.work hjob
    exact ⟨job', hjob', hstays hclosed⟩
  · obtain ⟨c, hc, hdisposed⟩ := h
    refine ⟨_, callback_carryOut hc, ?_⟩
    split
    · rfl
    · exact hdisposed

theorem Ending.append (h : Ending v l) (ws : List Work) :
  Ending v (ws ++ l)
  := by
  refine h.imp (List.mem_append_right ws) ?_
  rintro ⟨c, hbacking, hmem⟩
  exact ⟨c, hbacking, List.mem_append_right ws hmem⟩

/-- A service that is stopped has ended, or its interpreter is going to be stopped next. -/
theorem ended_stopService (h : s.Carries v) :
  (∃ c, v.backing = .machine c ∧ (s.stopService v).agenda = .stop c :: s.agenda) ∨
    (s.stopService v).Ended v
  := by
  rw [Carries] at h
  rw [Ended]
  split at h
  · next c hbacking =>
    left
    rw [stopService, hbacking]
    exact ⟨c, rfl, rfl⟩
  · next j hbacking =>
    obtain ⟨job, hjob⟩ := h
    obtain ⟨job', hjob', -, hclosed⟩ := exists_job s (.stopService v) hjob
    exact Or.inr ⟨job', hjob', hclosed v rfl hbacking⟩
  · next k hbacking =>
    obtain ⟨c, hc⟩ := h
    refine Or.inr ⟨_, callback_carryOut (w := .stopService v) hc, ?_⟩
    rw [Work.stops, hbacking, beq_self_eq_true, if_pos rfl]
    rfl

/-- A service that is about to be stopped is so until it has ended. -/
theorem ending_step (hcarries : m.before.Carries v) (h : Ending v (m.work :: l)) :
  Ending v l ∨ m.after.Ended v ∨ ∃ c, v.backing = .machine c ∧
    m.after.agenda = .stop c :: m.before.agenda
  := by
  have hcons : ∀ {x : Work}, x ∈ m.work :: l → m.work = x ∨ x ∈ l :=
    fun hx => (List.mem_cons.mp hx).imp_left Eq.symm
  rcases h with hmem | ⟨c, hbacking, hmem⟩
  · rcases hcons hmem with hwork | hmem
    · rw [Moment.after, hwork]
      exact Or.inr (ended_stopService hcarries).symm
    · exact Or.inl (Or.inl hmem)
  · rcases hcons hmem with hwork | hmem
    · rw [Carries, hbacking] at hcarries
      obtain ⟨b, hb⟩ := hcarries
      right
      left
      rw [Moment.after, hwork, Ended, hbacking]
      exact exists_stopped hb
    · exact Or.inl (Or.inr ⟨c, hbacking, hmem⟩)

/-- What is behind a service stays there. -/
theorem Course.carries (h : Course s₀ (xs ++ m :: ys) s) (hcarries : m.after.Carries v) :
  s.Carries v
  := by
  refine h.induction_after (P := fun _ t => t.Carries v) ?_ ?_ hcarries
  · exact fun ys t u _ hcarries hcall => hcarries.call hcall
  · intro ys t y _ hcarries hdoes
    have hbefore : y.before.Carries v := by
      rw [hdoes.before]
      exact hcarries
    exact hbefore.step y.work

/-- A service that is about to be stopped at some moment has ended, or is still about to be. -/
theorem Course.ending (h₀ : s₀.Fresh) (h : Course s₀ (xs ++ m :: ys) s)
    (hcarries : m.after.Carries v) (hending : Ending v m.after.agenda ∨ m.after.Ended v) :
  s.Carries v ∧ (Ending v s.agenda ∨ s.Ended v)
  := by
  refine h.induction_after (P := fun _ t => t.Carries v ∧ (Ending v t.agenda ∨ t.Ended v)) ?_ ?_
    ⟨hcarries, hending⟩
  · rintro ys t u - ⟨hcarries, hfate⟩ hcall
    refine ⟨hcarries.call hcall, hfate.imp ?_ (fun h => h.call hcall)⟩
    intro hending
    obtain ⟨ws, hws, -⟩ := hcall.steady.agenda
    rw [hws]
    exact hending.append ws
  · rintro ys t y hcourse ⟨hcarries, hfate⟩ hdoes
    have hbefore : y.before.Carries v := by
      rw [hdoes.before]
      exact hcarries
    refine ⟨hbefore.step y.work, ?_⟩
    rcases hfate with hending | hended
    · rw [hdoes.agenda] at hending
      rcases ending_step hbefore hending with hending | hended | ⟨c, hbacking, hagenda⟩
      · obtain ⟨ws, hws⟩ := hcourse.exists_agenda h₀ hdoes
        rw [hws]
        exact Or.inl (hending.append ws)
      · exact Or.inr hended
      · rw [hagenda]
        exact Or.inl (Or.inr ⟨c, hbacking, List.mem_cons_self⟩)
    · have hbefore : y.before.Ended v := by
        rw [hdoes.before]
        exact hended
      exact Or.inr (hbefore.step h₀ hcourse hdoes)

/-- What has ended at some moment has ended ever after. -/
theorem Course.ended (h₀ : s₀.Fresh) (h : Course s₀ (xs ++ m :: ys) s) (hended : m.after.Ended v) :
  s.Ended v
  := by
  refine h.induction_after (P := fun _ t => t.Ended v) ?_ ?_ hended
  · exact fun ys t u _ hended hcall => hended.call hcall
  · intro ys t z hcourse hended hz
    have hbefore : z.before.Ended v := by
      rw [hz.before]
      exact hended
    exact hbefore.step h₀ hcourse hz

/-- A service that was issued is about to be registered or is live, or has completed, or has ended
or is about to, as long as its interpreter is not stopped. -/
theorem Course.fate (h₀ : s₀.Fresh) (h : Course s₀ (xs ++ m :: ys) s) (hissues : m.Issues n v)
    (ha : s.actor? n = some a) (hopen : a.status ≠ .stopped) :
  .register n v ∈ s.agenda ∨ s.Serves n v ∨ (∃ z ∈ ys, z.Reports n v) ∨ Ending v s.agenda ∨
    s.Ended v
  := by
  cases h.tenure h₀ hissues with
  | pending hmem => exact Or.inl hmem
  | serving hserves => exact Or.inr (Or.inl hserves)
  | @past z hz hvacates =>
    obtain ⟨us, vs, rfl⟩ := List.append_of_mem hz
    obtain ⟨t₀, hcourse₀, hdoes₀, -⟩ := h.split
    obtain ⟨_, _, _, _, _, -, -, -, hlaunched, -, -⟩ := hcourse₀.launched h₀ hdoes₀ hissues
    rw [← List.cons_append, ← List.append_assoc] at h
    obtain ⟨t, hcourse, hdoes, -⟩ := h.split
    have hcarries : z.before.Carries v := by
      rw [hdoes.before]
      exact hcourse.carries (carries_of_launched hlaunched)
    have hends : Ending v z.after.agenda ∨ z.after.Ended v → Ending v s.agenda ∨ s.Ended v :=
      fun hending => (h.ending h₀ (hcarries.step z.work) hending).2
    have hstops : ∀ b, z.after.actor? n = some b → b.status ≠ .stopped :=
      fun b hb hstopped => hopen (h.stopped_after h₀ hb hstopped ha)
    have hstopping : z.after.agenda = .stopService v :: z.before.agenda →
        Ending v s.agenda ∨ s.Ended v := by
      intro hagenda
      rw [hagenda] at hends
      exact hends (Or.inl (Or.inl List.mem_cons_self))
    cases hcourse.departs h₀ hdoes hvacates with
    | stopped hwork hserves =>
      obtain ⟨b, hb, -⟩ := hserves
      obtain ⟨c, hc, hstopped⟩ := exists_stopped hb
      rw [Moment.after, hwork] at hstops
      exact absurd hstopped (hstops c hc)
    | performed _ _ hagenda => exact Or.inr (Or.inr (Or.inr (hstopping hagenda)))
    | displaced _ _ hagenda => exact Or.inr (Or.inr (Or.inr (hstopping hagenda)))
    | reported hreports => exact Or.inr (Or.inr (Or.inl ⟨z, hz, hreports⟩))
    | @retracted c b hwork hbacking hb hfault =>
      have hc := hlaunched.ne_root hbacking
      obtain ⟨hstopped, -⟩ := (hcourse.unbooted h₀ hc ((hdoes.actor? c).symm.trans hb)).noted hfault
      have hended : z.before.Ended v := by
        rw [Ended, hbacking]
        exact ⟨b, hb, hstopped⟩
      exact Or.inr (Or.inr (Or.inr (hends (Or.inr (hended.step h₀ hcourse hdoes)))))
    | missed hwork hstatus =>
      obtain ⟨b, hb⟩ := hcourse.exists_actor h₀ (hdoes.mem_duties hwork rfl)
      rw [← hdoes.actor?] at hb
      obtain ⟨c, hc, hturn⟩ := hcourse.exists_turn h₀ hdoes hb
      have hstarted := hcourse.started_of_duty h₀ hdoes hb (by rw [hwork]; rfl)
      by_cases hstopped : b.status = .stopped
      · exact absurd (hturn.stopped hstopped) (hstops c hc)
      · rw [(isRunning_iff hb).mpr (Status.eq_running hstarted hstopped)] at hstatus
        cases hstatus

end Session

end Statechart
