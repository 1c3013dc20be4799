import Statechart.Proofs.Session.Failure
import Statechart.Proofs.Session.Tenure

/-!
# Envelopes that come in

A work on the agenda is done at some moment, unless it is still there.  An interpreter that is
running at the end of a run has handled all envelopes that it had, in their order
(`Course.drained`); so an envelope that is posted to it is handled (`Course.delivered`).
-/

namespace Statechart

variable {n : Nat} {a b c : Actor} {w : Work} {ds es : List Work} {ms xs ys : List Moment}
  {m y : Moment} {e : Envelope} {l r : List Envelope}

/-- A drain goes on until the mailbox is empty. -/
theorem Turn.draining (h : Turn n w a ds b es) (hdraining : a.mailbox.draining = true) :
  b.mailbox.draining = true ∨ b.mailbox.queue = []
  := by
  cases h with
  | calm _ h => exact Or.inl (h.draining.trans hdraining)
  | wake => exact Or.inl rfl
  | start => exact Or.inl rfl
  | stop _ h => exact Or.inl (h.draining.trans hdraining)
  | release h => exact Or.inl (h.draining.trans hdraining)
  | rest hqueue => exact Or.inr hqueue
  | take => exact Or.inl hdraining
  | idle _ h => exact Or.inl (h.draining.trans hdraining)
  | boot _ _ _ h => exact Or.inl (h.draining.trans hdraining)
  | unbooted _ _ h => exact Or.inl (h.draining.trans hdraining)
  | @accept _ _ _ e _ _ _ h =>
    obtain ⟨services, -, heq⟩ := a.exists_admitting e
    rw [heq] at h
    exact Or.inl (h.draining.trans hdraining)
  | forward => exact Or.inl hdraining
  | move => exact Or.inl hdraining
  | remove => exact Or.inl hdraining
  | refuse _ _ h => exact Or.inl (h.draining.trans hdraining)
  | issue _ _ _ _ _ _ h => exact Or.inl (h.draining.trans hdraining)
  | register => exact Or.inl hdraining
  | @retract _ _ _ _ id generation h =>
    obtain ⟨services, -, heq⟩ := a.exists_without id generation
    rw [heq] at h
    exact Or.inl (h.draining.trans hdraining)

/-- An envelope that is handled has its turn after those that are handled before. -/
theorem exists_of_handled (h : handled n ys = l ++ e :: r) :
  ∃ us y vs, ys = us ++ y :: vs ∧ y.work = .handle n e ∧ handled n us = l
  := by
  induction ys generalizing l with
  | nil =>
    rw [handled, List.filterMap_nil] at h
    simp at h
  | cons m ys ih =>
    rw [handled, List.filterMap_cons, ← handled] at h
    cases hm : m.work.handled? n with
    | none =>
      rw [hm] at h
      dsimp only at h
      obtain ⟨us, y, vs, rfl, hwork, hus⟩ := ih h
      refine ⟨m :: us, y, vs, rfl, hwork, ?_⟩
      rw [handled, List.filterMap_cons, hm]
      exact hus
    | some e' =>
      rw [hm] at h
      dsimp only at h
      cases l with
      | nil =>
        obtain ⟨rfl, -⟩ := List.cons.inj h
        exact ⟨[], m, ys, rfl, handled?_eq_some_iff.mp hm, rfl⟩
      | cons x l =>
        obtain ⟨rfl, hrest⟩ := List.cons.inj h
        obtain ⟨us, y, vs, rfl, hwork, hus⟩ := ih hrest
        refine ⟨m :: us, y, vs, rfl, hwork, ?_⟩
        rw [handled, List.filterMap_cons, hm]
        exact congrArg (e' :: ·) hus

namespace Session

variable {s s₀ t u : Session}

/-- A work that is to be done is done at some moment, or is still to be done. -/
theorem Course.exists_moment (h₀ : s₀.Fresh) (h : Course s₀ (xs ++ m :: ys) s)
    (hw : w ∈ m.after.agenda) :
  w ∈ s.agenda ∨ ∃ us z vs, ys = us ++ z :: vs ∧ z.work = w
  := by
  refine h.induction_after
    (P := fun ys t => w ∈ t.agenda ∨ ∃ us z vs, ys = us ++ z :: vs ∧ z.work = w) ?_ ?_ (Or.inl hw)
  · intro ys t u _ hfate hcall
    refine hfate.imp_left fun hmem => ?_
    obtain ⟨ws, hws, -⟩ := hcall.steady.agenda
    rw [hws]
    exact List.mem_append_right ws hmem
  · intro ys t z hcourse hfate hz
    rcases hfate with hmem | ⟨us, y, vs, rfl, hwork⟩
    · rw [hz.agenda] at hmem
      rcases List.mem_cons.mp hmem with hwork | hmem
      · exact Or.inr ⟨ys, z, [], rfl, hwork.symm⟩
      · obtain ⟨ws, hws⟩ := hcourse.exists_agenda h₀ hz
        rw [hws]
        exact Or.inl (List.mem_append_right ws hmem)
    · exact Or.inr ⟨us, y, vs ++ [z], by simp, hwork⟩

/-- An interpreter that was started at some moment is there ever after, and started. -/
theorem Course.started_since (h₀ : s₀.Fresh) (h : Course s₀ (xs ++ m :: ys) s)
    (hb : m.after.actor? n = some b) (hstarted : b.status ≠ .notStarted) :
  ∃ a, s.actor? n = some a ∧ a.status ≠ .notStarted
  := by
  refine h.induction_after
    (P := fun _ t => ∃ a, t.actor? n = some a ∧ a.status ≠ .notStarted) ?_ ?_ ⟨b, hb, hstarted⟩
  · rintro ys t u - ⟨a, ha, hstatus⟩ hcall
    obtain ⟨c, hc, hlike⟩ := (hcall.calm (n := n)).actor a ha
    rw [← hlike.status] at hstatus
    exact ⟨c, hc, hstatus⟩
  · rintro ys t z hcourse ⟨a, ha, hstatus⟩ hz
    obtain ⟨c, hc, hturn⟩ := hcourse.exists_turn h₀ hz ((hz.actor? n).trans ha)
    exact ⟨c, hc, hturn.started hstatus⟩

/-- An interpreter that runs was running whenever it did a duty. -/
theorem Course.running_of_duty (h₀ : s₀.Fresh) (h : Course s₀ (xs ++ m :: ys) s)
    (hduty : m.work.duty? = some n) (hrunning : s.isRunning n = true) :
  ∃ a, m.before.actor? n = some a ∧ a.status = .running
  := by
  obtain ⟨t, hcourse, hdoes, -⟩ := h.split
  obtain ⟨a, ha⟩ := hcourse.exists_actor h₀ (hdoes.mem_duties rfl hduty)
  have ha := (hdoes.actor? n).trans ha
  obtain ⟨b, hn, hactive⟩ := exists_of_isRunning hrunning
  exact ⟨a, ha, h.running_at h₀ ha (hcourse.started_of_duty h₀ hdoes ha hduty) hn hactive⟩

/-- What an interpreter has to handle while it drains its mailbox is handled, in that order, when
nothing is left to be done and the interpreter is running. -/
theorem Course.drained (h₀ : s₀.Fresh) (h : Course s₀ (xs ++ m :: ys) s)
    (hb : m.after.actor? n = some b) (hstarted : b.status ≠ .notStarted)
    (hduties : m.after.duties n ≠ []) (hrunning : s.isRunning n = true) (hend : s.agenda = []) :
  ∃ rest, handled n ys = b.backlog (m.after.duties n) ++ rest
  := by
  obtain ⟨a, ha, hactive⟩ := exists_of_isRunning hrunning
  have hdrains : a.status ≠ .notStarted ∧ (a.status = .running → s.duties n ≠ [] ∨
      ∃ rest, handled n ys = b.backlog (m.after.duties n) ++ rest) := by
    refine h.induction_since (P := fun ys a ds => a.status ≠ .notStarted ∧ (a.status = .running →
      ds ≠ [] ∨ ∃ rest, handled n ys = b.backlog (m.after.duties n) ++ rest)) ?_ ?_ h₀ hb
      ⟨hstarted, fun _ => Or.inl hduties⟩ ha
    · rintro ys a c ds ⟨hstatus, hdrains⟩ hlike
      rw [hlike.status]
      exact ⟨hstatus, hdrains⟩
    · rintro ys t y a c hcourse hy ⟨hstatus, hdrains⟩ ha hc hturn
      refine ⟨hturn.started hstatus, fun hrunning => ?_⟩
      rcases hdrains (hturn.running_before hstatus hrunning) with hds | ⟨rest, hrest⟩
      · have hdraining := (hcourse.orderly h₀ ha).draining
        rw [List.isEmpty_eq_false_iff.mpr hds] at hdraining
        have horderly := (Course.step hcourse hy).orderly h₀ hc
        rcases hturn.draining hdraining with hdraining | hqueue
        · rw [horderly.draining] at hdraining
          left
          simpa using hdraining
        · by_cases hes : y.after.duties n = []
          · -- the mailbox is empty, so that all has been handled
            have hall := Course.step hcourse hy
            rw [List.append_assoc, List.cons_append] at hall
            obtain ⟨arrivals, hfifo⟩ := hall.fifo h₀ hb hstarted hc hrunning
            rw [hes, Actor.backlog, hqueue, List.filterMap_nil, List.append_nil,
              List.append_nil] at hfifo
            exact Or.inr ⟨arrivals, hfifo⟩
          · exact Or.inl hes
      · right
        rw [handled_append, hrest, List.append_assoc]
        exact ⟨_, rfl⟩
  have hnil : s.duties n = [] := by rw [duties, hend, List.filter_nil]
  exact (hdrains.2 hactive).resolve_left (fun hds => hds hnil)

/-- An envelope that an interpreter has to handle while it drains its mailbox is handled in its
turn. -/
theorem Course.handles (h₀ : s₀.Fresh) (h : Course s₀ (xs ++ m :: ys) s)
    (hb : m.after.actor? n = some b) (hstarted : b.status ≠ .notStarted)
    (hduties : m.after.duties n ≠ []) (hrunning : s.isRunning n = true) (hend : s.agenda = [])
    (he : b.backlog (m.after.duties n) = l ++ e :: r) :
  ∃ us y vs, ys = us ++ y :: vs ∧ y.work = .handle n e ∧ handled n us = l
  := by
  obtain ⟨rest, hrest⟩ := h.drained h₀ hb hstarted hduties hrunning hend
  rw [he, List.append_assoc] at hrest
  exact exists_of_handled hrest

/-- The root is always there. -/
theorem isPresent_root (s : Session) :
  s.isPresent root = true
  := by
  rw [isPresent]
  rfl

/-- An envelope for a running interpreter gets it to drain its mailbox. -/
theorem exists_enqueued (ha : s.actor? n = some a) (hrunning : a.status = .running) (e : Envelope) :
  ∃ b, (s.enqueue n e).actor? n = some b ∧ b.status = .running ∧ b.mailbox.draining = true ∧
    b.mailbox.queue = a.mailbox.queue ++ [e]
  := by
  have hqueued : (s.queue n e).actor? n = some { a with mailbox := a.mailbox.push e } := by
    rw [queue, actor?_modify_self, ha]
    rfl
  rw [enqueue, (isRunning_iff ha).mpr hrunning, if_pos rfl]
  exact ⟨_, (drain_spec hqueued).1, hrunning, rfl, rfl⟩

/-- An envelope that is posted to an interpreter is handled, as long as the interpreter is there and
running. -/
theorem Course.delivered (h₀ : s₀.Fresh) (h : Course s₀ (xs ++ m :: ys) s)
    (hpost : .post n e ∈ m.after.agenda) (hb : m.after.actor? n = some b)
    (hstarted : b.status ≠ .notStarted) (hpresent : ∀ y ∈ ys, y.before.isPresent n = true)
    (hrunning : s.isRunning n = true) (hend : s.agenda = []) :
  ∃ us y vs, ys = us ++ y :: vs ∧ y.work = .handle n e
  := by
  have hdone : .post n e ∉ s.agenda := by
    rw [hend]
    exact List.not_mem_nil
  obtain ⟨us, p, vs, rfl, hwork⟩ := (h.exists_moment h₀ hpost).resolve_left hdone
  have hall := h
  rw [← List.cons_append, ← List.append_assoc] at hall
  obtain ⟨t, hcourse, hp, -⟩ := hall.split
  obtain ⟨a, ha, hstarted⟩ : ∃ a, p.before.actor? n = some a ∧ a.status ≠ .notStarted := by
    rw [hp.actor?]
    exact hcourse.started_since h₀ hb hstarted
  obtain ⟨d, hd, hrunning'⟩ := exists_of_isRunning hrunning
  have hactive := hall.running_at h₀ ha hstarted hd hrunning'
  have hafter : p.after = p.before.enqueue n e := by
    rw [Moment.after, hwork, carryOut, post,
      if_pos (hpresent p (List.mem_append_right us List.mem_cons_self))]
  obtain ⟨c, hc, hcrunning, hdraining, hqueue⟩ := exists_enqueued ha hactive e
  rw [← hafter] at hc
  have hduties : p.after.duties n ≠ [] := by
    rw [((Course.step hcourse hp).orderly h₀ hc).draining] at hdraining
    simpa using hdraining
  have hbacklog : c.backlog (p.after.duties n) =
      ((p.after.duties n).filterMap Work.envelope? ++ a.mailbox.queue) ++ [e] := by
    rw [Actor.backlog, hqueue, List.append_assoc]
  have hcstarted : c.status ≠ .notStarted := by
    rw [hcrunning]
    exact Status.noConfusion
  obtain ⟨us', y, vs', rfl, hy, -⟩ :=
    hall.handles h₀ hc hcstarted hduties hrunning hend hbacklog
  exact ⟨us ++ p :: us', y, vs', by simp, hy⟩

end Session

end Statechart
