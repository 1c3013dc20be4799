import Statechart.Proofs.Session.Boot

/-!
# Pending actions

The actions of a new snapshot are carried out one after the other.  Those that are left form the end
of the list of all (`Course.pending_suffix`), and while the interpreter runs each of them is carried
out before the next envelope is handled (`Course.done_or_pending`).
-/

namespace Statechart

/-- The action that a work carries out for an interpreter. -/
def Work.action? (n : Nat) : Work → Option ResolvedAction
  | .perform k _ action => if k = n then some action else none
  | _ => none

/-- The actions that an interpreter has still to carry out, in their order. -/
def pending (n : Nat) (ds : List Work) : List ResolvedAction :=
  ds.filterMap (Work.action? n)

variable {n : Nat} {a b : Actor} {w : Work} {ds es : List Work} {snapshot : Snapshot}
  {action : ResolvedAction} {xs ys : List Moment} {ms : List Moment} {m : Moment}

theorem pending_cons_of_none (h : w.action? n = none) (ds : List Work) :
  pending n (w :: ds) = pending n ds
  := List.filterMap_cons_none h

theorem pending_append (n : Nat) (ds es : List Work) :
  pending n (ds ++ es) = pending n ds ++ pending n es
  := List.filterMap_append ..

theorem pending_perform (n : Nat) (snapshot : Snapshot) (action : ResolvedAction)
    (ds : List Work) :
  pending n (.perform n snapshot action :: ds) = action :: pending n ds
  := List.filterMap_cons_some (if_pos rfl)

theorem exists_perform_of_mem_pending (h : action ∈ pending n ds) :
  ∃ snapshot, .perform n snapshot action ∈ ds
  := by
  obtain ⟨w, hw, haction⟩ := List.mem_filterMap.mp h
  cases w with
  | perform k snapshot action' =>
    rw [Work.action?] at haction
    split at haction
    · next hk =>
      cases haction
      exact ⟨snapshot, hk ▸ hw⟩
    · cases haction
  | _ => cases haction

/-- Right after a new snapshot all its actions are to be carried out. -/
theorem pending_committed (n : Nat) (snapshot : Snapshot) (ds : List Work) :
  pending n (Session.committed n snapshot ++ ds) = snapshot.actions ++ pending n ds
  := by
  have hinvocations : ∀ later, pending n (Session.invocations n snapshot later) = [] := by
    intro later
    induction later with
    | nil => rfl
    | cons action later ih =>
      rw [Session.invocations]
      split
      · exact (pending_cons_of_none rfl _).trans ih
      · exact ih
  have hperforms : ∀ actions : List ResolvedAction,
      pending n (actions.map (.perform n snapshot)) = actions := by
    intro actions
    induction actions with
    | nil => rfl
    | cons action actions ih => rw [List.map_cons, pending_perform, ih]
  rw [Session.committed, pending_append, pending_append, pending_append, hperforms,
    hinvocations, List.append_nil]
  exact congrArg (· ++ pending n ds) (List.append_nil _)

/-- What a turn does to the pending actions: they stay, one of them is carried out, or those of a new
snapshot come. -/
theorem Turn.pending (h : Turn n w a ds b es) (horderly : a.Orderly n ds) :
  (pending n es = pending n ds ∧ b.state = a.state ∧ w.action? n = none) ∨
    (∃ snapshot action, w = .perform n snapshot action ∧ ds = w :: es ∧ a.state = some snapshot ∧
      b.state = a.state) ∨
    ∃ snapshot, pending n ds = [] ∧ pending n es = snapshot.actions ∧ b.state = some snapshot ∧
      ((∃ e, w = .handle n e ∧ e.origin = .start ∧ a.machine.Starts snapshot) ∨
        ∃ current event, w = .react n current event ∧
          a.machine.transition current event = .ok snapshot)
  := by
  have houtside : w.duty? ≠ some n → w.action? n = none := by
    intro hduty
    cases w with
    | perform k snapshot action => exact if_neg (fun hk => hduty (congrArg some hk))
    | _ => rfl
  cases h with
  | calm hduty hlike => exact Or.inl ⟨rfl, hlike.state, houtside hduty⟩
  | wake hduty hrunning hfree hlike =>
    exact Or.inl ⟨pending_cons_of_none rfl _, hlike.state, houtside hduty⟩
  | start =>
    refine Or.inl ⟨?_, rfl, rfl⟩
    split
    · rfl
    · exact pending_cons_of_none rfl _
  | stop hopen hlike => exact Or.inl ⟨rfl, hlike.state, rfl⟩
  | release hlike => exact Or.inl ⟨rfl, hlike.state, rfl⟩
  | rest => exact Or.inl ⟨rfl, rfl, rfl⟩
  | take => exact Or.inl ⟨rfl, rfl, rfl⟩
  | idle hidle hlike =>
    cases hidle with
    | perform =>
      exact Or.inr (Or.inl ⟨_, _, rfl, rfl, horderly.stage.of_perform.1, hlike.state⟩)
    | _ => exact Or.inl ⟨rfl, hlike.state, rfl⟩
  | boot hrunning hstart hstarts hlike =>
    rw [horderly.stage.of_handle]
    refine Or.inr (Or.inr ⟨_, rfl, ?_, hlike.state, Or.inl ⟨_, rfl, hstart, hstarts⟩⟩)
    exact (pending_committed n _ _).trans (List.append_nil _)
  | unbooted hrunning hstart hlike => exact Or.inl ⟨rfl, hlike.state, rfl⟩
  | @accept _ _ _ e hrunning hstart hlive hlike =>
    obtain ⟨services, -, heq⟩ := a.exists_admitting e
    rw [heq] at hlike
    exact Or.inl ⟨rfl, hlike.state, rfl⟩
  | forward => exact Or.inl ⟨rfl, rfl, rfl⟩
  | move hnext =>
    rw [horderly.stage.of_react.2]
    refine Or.inr (Or.inr ⟨_, rfl, ?_, rfl, Or.inr ⟨_, _, rfl, hnext⟩⟩)
    exact (pending_committed n _ _).trans (List.append_nil _)
  | remove => exact Or.inr (Or.inl ⟨_, _, rfl, rfl, horderly.stage.of_perform.1, rfl⟩)
  | refuse hrunning hduty hlike => exact Or.inl ⟨rfl, hlike.state, rfl⟩
  | issue hrunning hduty hactive hid hgeneration hissued hlike =>
    refine Or.inl ⟨?_, hlike.state, rfl⟩
    cases hissued with
    | plain _ => rfl
    | machine _ => rfl
  | register => exact Or.inl ⟨rfl, rfl, rfl⟩
  | @retract _ _ _ _ id generation hlike =>
    obtain ⟨services, -, heq⟩ := a.exists_without id generation
    rw [heq] at hlike
    exact Or.inl ⟨rfl, hlike.state, rfl⟩

namespace Session

variable {s s₀ : Session}

/-- The actions of a new snapshot are the first that are to be carried out. -/
theorem pending_commit (s : Session) (n : Nat) (snapshot : Snapshot) :
  pending n ((s.commit n snapshot).duties n) = snapshot.actions ++ pending n (s.duties n)
  := by
  rw [commit, ← committed, duties_plan_committed, pending_committed, duties_modify]

/-- The actions that are left are the last ones of the snapshot. -/
theorem Course.pending_suffix (h₀ : s₀.Fresh) (h : Course s₀ ms s) (ha : s.actor? n = some a)
    (hstate : a.state = some snapshot) :
  pending n (s.duties n) <:+ snapshot.actions
  := by
  refine (h.induction_view (P := fun _ a ds => ∀ snapshot, a.state = some snapshot →
    pending n ds <:+ snapshot.actions) ?_ ?_ ?_ h₀).2 a ha snapshot hstate
  · exact fun _ _ _ _ _ _ => List.nil_suffix
  · intro _ a b ds ih hlike snapshot hstate
    exact ih snapshot (hlike.state.symm.trans hstate)
  · intro ms t m a b hcourse hdoes ih ha hb hturn snapshot hstate
    have horderly := hcourse.orderly h₀ ((hdoes.actor? n).symm.trans ha)
    rcases hturn.pending horderly with ⟨hsame, hkept, -⟩ |
        ⟨current, action, hwork, hds, -, hkept⟩ | ⟨next, -, hactions, hnext, -⟩
    · rw [hsame]
      exact ih snapshot (hkept.symm.trans hstate)
    · have hpending := ih snapshot (hkept.symm.trans hstate)
      rw [hds, hwork, pending_perform] at hpending
      exact (List.suffix_cons _ _).trans hpending
    · obtain rfl := Option.some.inj (hnext.symm.trans hstate)
      exact hactions ▸ List.suffix_refl _

/-- What a running interpreter has to do is left to be done, or was done while it was running. -/
theorem Course.done_or_pending (h₀ : s₀.Fresh) (h : Course s₀ (xs ++ m :: ys) s)
    (hb : m.after.actor? n = some b) (hstarted : b.status ≠ .notStarted)
    (hw : w ∈ m.after.duties n) (ha : s.actor? n = some a) (hrunning : a.status = .running) :
  w ∈ s.duties n ∨ ∃ us y vs, ys = us ++ y :: vs ∧ y.work = w ∧ y.before.isRunning n = true
  := by
  refine (h.induction_since (P := fun ys a ds => a.status ≠ .notStarted ∧
    (a.status = .running → w ∈ ds ∨ ∃ us y vs, ys = us ++ y :: vs ∧ y.work = w ∧
      y.before.isRunning n = true)) ?_ ?_ h₀ hb ⟨hstarted, fun _ => Or.inl hw⟩ ha).2 hrunning
  · rintro ys a b ds ih hlike
    rw [hlike.status]
    exact ih
  · rintro ys t y a b hcourse hdoes ⟨hstatus, ih⟩ ha hb hturn
    refine ⟨hturn.started hstatus, fun hrunning => ?_⟩
    have harunning : a.status = .running := by
      rcases hturn.status with hsame | ⟨hnew, -⟩ | ⟨hstopped, -⟩
      · exact hsame.symm.trans hrunning
      · exact absurd hnew hstatus
      · rw [hrunning] at hstopped
        cases hstopped
    rcases ih harunning with hw | ⟨us, z, vs, rfl, hwork, hz⟩
    · rcases hturn.mem_or_eq hw with hw | rfl
      · exact Or.inl hw
      · refine Or.inr ⟨ys, y, [], rfl, rfl, ?_⟩
        exact (isRunning_iff ((hdoes.actor? n).trans ha)).mpr harunning
    · exact Or.inr ⟨us, z, vs ++ [y], by simp, hwork, hz⟩

end Session

end Statechart
