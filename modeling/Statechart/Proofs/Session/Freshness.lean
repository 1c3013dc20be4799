import Statechart.Proofs.Session.Registry

/-!
# Events of services

An event of a service counts while the generation of the service is live.  A macrostep for such
an event is run only after the event was taken from the mailbox with the generation live, and
starts where the owner of the invocation is active; once a generation is removed it is over for
good, and the event that completes a service removes it (`Course.no_stale_traffic`).
-/

namespace Statechart

open Session (committed)
open Actor (kin_admitting)

variable {n : Nat} {a b : Actor} {w : Work} {ds es : List Work} {ms xs ys : List Moment}
  {m : Moment} {e : Envelope} {id : String} {generation : Nat} {snapshot : Snapshot}

/-! ### Works that take an envelope on -/

/-- Whether a work takes an envelope on to the next snapshot. -/
def Work.opens : Work → Bool
  | .handle .. => true
  | .macrostep .. => true
  | .react .. => true
  | _ => false

theorem Performing.opens (h : Performing n snapshot ds) (hw : w ∈ ds) :
  w.opens = false
  := by
  cases h.follows hw <;> rfl

/-- Only the duty at hand takes an envelope on. -/
theorem Stage.opens_tail {state : Option Snapshot} (h : Stage n state (w :: ds)) {x : Work}
    (hx : x ∈ ds) :
  x.opens = false
  := by
  have hpump : x ∈ [Work.pump n] → x.opens = false := by
    intro hx
    rw [List.mem_singleton.mp hx]
    rfl
  cases h with
  | waiting => cases hx
  | handling => exact hpump hx
  | forwarding => exact hpump hx
  | reacting => exact hpump hx
  | failing => exact hpump hx
  | performing h => exact h.opens (List.mem_cons_of_mem _ hx)
  | registering hbacking h => exact (Performing.starting h).opens hx
  | registeringMachine hbacking h =>
    rcases List.mem_cons.mp hx with rfl | hx
    · rfl
    · exact (Performing.starting h).opens hx
  | confirming h => exact (Performing.starting h).opens hx

namespace Turn

/-- What takes an envelope on was there before, or the envelope is taken from the mailbox, or
handed on to its macrostep, or forwarded. -/
theorem of_opens (h : Turn n w a ds b es) (horderly : a.Orderly n ds) {x : Work} (hx : x ∈ es)
    (hopens : x.opens = true) :
  (w.duty? ≠ some n ∧ x ∈ ds) ∨
    (∃ e queue, w = .pump n ∧ x = .handle n e ∧ a.mailbox.queue = e :: queue ∧
      b = { a with mailbox := { a.mailbox with queue } }) ∨
    (∃ e, w = .handle n e ∧ x = .macrostep n e.event e.origin ∧ a.status = .running ∧
      ds = [w, .pump n] ∧ (a.admitting e).Like b ∧
      ∀ id generation, e.origin = .service id generation → a.isLive id generation = true) ∨
    ∃ snapshot event origin, w = .macrostep n event origin ∧ x = .react n snapshot event
  := by
  have htail : ∀ {ds'}, ds = w :: ds' → x ∉ ds' := by
    rintro ds' rfl hx
    exact Bool.false_ne_true ((horderly.stage.opens_tail hx).symm.trans hopens)
  have hnew : ∀ {y}, x = y → y.opens = false → False := by
    rintro y rfl hy
    exact Bool.false_ne_true (hy.symm.trans hopens)
  have hcommitted : ∀ {snapshot}, x ∉ committed n snapshot ++ [.pump n] := by
    intro snapshot hx
    exact hnew rfl ((performing_committed snapshot).opens hx)
  have hcons : ∀ {y ds'}, ds = w :: ds' → x ∈ y :: ds' → x = y := by
    intro y ds' hds hx
    exact (List.mem_cons.mp hx).resolve_right (htail hds)
  cases h with
  | calm hduty _ => exact Or.inl ⟨hduty, hx⟩
  | wake hduty _ _ _ =>
    exact Or.inl ⟨hduty, (List.mem_cons.mp hx).resolve_left (fun heq => hnew heq rfl)⟩
  | start _ =>
    refine Or.inl ⟨nofun, ?_⟩
    split at hx
    · exact hx
    · exact (List.mem_cons.mp hx).resolve_left (fun heq => hnew heq rfl)
  | stop _ _ => exact Or.inl ⟨nofun, hx⟩
  | release _ => exact Or.inl ⟨nofun, hx⟩
  | rest _ => exact absurd hx (htail rfl)
  | @take _ _ e queue hqueue =>
    rcases List.mem_cons.mp hx with rfl | hx
    · exact Or.inr (Or.inl ⟨e, queue, rfl, rfl, hqueue, rfl⟩)
    · exact absurd (hcons rfl hx) (fun heq => hnew heq rfl)
  | idle _ _ => exact absurd hx (htail rfl)
  | boot _ _ _ _ =>
    rw [horderly.stage.of_handle] at hx
    exact absurd hx hcommitted
  | unbooted _ _ _ => exact absurd (hcons rfl hx) (fun heq => hnew heq rfl)
  | @accept _ _ ds e hrunning hstart hlive hlike =>
    have hnil := horderly.stage.of_handle
    subst hnil
    exact Or.inr (Or.inr (Or.inl ⟨e, rfl, hcons rfl hx, hrunning, rfl, hlike, hlive⟩))
  | forward _ => exact Or.inr (Or.inr (Or.inr ⟨_, _, _, rfl, hcons rfl hx⟩))
  | move _ =>
    rw [horderly.stage.of_react.2] at hx
    exact absurd hx hcommitted
  | remove _ _ _ => exact absurd hx (htail rfl)
  | refuse _ _ _ => exact absurd hx (htail rfl)
  | issue _ _ _ _ _ hissued _ =>
    rcases List.mem_append.mp hx with hx | hx
    · cases hissued with
      | plain _ => exact (hnew (List.mem_singleton.mp hx) rfl).elim
      | machine _ =>
        rcases List.mem_pair.mp hx with heq | heq
        · exact (hnew heq rfl).elim
        · exact (hnew heq rfl).elim
    · exact absurd hx (htail rfl)
  | register => exact absurd hx (htail rfl)
  | retract _ => exact absurd hx (htail rfl)

/-- What is to be registered was to be registered before, or has the next generation. -/
theorem of_register_mem (h : Turn n w a ds b es) (horderly : a.Orderly n ds) {service : Service}
    (hmem : .register n service ∈ es) :
  .register n service ∈ ds ∨ service.generation = a.generation + 1
  := by
  have hnew : ∀ {y}, Work.register n service = y → y.registers = false → False := by
    rintro y rfl hy
    exact nomatch hy
  have hcons : ∀ {y : Work} {ds : List Work}, Work.register n service ∈ y :: ds →
      y.registers = false → Work.register n service ∈ ds :=
    fun hmem hy => (List.mem_cons.mp hmem).resolve_left (fun heq => hnew heq hy)
  have hcommitted : ∀ {snapshot}, .register n service ∉ committed n snapshot ++ [.pump n] := by
    intro snapshot hmem
    exact hnew rfl ((performing_committed snapshot).registers hmem)
  cases h with
  | calm => exact Or.inl hmem
  | wake => exact Or.inl (hcons hmem rfl)
  | start =>
    split at hmem
    · exact Or.inl hmem
    · exact Or.inl (hcons hmem rfl)
  | stop => exact Or.inl hmem
  | release => exact Or.inl hmem
  | rest => exact Or.inl (List.mem_cons_of_mem _ hmem)
  | take => exact Or.inl (hcons hmem rfl)
  | idle => exact Or.inl (List.mem_cons_of_mem _ hmem)
  | boot =>
    rw [horderly.stage.of_handle] at hmem
    exact absurd hmem hcommitted
  | unbooted => exact Or.inl (List.mem_cons_of_mem _ (hcons hmem rfl))
  | accept => exact Or.inl (List.mem_cons_of_mem _ (hcons hmem rfl))
  | forward => exact Or.inl (List.mem_cons_of_mem _ (hcons hmem rfl))
  | move =>
    rw [horderly.stage.of_react.2] at hmem
    exact absurd hmem hcommitted
  | remove => exact Or.inl (List.mem_cons_of_mem _ hmem)
  | refuse => exact Or.inl (List.mem_cons_of_mem _ hmem)
  | issue _ _ _ _ hgeneration hissued _ =>
    rcases List.mem_append.mp hmem with hmem | hmem
    · right
      rw [← hgeneration]
      cases hissued with
      | plain _ => rw [(Work.register.inj (List.mem_singleton.mp hmem)).2]
      | machine _ =>
        rcases List.mem_pair.mp hmem with heq | heq
        · rw [(Work.register.inj heq).2]
        · cases heq
    · exact Or.inl (List.mem_cons_of_mem _ hmem)
  | register => exact Or.inl (List.mem_cons_of_mem _ hmem)
  | retract => exact Or.inl (List.mem_cons_of_mem _ hmem)

/-- What is live was live before, or is registered now. -/
theorem of_isLive (h : Turn n w a ds b es)
    (hlive : b.isLive id generation = true) :
  a.isLive id generation = true ∨
    ∃ service, .register n service ∈ ds ∧ service.generation = generation
  := by
  have hsame : ∀ {a b : Actor}, b.services = a.services → b.isLive id generation = true →
      a.isLive id generation = true := by
    intro a b hservices hlive
    rw [Actor.isLive, hservices] at hlive
    exact hlive
  cases h with
  | calm _ hlike => exact Or.inl (hsame hlike.services hlive)
  | @wake _ _ c _ _ _ _ hlike =>
    exact Or.inl (hsame (b := c.claimed) hlike.services hlive)
  | start _ => exact Or.inl hlive
  | stop _ hlike =>
    rw [Actor.isLive, hlike.services] at hlive
    cases hlive
  | release hlike => exact Or.inl (hsame hlike.services hlive)
  | rest _ => exact Or.inl hlive
  | take _ => exact Or.inl hlive
  | idle _ hlike => exact Or.inl (hsame hlike.services hlive)
  | boot _ _ _ hlike => exact Or.inl (hsame hlike.services hlive)
  | unbooted _ _ hlike => exact Or.inl (hsame hlike.services hlive)
  | accept _ _ _ hlike =>
    have hlive := hsame hlike.services hlive
    rw [Actor.admitting] at hlive
    split at hlive
    · split at hlive
      · exact Or.inl (Actor.isLive_of_without hlive)
      · exact Or.inl hlive
    · exact Or.inl hlive
  | forward _ => exact Or.inl hlive
  | move _ => exact Or.inl hlive
  | remove _ _ _ => exact Or.inl (Actor.isLive_of_erase hlive).2
  | refuse _ _ hlike => exact Or.inl (hsame hlike.services hlive)
  | issue _ _ _ _ _ _ hlike => exact Or.inl (hsame hlike.services hlive)
  | @register _ _ service =>
    by_cases hid : id = service.id
    · subst hid
      rw [Actor.isLive, Association.lookup_insertSorted_self, Option.any_some, beq_iff_eq] at hlive
      exact Or.inr ⟨service, List.mem_cons_self, hlive⟩
    · rw [Actor.isLive, Association.lookup_insertSorted_of_ne _ _ hid] at hlive
      exact Or.inl hlive
  | retract hlike =>
    exact Or.inl (Actor.isLive_of_without (hsame hlike.services hlive))

end Turn

/-! ### Exits -/

/-- Whether an interpreter exits the owner of an invocation at a moment, in one of the microsteps
with which it takes an event. -/
def Moment.ExitsOwner (n : Nat) (id : String) (m : Moment) : Prop :=
  ∃ a i snapshot event next steps, m.work = .react n snapshot event ∧
    m.before.actor? n = some a ∧ a.machine.chart.invocation? id = some i ∧
    a.machine.transition snapshot event = .ok next ∧ a.machine.Moves snapshot event steps next ∧
    ∃ x ∈ steps, Progress.Step.Exits a.machine.chart i.owner x

/-- Whether the owner of an invocation, which was active before an event, is inactive after it. -/
def Moment.leavesOwner (n : Nat) (id : String) (m : Moment) : Bool :=
  match m.work with
  | .react k snapshot event =>
    k == n && (m.before.actor? n).any fun a =>
      (a.machine.chart.invocation? id).any fun i =>
        snapshot.isActive i.owner &&
          match a.machine.transition snapshot event with
          | .ok next => !next.isActive i.owner
          | .error _ => false
  | _ => false

theorem exitsOwner_of_leavesOwner (h : m.leavesOwner n id = true) :
  m.ExitsOwner n id
  := by
  rw [Moment.leavesOwner] at h
  split at h
  · next k snapshot event hwork =>
    rw [Bool.and_eq_true, beq_iff_eq] at h
    obtain ⟨rfl, h⟩ := h
    obtain ⟨a, ha, h⟩ := (Option.any_eq_true _ _).mp h
    obtain ⟨i, hi, h⟩ := (Option.any_eq_true _ _).mp h
    rw [Bool.and_eq_true] at h
    obtain ⟨hactive, h⟩ := h
    split at h
    · next next hnext =>
      obtain ⟨steps, hmoves⟩ := Machine.exists_moves hnext
      refine ⟨a, i, snapshot, event, next, steps, hwork, ha, hi, hnext, hmoves, ?_⟩
      by_contra hnone
      push Not at hnone
      rw [hmoves.isActive hactive hnone] at h
      cases h
    · cases h
  · cases h

/-! ### Generations that are over -/

/-- Whether the live service of an id at an interpreter has a generation. -/
def Session.isLive (s : Session) (n : Nat) (id : String) (generation : Nat) : Bool :=
  (s.actor? n).any (fun a => a.isLive id generation)

/-- Whether a generation is live before a moment, and not after it. -/
def Moment.Removes (n : Nat) (id : String) (generation : Nat) (m : Moment) : Prop :=
  m.before.isLive n id generation = true ∧ m.after.isLive n id generation = false

/-- Whether an envelope is handled at a moment, and a macrostep is to be run for it after that. -/
def Moment.Hands (n : Nat) (e : Envelope) (m : Moment) : Prop :=
  m.work = .handle n e ∧ .macrostep n e.event e.origin ∈ m.after.agenda

/-- Whether a generation was issued, is not live and is not about to be registered. -/
structure Actor.Over (n : Nat) (id : String) (generation : Nat) (a : Actor) (ds : List Work) :
    Prop where
  bounded : generation ≤ a.generation
  dead : a.isLive id generation = false
  unpending : ∀ service, .register n service ∈ ds → service.generation ≠ generation

namespace Actor

theorem Over.like (h : a.Over n id generation ds) (hlike : a.Like b) :
  b.Over n id generation ds
  := by
  constructor
  case bounded =>
    rw [hlike.generation]
    exact h.bounded
  case dead =>
    rw [isLive, hlike.services]
    exact h.dead
  case unpending => exact h.unpending

/-- What is over stays over. -/
theorem Over.turn (h : a.Over n id generation ds) (horderly : a.Orderly n ds)
    (hturn : Turn n w a ds b es) :
  b.Over n id generation es
  := by
  constructor
  case bounded =>
    have hbounded := h.bounded
    rcases hturn.generation with hsame | ⟨hnext, -⟩ <;> omega
  case dead =>
    rw [Bool.eq_false_iff]
    intro hlive
    rcases hturn.of_isLive hlive with hlive | ⟨service, hmem, hgeneration⟩
    · exact Bool.false_ne_true (h.dead.symm.trans hlive)
    · exact h.unpending service hmem hgeneration
  case unpending =>
    intro service hmem
    have hbounded := h.bounded
    rcases hturn.of_register_mem horderly hmem with hmem | hgeneration
    · exact h.unpending service hmem
    · omega

/-- What is removed is over. -/
theorem Registered.over {is : List (String × Nat)} (h : a.Registered n is ds)
    (horderly : a.Orderly n ds) (hturn : Turn n w a ds b es)
    (hlive : a.isLive id generation = true) (hdead : b.isLive id generation = false) :
  b.Over n id generation es
  := by
  obtain ⟨service, hlookup, hgeneration⟩ := (Option.any_eq_true _ _).mp hlive
  have hgeneration : service.generation = generation := by simpa using hgeneration
  have hmem : (id, service) ∈ a.services := Association.mem_of_lookup hlookup
  have hbounded := h.bounded _ hmem
  dsimp only at hbounded
  constructor
  case bounded => rcases hturn.generation with hsame | ⟨hnext, -⟩ <;> omega
  case dead => exact hdead
  case unpending =>
    intro later hregister
    rcases hturn.of_register_mem horderly hregister with hregister | hnext
    · obtain ⟨-, -, -, hlater⟩ := h.pending later hregister
      have hlt := hlater _ hmem
      dsimp only at hlt
      omega
    · omega

end Actor

/-- The turn with which an envelope is handed on. -/
theorem Moment.Hands.accepts (h : m.Hands n e) (horderly : a.Orderly n ds)
    (hturn : Turn n m.work a ds b (m.after.duties n)) :
  a.status = .running ∧ ds = [.handle n e, .pump n] ∧ (a.admitting e).Like b ∧
    ∀ id generation, e.origin = .service id generation → a.isLive id generation = true
  := by
  obtain ⟨hwork, hagenda⟩ := h
  have hmem : .macrostep n e.event e.origin ∈ m.after.duties n := by
    exact List.mem_filter.mpr ⟨hagenda, by simp [Work.duty?]⟩
  rcases hturn.of_opens horderly hmem rfl with ⟨hduty, -⟩ | ⟨_, _, -, heq, -⟩ |
      ⟨e', hw, -, hrunning, hds, hlike, hlive⟩ | ⟨_, _, _, -, heq⟩
  · rw [hwork] at hduty
    exact absurd rfl hduty
  · cases heq
  · rw [hwork, Work.handle.injEq] at hw
    obtain ⟨-, rfl⟩ := hw
    rw [hwork] at hds
    exact ⟨hrunning, hds, hlike, hlive⟩
  · cases heq

/-! ### Where an event comes from -/

/-- Whether an interpreter has just taken an envelope from its mailbox: it had no duty since. -/
def Taken (n : Nat) (e : Envelope) (a : Actor) (ms : List Moment) : Prop :=
  ∃ xs m ys queue, ms = xs ++ m :: ys ∧ m.work = .pump n ∧ m.before.actor? n = some a ∧
    a.mailbox.queue = e :: queue ∧ ∀ y ∈ ys, y.work.duty? ≠ some n

/-- Whether an envelope that an interpreter has just taken was handed on to a macrostep, which
is still to be run.  If it is an event of a service, then this was live when it was taken. -/
def Handed (n : Nat) (e : Envelope) (ms : List Moment) : Prop :=
  ∃ xs m ys a, ms = xs ++ m :: ys ∧ Taken n e a xs ∧ m.Hands n e ∧
    (∀ id generation, e.origin = .service id generation → a.isLive id generation = true) ∧
    ∀ y ∈ ys, y.work.duty? ≠ some n

theorem Taken.concat (h : Taken n e a ms) (hm : m.work.duty? ≠ some n) :
  Taken n e a (ms ++ [m])
  := by
  obtain ⟨xs, p, ys, queue, rfl, hwork, ha, hqueue, hys⟩ := h
  refine ⟨xs, p, ys ++ [m], queue, by simp, hwork, ha, hqueue, ?_⟩
  exact List.forall_mem_append.mpr ⟨hys, List.forall_mem_singleton.mpr hm⟩

theorem Handed.concat (h : Handed n e ms) (hm : m.work.duty? ≠ some n) :
  Handed n e (ms ++ [m])
  := by
  obtain ⟨xs, p, ys, a, rfl, htaken, hhands, hlive, hys⟩ := h
  refine ⟨xs, p, ys ++ [m], a, by simp, htaken, hhands, hlive, ?_⟩
  exact List.forall_mem_append.mpr ⟨hys, List.forall_mem_singleton.mpr hm⟩

namespace Session

variable {s s₀ : Session}

/-- A generation that was removed at some moment is over ever after. -/
theorem Course.over (h₀ : s₀.Fresh) (h : Course s₀ ms s) (ha : s.actor? n = some a) (hm : m ∈ ms)
    (hremoves : m.Removes n id generation) :
  a.Over n id generation (s.duties n)
  := by
  refine (h.induction_view (P := fun ms a ds => ∀ m ∈ ms, m.Removes n id generation →
    a.Over n id generation ds) ?_ ?_ ?_ h₀).2 a ha m hm hremoves
  · intro ms a hprecedes _ m hm hremoves
    have hlive := hremoves.1
    rw [isLive, (hprecedes m hm).1] at hlive
    cases hlive
  · exact fun ms a b ds hover hlike m hm hremoves => (hover m hm hremoves).like hlike
  · intro ms t m a b hcourse hdoes ih ha hb hturn x hx hremoves
    have ht : t.actor? n = some a := (hdoes.actor? n).symm.trans ha
    have horderly := hcourse.orderly h₀ ht
    rcases List.mem_append.mp hx with hx | hx
    · exact (ih x hx hremoves).turn horderly hturn
    · rw [List.mem_singleton.mp hx] at hremoves
      obtain ⟨hlive, hdead⟩ := hremoves
      rw [isLive, ha] at hlive
      rw [isLive, hb] at hdead
      exact (hcourse.registered h₀ ht).2.over horderly hturn hlive hdead

/-- An envelope at hand was just taken from the mailbox, and a macrostep that is to be run was
handed an envelope. -/
theorem Course.opened (h₀ : s₀.Fresh) (h : Course s₀ ms s) (ha : s.actor? n = some a) :
  (∀ e, .handle n e ∈ s.duties n → a.status ≠ .stopped →
      ∃ a₀, Taken n e a₀ ms ∧ a₀.services = a.services) ∧
    ∀ event origin, .macrostep n event origin ∈ s.duties n → Handed n ⟨event, origin⟩ ms ∧
      ∀ id generation, origin = .service id generation → a.Owns id
  := by
  refine (h.induction_view (P := fun ms a ds =>
    (∀ e, .handle n e ∈ ds → a.status ≠ .stopped → ∃ a₀, Taken n e a₀ ms ∧
      a₀.services = a.services) ∧
    ∀ event origin, .macrostep n event origin ∈ ds → Handed n ⟨event, origin⟩ ms ∧
      ∀ id generation, origin = .service id generation → a.Owns id) ?_ ?_ ?_ h₀).2 a ha
  · exact fun ms a _ _ => ⟨nofun, nofun⟩
  · rintro ms a b ds ⟨htaken, hhanded⟩ hlike
    constructor
    · intro e hmem hstatus
      rw [hlike.status] at hstatus
      rw [hlike.services]
      exact htaken e hmem hstatus
    · intro event origin hmem
      obtain ⟨hevent, howns⟩ := hhanded event origin hmem
      exact ⟨hevent, fun id generation heq =>
        (howns id generation heq).congr hlike.chart hlike.state⟩
  · rintro ms t m a b hcourse hdoes ⟨htaken, hhanded⟩ ha hb hturn
    have ht : t.actor? n = some a := (hdoes.actor? n).symm.trans ha
    have horderly := hcourse.orderly h₀ ht
    constructor
    · intro e hmem hstatus
      rcases hturn.of_opens horderly hmem rfl with ⟨hduty, hmem⟩ |
          ⟨e', queue, hw, heq, hqueue, rfl⟩ | ⟨_, _, heq, -⟩ | ⟨_, _, _, _, heq⟩
      · have hrunning : a.status ≠ .stopped := fun hstopped => hstatus (hturn.stopped hstopped)
        obtain ⟨a₀, htaken, hservices⟩ := htaken e hmem hrunning
        obtain ⟨-, -, hsame⟩ := hturn.outside hduty
        exact ⟨a₀, htaken.concat hduty, hservices.trans (hsame hstatus).symm⟩
      · cases heq
        exact ⟨a, ⟨ms, m, [], queue, rfl, hw, ha, hqueue, List.forall_mem_nil _⟩, rfl⟩
      · cases heq
      · cases heq
    · intro event origin hmem
      rcases hturn.of_opens horderly hmem rfl with ⟨hduty, hmem⟩ | ⟨_, _, -, heq, -⟩ |
          ⟨e, hw, heq, hrunning, hds, hlike, hlive⟩ | ⟨_, _, _, -, heq⟩
      · obtain ⟨hevent, howns⟩ := hhanded event origin hmem
        obtain ⟨hchart, hstate, -⟩ := hturn.outside hduty
        exact ⟨hevent.concat hduty, fun id generation heq =>
          (howns id generation heq).congr hchart hstate⟩
      · cases heq
      · have hhands : m.Hands n e := by
          rw [heq] at hmem
          exact ⟨hw, (List.mem_filter.mp hmem).1⟩
        obtain ⟨rfl, rfl⟩ : event = e.event ∧ origin = e.origin := by simpa using heq
        have hhandle : .handle n e ∈ t.duties n := by
          rw [hds, hw]
          exact List.mem_cons_self
        have hopen : a.status ≠ .stopped := by
          rw [hrunning]
          exact nofun
        obtain ⟨a₀, htaken, hservices⟩ := htaken e hhandle hopen
        constructor
        · refine ⟨ms, m, [], a₀, rfl, htaken, hhands, ?_, List.forall_mem_nil _⟩
          intro id generation heq
          rw [Actor.isLive, hservices]
          exact hlive id generation heq
        · intro id generation heq
          have hregistered := (hcourse.registered h₀ ht).2
          obtain ⟨service, hlookup, -⟩ := (Option.any_eq_true _ _).mp (hlive id generation heq)
          have hservice := Association.mem_of_lookup hlookup
          rcases hregistered.owned hrunning _ hservice with howns | ⟨s, action, hstop, -⟩
          · exact (howns.congr (kin_admitting a e).chart (kin_admitting a e).state).congr
              hlike.chart hlike.state
          · rw [hds, hw] at hstop
            rcases List.mem_pair.mp hstop with heq | heq <;> cases heq
      · cases heq

/-- An event that completes a service removes its generation. -/
theorem removes_of_hands (h : m.Hands n e) {a b : Actor} {ds : List Work}
    (horderly : a.Orderly n ds) (ha : m.before.actor? n = some a) (hb : m.after.actor? n = some b)
    (hturn : Turn n m.work a ds b (m.after.duties n)) (horigin : e.origin = .service id generation)
    (hcompletes : completes e.event.name id = true) :
  m.Removes n id generation
  := by
  obtain ⟨-, -, hlike, hlive⟩ := h.accepts horderly hturn
  constructor
  · rw [isLive, ha]
    exact hlive id generation horigin
  · have hwithout := Actor.isLive_without_self a id generation
    rw [Actor.admitting, horigin] at hlike
    dsimp only at hlike
    rw [if_pos hcompletes] at hlike
    rw [isLive, hb, Option.any_some, Actor.isLive, hlike.services]
    exact hwithout

/-- Let a course be given, and a generation of an id.  A macrostep for an event of this generation
is run only after the event was taken from the mailbox with the generation live, and handed on,
without any other duty between; it starts from a snapshot in which the owner of the invocation is
active.  Once the generation is removed, no event of it is handed on any more.  At most one event
that completes the service is handed on. -/
theorem Course.no_stale_traffic (h₀ : s₀.Fresh) (h : Course s₀ ms s) (n : Nat) (id : String)
    (generation : Nat) :
  (∀ xs m ys event, ms = xs ++ m :: ys → m.work = .macrostep n event (.service id generation) →
    Handed n ⟨event, .service id generation⟩ xs ∧
      ∃ a i snapshot, m.before.actor? n = some a ∧ a.machine.chart.invocation? id = some i ∧
        a.state = some snapshot ∧ snapshot.isActive i.owner = true) ∧
  (∀ xs m ys, ms = xs ++ m :: ys → m.Removes n id generation →
    ∀ y ∈ ys, ∀ event, ¬ y.Hands n ⟨event, .service id generation⟩) ∧
  ∀ xs m ys event, ms = xs ++ m :: ys → m.Hands n ⟨event, .service id generation⟩ →
    completes event.name id = true → ∀ y ∈ ys, ∀ later, ¬ y.Hands n ⟨later, .service id generation⟩
  := by
  have hover : ∀ xs m ys, ms = xs ++ m :: ys → m.Removes n id generation →
      ∀ y ∈ ys, ∀ event, ¬ y.Hands n ⟨event, .service id generation⟩ := by
    rintro xs m ys rfl hremoves y hy event hhands
    obtain ⟨zs, us, rfl⟩ := List.append_of_mem hy
    rw [← List.cons_append, ← List.append_assoc] at h
    obtain ⟨t, hcourse, hdoes, -⟩ := h.split
    obtain ⟨a, ht⟩ := hcourse.exists_actor h₀ (hdoes.mem_duties hhands.1 rfl)
    have ha := (hdoes.actor? n).trans ht
    obtain ⟨b, -, hturn⟩ := hcourse.exists_turn h₀ hdoes ha
    obtain ⟨-, -, -, hlive⟩ := hhands.accepts (hcourse.orderly h₀ ht) hturn
    have hdead := (hcourse.over h₀ ht (List.mem_append_right _ List.mem_cons_self) hremoves).dead
    rw [hlive id generation rfl] at hdead
    cases hdead
  refine ⟨?_, hover, ?_⟩
  · rintro xs m ys event rfl hwork
    obtain ⟨t, hcourse, hdoes, -⟩ := h.split
    have hmem := hdoes.mem_duties hwork rfl
    obtain ⟨a, ht⟩ := hcourse.exists_actor h₀ hmem
    obtain ⟨hhanded, howns⟩ := (hcourse.opened h₀ ht).2 _ _ hmem
    obtain ⟨i, snapshot, hi, hstate, hactive⟩ := howns id generation rfl
    exact ⟨hhanded, a, i, snapshot, (hdoes.actor? n).trans ht, hi, hstate, hactive⟩
  · rintro xs m ys event rfl hhands hcompletes y hy later
    obtain ⟨t, hcourse, hdoes, -⟩ := h.split
    obtain ⟨a, ht⟩ := hcourse.exists_actor h₀ (hdoes.mem_duties hhands.1 rfl)
    have ha := (hdoes.actor? n).trans ht
    obtain ⟨b, hb, hturn⟩ := hcourse.exists_turn h₀ hdoes ha
    have hremoves := removes_of_hands hhands (hcourse.orderly h₀ ht) ha hb hturn rfl hcompletes
    exact hover xs m ys rfl hremoves y hy later

/-- A script that sends an event and then fails. -/
def failing : Script where
  start := [.send (.bare "PING"), .fail .null]

/-- Whether a work is a macrostep for the failure of the first service `x`. -/
def isFailure : Work → Bool
  | .macrostep 0 event (.service "x" 1) => completes event.name "x"
  | _ => false

theorem no_stale_traffic_reinvoking :
  ∃ chart, Chart.ofDocument reinvoking = .ok chart ∧
    ∃ ms s, (ofScript chart failing).Fresh ∧ Course (ofScript chart failing) ms s ∧
      issued root ms = [("x", 1), ("x", 2)] ∧
      ∃ xs m ys event, ms = xs ++ m :: ys ∧ m.Hands root ⟨event, .service "x" 1⟩ ∧
        completes event.name "x" = true ∧ ∀ y ∈ ys, ∀ later, ¬ y.Hands root ⟨later, .service "x" 1⟩
  := by
  obtain ⟨chart, h, hp⟩ := Outcome.exists_of_any (x := Chart.ofDocument reinvoking)
    (p := fun chart =>
      let run := (ofScript chart failing).conduct 50 [.start root, .send root (.bare "GO")]
      issued root run.1 = [("x", 1), ("x", 2)] ∧ run.1.any (fun m => isFailure m.work) = true)
    (by decide +kernel)
  obtain ⟨hissued, hfailure⟩ := of_decide_eq_true hp
  have h₀ : (ofScript chart failing).Fresh := fresh_ofScript ⟨reinvoking, h⟩ failing
  have hcourse := course_conduct 50 (ofScript chart failing)
    [.start root, .send root (.bare "GO")] (by decide)
  obtain ⟨hhanded, -, honce⟩ := hcourse.no_stale_traffic h₀ root "x" 1
  obtain ⟨m, hm, hfailure⟩ := List.any_eq_true.mp hfailure
  obtain ⟨xs, ys, hms⟩ := List.append_of_mem hm
  unfold isFailure at hfailure
  split at hfailure
  · next event hwork =>
    obtain ⟨⟨zs, p, us, a, rfl, -, hhands, -⟩, -⟩ := hhanded xs m ys event hms hwork
    rw [List.append_assoc, List.cons_append] at hms
    exact ⟨chart, h, _, _, h₀, hcourse, hissued, zs, p, us ++ m :: ys, event, hms, hhands, hfailure,
      honce zs p _ event hms hhands hfailure⟩
  · cases hfailure

end Session

end Statechart
