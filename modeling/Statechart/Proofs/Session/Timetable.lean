import Statechart.Proofs.Clock.Timers
import Statechart.Proofs.Session.Registry

/-!
# The timetable of the delayed sends

An interpreter keeps a table of its delayed sends, and the clock the timers that are to fire them.
`Timetable` says that the two match, entry by entry and timer by timer, where a timer that has just
run still counts until its envelope is handled.  Whatever is done to both keeps the match: a send is
armed or cancelled, a timer becomes due, and its send is taken from the table.
-/

namespace Statechart

/-- Whether a timer fires a delayed send of the root. -/
def Timer.Serves (t : Timer Alarm) (e : SendId × DelayedSend) : Prop :=
  t.number = e.2.timer ∧
    ∃ event, t.task = .post Session.root ⟨event, .timer e.1 e.2.generation⟩

/-- Whether the table of delayed sends and the timers match.  Of the timers, those in `flying` have
just run, and their envelopes are still to be handled. -/
structure Timetable (timers : List (SendId × DelayedSend)) (flying : List (Timer Alarm))
    (clock : Clock Alarm) : Prop where
  ordered : clock.pending.Pairwise Clock.Precedes
  scheduled : ∀ t ∈ flying ++ clock.pending, t.number < clock.scheduled
  cancelled : ∀ i ∈ clock.cancelled, i < clock.scheduled
  numbers : ((flying ++ clock.pending).map Timer.number).Nodup
  keys : (timers.map Prod.fst).Nodup
  served : ∀ e ∈ timers, ∃ t ∈ flying ++ clock.live, t.Serves e
  serves : ∀ t ∈ flying ++ clock.live, ∃ e ∈ timers, t.Serves e
  due : ∀ t ∈ clock.pending, clock.now ≤ t.deadline

variable {timers : List (SendId × DelayedSend)} {flying : List (Timer Alarm)}
  {clock clock' : Clock Alarm} {t u : Timer Alarm} {e f : SendId × DelayedSend} {id : SendId}
  {d : DelayedSend} {target : Nat}

theorem Timer.Serves.key_eq (h : t.Serves e) (h' : t.Serves f) :
  e.1 = f.1 ∧ e.2.timer = f.2.timer
  := by
  obtain ⟨hnumber, event, htask⟩ := h
  obtain ⟨hnumber', event', htask'⟩ := h'
  rw [htask] at htask'
  simp only [Alarm.post.injEq, Envelope.mk.injEq, Origin.timer.injEq] at htask'
  exact ⟨htask'.2.2.1, hnumber.symm.trans hnumber'⟩

namespace Timetable

/-! ### One to one -/

theorem mem_pending (ht : t ∈ flying ++ clock.live) :
  t ∈ flying ++ clock.pending
  := by
  rcases List.mem_append.mp ht with ht | ht
  · exact List.mem_append_left _ ht
  · exact List.mem_append_right _ (Clock.mem_live.mp ht).1

/-- Timers of the same number are the same. -/
theorem timer_eq (h : Timetable timers flying clock) (ht : t ∈ flying ++ clock.pending)
    (hu : u ∈ flying ++ clock.pending) (heq : t.number = u.number) :
  t = u
  := List.inj_on_of_nodup_map h.numbers ht hu heq

/-- Delayed sends of the same id are the same. -/
theorem entry_eq (h : Timetable timers flying clock) (he : e ∈ timers) (hf : f ∈ timers)
    (heq : e.1 = f.1) :
  e = f
  := List.inj_on_of_nodup_map h.keys he hf heq

/-- Every delayed send has one timer. -/
theorem existsUnique_timer (h : Timetable timers flying clock) (he : e ∈ timers) :
  ∃! t, t ∈ flying ++ clock.live ∧ t.Serves e
  := by
  obtain ⟨t, ht, hserves⟩ := h.served e he
  refine ⟨t, ⟨ht, hserves⟩, ?_⟩
  rintro u ⟨hu, hserves'⟩
  exact h.timer_eq (mem_pending hu) (mem_pending ht) (hserves'.1.trans hserves.1.symm)

/-- Every timer fires one delayed send. -/
theorem existsUnique_entry (h : Timetable timers flying clock) (ht : t ∈ flying ++ clock.live) :
  ∃! e, e ∈ timers ∧ t.Serves e
  := by
  obtain ⟨e, he, hserves⟩ := h.serves t ht
  refine ⟨e, ⟨he, hserves⟩, ?_⟩
  rintro f ⟨hf, hserves'⟩
  exact h.entry_eq hf he (hserves'.key_eq hserves).1

/-- Delayed sends with the same timer are the same. -/
theorem entry_eq_of_timer (h : Timetable timers flying clock) (he : e ∈ timers) (hf : f ∈ timers)
    (heq : e.2.timer = f.2.timer) :
  e = f
  := by
  obtain ⟨t, ht, hserves⟩ := h.served e he
  obtain ⟨u, hu, hserves'⟩ := h.served f hf
  have hsame : t = u := h.timer_eq (mem_pending ht) (mem_pending hu)
    (hserves.1.trans (heq.trans hserves'.1.symm))
  subst hsame
  exact h.entry_eq he hf (hserves.key_eq hserves').1

/-! ### What is done to the table and the clock -/

/-- A delayed send is cancelled. -/
theorem cancel (h : Timetable timers [] clock) (hlookup : timers.lookup id = some d) :
  Timetable (Association.erase id timers) [] (clock.cancel d.timer)
  := by
  have hd := Association.mem_of_lookup hlookup
  constructor
  case ordered =>
    rw [Clock.pending_cancel]
    exact h.ordered
  case scheduled =>
    rw [Clock.pending_cancel, (Clock.now_cancel clock d.timer).2]
    exact h.scheduled
  case cancelled =>
    intro i hi
    rw [(Clock.now_cancel clock d.timer).2]
    rcases Clock.mem_cancelled_cancel hi with rfl | hi
    · obtain ⟨t, ht, hserves⟩ := h.served _ hd
      rw [← hserves.1]
      exact h.scheduled t (mem_pending ht)
    · exact h.cancelled i hi
  case numbers =>
    rw [Clock.pending_cancel]
    exact h.numbers
  case keys => exact h.keys.sublist (List.filter_sublist.map _)
  case served =>
    intro e he
    obtain ⟨he, hne⟩ := Association.mem_erase.mp he
    obtain ⟨t, ht, hserves⟩ := h.served e he
    refine ⟨t, Clock.mem_live_cancel.mpr ⟨ht, ?_⟩, hserves⟩
    intro heq
    exact hne (congrArg Prod.fst (h.entry_eq_of_timer he hd (hserves.1.symm.trans heq)))
  case serves =>
    intro t ht
    obtain ⟨ht, hne⟩ := Clock.mem_live_cancel.mp ht
    obtain ⟨e, he, hserves⟩ := h.serves t ht
    refine ⟨e, Association.mem_erase.mpr ⟨he, ?_⟩, hserves⟩
    intro hkey
    rw [h.entry_eq he hd hkey] at hserves
    exact hne hserves.1
  case due =>
    rw [Clock.pending_cancel, (Clock.now_cancel clock d.timer).1]
    exact h.due

/-- A timer that is scheduled is live, and the others stay as they are. -/
theorem mem_live_schedule (h : Timetable timers [] clock) (delay : Nat) (alarm : Alarm) :
  t ∈ (clock.schedule delay alarm).live ↔
    t = ⟨clock.now + delay, clock.scheduled, alarm⟩ ∨ t ∈ clock.live
  := by
  have hnew : clock.isCancelled clock.scheduled = false := by
    rw [Clock.isCancelled, List.contains_eq_mem, decide_eq_false_iff_not]
    exact fun hmem => Nat.lt_irrefl _ (h.cancelled _ hmem)
  rw [Clock.mem_live, Clock.mem_live]
  change t ∈ Clock.insertTimer _ _ ∧ clock.isCancelled t.number = false ↔ _
  rw [Clock.mem_insertTimer, or_and_right]
  refine or_congr_left (and_iff_left_of_imp ?_)
  rintro rfl
  exact hnew

/-- A delayed send is armed. -/
theorem schedule (h : Timetable timers [] clock) (hlookup : timers.lookup id = none)
    (delay : Nat) (event : Event) (generation : Nat) (destination : Destination) :
  Timetable ((id, ⟨generation, clock.nextNumber, destination⟩) :: timers) []
    (clock.schedule delay (.post Session.root ⟨event, .timer id generation⟩))
  := by
  have hnumbers : ∀ u ∈ clock.pending, clock.scheduled ≠ u.number :=
    fun u hu => Nat.ne_of_gt (h.scheduled u hu)
  constructor
  case ordered => exact Clock.insertTimer_ordered h.ordered hnumbers
  case scheduled =>
    intro t ht
    rcases Clock.mem_insertTimer.mp ht with rfl | ht
    · exact Nat.lt_succ_self _
    · exact Nat.lt_succ_of_lt (h.scheduled t ht)
  case cancelled => exact fun i hi => Nat.lt_succ_of_lt (h.cancelled i hi)
  case numbers =>
    refine ((Clock.insertTimer_perm _ _).map Timer.number).nodup_iff.mpr
      (List.nodup_cons.mpr ⟨?_, h.numbers⟩)
    intro hmem
    obtain ⟨u, hu, heq⟩ := List.mem_map.mp hmem
    exact hnumbers u hu heq.symm
  case keys =>
    refine List.nodup_cons.mpr ⟨?_, h.keys⟩
    intro hmem
    obtain ⟨e, he, rfl⟩ := List.mem_map.mp hmem
    exact Association.lookup_ne_none_of_mem he hlookup
  case served =>
    intro e he
    rcases List.mem_cons.mp he with rfl | he
    · exact ⟨_, (h.mem_live_schedule delay _).mpr (Or.inl rfl), rfl, event, rfl⟩
    · obtain ⟨t, ht, hserves⟩ := h.served e he
      exact ⟨t, (h.mem_live_schedule delay _).mpr (Or.inr ht), hserves⟩
  case serves =>
    intro t ht
    rcases (h.mem_live_schedule delay _).mp ht with rfl | ht
    · exact ⟨_, List.mem_cons_self, rfl, event, rfl⟩
    · obtain ⟨e, he, hserves⟩ := h.serves t ht
      exact ⟨e, List.mem_cons_of_mem _ he, hserves⟩
  case due =>
    intro t ht
    rcases Clock.mem_insertTimer.mp ht with rfl | ht
    · exact Nat.le_add_right _ _
    · exact h.due t ht

/-- The first timer runs, unless it is cancelled. -/
theorem run (h : Timetable timers [] clock) (hdue : clock.due? target = some (t, clock')) :
  Timetable timers (if clock.isCancelled t.number then [] else [t]) clock' ∧
    clock'.now = t.deadline ∧
    clock.live = (if clock.isCancelled t.number then [] else [t]) ++ clock'.live
  := by
  obtain ⟨rest, hpending, -, rfl⟩ := Clock.due?_eq_some hdue
  have hlive := Clock.live_of_pending_cons hpending t.deadline
  have hflying : (if clock.isCancelled t.number then [] else [t]) ++ rest ⊆ clock.pending := by
    rw [hpending]
    split
    · exact List.subset_cons_self _ _
    · exact List.Subset.refl _
  have hordered := h.ordered
  have hnumbers := h.numbers
  rw [hpending] at hordered
  rw [List.nil_append, hpending] at hnumbers
  refine ⟨?_, rfl, hlive⟩
  constructor
  case ordered => exact (List.pairwise_cons.mp hordered).2
  case scheduled => exact fun u hu => h.scheduled u (hflying hu)
  case cancelled => exact h.cancelled
  case numbers =>
    split
    · exact (List.nodup_cons.mp hnumbers).2
    · exact hnumbers
  case keys => exact h.keys
  case served =>
    rw [← hlive]
    exact h.served
  case serves =>
    rw [← hlive]
    exact h.serves
  case due =>
    intro u hu
    rcases (List.pairwise_cons.mp hordered).1 u hu with hlt | ⟨heq, -⟩
    · exact Nat.le_of_lt hlt
    · exact Nat.le_of_eq heq

/-- No timer becomes due. -/
theorem arrive (h : Timetable timers [] clock) (hdue : clock.due? target = none) :
  Timetable timers [] (clock.arrive target) ∧ ∀ t ∈ clock.pending, target < t.deadline
  := by
  have hlater : ∀ t ∈ clock.pending, target < t.deadline := by
    intro t ht
    rw [Clock.due?] at hdue
    have hordered := h.ordered
    cases hpending : clock.pending with
    | nil =>
      rw [hpending] at ht
      cases ht
    | cons u rest =>
      rw [hpending] at hdue hordered ht
      dsimp only at hdue
      have hfirst : target < u.deadline := by
        by_contra hle
        rw [if_pos (Nat.le_of_not_lt hle)] at hdue
        cases hdue
      rcases List.mem_cons.mp ht with rfl | ht
      · exact hfirst
      · rcases (List.pairwise_cons.mp hordered).1 t ht with hlt | ⟨heq, -⟩
        · exact Nat.lt_trans hfirst hlt
        · exact heq ▸ hfirst
  refine ⟨?_, hlater⟩
  exact ⟨h.ordered, h.scheduled, h.cancelled, h.numbers, h.keys, h.served, h.serves,
    fun t ht => Nat.le_of_lt (hlater t ht)⟩

/-- The delayed send of a timer that has run is taken from the table. -/
theorem take (h : Timetable timers [t] clock) :
  ∃ id d event, t.task = .post Session.root ⟨event, .timer id d.generation⟩ ∧
    timers.lookup id = some d ∧ d.timer = t.number ∧
    Timetable (Association.erase id timers) [] clock
  := by
  obtain ⟨⟨id, d⟩, he, hnumber, event, htask⟩ := h.serves t List.mem_cons_self
  have hlookup : timers.lookup id = some d := by
    obtain ⟨d', hd'⟩ := Option.ne_none_iff_exists'.mp (Association.lookup_ne_none_of_mem he)
    have hsame := h.entry_eq (Association.mem_of_lookup hd') he rfl
    rw [Prod.mk.injEq] at hsame
    rw [hd', hsame.2]
  have hne : ∀ u ∈ clock.live, u.number ≠ t.number := by
    intro u hu heq
    refine (List.nodup_cons.mp h.numbers).1 (List.mem_map.mpr ⟨u, ?_, heq⟩)
    exact (Clock.mem_live.mp hu).1
  refine ⟨id, d, event, htask, hlookup, hnumber.symm, ?_⟩
  constructor
  case ordered => exact h.ordered
  case scheduled => exact fun u hu => h.scheduled u (List.mem_cons_of_mem _ hu)
  case cancelled => exact h.cancelled
  case numbers => exact (List.nodup_cons.mp h.numbers).2
  case keys => exact h.keys.sublist (List.filter_sublist.map _)
  case served =>
    intro f hf
    obtain ⟨hf, hkey⟩ := Association.mem_erase.mp hf
    obtain ⟨u, hu, hserves⟩ := h.served f hf
    rcases List.mem_cons.mp hu with rfl | hu
    · exact absurd (hserves.key_eq ⟨hnumber, event, htask⟩).1 hkey
    · exact ⟨u, hu, hserves⟩
  case serves =>
    intro u hu
    obtain ⟨f, hf, hserves⟩ := h.serves u (List.mem_cons_of_mem _ hu)
    refine ⟨f, Association.mem_erase.mpr ⟨hf, ?_⟩, hserves⟩
    intro hkey
    rw [h.entry_eq hf he hkey] at hserves
    exact hne u hu (hserves.1.trans hnumber.symm)
  case due => exact h.due

end Timetable

/-! ### When a delayed send is due -/

/-- Whether a delayed send of the root to itself is due at a time, when the timers in a list are to
fire: it is armed, and its timer sends the event.  It is due at no time if it is not armed. -/
def Awaits (id : SendId) (event : Event) (timers : List (SendId × DelayedSend))
    (ts : List (Timer Alarm)) : Option Nat → Prop
  | none => timers.lookup id = none
  | some deadline => ∃ generation number,
      timers.lookup id = some ⟨generation, number, .myself⟩ ∧
        ⟨deadline, number, .post Session.root ⟨event, .timer id generation⟩⟩ ∈ ts

namespace Awaits

variable {event : Event} {due : Option Nat} {other : SendId} {ts : List (Timer Alarm)}

theorem erase (id : SendId) (event : Event) (timers : List (SendId × DelayedSend))
    (ts : List (Timer Alarm)) :
  Awaits id event (Association.erase id timers) ts none
  := Association.lookup_erase_self id timers

/-- The cancellation of another delayed send changes nothing. -/
theorem cancel (ha : Awaits id event timers clock.live due) (h : Timetable timers [] clock)
    (hlookup : timers.lookup other = some d) (hne : id ≠ other) :
  Awaits id event (Association.erase other timers) (clock.cancel d.timer).live due
  := by
  have hsame := Association.lookup_erase_of_ne hne timers
  cases due with
  | none => exact hsame.trans ha
  | some deadline =>
    obtain ⟨generation, number, hown, hlive⟩ := ha
    refine ⟨generation, number, hsame.trans hown, Clock.mem_live_cancel.mpr ⟨hlive, ?_⟩⟩
    intro heq
    refine hne (congrArg Prod.fst (h.entry_eq_of_timer (Association.mem_of_lookup hown)
      (Association.mem_of_lookup hlookup) heq))

theorem schedule (ha : Awaits id event timers clock.live due) (h : Timetable timers [] clock)
    (hne : id ≠ other) (delay : Nat) (alarm : Alarm) :
  Awaits id event ((other, d) :: timers) (clock.schedule delay alarm).live due
  := by
  have hsame : ((other, d) :: timers).lookup id = timers.lookup id := by
    rw [List.lookup_cons, beq_eq_false_iff_ne.mpr hne]
  cases due with
  | none => exact hsame.trans ha
  | some deadline =>
    obtain ⟨generation, number, hown, hlive⟩ := ha
    exact ⟨generation, number, hsame.trans hown,
      (h.mem_live_schedule delay alarm).mpr (Or.inr hlive)⟩

/-- A delayed send that is armed is due after its delay. -/
theorem armed (h : Timetable timers [] clock) (id : SendId) (event : Event) (delay generation : Nat) :
  Awaits id event ((id, ⟨generation, clock.nextNumber, .myself⟩) :: timers)
    (clock.schedule delay (.post Session.root ⟨event, .timer id generation⟩)).live
    (some (clock.now + delay))
  := ⟨generation, clock.scheduled, List.lookup_cons_self,
    (h.mem_live_schedule delay _).mpr (Or.inl rfl)⟩

/-- When another delayed send is taken from the table, nothing changes. -/
theorem take (ha : Awaits id event timers ([t] ++ clock.live) due) (hne : id ≠ other)
    {event' : Event} {generation : Nat}
    (htask : t.task = .post Session.root ⟨event', .timer other generation⟩) :
  Awaits id event (Association.erase other timers) clock.live due
  := by
  have hsame := Association.lookup_erase_of_ne hne timers
  cases due with
  | none => exact hsame.trans ha
  | some deadline =>
    obtain ⟨generation, number, hown, hlive⟩ := ha
    refine ⟨generation, number, hsame.trans hown, ?_⟩
    rcases List.mem_cons.mp hlive with heq | hlive
    · rw [← heq] at htask
      simp only [Alarm.post.injEq, Envelope.mk.injEq, Origin.timer.injEq] at htask
      exact absurd htask.2.2.1 hne
    · exact hlive

/-- A delayed send is taken from the table when it is due, and sends the root its event. -/
theorem taken (ha : Awaits id event timers ([t] ++ clock.live) due)
    (h : Timetable timers [t] clock) (hlookup : timers.lookup id = some d)
    (htimer : d.timer = t.number) :
  due = some t.deadline ∧ d.destination = .myself ∧
    t.task = .post Session.root ⟨event, .timer id d.generation⟩
  := by
  cases due with
  | none =>
    rw [show timers.lookup id = none from ha] at hlookup
    cases hlookup
  | some deadline =>
    obtain ⟨generation, number, hown, hlive⟩ := ha
    rw [hown, Option.some.injEq] at hlookup
    subst hlookup
    have hsame := h.timer_eq (Timetable.mem_pending hlive) List.mem_cons_self htimer
    subst hsame
    exact ⟨rfl, rfl, rfl⟩

end Awaits

end Statechart
