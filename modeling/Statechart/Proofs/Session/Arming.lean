import Statechart.Proofs.Association
import Statechart.Proofs.Session.Tenure

/-!
# Delayed sends

An interpreter arms or cancels a delayed send when it carries out an action, takes one from its
table when it handles the envelope of the timer, and cancels all of them when it is stopped.
`exists_alters` says that nothing else happens to the table, nor to the clock for its sake.  A
delayed send that has left the table does not come back, for the numbers of the sends only grow
(`Course.exists_later`).
-/

namespace Statechart

/-- The clock without the timer of a delayed send, if this is armed. -/
def Actor.unwound (a : Actor) (id : SendId) (clock : Clock Alarm) : Clock Alarm :=
  match a.timers.lookup id with
  | none => clock
  | some d => clock.cancel d.timer

/-- The key of a delayed send that an interpreter arms. -/
def Actor.keyOf (a : Actor) (send : Send) : SendId :=
  (send.id.map SendId.named).getD (.automatic (a.timerGeneration + 1))

/-- Whether a work may change the clock without being one of an interpreter. -/
def Work.winds (n : Nat) : Work → Bool
  | .perform k .. => k != n
  | .stop k => k != n
  | .operate .. => true
  | .advance _ => true
  | _ => false

/-- What a work does to the delayed sends of an interpreter, and to the clock. -/
inductive Alters (n : Nat) (s : Session) (a : Actor) : Work → Session → Actor → Prop where
  | keep {w t b} (htimers : b.timers = a.timers) (hlast : b.timerGeneration = a.timerGeneration)
      (hclock : w.winds n = false → t.clock = s.clock) : Alters n s a w t b
  | cancel {snapshot action id t b} (hrunning : a.status = .running)
      (hduty : action.duty = .cancel id)
      (htimers : b.timers = Association.erase (.named id) a.timers)
      (hlast : b.timerGeneration = a.timerGeneration)
      (hclock : t.clock = a.unwound (.named id) s.clock) :
      Alters n s a (.perform n snapshot action) t b
  /-- A delayed send is armed, in place of the one of the same id. -/
  | arm {snapshot action send delay t b} (hrunning : a.status = .running)
      (hduty : action.duty = .send send) (hdelay : send.delay = some (delay + 1))
      (htimers : b.timers =
        (a.keyOf send, ⟨a.timerGeneration + 1, (a.unwound (a.keyOf send) s.clock).nextNumber,
          send.destination⟩) :: Association.erase (a.keyOf send) a.timers)
      (hlast : b.timerGeneration = a.timerGeneration + 1)
      (hclock : t.clock = (a.unwound (a.keyOf send) s.clock).schedule (delay + 1)
        (.post n ⟨send.event, .timer (a.keyOf send) (a.timerGeneration + 1)⟩)) :
      Alters n s a (.perform n snapshot action) t b
  /-- A delayed send cannot be armed, but the one of the same id is cancelled. -/
  | displace {snapshot action send t b} (htimerless : s.hasTimers = false)
      (htimers : b.timers = Association.erase (a.keyOf send) a.timers)
      (hlast : b.timerGeneration = a.timerGeneration + 1) :
      Alters n s a (.perform n snapshot action) t b
  | take {e id d t b} (hrunning : a.status = .running) (horigin : e.origin = .timer id d.generation)
      (hlookup : a.timers.lookup id = some d) (htimers : b.timers = Association.erase id a.timers)
      (hlast : b.timerGeneration = a.timerGeneration) (hclock : t.clock = s.clock) :
      Alters n s a (.handle n e) t b
  | stop {t b} (hopen : a.status ≠ .stopped) (htimers : b.timers = [])
      (hlast : b.timerGeneration = a.timerGeneration)
      (hclock : t.clock = (a.timers.foldl (fun s e => s.cancelSend n e.1) s).clock) :
      Alters n s a (.stop n) t b

namespace Session

variable {n : Nat} {s t : Session} {a b : Actor} {w : Work}

theorem clock_cancelSend (ha : s.actor? n = some a) (id : SendId) :
  (s.cancelSend n id).clock = a.unwound id s.clock
  := by
  rw [cancelSend, ha, Option.bind_some, Actor.unwound]
  cases a.timers.lookup id <;> rfl

/-- The clock and the delayed sends play no part in the status of an interpreter. -/
theorem clock_foldl_cancelSend (ha : s.actor? n = some a) (hb : t.actor? n = some b)
    (h : t.clock = s.clock) (htimers : b.timers = a.timers)
    (timers : List (SendId × DelayedSend)) :
  (timers.foldl (fun s e => s.cancelSend n e.1) t).clock =
    (timers.foldl (fun s e => s.cancelSend n e.1) s).clock
  := by
  induction timers generalizing s t a b with
  | nil => exact h
  | cons e timers ih =>
    rw [List.foldl_cons, List.foldl_cons]
    refine ih (actor?_cancelSend ha e.1) (actor?_cancelSend hb e.1) ?_ ?_
    · rw [clock_cancelSend hb, clock_cancelSend ha, Actor.unwound, Actor.unwound, htimers, h]
    · exact congrArg (Association.erase e.1) htimers

/-- A delayed send that is armed takes the next number, and replaces the one of the same id; its event
is posted after the delay. -/
theorem exists_armed (ha : s.actor? n = some a) (send : Send) (delay : Nat) :
  ∃ b, (s.armSend n send delay).actor? n = some b ∧ b.timerGeneration = a.timerGeneration + 1 ∧
    (s.hasTimers = false → b.timers = Association.erase (a.keyOf send) a.timers) ∧
    (s.hasTimers = true → b.timers =
        (a.keyOf send, ⟨a.timerGeneration + 1, (a.unwound (a.keyOf send) s.clock).nextNumber,
          send.destination⟩) :: Association.erase (a.keyOf send) a.timers ∧
      (s.armSend n send delay).clock = (a.unwound (a.keyOf send) s.clock).schedule delay
        (.post n ⟨send.event, .timer (a.keyOf send) (a.timerGeneration + 1)⟩))
  := by
  have hnumbered : (s.modify n (fun b => { b with
      timerGeneration := a.timerGeneration + 1 })).actor? n =
      some { a with timerGeneration := a.timerGeneration + 1 } := by
    rw [actor?_modify_self, ha]
    rfl
  have hcancelled := actor?_cancelSend hnumbered (a.keyOf send)
  have hclock := clock_cancelSend hnumbered (a.keyOf send)
  have htimers : ((s.modify n (fun b => { b with
      timerGeneration := a.timerGeneration + 1 })).cancelSend n (a.keyOf send)).hasTimers =
      s.hasTimers := by
    rw [cancelSend]
    split <;> rfl
  rw [armSend, ha]
  dsimp only
  rw [← Actor.keyOf]
  generalize (s.modify n _).cancelSend n (a.keyOf send) = u at hcancelled hclock htimers ⊢
  change u.clock = a.unwound (a.keyOf send) s.clock at hclock
  rw [htimers]
  cases s.hasTimers with
  | false => exact ⟨_, hcancelled, rfl, fun _ => rfl, Bool.noConfusion⟩
  | true =>
    have hb : (u.modify n (fun b => { b with timers :=
        (a.keyOf send, ⟨a.timerGeneration + 1, u.clock.nextNumber, send.destination⟩) ::
          b.timers })).actor? n =
        some { a with
          timerGeneration := a.timerGeneration + 1
          timers := (a.keyOf send, ⟨a.timerGeneration + 1, u.clock.nextNumber, send.destination⟩) ::
            Association.erase (a.keyOf send) a.timers } := by
      rw [actor?_modify_self, hcancelled]
      rfl
    refine ⟨_, hb, rfl, Bool.noConfusion, fun _ => ⟨?_, ?_⟩⟩
    · rw [← hclock]
    · rw [← hclock]
      rfl

/-- What a work does to an interpreter at one place is all that it does to the delayed sends. -/
theorem exists_alters_of_lasts (ha : s.actor? n = some a) (h : Lasts s t) :
  ∃ b, t.actor? n = some b ∧ Alters n s a w t b
  := by
  obtain ⟨b, hb, hlasts⟩ := h.actor n a ha
  exact ⟨b, hb, .keep hlasts.timers hlasts.timerGeneration (fun _ => h.clock)⟩

theorem exists_alters_of_same (ha : s.actor? n = some a) (h : t.actor? n = s.actor? n)
    (hclock : w.winds n = false → t.clock = s.clock) :
  ∃ b, t.actor? n = some b ∧ Alters n s a w t b
  := ⟨a, h.trans ha, .keep rfl rfl hclock⟩

/-- A work that changes nothing about the delayed sends of an interpreter leaves them as they are. -/
theorem exists_alters_of_modify {f : Actor → Actor} (ha : s.actor? n = some a) {k : Nat}
    (hf : (f a).timers = a.timers ∧ (f a).timerGeneration = a.timerGeneration)
    (h : Lasts (s.modify k f) t) :
  ∃ b, t.actor? n = some b ∧ Alters n s a w t b
  := by
  by_cases hk : k = n
  · subst hk
    obtain ⟨b, hb, hlasts⟩ := h.actor k (f a) (by rw [actor?_modify_self, ha]; rfl)
    exact ⟨b, hb, .keep (hlasts.timers.trans hf.1) (hlasts.timerGeneration.trans hf.2)
      (fun _ => h.clock)⟩
  · obtain ⟨b, hb, hlasts⟩ := h.actor n a (by rw [actor?_modify, if_neg hk, ha])
    exact ⟨b, hb, .keep hlasts.timers hlasts.timerGeneration (fun _ => h.clock)⟩

/-- The handling of an envelope takes the delayed send whose timer brought it. -/
theorem exists_alters_handle (k : Nat) (e : Envelope) (ha : s.actor? n = some a) :
  ∃ b, (s.handle k e).actor? n = some b ∧ Alters n s a (.handle k e) (s.handle k e) b
  := by
  rcases lasts_handle s k e with
    h | ⟨hrunning, ⟨-, h⟩ | ⟨id, generation, a', d, horigin, ha', hlookup, hgeneration, h⟩⟩
  · exact exists_alters_of_lasts ha h
  · exact exists_alters_of_modify ha ⟨rfl, rfl⟩ h
  · by_cases hk : k = n
    · subst hk
      rw [ha, Option.some.injEq] at ha'
      subst ha'
      obtain ⟨b, hb, hlasts⟩ := h.actor k (a.disarm id) (by rw [actor?_modify_self, ha]; rfl)
      exact ⟨b, hb, .take ((isRunning_iff ha).mp hrunning) (hgeneration ▸ horigin) hlookup
        hlasts.timers hlasts.timerGeneration h.clock⟩
    · obtain ⟨b, hb, hlasts⟩ := h.actor n a (by rw [actor?_modify, if_neg hk, ha])
      exact ⟨b, hb, .keep hlasts.timers hlasts.timerGeneration (fun _ => h.clock)⟩

/-- The carrying out of an action cancels or arms a delayed send, or does nothing to them. -/
theorem exists_alters_perform (k : Nat) (snapshot : Snapshot) (action : ResolvedAction)
    (ha : s.actor? n = some a) :
  ∃ b, (s.perform k snapshot action).actor? n = some b ∧
    Alters n s a (.perform k snapshot action) (s.perform k snapshot action) b
  := by
  have helsewhere : k ≠ n → (Work.perform k snapshot action).winds n ≠ false := by
    intro hk
    simpa [Work.winds] using hk
  rcases lasts_perform s k snapshot action with
    h | ⟨hrunning, ⟨id, hduty, heq⟩ | ⟨send, delay, hduty, hdelay, heq⟩⟩
  · exact exists_alters_of_lasts ha h
  · rw [heq]
    by_cases hk : k = n
    · subst hk
      exact ⟨_, actor?_cancelSend ha _, .cancel ((isRunning_iff ha).mp hrunning) hduty rfl rfl
        (clock_cancelSend ha _)⟩
    · exact exists_alters_of_same ha (actor?_cancelSend_of_ne hk s _)
        (fun hwinds => absurd hwinds (helsewhere hk))
  · rw [heq]
    by_cases hk : k = n
    · subst hk
      obtain ⟨b, hb, hlast, hdisplaced, harmed⟩ := exists_armed ha send (delay + 1)
      refine ⟨b, hb, ?_⟩
      cases hhas : s.hasTimers with
      | false => exact .displace hhas (hdisplaced hhas) hlast
      | true =>
        exact .arm ((isRunning_iff ha).mp hrunning) hduty hdelay (harmed hhas).1 hlast
          (harmed hhas).2
    · exact exists_alters_of_same ha (actor?_armSend_of_ne hk s send _)
        (fun hwinds => absurd hwinds (helsewhere hk))

/-- An interpreter that is stopped cancels all its delayed sends, unless it was stopped before. -/
theorem exists_alters_stop (k : Nat) (ha : s.actor? n = some a) :
  ∃ b, (s.stop k).actor? n = some b ∧ Alters n s a (.stop k) (s.stop k) b
  := by
  by_cases hk : k = n
  · subst hk
    by_cases hstatus : a.status = .stopped
    · have heq : s.stop k = s := by
        rw [stop, ha]
        exact if_pos hstatus
      rw [heq]
      exact exists_alters_of_same ha rfl (fun _ => rfl)
    · refine ⟨_, actor?_stop ha hstatus, .stop hstatus rfl rfl ?_⟩
      rw [stop, ha]
      dsimp only
      rw [if_neg hstatus]
      have hstopped : (s.modify k (fun a => { a with status := .stopped })).actor? k =
          some { a with status := .stopped } := by
        rw [actor?_modify_self, ha]
        rfl
      have hclock := clock_foldl_cancelSend ha hstopped rfl rfl a.timers
      exact hclock
  · exact exists_alters_of_same ha (actor?_stop_of_ne hk s)
      (fun hwinds => absurd hwinds (by simpa [Work.winds] using hk))

/-- What a work does to the delayed sends of an interpreter. -/
theorem exists_alters (s : Session) (w : Work) (ha : s.actor? n = some a) :
  ∃ b, (s.carryOut w).actor? n = some b ∧ Alters n s a w (s.carryOut w) b
  := by
  cases w with
  | handle k e => exact exists_alters_handle k e ha
  | perform k snapshot action => exact exists_alters_perform k snapshot action ha
  | invoke k snapshot action later =>
    have h := grows_invoke s k snapshot action later
    obtain ⟨b, hb, hlasts⟩ := h.actor n a ha
    exact ⟨b, hb, .keep hlasts.timers hlasts.timerGeneration (fun _ => h.clock)⟩
  | stop k => exact exists_alters_stop k ha
  | recordFault k fault => exact exists_alters_of_modify ha ⟨rfl, rfl⟩ (.refl _)
  | confirmStart k child id generation =>
    rcases lasts_confirmStart s k child id generation with h | h
    · exact exists_alters_of_lasts ha h
    · exact exists_alters_of_modify ha ⟨rfl, rfl⟩ h
  | stopService service =>
    rcases lasts_stopService s service with ⟨h, -⟩ | ⟨j, -, heq⟩
    · exact exists_alters_of_lasts ha h
    · rw [carryOut, heq]
      exact exists_alters_of_same ha rfl (fun _ => rfl)
  | operate k operation =>
    rcases lasts_operate s k operation with h | ⟨delay, alarm, heq⟩
    · exact exists_alters_of_lasts ha h
    · rw [carryOut, heq]
      exact exists_alters_of_same ha rfl Bool.noConfusion
  | advance target =>
    obtain ⟨clock, ws, heq⟩ := exists_advance s target
    rw [carryOut, heq]
    exact exists_alters_of_same ha rfl Bool.noConfusion
  | settle =>
    rcases settle_eq s with heq | ⟨j, ws, heq⟩
    · rw [carryOut, heq]
      exact exists_alters_of_same ha rfl (fun _ => rfl)
    · rw [carryOut, heq]
      exact exists_alters_of_same ha rfl (fun _ => rfl)
  | _ => exact exists_alters_of_lasts ha (lasts_carryOut rfl)

/-- A call leaves the delayed sends of every interpreter as they are. -/
theorem Called.exists_timers (h : s.Called t) (ha : s.actor? n = some a) :
  ∃ b, t.actor? n = some b ∧ b.timers = a.timers ∧ b.timerGeneration = a.timerGeneration
  := by
  have hsame : ∃ b, s.actor? n = some b ∧ b.timers = a.timers ∧
      b.timerGeneration = a.timerGeneration := ⟨a, ha, rfl, rfl⟩
  have hmodify : ∀ {k f}, (f a).timers = a.timers → (f a).timerGeneration = a.timerGeneration →
      ∃ b, (s.modify k f).actor? n = some b ∧ b.timers = a.timers ∧
        b.timerGeneration = a.timerGeneration := by
    intro k f htimers hlast
    rw [actor?_modify]
    split
    · exact ⟨f a, by rw [ha]; rfl, htimers, hlast⟩
    · exact hsame
  cases h with
  | work h => exact hsame
  | emit h =>
    rw [emitting]
    split <;> exact hsame
  | resume persisted => exact hmodify rfl rfl
  | configure settings => exact hmodify rfl rfl
  | subscribe listener =>
    rw [Session.subscribe]
    split
    · exact hsame
    · have hlisted := hmodify (k := root)
        (f := fun a => { a with listeners := a.listeners.subscribe listener }) rfl rfl
      dsimp only
      split <;> exact hlisted
  | takeFault => exact hmodify rfl rfl
  | forget => exact hsame

end Session

/-! ### Delayed sends that are over -/

/-- Whether a delayed send was armed, and is in the table no more. -/
structure Actor.Lapsed (id : SendId) (generation : Nat) (a : Actor) : Prop where
  bounded : generation ≤ a.timerGeneration
  gone : ∀ d, a.timers.lookup id = some d → d.generation ≠ generation

section

variable {n : Nat} {s t : Session} {a b : Actor} {w : Work} {id : SendId} {generation : Nat}

/-- A delayed send that leaves the table is over. -/
theorem Actor.lapsed_of_erase (hbounded : generation ≤ b.timerGeneration)
    (htimers : b.timers = Association.erase id a.timers) :
  b.Lapsed id generation
  := by
  refine ⟨hbounded, fun d hd => ?_⟩
  rw [htimers] at hd
  exact absurd rfl (Association.lookup_of_lookup_erase hd).1

/-- A delayed send that is over stays over. -/
theorem Actor.Lapsed.alters (h : a.Lapsed id generation) (halters : Alters n s a w t b) :
  b.Lapsed id generation
  := by
  have herase : ∀ {other : SendId}, a.timerGeneration ≤ b.timerGeneration →
      b.timers = Association.erase other a.timers → b.Lapsed id generation := by
    intro other hlast htimers
    refine ⟨Nat.le_trans h.bounded hlast, fun d hd => ?_⟩
    rw [htimers] at hd
    exact h.gone d (Association.lookup_of_lookup_erase hd).2
  cases halters with
  | keep htimers hlast =>
    refine ⟨hlast ▸ h.bounded, fun d hd => ?_⟩
    rw [htimers] at hd
    exact h.gone d hd
  | cancel _ _ htimers hlast => exact herase (Nat.le_of_eq hlast.symm) htimers
  | @arm _ _ send _ _ _ _ _ _ htimers hlast =>
    refine ⟨Nat.le_trans h.bounded (hlast ▸ Nat.le_succ _), fun d hd => ?_⟩
    rw [htimers, List.lookup_cons] at hd
    split at hd
    · cases hd
      exact Nat.ne_of_gt (Nat.lt_succ_of_le h.bounded)
    · exact h.gone d (Association.lookup_of_lookup_erase hd).2
  | displace _ htimers hlast => exact herase (hlast ▸ Nat.le_succ _) htimers
  | take _ _ _ htimers hlast => exact herase (Nat.le_of_eq hlast.symm) htimers
  | stop _ htimers hlast =>
    refine ⟨hlast ▸ h.bounded, fun d hd => ?_⟩
    rw [htimers] at hd
    cases hd

/-- The numbers of the delayed sends only grow. -/
theorem Alters.le (h : Alters n s a w t b) :
  a.timerGeneration ≤ b.timerGeneration
  := by
  cases h with
  | keep _ hlast => exact Nat.le_of_eq hlast.symm
  | cancel _ _ _ hlast => exact Nat.le_of_eq hlast.symm
  | arm _ _ _ _ hlast => exact hlast ▸ Nat.le_succ _
  | displace _ _ hlast => exact hlast ▸ Nat.le_succ _
  | take _ _ _ _ hlast => exact Nat.le_of_eq hlast.symm
  | stop _ _ hlast => exact Nat.le_of_eq hlast.symm

theorem Actor.Lapsed.of_eq (h : a.Lapsed id generation) (htimers : b.timers = a.timers)
    (hlast : b.timerGeneration = a.timerGeneration) :
  b.Lapsed id generation
  := by
  refine ⟨hlast ▸ h.bounded, fun d hd => ?_⟩
  rw [htimers] at hd
  exact h.gone d hd

/-- All along a course an interpreter keeps its chart, the numbers of its delayed sends grow, and those
that are over stay over. -/
theorem Session.Course.exists_later {ms : List Moment} (h : Course s ms t)
    (ha : s.actor? n = some a) :
  ∃ b, t.actor? n = some b ∧ b.machine.chart = a.machine.chart ∧
    a.timerGeneration ≤ b.timerGeneration ∧
    ∀ id generation, a.Lapsed id generation → b.Lapsed id generation
  := by
  induction h with
  | refl => exact ⟨a, ha, rfl, Nat.le_refl _, fun _ _ h => h⟩
  | call h hcall ih =>
    obtain ⟨b, hb, hchart, hle, hlapsed⟩ := ih
    obtain ⟨c, hc, htimers, hlast⟩ := hcall.exists_timers hb
    obtain ⟨d, hd, hlike⟩ := (hcall.calm (n := n)).actor b hb
    rw [hc, Option.some.injEq] at hd
    subst hd
    exact ⟨c, hc, hlike.chart.trans hchart, Nat.le_trans hle (Nat.le_of_eq hlast.symm),
      fun id generation h => (hlapsed id generation h).of_eq htimers hlast⟩
  | @step ms t m h hm ih =>
    obtain ⟨b, hb, hchart, hle, hlapsed⟩ := ih
    have hbefore := (hm.actor? n).trans hb
    obtain ⟨c, hc, halters⟩ := exists_alters m.before m.work hbefore
    obtain ⟨d, hd, hages⟩ := exists_ages m.before m.work hbefore
    rw [hc, Option.some.injEq] at hd
    subst hd
    exact ⟨c, hc, (congrArg Machine.chart hages.machine).trans hchart,
      Nat.le_trans hle halters.le,
      fun id generation h => (hlapsed id generation h).alters halters⟩

end

end Statechart
