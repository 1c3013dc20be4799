import Mathlib.Data.List.Basic
import Mathlib.Tactic.Common
import Statechart.Mailbox
import Statechart.Proofs.Outcome

/-!
# Draining a mailbox

A handler of envelopes may push further envelopes and drain the same mailbox.  While one drain is
under way no other one handles anything, so the envelopes are handled by the first drain: those
that were there, then those that are pushed, one after the other, until none is left
(`drain_exact`).
-/

namespace Statechart.Mailbox

open Outcome (Ends)

/-- What a handler does, bit by bit, and how it goes on: it is done with its new state, it looks at
the mailbox, it pushes an envelope, or it drains the mailbox with a handler of a family and learns
how many envelopes were handled, and what the state is after that. -/
inductive Procedure (ι σ : Type) where
  | done (s : σ)
  | look (rest : Mailbox → Procedure ι σ)
  | push (e : Envelope) (rest : Procedure ι σ)
  | drain (i : ι) (s : σ) (rest : Nat → σ → Procedure ι σ)

/-- What is noted of the handlers of a family: that one is called, that it pushes an envelope, that
a drain of its own has handled so many envelopes, and that it returns. -/
inductive Note (ι : Type) where
  | called (i : ι) (e : Envelope)
  | pushed (e : Envelope)
  | drained (count : Nat)
  | returned (i : ι) (e : Envelope)

section

variable {ι σ : Type}

/-- The envelope that is pushed. -/
def Note.pushed? : Note ι → Option Envelope
  | .pushed e => some e
  | _ => none

/-- The mailbox and the state that a procedure leaves, with further notes, where the given handlers
are those of the family. -/
def Procedure.run (handlers : ι → Handler (σ × List (Note ι))) (fuel : Nat) :
    Procedure ι σ → Mailbox → List (Note ι) → Mailbox × σ × List (Note ι)
  | .done s, m, log => (m, s, log)
  | .look rest, m, log => (rest m).run handlers fuel m log
  | .push e rest, m, log => rest.run handlers fuel (m.push e) (log ++ [.pushed e])
  | .drain i s rest, m, log =>
    let (m, (s, log), count) := m.drain (handlers i) fuel (s, log)
    (rest count s).run handlers fuel m (log ++ [.drained count])

/-- The handlers of a family, which note what they do.  They call each other at most as deep as
`depth`. -/
def handlers (code : ι → Envelope → σ → Procedure ι σ) (fuel : Nat) :
    Nat → ι → Handler (σ × List (Note ι))
  | 0, _ => fun _ m s => (m, s)
  | depth + 1, i => fun e m (s, log) =>
    let (m, s, log) := (code i e s).run (handlers code fuel depth) fuel m (log ++ [.called i e])
    (m, s, log ++ [.returned i e])

/-- A call of a handler: its envelope, and what is noted between the call and the return. -/
structure Call (ι : Type) where
  envelope : Envelope
  within : List (Note ι)

/-- All that is noted of a call of the handler `i`. -/
def Call.notes (i : ι) (x : Call ι) : List (Note ι) :=
  .called i x.envelope :: x.within ++ [.returned i x.envelope]

/-- Whether nothing is done but pushing envelopes, and drains that handle none. -/
def IsQuiet (notes : List (Note ι)) : Prop :=
  ∀ note ∈ notes, (∃ e, note = .pushed e) ∨ note = .drained 0

end

variable {ι σ : Type} {i : ι} {m m' : Mailbox} {s s' : σ} {log : List (Note ι)} {count : Nat}

/-- What is pushed during a call is pushed between the call and the return. -/
theorem Call.filterMap_notes (i : ι) (x : Call ι) :
  (x.notes i).filterMap Note.pushed? = x.within.filterMap Note.pushed?
  := by
  rw [notes, List.cons_append, List.filterMap_cons_none rfl, List.filterMap_append]
  exact List.append_nil _

/-- While a drain is under way a procedure only adds envelopes at the end. -/
theorem Procedure.exists_run_eq (hs : ι → Handler (σ × List (Note ι))) (fuel : Nat)
    (p : Procedure ι σ) (hm : m.draining = true) (log : List (Note ι)) :
  ∃ s notes, p.run hs fuel m log =
      ({ m with queue := m.queue ++ notes.filterMap Note.pushed? }, s, log ++ notes) ∧
    IsQuiet notes
  := by
  induction p generalizing m log with
  | done s => exact ⟨s, [], by simp [run], by simp [IsQuiet]⟩
  | look rest ih => exact ih m hm log
  | push e rest ih =>
    obtain ⟨s, notes, hrun, hquiet⟩ := ih (m := m.push e) hm (log ++ [.pushed e])
    refine ⟨s, .pushed e :: notes, ?_, List.forall_mem_cons.mpr ⟨.inl ⟨e, rfl⟩, hquiet⟩⟩
    rw [run, hrun]
    simp [Mailbox.push, Note.pushed?]
  | drain i s rest ih =>
    obtain ⟨s', notes, hrun, hquiet⟩ := ih 0 s hm (log ++ [.drained 0])
    refine ⟨s', .drained 0 :: notes, ?_, List.forall_mem_cons.mpr ⟨.inr rfl, hquiet⟩⟩
    rw [run, drain_of_draining _ _ _ hm]
    dsimp only
    rw [hrun, List.filterMap_cons_none rfl, List.append_assoc]
    rfl

/-- While a drain is under way a handler returns with further envelopes at the end of the queue,
and none has been handled in between. -/
theorem exists_handlers_eq (code : ι → Envelope → σ → Procedure ι σ) (fuel depth : Nat) (i : ι)
    (hm : m.draining = true) (e : Envelope) (s : σ) (log : List (Note ι)) :
  ∃ s' notes, handlers code fuel (depth + 1) i e m (s, log) =
      ({ m with queue := m.queue ++ notes.filterMap Note.pushed? },
        s', log ++ Call.notes i ⟨e, notes⟩) ∧
    IsQuiet notes
  := by
  obtain ⟨s', notes, hrun, hquiet⟩ :=
    (code i e s).exists_run_eq (handlers code fuel depth) fuel hm (log ++ [.called i e])
  refine ⟨s', notes, ?_, hquiet⟩
  simp only [handlers, hrun]
  simp [Call.notes]

/-- Any fuel leads to as many calls, or else to the end of the queue. -/
theorem exists_calls (code : ι → Envelope → σ → Procedure ι σ) (fuel depth : Nat) (i : ι)
    (hm : m.draining = true) (n : Nat) (s : σ) (log : List (Note ι)) (count : Nat) :
  ∃ (calls : List (Call ι)) (s' : σ) (rest : List Envelope),
    drainClaimed (handlers code fuel (depth + 1) i) n m (s, log) count =
      ({ queue := rest, draining := false },
        (s', log ++ calls.flatMap (Call.notes i)), count + calls.length) ∧
    (∀ x ∈ calls, IsQuiet x.within) ∧
    calls.map Call.envelope ++ rest =
      m.queue ++ (calls.flatMap (Call.notes i)).filterMap Note.pushed? ∧
    (rest = [] ∨ calls.length = n)
  := by
  induction n generalizing m s log count with
  | zero =>
    exact ⟨[], s, m.queue, by simp [drainClaimed, release], by simp, by simp, .inr rfl⟩
  | succ n ih =>
    rw [drainClaimed, next?]
    cases hqueue : m.queue with
    | nil => exact ⟨[], s, [], by simp [release, hqueue], by simp, by simp, .inl rfl⟩
    | cons e queue =>
      obtain ⟨s', notes, hhandle, hquiet⟩ :=
        exists_handlers_eq code fuel depth i (m := { m with queue }) hm e s log
      obtain ⟨calls, s'', rest, hdrain, hcalls, hrest, hend⟩ :=
        ih (m := { m with queue := queue ++ notes.filterMap Note.pushed? }) hm s'
          (log ++ Call.notes i ⟨e, notes⟩) (count + 1)
      refine ⟨⟨e, notes⟩ :: calls, s'', rest, ?_, List.forall_mem_cons.mpr ⟨hquiet, hcalls⟩, ?_,
        hend.imp_right (congrArg Nat.succ)⟩
      · dsimp only
        rw [hhandle]
        dsimp only
        rw [hdrain, List.flatMap_cons, List.append_assoc, List.length_cons, Nat.add_assoc,
          Nat.add_comm 1]
      · rw [List.map_cons, List.cons_append, hrest, List.flatMap_cons, List.filterMap_append,
          Call.filterMap_notes, List.cons_append, List.append_assoc]

/-- Let the handlers of a family look at the mailbox, push envelopes and drain it, as they like, and
let a drain with one of them come to an end.  Then it has called the handler for each envelope that
was in the mailbox, and after these for each that was pushed, in the order in which they were
pushed.  The calls follow one after the other: between a call and its return there is no call of any
handler, and all drains from there have handled nothing.  The drain answers the number of calls, and
leaves the queue empty and the flag lowered. -/
theorem drain_exact (code : ι → Envelope → σ → Procedure ι σ) (fuel depth : Nat)
    (hm : m.draining = false)
    (hends : Ends (fun n => m.drain (handlers code fuel (depth + 1) i) n (s, []))
      (m', (s', log), count)) :
  ∃ calls : List (Call ι), log = calls.flatMap (Call.notes i) ∧
    (∀ x ∈ calls, IsQuiet x.within) ∧
    calls.map Call.envelope = m.queue ++ log.filterMap Note.pushed? ∧
    count = calls.length ∧ m'.queue = [] ∧ m'.draining = false
  := by
  obtain ⟨enough, henough⟩ := hends
  -- with fuel for more calls than there are the queue is empty in the end
  have hlast := henough (enough + count + 1) (by omega)
  obtain ⟨calls, u, rest, hdrain, hquiet, hrest, hend⟩ :=
    exists_calls code fuel depth i (m := { m with draining := true }) rfl
      (enough + count + 1) s [] 0
  have hclaim : m.claim? = some { m with draining := true } := by simp [claim?, hm]
  dsimp only at hlast
  rw [drain, hclaim] at hlast
  dsimp only at hlast
  rw [hdrain, List.nil_append, Nat.zero_add, Prod.mk.injEq, Prod.mk.injEq, Prod.mk.injEq] at hlast
  obtain ⟨rfl, ⟨rfl, rfl⟩, rfl⟩ := hlast
  obtain rfl : rest = [] := hend.resolve_right (by omega)
  rw [List.append_nil] at hrest
  exact ⟨calls, rfl, hquiet, hrest, rfl, rfl, rfl⟩

/-- The handler that pushes a second envelope when it gets the first one and drains the mailbox,
which does nothing, and that else pushes nothing and drains the mailbox twice. -/
def reentering (_ : Unit) (e : Envelope) (visits : Nat) : Procedure Unit Nat :=
  if e.event.name = "first" then
    .push (.external (.bare "second")) (.drain () visits fun _ visits => .done (visits + 1))
  else
    .drain () visits fun _ visits => .drain () visits fun _ visits => .done (visits + 1)

/-- A mailbox with a first and a third envelope in it. -/
def filled : Mailbox where
  queue := [.external (.bare "first"), .external (.bare "third")]

theorem drain_exact_reentering :
  filled.draining = false ∧
  ∃ log, Ends (fun n => filled.drain (handlers reentering 9 2 ()) n (0, [])) ({}, (3, log), 3) ∧
    ∃ calls : List (Call Unit), log = calls.flatMap (Call.notes ()) ∧
      (∀ x ∈ calls, IsQuiet x.within) ∧
      calls.map Call.envelope = filled.queue ++ log.filterMap Note.pushed? ∧
      calls.length = 3
  := by
  have hends : ∀ n, 4 ≤ n → filled.drain (handlers reentering 9 2 ()) n (0, []) =
      filled.drain (handlers reentering 9 2 ()) 4 (0, []) := by
    intro n hn
    obtain ⟨k, rfl⟩ := Nat.exists_eq_add_of_le' hn
    rfl
  obtain ⟨calls, hlog, hquiet, hqueue, hcount, -⟩ := drain_exact reentering 9 1 rfl ⟨4, hends⟩
  exact ⟨rfl, _, ⟨4, hends⟩, calls, hlog, hquiet, hqueue, hcount.symm⟩

end Statechart.Mailbox
