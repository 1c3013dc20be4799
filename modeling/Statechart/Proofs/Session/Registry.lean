import Mathlib.Data.List.Nodup
import Mathlib.Data.String.Basic
import Mathlib.Order.RelClasses
import Statechart.Proofs.Association
import Statechart.Proofs.Session.Stage

/-!
# The registry of an interpreter

A service gets the next generation of its interpreter when it is issued, and is registered under
the id of its invocation.  While the interpreter runs, the owner of the invocation is active, or
the stop of the invocation is still to be carried out (`Registered`); between two envelopes
nothing is left to be carried out, and the registry holds no service whose owner was exited
(`Course.registry_between`).
-/

namespace Statechart

/-! ### Generations that are issued -/

/-- The last generation of services that an interpreter has issued. -/
def Session.generation (s : Session) (n : Nat) : Nat :=
  ((s.actor? n).map Actor.generation).getD 0

/-- The id and the generation that an interpreter issues at a moment, if it starts an
invocation. -/
def Moment.issued? (n : Nat) (m : Moment) : Option (String × Nat) :=
  match m.work with
  | .invoke k _ action _ =>
    match action.duty with
    | .start invocation _ =>
      if k = n ∧ m.before.generation n < m.after.generation n then
        some (invocation.id, m.after.generation n)
      else none
    | _ => none
  | _ => none

/-- All ids and generations that an interpreter has issued, in their order. -/
def issued (n : Nat) (ms : List Moment) : List (String × Nat) :=
  ms.filterMap (Moment.issued? n)

variable {n : Nat} {a b : Actor} {w : Work} {ds es : List Work} {is is' : List (String × Nat)}
  {snapshot : Snapshot} {id : String} {ms : List Moment} {m : Moment}

/-- A turn issues one generation at most, and then starts an invocation. -/
theorem Turn.generation (h : Turn n w a ds b es) :
  b.generation = a.generation ∨ b.generation = a.generation + 1 ∧
    ∃ snapshot action later invocation data, w = .invoke n snapshot action later ∧
      action.duty = .start invocation data
  := by
  cases h with
  | calm hduty hlike => exact Or.inl hlike.generation
  | wake hduty hrunning hfree hlike => exact Or.inl hlike.generation
  | start hstatus => exact Or.inl rfl
  | stop hstatus hlike => exact Or.inl hlike.generation
  | release hlike => exact Or.inl hlike.generation
  | rest hqueue => exact Or.inl rfl
  | take hqueue => exact Or.inl rfl
  | idle hidle hlike => exact Or.inl hlike.generation
  | boot hrunning hstart hstarts hlike => exact Or.inl hlike.generation
  | unbooted hrunning hstart hlike => exact Or.inl hlike.generation
  | @accept _ _ _ e hrunning hstart hlive hlike =>
    obtain ⟨services, -, heq⟩ := a.exists_admitting e
    rw [heq] at hlike
    exact Or.inl hlike.generation
  | forward hstate => exact Or.inl rfl
  | move hnext => exact Or.inl rfl
  | remove hrunning hduty hlookup => exact Or.inl rfl
  | refuse hrunning hduty hlike =>
    exact Or.inr ⟨hlike.generation, _, _, _, _, _, rfl, hduty⟩
  | issue hrunning hduty hactive hid hgeneration hissued hlike =>
    exact Or.inr ⟨hlike.generation, _, _, _, _, _, rfl, hduty⟩
  | register => exact Or.inl rfl
  | @retract _ _ _ _ id generation hlike =>
    obtain ⟨services, -, heq⟩ := a.exists_without id generation
    rw [heq] at hlike
    exact Or.inl hlike.generation

/-- What a moment issues is the next generation. -/
theorem issued?_of_turn (ha : m.before.actor? n = some a) (hb : m.after.actor? n = some b)
    (h : Turn n m.work a ds b es) :
  (b.generation = a.generation ∧ m.issued? n = none) ∨
    ∃ snapshot action later invocation data, m.work = .invoke n snapshot action later ∧
      action.duty = .start invocation data ∧ b.generation = a.generation + 1 ∧
      m.issued? n = some (invocation.id, b.generation)
  := by
  have hbefore : m.before.generation n = a.generation := by
    rw [Session.generation, ha]
    rfl
  have hafter : m.after.generation n = b.generation := by
    rw [Session.generation, hb]
    rfl
  rcases h.generation with hsame | ⟨hnext, snapshot, action, later, invocation, data, hw, hduty⟩
  · refine Or.inl ⟨hsame, ?_⟩
    rw [Moment.issued?]
    split
    · split
      · rw [if_neg]
        rintro ⟨-, hlt⟩
        omega
      · rfl
    · rfl
  · refine Or.inr ⟨snapshot, action, later, invocation, data, hw, hduty, hnext, ?_⟩
    rw [Moment.issued?, hw]
    dsimp only
    rw [hduty]
    dsimp only
    rw [if_pos ⟨rfl, by omega⟩, hafter]

theorem issued_concat (n : Nat) (ms : List Moment) (m : Moment) :
  issued n (ms ++ [m]) = issued n ms ++ (m.issued? n).toList
  := by
  rw [issued, issued, List.filterMap_append]
  cases h : m.issued? n <;> simp [h]

theorem issued_of_precedes (h : Session.Precedes n ms) :
  issued n ms = []
  := by
  rw [issued, List.filterMap_eq_nil_iff]
  intro m hm
  have hduty := (h m hm).2.1
  rw [Moment.issued?]
  split
  · next k _ _ _ hwork =>
    split
    · rw [if_neg]
      rintro ⟨rfl, -⟩
      exact hduty (by rw [hwork]; rfl)
    · rfl
  · rfl

/-! ### What is registered -/

/-- Whether a work has a part in the registration of a service. -/
def Work.registers : Work → Bool
  | .register .. => true
  | .confirmStart .. => true
  | _ => false

/-- Whether a work carries out an action. -/
def Work.performs : Work → Bool
  | .perform .. => true
  | _ => false

/-- Whether the stop of an invocation is still to be carried out. -/
def StopPending (n : Nat) (id : String) (ds : List Work) : Prop :=
  ∃ snapshot action, Work.perform n snapshot action ∈ ds ∧ action.duty = .stop id

/-- Whether the owner of an invocation is active in the snapshot of an interpreter. -/
def Actor.Owns (a : Actor) (id : String) : Prop :=
  ∃ i snapshot, a.machine.chart.invocation? id = some i ∧ a.state = some snapshot ∧
    snapshot.isActive i.owner = true

/-- What holds at all times of the registry of an interpreter that has issued some ids and
generations. -/
structure Actor.Registered (n : Nat) (is : List (String × Nat)) (a : Actor) (ds : List Work) :
    Prop where
  increasing : Association.Increasing a.services
  keyed : ∀ e ∈ a.services, e.2.id = e.1
  bounded : ∀ e ∈ a.services, e.2.generation ≤ a.generation
  issued : ∀ e ∈ a.services, (e.1, e.2.generation) ∈ is
  owned : a.status = .running → ∀ e ∈ a.services, a.Owns e.1 ∨ StopPending n e.1 ds
  unbooted : a.state = none → a.services = []
  /-- A service that is about to be registered is the last one that was issued. -/
  pending : ∀ v, .register n v ∈ ds → a.Owns v.id ∧ (v.id, v.generation) ∈ is ∧
    v.generation = a.generation ∧ ∀ e ∈ a.services, e.2.generation < v.generation
  /-- A start that is to be confirmed is that of an interpreter. -/
  confirming : ∀ child id generation, .confirmStart n child id generation ∈ ds →
    (∀ e ∈ a.services, e.2.generation = generation → e.2.backing = .machine child) ∧
      ∀ v, .register n v ∈ ds → v.generation = generation → v.backing = .machine child

theorem Performing.registers (h : Performing n snapshot ds) (hw : w ∈ ds) :
  w.registers = false
  := by
  cases h.follows hw <;> rfl

theorem Starting.register_notMem (h : Starting n snapshot ds) (service : Service) :
  .register n service ∉ ds
  := by
  intro hmem
  cases (Performing.starting h).follows hmem

/-- The stop of an invocation is the duty at hand, or is pending behind it. -/
theorem stopPending_cons (h : StopPending n id (w :: ds)) :
  (∃ snapshot action, w = .perform n snapshot action ∧ action.duty = .stop id) ∨
    StopPending n id ds
  := by
  obtain ⟨snapshot, action, hmem, hduty⟩ := h
  rcases List.mem_cons.mp hmem with rfl | hmem
  · exact Or.inl ⟨snapshot, action, rfl, hduty⟩
  · exact Or.inr ⟨snapshot, action, hmem, hduty⟩

namespace Actor

theorem Owns.congr (h : a.Owns id) (hchart : b.machine.chart = a.machine.chart)
    (hstate : b.state = a.state) :
  b.Owns id
  := by
  obtain ⟨i, snapshot, hi, hsnapshot, hactive⟩ := h
  exact ⟨i, snapshot, hchart ▸ hi, hstate ▸ hsnapshot, hactive⟩

/-- An interpreter without services, to which none is about to come. -/
theorem registered_of_empty (hservices : a.services = [])
    (hnone : ∀ w ∈ ds, w.registers = false) :
  a.Registered n is ds
  := by
  constructor
  case increasing =>
    rw [hservices]
    exact List.Pairwise.nil
  case unbooted => exact fun _ => hservices
  case pending =>
    intro v hv
    cases hnone _ hv
  case confirming =>
    intro child id generation hd
    cases hnone _ hd
  all_goals simp [hservices]

/-- Services may go, and duties that do not concern the registry may come and go. -/
theorem Registered.weaken (h : a.Registered n is ds) (hchart : b.machine.chart = a.machine.chart)
    (hstate : b.state = a.state) (hrunning : b.status = .running → a.status = .running)
    (hgeneration : a.generation ≤ b.generation) (hservices : b.services.Sublist a.services)
    (his : is ⊆ is')
    (hregister : ∀ v, .register n v ∈ es → .register n v ∈ ds ∧ b.generation = a.generation)
    (hconfirm : ∀ child id generation, .confirmStart n child id generation ∈ es →
      .confirmStart n child id generation ∈ ds)
    (hstop : b.status = .running → ∀ e ∈ b.services, StopPending n e.1 ds →
      StopPending n e.1 es) :
  b.Registered n is' es
  := by
  constructor
  case increasing => exact List.Pairwise.sublist hservices h.increasing
  case keyed => exact fun e he => h.keyed e (hservices.subset he)
  case bounded => exact fun e he => (h.bounded e (hservices.subset he)).trans hgeneration
  case issued => exact fun e he => his (h.issued e (hservices.subset he))
  case owned =>
    intro hstatus e he
    rcases h.owned (hrunning hstatus) e (hservices.subset he) with howns | hpending
    · exact Or.inl (howns.congr hchart hstate)
    · exact Or.inr (hstop hstatus e he hpending)
  case unbooted =>
    intro hnone
    have hempty := hservices
    rw [h.unbooted (hstate ▸ hnone)] at hempty
    exact List.sublist_nil.mp hempty
  case pending =>
    intro v hv
    obtain ⟨hv, hsame⟩ := hregister v hv
    obtain ⟨howns, hissued, hgeneration, hlater⟩ := h.pending v hv
    exact ⟨howns.congr hchart hstate, his hissued, hgeneration.trans hsame.symm,
      fun e he => hlater e (hservices.subset he)⟩
  case confirming =>
    intro child id generation hd
    obtain ⟨hheld, hpending⟩ := h.confirming child id generation (hconfirm child id generation hd)
    exact ⟨fun e he => hheld e (hservices.subset he),
      fun v hv => hpending v (hregister v hv).1⟩

/-- What does not concern the registry may change. -/
theorem Registered.congr (h : a.Registered n is ds)
    (heq : (b.machine.chart, b.status, b.state, b.services, b.generation) =
      (a.machine.chart, a.status, a.state, a.services, a.generation)) :
  b.Registered n is ds
  := by
  simp only [Prod.mk.injEq] at heq
  obtain ⟨hchart, hstatus, hstate, hservices, hgeneration⟩ := heq
  apply h.weaken hchart hstate hstatus.symm.trans hgeneration.ge
  · rw [hservices]
  · exact List.Subset.refl _
  · exact fun v hv => ⟨hv, hgeneration⟩
  · exact fun _ _ _ hd => hd
  · exact fun _ _ _ hstop => hstop

theorem Registered.like (h : a.Registered n is ds) (hlike : a.Like b) :
  b.Registered n is ds
  := by
  apply h.congr
  rw [hlike.chart, hlike.status, hlike.state, hlike.services, hlike.generation]

/-- A duty comes that registers nothing. -/
theorem Registered.cons (h : a.Registered n is ds) (hw : w.registers = false) :
  a.Registered n is (w :: ds)
  := by
  apply h.weaken rfl rfl (fun h => h) (Nat.le_refl _) (List.Sublist.refl _) (List.Subset.refl _)
  · intro v hv
    rcases List.mem_cons.mp hv with rfl | hv
    · cases hw
    · exact ⟨hv, rfl⟩
  · intro child id generation hd
    rcases List.mem_cons.mp hd with rfl | hd
    · cases hw
    · exact hd
  · rintro - e - ⟨snapshot, action, hmem, hduty⟩
    exact ⟨snapshot, action, List.mem_cons_of_mem _ hmem, hduty⟩

/-- A duty goes that does not stop a live service. -/
theorem Registered.tail (h : a.Registered n is (w :: ds))
    (hw : a.status = .running → ∀ e ∈ a.services, ∀ snapshot action,
      w = .perform n snapshot action → action.duty ≠ .stop e.1) :
  a.Registered n is ds
  := by
  apply h.weaken rfl rfl (fun h => h) (Nat.le_refl _) (List.Sublist.refl _) (List.Subset.refl _)
  · exact fun v hv => ⟨List.mem_cons_of_mem _ hv, rfl⟩
  · exact fun _ _ _ hd => List.mem_cons_of_mem _ hd
  · intro hrunning e he hstop
    rcases stopPending_cons hstop with ⟨snapshot, action, heq, hduty⟩ | hstop
    · exact absurd hduty (hw hrunning e he snapshot action heq)
    · exact hstop

/-- A duty goes that carries out no action. -/
theorem Registered.past (h : a.Registered n is (w :: ds)) (hw : w.performs = false) :
  a.Registered n is ds
  := by
  apply h.tail
  rintro - e - snapshot action rfl
  cases hw

/-- What is live without a service was live with it. -/
theorem isLive_of_erase {key : String} {generation : Nat}
    (h : isLive { a with services := Association.erase key a.services } id generation = true) :
  id ≠ key ∧ a.isLive id generation = true
  := by
  by_cases hkey : id = key
  · subst hkey
    rw [isLive, Association.lookup_erase_self] at h
    cases h
  · rw [isLive, Association.lookup_erase_of_ne hkey] at h
    exact ⟨hkey, h⟩

theorem isLive_of_without {key : String} {removed generation : Nat}
    (h : (a.without key removed).isLive id generation = true) :
  a.isLive id generation = true
  := by
  rw [without] at h
  split at h
  · exact (isLive_of_erase h).2
  · exact h

theorem isLive_without_self (a : Actor) (id : String) (generation : Nat) :
  (a.without id generation).isLive id generation = false
  := by
  rw [Bool.eq_false_iff]
  intro h
  rw [without] at h
  split at h
  · exact (isLive_of_erase h).1 rfl
  · next hdead => exact hdead h

/-- A service is issued, and is about to be registered. -/
theorem Registered.issue (h : a.Registered n is ds) (hds : Starting n snapshot ds)
    {service : Service} {ws : List Work} (howns : a.Owns service.id)
    (hissued : (service.id, service.generation) ∈ is)
    (hgeneration : service.generation = a.generation)
    (hlater : ∀ e ∈ a.services, e.2.generation < service.generation)
    (hws : Issued n service ws) :
  a.Registered n is (ws ++ ds)
  := by
  have hregister : ∀ v, .register n v ∈ ws ++ ds → v = service := by
    intro v hv
    rcases List.mem_append.mp hv with hv | hv
    · cases hws with
      | plain hbacking => simpa using hv
      | machine hbacking => simpa using hv
    · exact absurd hv (hds.register_notMem v)
  constructor
  case increasing => exact h.increasing
  case keyed => exact h.keyed
  case bounded => exact h.bounded
  case issued => exact h.issued
  case owned =>
    intro hrunning e he
    refine (h.owned hrunning e he).imp_right ?_
    rintro ⟨snapshot, action, hmem, hduty⟩
    exact ⟨snapshot, action, List.mem_append_right _ hmem, hduty⟩
  case unbooted => exact h.unbooted
  case pending =>
    intro v hv
    rw [hregister v hv]
    exact ⟨howns, hissued, hgeneration, hlater⟩
  case confirming =>
    intro child id generation hd
    rcases List.mem_append.mp hd with hd | hd
    · cases hws with
      | plain hbacking => simp at hd
      | @machine c hbacking =>
        obtain ⟨rfl, rfl, rfl⟩ : child = c ∧ id = service.id ∧ generation = service.generation := by
          simpa using hd
        refine ⟨fun e he heq => absurd heq (hlater e he).ne, fun v hv _ => ?_⟩
        rw [hregister v hv]
        exact hbacking
    · cases (Performing.starting hds).follows hd

/-- A service is registered under its id. -/
theorem Registered.register {service : Service} (h : a.Registered n is (.register n service :: ds))
    (hds : ∀ v, .register n v ∉ ds) :
  Registered n is
    { a with services := Association.insertSorted service.id service a.services } ds
  := by
  obtain ⟨howns, hissued, hgeneration, hlater⟩ := h.pending service List.mem_cons_self
  have hmem : ∀ e ∈ Association.insertSorted service.id service a.services,
      e = (service.id, service) ∨ e ∈ a.services := by
    intro e he
    exact (h.increasing.mem_insertSorted he).imp_right And.left
  constructor
  case increasing => exact h.increasing.insertSorted _ _
  case keyed =>
    intro e he
    rcases hmem e he with rfl | he
    · rfl
    · exact h.keyed e he
  case bounded =>
    intro e he
    rcases hmem e he with rfl | he
    · exact hgeneration.le
    · exact h.bounded e he
  case issued =>
    intro e he
    rcases hmem e he with rfl | he
    · exact hissued
    · exact h.issued e he
  case owned =>
    intro hrunning e he
    rcases hmem e he with rfl | he
    · exact Or.inl (howns.congr rfl rfl)
    · rcases h.owned hrunning e he with howned | hstop
      · exact Or.inl (howned.congr rfl rfl)
      · rcases stopPending_cons hstop with ⟨snapshot, action, heq, -⟩ | hstop
        · cases heq
        · exact Or.inr hstop
  case unbooted =>
    intro hnone
    obtain ⟨-, snapshot, -, hstate, -⟩ := howns
    rw [hnone] at hstate
    cases hstate
  case pending => exact fun v hv => absurd hv (hds v)
  case confirming =>
    intro child id generation hd
    obtain ⟨hheld, hpending⟩ :=
      h.confirming child id generation (List.mem_cons_of_mem _ hd)
    refine ⟨fun e he heq => ?_, fun v hv => absurd hv (hds v)⟩
    rcases hmem e he with rfl | he
    · exact hpending service List.mem_cons_self heq
    · exact hheld e he heq

/-- A new snapshot is stored that asks for the stop of every service whose owner it exits. -/
theorem Registered.move {next : Snapshot} {event : Event} (h : a.Registered n is ds)
    (hbracketed : a.machine.chart.Bracketed) (hstate : a.state = some snapshot)
    (hds : ∀ id, ¬ StopPending n id ds)
    (hrest : ∀ w ∈ es, w.registers = false)
    (hperforms : ∀ action ∈ next.actions, .perform n next action ∈ es)
    (hnext : a.machine.transition snapshot event = .ok next) :
  Registered n is { a with state := some next } es
  := by
  constructor
  case increasing => exact h.increasing
  case keyed => exact h.keyed
  case bounded => exact h.bounded
  case issued => exact h.issued
  case owned =>
    intro hrunning e he
    rcases h.owned hrunning e he with ⟨i, s, hi, hs, hactive⟩ | hstop
    · rw [hstate, Option.some.injEq] at hs
      subst hs
      rcases Machine.isActive_or_exists_stop hnext hactive (hbracketed e.1 i hi).2.2 with
        hstays | ⟨action, haction, hduty⟩
      · exact Or.inl ⟨i, next, hi, rfl, hstays⟩
      · exact Or.inr ⟨next, action, hperforms action haction, hduty⟩
    · exact absurd hstop (hds e.1)
  case unbooted =>
    intro hnone
    cases hnone
  case pending =>
    intro v hv
    cases hrest _ hv
  case confirming =>
    intro child id generation hd
    cases hrest _ hd

/-- A generation is issued, while no service is about to be registered. -/
theorem Registered.count (h : a.Registered n is ds) (hnone : ∀ service, .register n service ∉ ds) :
  Registered n is { a with generation := a.generation + 1 } ds
  := h.weaken rfl rfl (fun h => h) (Nat.le_succ _) (List.Sublist.refl _) (List.Subset.refl _)
    (fun v hv => absurd hv (hnone v)) (fun _ _ _ hd => hd) (fun _ _ _ hstop => hstop)

/-- What is registered stays in order when services go. -/
theorem Registered.sublist (h : a.Registered n is ds) {services : List (String × Service)}
    (hservices : services.Sublist a.services) :
  Registered n is { a with services } ds
  := h.weaken rfl rfl (fun h => h) (Nat.le_refl _) hservices (List.Subset.refl _)
    (fun _ hv => ⟨hv, rfl⟩) (fun _ _ _ hd => hd) (fun _ _ _ hstop => hstop)

/-- A duty that comes to nothing is followed by the next one. -/
theorem Registered.of_idles (h : a.Registered n is (w :: ds)) (hidle : a.Idles n w) :
  a.Registered n is ds
  := by
  apply h.tail
  rintro hrunning e he snapshot action rfl hduty
  cases hidle with
  | perform hnone => exact Association.lookup_ne_none_of_mem he (hnone e.1 hduty hrunning)

/-- The services go when the interpreter is stopped. -/
theorem Registered.stop (h : a.Registered n is ds) :
  Registered n is { a with status := .stopped, services := [] } ds
  := h.weaken rfl rfl nofun (Nat.le_refl _) (List.nil_sublist _) (List.Subset.refl _)
    (fun _ hv => ⟨hv, rfl⟩) (fun _ _ _ hd => hd) (fun _ _ he => absurd he List.not_mem_nil)

/-- The stop of an invocation is carried out. -/
theorem Registered.remove {action : ResolvedAction}
    (h : a.Registered n is (.perform n snapshot action :: ds)) (hduty : action.duty = .stop id) :
  Registered n is { a with services := Association.erase id a.services } ds
  := by
  have herased : Registered n is { a with services := Association.erase id a.services }
      (.perform n snapshot action :: ds) :=
    h.sublist List.filter_sublist
  apply herased.tail
  rintro - e he _ _ heq hstop
  cases heq
  rw [hduty] at hstop
  cases hstop
  exact (Association.mem_erase.mp he).2 rfl

/-- The start of an invocation issues its id with the next generation. -/
theorem Registered.invoke {action : ResolvedAction} {later : List ResolvedAction}
    {invocation : Invocation} {data : Option Json} {service : Service} {ws : List Work}
    (h : a.Registered n is (.invoke n snapshot action later :: ds))
    (horderly : a.Orderly n (.invoke n snapshot action later :: ds))
    (hduty : action.duty = .start invocation data)
    (hactive : snapshot.isActive invocation.owner = true) (hid : service.id = invocation.id)
    (hgeneration : service.generation = a.generation + 1)
    (hmem : (invocation.id, a.generation + 1) ∈ is) (hissued : Issued n service ws) :
  Registered n is { a with generation := a.generation + 1 } (ws ++ ds)
  := by
  obtain ⟨hstate, hstarting, hlater⟩ := horderly.stage.of_invoke
  have hsound := horderly.sound snapshot hstate action
    (hlater.subset List.mem_cons_self) invocation data hduty
  have howns : Owns { a with generation := a.generation + 1 } service.id :=
    ⟨invocation, snapshot, by rw [hid]; exact hsound, hstate, hactive⟩
  have hcounted := (h.past rfl).count hstarting.register_notMem
  apply hcounted.issue hstarting howns _ hgeneration _ hissued
  · rw [hid, hgeneration]
    exact hmem
  · intro e he
    rw [hgeneration]
    exact Nat.lt_succ_of_le (h.bounded e he)

/-- Nothing else is to be registered than the service at hand. -/
theorem Orderly.register_notMem {service v : Service}
    (h : a.Orderly n (.register n service :: ds)) :
  .register n v ∉ ds
  := by
  obtain ⟨snapshot, -, hstarting | ⟨child, rest, rfl, -, hstarting⟩⟩ := h.stage.of_register
  · exact hstarting.register_notMem v
  · intro hv
    rcases List.mem_cons.mp hv with heq | hv
    · cases heq
    · exact hstarting.register_notMem v hv

/-- The registry stays in order, whatever is done. -/
theorem Registered.turn (h : a.Registered n is ds) (horderly : a.Orderly n ds)
    (hturn : Turn n w a ds b es)
    (hissue : ∀ snapshot action later invocation data, w = .invoke n snapshot action later →
      action.duty = .start invocation data → b.generation = a.generation + 1 →
        (invocation.id, b.generation) ∈ is) :
  b.Registered n is es
  := by
  cases hturn with
  | calm hduty hlike => exact h.like hlike
  | @wake _ _ b _ hduty hrunning hfree hlike =>
    have hclaimed : b.claimed.Registered n is ds := (h.like hlike).congr rfl
    exact hclaimed.cons rfl
  | start hstatus =>
    obtain ⟨rfl, hstate, -⟩ := horderly.unstarted hstatus
    refine registered_of_empty (h.unbooted hstate) ?_
    split
    · exact List.forall_mem_nil _
    · exact List.forall_mem_singleton.mpr rfl
  | stop hstatus hlike => exact h.stop.like hlike
  | release hlike =>
    have hcleared : Registered n is { a with mailbox := a.mailbox.clear } ds := h.congr rfl
    exact hcleared.like hlike
  | rest hqueue => exact (h.past rfl).congr rfl
  | @take _ ds e queue hqueue =>
    have htaken : Registered n is { a with mailbox := { a.mailbox with queue } } (.pump n :: ds) :=
      h.congr rfl
    exact htaken.cons rfl
  | idle hidle hlike => exact (h.of_idles hidle).like hlike
  | @boot _ _ ds e snapshot hrunning hstart hstarts hlike =>
    obtain rfl := horderly.stage.of_handle
    have hstate := horderly.marked e (by simp [Work.envelope?]) hstart
    have hbooted : Registered n is { a with state := some snapshot }
        (Session.committed n snapshot ++ [.pump n]) :=
      registered_of_empty (h.unbooted hstate)
        (fun w hw => (performing_committed snapshot).registers hw)
    exact hbooted.like hlike
  | unbooted hrunning hstart hlike => exact ((h.past rfl).cons rfl).like hlike
  | @accept _ _ ds e hrunning hstart hlive hlike =>
    obtain ⟨services, hservices, heq⟩ := a.exists_admitting e
    rw [heq] at hlike
    exact (((h.past rfl).cons rfl).sublist hservices).like hlike
  | forward hstate => exact (h.past rfl).cons rfl
  | @move _ ds snapshot event next hnext =>
    obtain ⟨hstate, rfl⟩ := horderly.stage.of_react
    apply h.move horderly.bracketed hstate _ _ _ hnext
    · rintro id ⟨s, action, hmem, -⟩
      rcases List.mem_pair.mp hmem with heq | heq <;> cases heq
    · exact fun w hw => (performing_committed next).registers hw
    · exact fun action haction => perform_mem_committed haction
  | remove hrunning hduty hlookup => exact h.remove hduty
  | refuse hrunning hduty hlike =>
    obtain ⟨-, hstarting, -⟩ := horderly.stage.of_invoke
    exact ((h.past rfl).count hstarting.register_notMem).like hlike
  | issue hrunning hduty hactive hid hgeneration hissued hlike =>
    have hmem := hissue _ _ _ _ _ rfl hduty hlike.generation
    rw [hlike.generation] at hmem
    exact (h.invoke horderly hduty hactive hid hgeneration hmem hissued).like hlike
  | register => exact h.register (fun v => horderly.register_notMem)
  | @retract _ _ _ child id generation hlike =>
    obtain ⟨services, hservices, heq⟩ := a.exists_without id generation
    rw [heq] at hlike
    exact ((h.past rfl).sublist hservices).like hlike

end Actor

namespace Session

variable {s s₀ : Session}

/-- All along a course the generations of an interpreter are issued one after the other, and its
registry is in order. -/
theorem Course.registered (h₀ : s₀.Fresh) (h : Course s₀ ms s) (ha : s.actor? n = some a) :
  (issued n ms).map Prod.snd = List.range' 1 a.generation ∧
    a.Registered n (issued n ms) (s.duties n)
  := by
  refine (h.induction_view (P := fun ms a ds =>
    (issued n ms).map Prod.snd = List.range' 1 a.generation ∧
      a.Registered n (issued n ms) ds) ?_ ?_ ?_ h₀).2 a ha
  · intro ms a hprecedes hunstarted
    constructor
    · rw [issued_of_precedes hprecedes, hunstarted.generation]
      rfl
    · exact Actor.registered_of_empty hunstarted.services (List.forall_mem_nil _)
  · rintro ms a b ds ⟨hissued, hregistered⟩ hlike
    refine ⟨?_, hregistered.like hlike⟩
    rw [hlike.generation]
    exact hissued
  · rintro ms t m a b hcourse hm ⟨hissued, hregistered⟩ ha hb hturn
    have horderly := hcourse.orderly h₀ ((hm.actor? n).symm.trans ha)
    have hgrown : issued n ms ⊆ issued n (ms ++ [m]) := by
      rw [issued_concat]
      exact List.subset_append_left _ _
    have hregistered : a.Registered n (issued n (ms ++ [m])) (t.duties n) :=
      hregistered.weaken rfl rfl (fun h => h) (Nat.le_refl _) (List.Sublist.refl _) hgrown
        (fun v hv => ⟨hv, rfl⟩) (fun _ _ _ hd => hd) (fun _ _ _ hstop => hstop)
    refine ⟨?_, hregistered.turn horderly hturn ?_⟩
    · rw [issued_concat, List.map_append, hissued]
      rcases issued?_of_turn ha hb hturn with
        ⟨hsame, hnone⟩ | ⟨_, _, _, _, _, -, -, hnext, hsome⟩
      · rw [hnone, hsame]
        exact List.append_nil _
      · rw [hsome, hnext, List.range'_1_concat, Nat.add_comm 1]
        rfl
    · intro snapshot action later invocation data hw hduty hnext
      rcases issued?_of_turn ha hb hturn with
        ⟨hsame, -⟩ | ⟨_, _, _, _, _, hw', hduty', -, hsome⟩
      · omega
      · rw [hw, Work.invoke.injEq] at hw'
        obtain ⟨-, -, rfl, -⟩ := hw'
        rw [hduty, Duty.start.injEq] at hduty'
        obtain ⟨rfl, -⟩ := hduty'
        rw [issued_concat, hsome]
        exact List.mem_append_right _ List.mem_cons_self

/-- Whether an interpreter is between two envelopes: it has none at hand, and has at most to take
the next one. -/
def IsBetween (s : Session) (n : Nat) : Prop :=
  ∀ w ∈ s.duties n, w = .pump n

/-- At the end of a run every interpreter is between two envelopes. -/
theorem isBetween_of_agenda_eq_nil (n : Nat) (h : s.agenda = []) :
  s.IsBetween n
  := by
  rw [IsBetween, duties, h]
  exact List.forall_mem_nil _

/-- Between two envelopes each service of a running interpreter is registered under its own id,
and the owner of its invocation is active.  Its generation is among those that were issued, which
are all different; no other service has its generation or its id, so that all those of earlier
generations of its id are gone. -/
theorem Course.registry_between (h₀ : s₀.Fresh) (h : Course s₀ ms s)
    (ha : s.actor? n = some a) (hrunning : a.status = .running) (hbetween : s.IsBetween n)
    {key : String} {service : Service} (hservice : (key, service) ∈ a.services) :
  service.id = key ∧
    (∃ i node snapshot, a.machine.chart.invocation? key = some i ∧
      a.machine.chart.node? i.owner = some node ∧ i ∈ node.invocations ∧
      a.state = some snapshot ∧ snapshot.isActive i.owner = true) ∧
    (key, service.generation) ∈ issued n ms ∧
    (issued n ms).map Prod.snd = List.range' 1 a.generation ∧
    (∀ e ∈ a.services, e.2.generation = service.generation ∨ e.2.id = key → e = (key, service)) ∧
    ∀ generation, a.isLive key generation = true → generation = service.generation
  := by
  have horderly := h.orderly h₀ ha
  obtain ⟨hissued, hregistered⟩ := h.registered h₀ ha
  have hlookup : a.services.lookup key = some service := hregistered.increasing.lookup hservice
  have hsole : ∀ e ∈ a.services, e.1 = key → e = (key, service) := by
    rintro ⟨k, v⟩ he rfl
    have hv := hregistered.increasing.lookup he
    rw [hlookup, Option.some.injEq] at hv
    rw [hv]
  have hnodup : ((issued n ms).map Prod.snd).Nodup := by
    rw [hissued]
    exact List.nodup_range' 1
  refine ⟨hregistered.keyed _ hservice, ?_, hregistered.issued _ hservice, hissued, ?_, ?_⟩
  · rcases hregistered.owned hrunning _ hservice with
      ⟨i, snapshot, hi, hstate, hactive⟩ | ⟨snapshot, action, hmem, -⟩
    · obtain ⟨-, ⟨node, hnode, hmem⟩, -⟩ := horderly.bracketed key i hi
      exact ⟨i, node, snapshot, hi, hnode, hmem, hstate, hactive⟩
    · cases hbetween _ hmem
  · rintro e he (hgeneration | hid)
    · have heq := List.inj_on_of_nodup_map hnodup (hregistered.issued e he)
        (hregistered.issued _ hservice) hgeneration
      exact hsole e he (Prod.mk.inj heq).1
    · exact hsole e he ((hregistered.keyed e he).symm.trans hid)
  · intro generation hlive
    rw [Actor.isLive, hlookup, Option.any_some, beq_iff_eq] at hlive
    exact hlive.symm

/-- A machine that invokes a callback service, and leaves and enters the owner on `GO`. -/
def reinvoking : Document.Machine where
  root := .node { initial := some "a" }
    [("a", .node { invoke := [{ id := some "x", src := "callback" }],
                   on := [("GO", [{ targets := ["a"] }])] } [])]

theorem registry_between_reinvoking :
  ∃ chart, Chart.ofDocument reinvoking = .ok chart ∧
    ∃ ms s a service, (ofScript chart {}).Fresh ∧ Course (ofScript chart {}) ms s ∧
      s.actor? root = some a ∧ a.status = .running ∧ s.IsBetween root ∧
      ("x", service) ∈ a.services ∧ service.id = "x" ∧ service.generation = 2 ∧
      issued root ms = [("x", 1), ("x", 2)] ∧ a.isLive "x" 1 = false
  := by
  obtain ⟨chart, h, hp⟩ := Outcome.exists_of_any (x := Chart.ofDocument reinvoking)
    (p := fun chart =>
      let run := (ofScript chart {}).conduct 30 [.start root, .send root (.bare "GO")]
      issued root run.1 = [("x", 1), ("x", 2)] ∧ run.2.agenda.isEmpty = true ∧
        (run.2.actor? root).any (fun a => a.status = .running ∧
          (a.services.lookup "x").any (fun service => service.generation = 2)))
    (by decide +kernel)
  obtain ⟨hissued, hagenda, ha⟩ := of_decide_eq_true hp
  obtain ⟨a, ha, hservice⟩ := (Option.any_eq_true _ _).mp ha
  obtain ⟨hrunning, hservice⟩ := of_decide_eq_true hservice
  obtain ⟨service, hlookup, hgeneration⟩ := (Option.any_eq_true _ _).mp hservice
  have hgeneration : service.generation = 2 := of_decide_eq_true hgeneration
  have h₀ : (ofScript chart {}).Fresh := fresh_ofScript ⟨reinvoking, h⟩ {}
  have hcourse := course_conduct 30 (ofScript chart {})
    [.start root, .send root (.bare "GO")] (by decide)
  have hbetween := isBetween_of_agenda_eq_nil root (List.isEmpty_iff.mp hagenda)
  have hmem := Association.mem_of_lookup hlookup
  obtain ⟨hid, -, -, -, -, hlive⟩ :=
    Course.registry_between h₀ hcourse ha hrunning hbetween hmem
  refine ⟨chart, h, _, _, a, service, h₀, hcourse, ha, hrunning, hbetween, hmem, hid, hgeneration,
    hissued, ?_⟩
  rw [Bool.eq_false_iff]
  intro hfirst
  have hone := hlive 1 hfirst
  omega

end Session

end Statechart
