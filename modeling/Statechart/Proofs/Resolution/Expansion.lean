import Statechart.Proofs.Resolution.History

/-!
# Chains of history nodes

The default of a history node may be a history node again, so that a target leads to the
nodes it stands for through a chain of history nodes.  Entering the target enters the nodes
that it stands for, with their defaults, and climbs from every node that a history node of
the chain stands for to the parent of the history node (`mem_enterTarget_cases`).
-/

namespace Statechart.Chart

open Progress (recording recorded)

/-- Whether a node leads to another one through history nodes. -/
inductive Leads (chart : Chart) (history : History) : Nat → Nat → Prop where
  | refl {n} : Leads chart history n n
  | step {n m h} (hn : (chart.kind n).isHistory = true) (hm : m ∈ chart.landings history n)
      (hrest : Leads chart history m h) : Leads chart history n h

/-- Whether no history node is active or recorded, and what is recorded are nodes of the
chart. -/
structure Plain (chart : Chart) (configuration : NodeSet) (history : History) : Prop where
  active : ∀ n ∈ configuration, (chart.kind n).isHistory = false
  remembered : ∀ h nodes, history.lookup h = some nodes →
    ∀ x ∈ nodes, (chart.kind x).isHistory = false
  lt_length : ∀ h nodes, history.lookup h = some nodes → ∀ x ∈ nodes, x < chart.nodes.length

variable {chart : Chart} {configuration : NodeSet} {history : History} {s : NodeSet}
  {fuel n h k x p q c : Nat} {ts : List Transition} {t : Transition}

theorem Plain.recorded (wf : chart.WellFormed) (h : chart.Plain configuration history)
    (ts : List Transition) :
  chart.Plain configuration (recorded chart configuration history ts)
  := by
  constructor
  case active => apply h.active
  case remembered =>
    intro n nodes hlookup x hx
    rcases Progress.lookup_recorded_cases wf hlookup with hold | ⟨depth, -, p, -, -, -, heq⟩
    · apply h.remembered n nodes hold x hx
    · rw [heq] at hx
      apply h.active x (wf.mem_recording hx).1
  case lt_length =>
    intro n nodes hlookup x hx
    rcases Progress.lookup_recorded_cases wf hlookup with hold | ⟨depth, -, p, -, -, -, heq⟩
    · apply h.lt_length n nodes hold x hx
    · rw [heq] at hx
      apply lt_length_of_isBelow (wf.mem_recording hx).2

/-- What a history node stands for is plain, or it is one node. -/
theorem landings_plain_or_single (wf : chart.WellFormed)
    (hplain : chart.Plain configuration history) (hh : (chart.kind h).isHistory = true) :
  (∀ x ∈ chart.landings history h, (chart.kind x).isHistory = false) ∨
    ∃ x, chart.landings history h = [x]
  := by
  cases hk : chart.kind h with
  | history depth defaults =>
    rw [landings, hk]
    dsimp only
    rw [restored]
    split
    · next nodes hlookup => exact Or.inl (hplain.remembered h nodes hlookup)
    · rw [historyDefault]
      split
      · next hne =>
        obtain ⟨x, hx⟩ := List.exists_mem_of_ne_nil defaults (by simpa using hne)
        have hlength := wf.defaults_length hk
        have hpos := List.length_pos_of_mem hx
        exact Or.inr (List.length_eq_one_iff.mp (by omega))
      · obtain ⟨p, hp⟩ := wf.exists_parent_of_isHistory hh
        rw [hp]
        dsimp only
        split
        · next i _ => exact Or.inr ⟨i, rfl⟩
        · exact Or.inl (fun x hx => (mem_regions.mp hx).2)
  | _ =>
    rw [hk] at hh
    cases hh

/-! ### Chains -/

theorem standsFor_of_history (hn : (chart.kind n).isHistory = true) :
  chart.standsFor history (fuel + 1) n =
    (chart.landings history n).flatMap (chart.standsFor history fuel)
  := by
  rw [standsFor, landings]
  cases hk : chart.kind n with
  | history depth defaults => rfl
  | _ =>
    rw [hk] at hn
    cases hn

theorem enterTarget_of_history (hn : (chart.kind n).isHistory = true)
    (hp : chart.parent? n = some p) :
  chart.enterTarget history (fuel + 1) n s =
    (chart.landings history n).foldl (fun s m => chart.ascend p m s)
      ((chart.landings history n).foldl (fun s m => chart.enterTarget history fuel m s) s)
  := by
  rw [enterTarget, landings]
  cases hk : chart.kind n with
  | history depth defaults => rw [hp, Option.getD_some]
  | _ =>
    rw [hk] at hn
    cases hn

theorem mem_effectiveTargets_iff (haims : t.aims = [n]) :
  x ∈ chart.effectiveTargets history t ↔ x ∈ chart.standsFor history chart.depthBound n
  := by
  rw [effectiveTargets, haims, List.flatMap_singleton, List.mem_eraseDups]

/-! ### Preservation -/

section

variable {P : NodeSet → Prop} (hinsert : ∀ n s, P s → P (NodeSet.insert n s))

include hinsert

theorem ascend_preserves (hs : P s) :
  P (chart.ascend c n s)
  := by
  rw [ascend]
  apply List.foldlRecOn (motive := P) _ _ hs
  intro s hs a _
  rw [addAncestor]
  split
  · apply completeRegions_preserves (fun r _ s hs => descend_preserves hinsert hs)
      (hinsert a s hs)
  · apply hinsert a s hs

theorem enterTarget_preserves (hs : P s) :
  P (chart.enterTarget history fuel n s)
  := by
  induction fuel generalizing n s with
  | zero => exact hs
  | succ fuel ih =>
    rw [enterTarget]
    split
    · apply List.foldlRecOn (motive := P)
      · apply List.foldlRecOn (motive := P) _ _ hs
        exact fun s hs m _ => ih hs
      · exact fun s hs m _ => ascend_preserves hinsert hs
    · apply descend_preserves hinsert hs

/-- One more transition keeps of the nodes to enter what insertions keep. -/
theorem addEntered_preserves (hs : P s) :
  P (Progress.addEntered chart history s t)
  := by
  rw [Progress.addEntered]
  split
  · exact hs
  · apply List.foldlRecOn (motive := P)
    · apply List.foldlRecOn (motive := P) _ _ hs
      exact fun s hs m _ => enterTarget_preserves hinsert hs
    · exact fun s hs m _ => ascend_preserves hinsert hs

end

theorem subset_enterTarget (hk : k ∈ s) :
  k ∈ chart.enterTarget history fuel n s
  := enterTarget_preserves (P := fun s => k ∈ s) (fun _ _ => NodeSet.mem_insert_of_mem) hk

theorem subset_addEntered (hk : k ∈ s) :
  k ∈ Progress.addEntered chart history s t
  := addEntered_preserves (P := fun s => k ∈ s) (fun _ _ => NodeSet.mem_insert_of_mem) hk

namespace WellFormed

variable (wf : chart.WellFormed)

include wf

theorem lt_of_mem_landings (hplain : chart.Plain configuration history)
    (hn : n < chart.nodes.length) (hx : x ∈ chart.landings history n) :
  x < chart.nodes.length
  := by
  cases hk : chart.kind n with
  | history depth defaults =>
    obtain ⟨p, hp⟩ := wf.exists_parent_of_isHistory (n := n) (by rw [hk]; rfl)
    rw [landings, hk] at hx
    dsimp only at hx
    rw [restored] at hx
    split at hx
    · next nodes hlookup => apply hplain.lt_length n nodes hlookup x hx
    · rw [historyDefault, hp] at hx
      split at hx
      · apply wf.default_lt hk hx
      · dsimp only at hx
        split at hx
        · next i hkind =>
          rw [List.mem_singleton.mp hx]
          apply lt_of_parent (wf.parent_of_mem_children (wf.initial hkind).1)
        · apply lt_of_parent (parent_of_mem_regions wf hx)
  | _ =>
    rw [(landings_of_plain (by rw [hk]; rfl)).1, List.mem_singleton] at hx
    rw [hx]
    exact hn

theorem lt_of_mem_standsFor (hplain : chart.Plain configuration history)
    (hn : n < chart.nodes.length) (hx : x ∈ chart.standsFor history fuel n) :
  x < chart.nodes.length
  := by
  induction fuel generalizing n with
  | zero => cases hx
  | succ fuel ih =>
    cases hk : (chart.kind n).isHistory with
    | false =>
      rw [standsFor_of_plain hk, List.mem_singleton] at hx
      rw [hx]
      exact hn
    | true =>
      rw [standsFor_of_history hk] at hx
      obtain ⟨m, hm, hx⟩ := List.mem_flatMap.mp hx
      apply ih (wf.lt_of_mem_landings hplain hn hm) hx

/-! ### Recorded histories -/

/-- When a microstep records histories, what a target stands for does not change, or all of it
lies below one exited node afterwards. -/
theorem standsFor_recorded_cases (hplain : chart.Plain configuration history)
    (ts : List Transition) (fuel n : Nat) :
  chart.standsFor (recorded chart configuration history ts) fuel n =
      chart.standsFor history fuel n ∨
    ∃ q ∈ chart.exited configuration history ts,
      ∀ x ∈ chart.standsFor (recorded chart configuration history ts) fuel n,
        chart.isBelow x q = true
  := by
  induction fuel generalizing n with
  | zero => exact Or.inl rfl
  | succ fuel ih =>
    cases hk : chart.kind n with
    | history depth defaults =>
      have hn : (chart.kind n).isHistory = true := by rw [hk]; rfl
      obtain ⟨q, hq⟩ := wf.exists_parent_of_isHistory hn
      rw [standsFor_of_history hn, standsFor_of_history hn]
      by_cases hexited : q ∈ chart.exited configuration history ts
      · -- the history node has just recorded active nodes below its parent
        right
        use q, hexited
        intro x hx
        obtain ⟨m, hm, hx⟩ := List.mem_flatMap.mp hx
        rw [landings_of_lookup_eq_some hk (Progress.lookup_recorded_of_mem wf hk hq hexited)] at hm
        obtain ⟨hactive, hmq⟩ := wf.mem_recording hm
        cases fuel with
        | zero => cases hx
        | succ fuel =>
          rw [standsFor_of_plain (hplain.active m hactive)] at hx
          rw [List.mem_singleton.mp hx]
          exact hmq
      · rw [landings_of_lookup hk (Progress.lookup_recorded_of_not_mem wf hq hexited)]
        rcases landings_plain_or_single wf hplain hn with hall | ⟨y, hy⟩
        · left
          apply List.flatMap_congr
          intro m hm
          cases fuel with
          | zero => rfl
          | succ fuel => rw [standsFor_of_plain (hall m hm), standsFor_of_plain (hall m hm)]
        · rw [hy, List.flatMap_singleton, List.flatMap_singleton]
          apply ih y
    | _ =>
      have hn : (chart.kind n).isHistory = false := by rw [hk]; rfl
      left
      rw [standsFor_of_plain hn, standsFor_of_plain hn]

/-! ### What is entered -/

/-- What a descent adds are plain nodes within the node that it starts from. -/
theorem within_of_mem_descend (hk : k ∈ chart.descend fuel n s) :
  k ∈ s ∨ chart.Within k n ∧ (chart.kind k).isHistory = false
  := by
  induction fuel generalizing n s k with
  | zero => exact Or.inl hk
  | succ fuel ih =>
    have hinsert : (chart.kind n).isHistory = false → ∀ k ∈ NodeSet.insert n s,
        k ∈ s ∨ chart.Within k n ∧ (chart.kind k).isHistory = false := by
      intro hn k hk
      rcases NodeSet.mem_insert.mp hk with rfl | hk
      · exact Or.inr ⟨within_refl chart k, hn⟩
      · exact Or.inl hk
    rw [descend] at hk
    cases hkind : chart.kind n with
    | atomic =>
      rw [hkind] at hk
      apply hinsert (by rw [hkind]; rfl) k hk
    | final data =>
      rw [hkind] at hk
      apply hinsert (by rw [hkind]; rfl) k hk
    | compound initial =>
      rw [hkind] at hk
      rcases ih hk with hk | ⟨hki, hplain⟩
      · apply hinsert (by rw [hkind]; rfl) k hk
      · have hbelow := wf.isBelow_of_parent (wf.parent_of_mem_children (wf.initial hkind).1)
        exact Or.inr ⟨Or.inr (wf.within_isBelow hki hbelow), hplain⟩
    | parallel =>
      rw [hkind] at hk
      apply completeRegions_preserves (P := fun s' => ∀ k ∈ s',
        k ∈ s ∨ chart.Within k n ∧ (chart.kind k).isHistory = false) _
        (hinsert (by rw [hkind]; rfl)) k hk
      intro r hr s' hs' k hk
      rcases ih hk with hk | ⟨hkr, hplain⟩
      · apply hs' k hk
      · have hbelow := wf.isBelow_of_parent (parent_of_mem_regions wf hr)
        exact Or.inr ⟨Or.inr (wf.within_isBelow hkr hbelow), hplain⟩
    | history depth defaults =>
      rw [hkind] at hk
      exact Or.inl hk

/-- What a climb adds are plain nodes. -/
theorem not_history_of_mem_ascend (hk : k ∈ chart.ascend c n s) :
  k ∈ s ∨ (chart.kind k).isHistory = false
  := by
  rw [ascend] at hk
  revert k
  apply List.foldlRecOn (motive := fun s' => ∀ {k}, k ∈ s' →
    k ∈ s ∨ (chart.kind k).isHistory = false)
  · exact fun hk => Or.inl hk
  · intro s' hs' a ha k hk
    have hpasses := wf.mem_takeWhile_ancestors.mp ha
    have hjoins := wf.joins_addAncestor (s := s') (wf.lt_length_of_passes hpasses)
    rcases hjoins.new hk with hk' | rfl | ⟨hparallel, r, hr, hclear, hkr⟩
    · apply hs' hk'
    · rcases wf.inner_of_isBelow hpasses.1 with hinner | hinner
      · exact Or.inr (Kind.plain_of_isCompound hinner).2.2
      · exact Or.inr (Kind.plain_of_isParallel hinner).2.2
    · exact Or.inr ((hjoins.branch hparallel r hr hclear).not_history ⟨hk, hkr⟩)

/-- Entering a target adds plain nodes. -/
theorem not_history_of_mem_enterTarget (hk : k ∈ chart.enterTarget history fuel n s) :
  k ∈ s ∨ (chart.kind k).isHistory = false
  := by
  induction fuel generalizing n s with
  | zero => exact Or.inl hk
  | succ fuel ih =>
    cases hn : (chart.kind n).isHistory with
    | false =>
      rw [enterTarget_of_plain hn] at hk
      exact (wf.within_of_mem_descend hk).imp_right And.right
    | true =>
      obtain ⟨p, hp⟩ := wf.exists_parent_of_isHistory hn
      rw [enterTarget_of_history hn hp] at hk
      rcases NodeSet.mem_foldl_cases (fun m _ s hk => wf.not_history_of_mem_ascend hk) hk with
        hk | ⟨-, -, hplain⟩
      · rcases NodeSet.mem_foldl_cases (fun m _ s hk => ih hk) hk with hk | ⟨-, -, hplain⟩
        · exact Or.inl hk
        · exact Or.inr hplain
      · exact Or.inr hplain

/-- Entering a target adds what lies within the nodes that it stands for, and what lies
within the nodes that the climbs of its history nodes pass. -/
theorem mem_enterTarget_cases (hk : k ∈ chart.enterTarget history fuel n s) :
  k ∈ s ∨ (∃ x ∈ chart.standsFor history fuel n, chart.Within k x) ∨
    ∃ h p x q, chart.Leads history n h ∧ (chart.kind h).isHistory = true ∧
      chart.parent? h = some p ∧ x ∈ chart.landings history h ∧ chart.Passes p x q ∧
      chart.Within k q
  := by
  induction fuel generalizing n s with
  | zero => exact Or.inl hk
  | succ fuel ih =>
    cases hn : (chart.kind n).isHistory with
    | false =>
      rw [enterTarget_of_plain hn] at hk
      rw [standsFor_of_plain hn]
      rcases wf.within_of_mem_descend hk with hk | ⟨hkn, -⟩
      · exact Or.inl hk
      · exact Or.inr (Or.inl ⟨n, List.mem_singleton_self n, hkn⟩)
    | true =>
      obtain ⟨p, hp⟩ := wf.exists_parent_of_isHistory hn
      rw [enterTarget_of_history hn hp] at hk
      rw [standsFor_of_history hn]
      rcases NodeSet.mem_foldl_cases (fun m _ s hk => wf.within_of_mem_ascend hk) hk with
        hk | ⟨m, hm, q, hq, hkq⟩
      · rcases NodeSet.mem_foldl_cases (fun m _ s hk => ih hk) hk with
          hk | ⟨m, hm, ⟨x, hx, hkx⟩ | ⟨h, p', x, q, hleads, hrest⟩⟩
        · exact Or.inl hk
        · exact Or.inr (Or.inl ⟨x, List.mem_flatMap.mpr ⟨m, hm, hx⟩, hkx⟩)
        · exact Or.inr (Or.inr ⟨h, p', x, q, .step hn hm hleads, hrest⟩)
      · exact Or.inr (Or.inr ⟨n, p, m, q, .refl, hn, hp, hm, hq, hkq⟩)

/-- Entering a target enters the plain nodes that it stands for. -/
theorem mem_enterTarget_of_standsFor (hx : x ∈ chart.standsFor history fuel n) :
  x ∈ chart.enterTarget history fuel n s
  := by
  induction fuel generalizing n s with
  | zero => cases hx
  | succ fuel ih =>
    cases hn : (chart.kind n).isHistory with
    | false =>
      obtain ⟨bound, hbound⟩ := Nat.exists_eq_succ_of_ne_zero (Nat.ne_of_gt wf.root_lt)
      rw [standsFor_of_plain hn] at hx
      rw [List.mem_singleton.mp hx, enterTarget_of_plain hn, addDefaults, depthBound, hbound]
      apply mem_descend_self hn
    | true =>
      obtain ⟨p, hp⟩ := wf.exists_parent_of_isHistory hn
      rw [standsFor_of_history hn] at hx
      obtain ⟨m, hm, hx⟩ := List.mem_flatMap.mp hx
      rw [enterTarget_of_history hn hp]
      apply NodeSet.subset_foldl (fun s m hk => wf.subset_ascend hk)
      exact NodeSet.mem_foldl_of_mem (fun s m hk => subset_enterTarget hk) hm
        (fun s => ih hx)

/-- Where a target stands for a node, so does all that its history node stands for. -/
theorem standsFor_ne_nil (hplain : chart.Plain configuration history)
    (hn : (chart.kind n).isHistory = true)
    (hne : chart.standsFor history (fuel + 1) n ≠ []) (hx : x ∈ chart.landings history n) :
  chart.standsFor history fuel x ≠ []
  := by
  rw [standsFor_of_history hn] at hne
  rcases landings_plain_or_single wf hplain hn with hall | ⟨y, hy⟩
  · cases fuel with
    | zero =>
      exfalso
      apply hne
      simp [standsFor]
    | succ fuel =>
      rw [standsFor_of_plain (hall x hx)]
      apply List.cons_ne_nil x []
  · rw [hy] at hne hx
    rw [List.mem_singleton.mp hx]
    rw [List.flatMap_singleton] at hne
    exact hne

/-- Entering a target that stands for a node climbs from all that the history nodes on the
way stand for. -/
theorem mem_enterTarget_of_passes (hplain : chart.Plain configuration history)
    (hne : chart.standsFor history fuel n ≠ []) (hleads : chart.Leads history n h)
    (hh : (chart.kind h).isHistory = true) (hp : chart.parent? h = some p)
    (hx : x ∈ chart.landings history h) (hq : chart.Passes p x q) :
  q ∈ chart.enterTarget history fuel n s
  := by
  induction fuel generalizing n s with
  | zero =>
    exfalso
    apply hne rfl
  | succ fuel ih =>
    cases hleads with
    | refl =>
      rw [enterTarget_of_history hh hp]
      exact NodeSet.mem_foldl_of_mem (fun s m hk => wf.subset_ascend hk) hx
        (fun s => wf.mem_ascend_of_passes hq)
    | step hn hm hrest =>
      obtain ⟨p', hp'⟩ := wf.exists_parent_of_isHistory hn
      rw [enterTarget_of_history hn hp']
      apply NodeSet.subset_foldl (fun s m hk => wf.subset_ascend hk)
      exact NodeSet.mem_foldl_of_mem (fun s m hk => subset_enterTarget hk) hm
        (fun s => ih (wf.standsFor_ne_nil hplain hn hne hm) hrest)

/-- A transition enters what entering its aim does. -/
theorem mem_addEntered_of_enterTarget (haims : t.aims = [n])
    (hne : chart.effectiveTargets history t ≠ [])
    (hk : ∀ s, k ∈ chart.enterTarget history chart.depthBound n s) :
  k ∈ Progress.addEntered chart history s t
  := by
  rw [Progress.addEntered]
  split
  · next hnil => exact absurd hnil hne
  · rw [haims, List.foldl_cons, List.foldl_nil]
    apply NodeSet.subset_foldl (fun s m hk => wf.subset_ascend hk) (hk s)

/-- A transition climbs from its targets to its domain. -/
theorem mem_addEntered_of_passes (hx : x ∈ chart.effectiveTargets history t)
    (hq : chart.Passes (chart.domain t (chart.effectiveTargets history t)) x q) :
  q ∈ Progress.addEntered chart history s t
  := by
  rw [Progress.addEntered]
  split
  · next hnil =>
    rw [hnil] at hx
    cases hx
  · exact NodeSet.mem_foldl_of_mem (fun s m hk => wf.subset_ascend hk) hx
      (fun s => wf.mem_ascend_of_passes hq)

/-- One more transition enters plain nodes. -/
theorem not_history_of_mem_addEntered (hk : k ∈ Progress.addEntered chart history s t) :
  k ∈ s ∨ (chart.kind k).isHistory = false
  := by
  rw [Progress.addEntered] at hk
  split at hk
  · exact Or.inl hk
  · rcases NodeSet.mem_foldl_cases (fun m _ s hk => wf.not_history_of_mem_ascend hk) hk with
      hk | ⟨-, -, hplain⟩
    · rcases NodeSet.mem_foldl_cases (fun m _ s hk => wf.not_history_of_mem_enterTarget hk) hk
        with hk | ⟨-, -, hplain⟩
      · exact Or.inl hk
      · exact Or.inr hplain
    · exact Or.inr hplain

/-- No history node is active or recorded after a microstep if none was before. -/
theorem plain_microstep {imps : Implementations} {trigger : Event} {p : Progress}
    (h : chart.Plain p.configuration p.history) (ts : List Transition) :
  chart.Plain (Progress.microstep chart imps ts trigger p).configuration
    (Progress.microstep chart imps ts trigger p).history
  := by
  constructor
  case active =>
    intro n hn
    rcases Progress.mem_configuration_microstep.mp hn with ⟨hn, -⟩ | hn
    · apply h.active n hn
    · rw [Progress.entering, Progress.entered] at hn
      rcases NodeSet.mem_foldl_cases (fun t _ s hk => wf.not_history_of_mem_addEntered hk) hn with
        hnil | ⟨-, -, hplain⟩
      · cases hnil
      · exact hplain
  case remembered =>
    rw [Progress.history_microstep]
    exact (h.recorded wf ts).remembered
  case lt_length =>
    rw [Progress.history_microstep]
    exact (h.recorded wf ts).lt_length

end WellFormed

end Statechart.Chart
