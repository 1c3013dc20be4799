import Statechart.Proofs.Resolution.Expansion

/-!
# Descents apart from the rest

A descent adds its start with the default descendants of it (`mem_addDefaults_of_defaults`).  It
sees of the set that it starts from only what lies below its start.  Landings in a place without
nodes thus add what they add to the empty set (`mem_land_iff`), and what they add hangs on the
landings (`rooted_land`).
-/

namespace Statechart.Chart

/-- Whether a node is `n` or a default descendant of it. -/
inductive Defaults (chart : Chart) (n : Nat) : Nat → Prop where
  | self : Defaults chart n n
  | initial {k i} (h : Defaults chart n k) (hk : chart.kind k = .compound i) :
      Defaults chart n i
  | region {k r} (h : Defaults chart n k) (hk : (chart.kind k).isParallel = true)
      (hr : r ∈ chart.regions k) : Defaults chart n r

variable {chart : Chart} {history : History} {t : Transition} {fuel n a d k x : Nat}
  {s s₀ : NodeSet} {nodes marks : List Nat} {ground : Nat → Prop}

/-- Whether two sets have the same nodes below a node. -/
def SameBelow (chart : Chart) (d : Nat) (s s₀ : NodeSet) : Prop :=
  ∀ k, chart.isBelow k d = true → (k ∈ s ↔ k ∈ s₀)

theorem SameBelow.insert (h : chart.SameBelow d s s₀) (n : Nat) :
  chart.SameBelow d (NodeSet.insert n s) (NodeSet.insert n s₀)
  := by
  intro k hk
  rw [NodeSet.mem_insert, NodeSet.mem_insert, h k hk]

theorem sameBelow_nil (hclear : chart.Clear s d) :
  chart.SameBelow d s []
  := by
  intro k hk
  simp only [List.not_mem_nil, iff_false]
  exact fun hks => hclear k hks hk

/-- The default descendants of a default descendant are default descendants. -/
theorem Defaults.trans {m : Nat} (h : chart.Defaults n m) (h' : chart.Defaults m k) :
  chart.Defaults n k
  := by
  induction h' with
  | self => exact h
  | initial h' hk ih => exact .initial ih hk
  | region h' hk hr ih => exact .region ih hk hr

theorem Defaults.eq_of_isAtomic (h : chart.Defaults n k)
    (hn : (chart.kind n).isAtomic = true) :
  k = n
  := by
  induction h with
  | self => rfl
  | initial h hk ih =>
    rw [← ih, hk] at hn
    cases hn
  | region h hk hr ih =>
    rw [← ih, (Kind.plain_of_isParallel hk).1] at hn
    cases hn

/-- A descent adds default descendants alone. -/
theorem defaults_of_mem_descend (hk : k ∈ chart.descend fuel n s) :
  k ∈ s ∨ chart.Defaults n k
  := by
  induction fuel generalizing n s k with
  | zero => exact Or.inl hk
  | succ fuel ih =>
    have hinsert : ∀ k ∈ NodeSet.insert n s, k ∈ s ∨ chart.Defaults n k := by
      intro k hk
      rcases NodeSet.mem_insert.mp hk with rfl | hk
      · exact Or.inr .self
      · exact Or.inl hk
    rw [descend] at hk
    cases hkind : chart.kind n with
    | atomic =>
      rw [hkind] at hk
      apply hinsert k hk
    | final data =>
      rw [hkind] at hk
      apply hinsert k hk
    | compound i =>
      rw [hkind] at hk
      rcases ih hk with hk | hk
      · apply hinsert k hk
      · exact Or.inr (Defaults.trans (.initial .self hkind) hk)
    | parallel =>
      rw [hkind] at hk
      apply completeRegions_preserves (P := fun s' => ∀ k ∈ s', k ∈ s ∨ chart.Defaults n k) _
        hinsert k hk
      intro r hr s' hs' k hk
      rcases ih hk with hk | hk
      · apply hs' k hk
      · exact Or.inr (Defaults.trans (.region .self (by rw [hkind]; rfl) hr) hk)
    | history depth defaults =>
      rw [hkind] at hk
      exact Or.inl hk

namespace WellFormed

variable (wf : chart.WellFormed)

include wf

/-! ### Default descendants -/

/-- Of the children of a compound default descendant only the initial one is a default
descendant. -/
theorem eq_initial_of_defaults {i c : Nat} (hk : chart.kind k = .compound i)
    (hkn : chart.Within k n) (hc : chart.parent? c = some k) (h : chart.Defaults n c) :
  c = i
  := by
  cases h with
  | self => exact absurd hkn (wf.not_within_of_parent hc)
  | initial h hk' =>
    rw [wf.parent_of_mem_children (wf.initial hk').1, Option.some.injEq] at hc
    rw [hc, hk] at hk'
    cases hk'
    rfl
  | region h hk' hr =>
    rw [parent_of_mem_regions wf hr, Option.some.injEq] at hc
    rw [hc, hk] at hk'
    cases hk'

/-- A descent to a node without nodes below it adds all default descendants. -/
theorem mem_addDefaults_of_defaults (hn : n < chart.nodes.length)
    (hplain : (chart.kind n).isHistory = false) (hclear : chart.Clear s n)
    (h : chart.Defaults n k) :
  k ∈ chart.addDefaults n s
  := by
  have hfills := fills_addDefaults wf hn hplain hclear
  have hbranch : k ∈ chart.addDefaults n s ∧ chart.Within k n := by
    induction h with
    | self => exact hfills.branch.top
    | @initial k i h hk ih =>
      -- the child that the branch has is a default descendant
      obtain ⟨c, ⟨hc, hck⟩, -⟩ := hfills.branch.child ih (by rw [hk]; rfl)
      have hcn := wf.isBelow_of_parent_within hck ih.2
      have hdefault := (defaults_of_mem_descend hc.1).resolve_left (fun hcs => hclear c hcs hcn)
      rw [← wf.eq_initial_of_defaults hk ih.2 hck hdefault]
      exact hc
    | region h hk hr ih => apply hfills.branch.regions ih hk hr
  exact hbranch.1

omit wf in
/-- Landings add default descendants alone. -/
theorem defaults_of_mem_land (hk : k ∈ chart.land nodes s) :
  k ∈ s ∨ ∃ x ∈ nodes, chart.Defaults x k
  := NodeSet.mem_foldl_cases (fun _ _ _ hk => defaults_of_mem_descend hk) hk

/-- Landings that are apart, without nodes below them, add all their default descendants. -/
theorem mem_land_of_defaults (hapart : chart.Apart nodes)
    (hclear : ∀ x ∈ nodes, chart.Clear s x) (hx : x ∈ nodes) (h : chart.Defaults x k) :
  k ∈ chart.land nodes s
  := by
  induction nodes generalizing s with
  | nil => cases hx
  | cons y nodes ih =>
    have hlt := hapart.lt_length y List.mem_cons_self
    have hplain := hapart.not_history y List.mem_cons_self
    have hfills := fills_addDefaults wf hlt hplain (hclear y List.mem_cons_self)
    rw [land, List.foldl_cons, ← land]
    rcases List.mem_cons.mp hx with rfl | hx
    · apply (wf.extends_land (fun z hz => hapart.tail.lt_length z hz)
        (fun z hz => hapart.tail.not_history z hz)).1.mono
      apply wf.mem_addDefaults_of_defaults hlt hplain (hclear x List.mem_cons_self) h
    · apply ih hapart.tail _ hx
      exact fun z hz => wf.clear_of_fills hapart hfills hz (hclear z (List.mem_cons_of_mem y hz))

/-! ### Congruence -/

theorem holdsBelow_congr {r : Nat} (hr : chart.isBelow r d = true)
    (h : chart.SameBelow d s s₀) :
  chart.holdsBelow s r = chart.holdsBelow s₀ r
  := by
  rw [Bool.eq_iff_iff, holdsBelow, holdsBelow, List.any_eq_true, List.any_eq_true]
  constructor
  · rintro ⟨k, hk, hkr⟩
    exact ⟨k, (h k (wf.isBelow_trans hkr hr)).mp hk, hkr⟩
  · rintro ⟨k, hk, hkr⟩
    exact ⟨k, (h k (wf.isBelow_trans hkr hr)).mpr hk, hkr⟩

theorem completeRegions_congr {add : Nat → NodeSet → NodeSet} {regions : List Nat}
    (hregions : ∀ r ∈ regions, chart.isBelow r d = true)
    (hadd : ∀ r ∈ regions, ∀ s s₀, chart.SameBelow d s s₀ →
      chart.SameBelow d (add r s) (add r s₀))
    (h : chart.SameBelow d s s₀) :
  chart.SameBelow d (chart.completeRegions add regions s) (chart.completeRegions add regions s₀)
  := by
  induction regions generalizing s s₀ with
  | nil => exact h
  | cons r rs ih =>
    rw [completeRegions, completeRegions, List.foldl_cons, List.foldl_cons, ← completeRegions,
      ← completeRegions, wf.holdsBelow_congr (hregions r List.mem_cons_self) h]
    apply ih (fun r' hr' => hregions r' (List.mem_cons_of_mem r hr'))
      (fun r' hr' => hadd r' (List.mem_cons_of_mem r hr'))
    split
    · exact h
    · apply hadd r List.mem_cons_self s s₀ h

/-- A descent within a node adds the same nodes below it to sets with the same nodes below
it. -/
theorem descend_congr (hn : chart.Within n d) (h : chart.SameBelow d s s₀) :
  chart.SameBelow d (chart.descend fuel n s) (chart.descend fuel n s₀)
  := by
  induction fuel generalizing n s s₀ with
  | zero => exact h
  | succ fuel ih =>
    have hchild : ∀ {c}, chart.parent? c = some n → chart.isBelow c d = true :=
      fun hc => wf.isBelow_of_parent_within hc hn
    rw [descend, descend]
    cases hk : chart.kind n with
    | atomic => apply h.insert
    | final data => apply h.insert
    | compound i =>
      have hi := hchild (wf.parent_of_mem_children (wf.initial hk).1)
      apply ih (Or.inr hi) (h.insert n)
    | parallel =>
      apply wf.completeRegions_congr _ _ (h.insert n)
      · exact fun r hr => hchild (parent_of_mem_regions wf hr)
      · exact fun r hr s s₀ h => ih (Or.inr (hchild (parent_of_mem_regions wf hr))) h
    | history depth defaults => exact h

theorem land_congr (hnodes : ∀ x ∈ nodes, chart.Within x d) (h : chart.SameBelow d s s₀) :
  chart.SameBelow d (chart.land nodes s) (chart.land nodes s₀)
  := by
  induction nodes generalizing s s₀ with
  | nil => exact h
  | cons x nodes ih =>
    rw [land, land, List.foldl_cons, List.foldl_cons, ← land, ← land]
    apply ih (fun y hy => hnodes y (List.mem_cons_of_mem x hy))
    apply wf.descend_congr (hnodes x List.mem_cons_self) h

theorem mem_land_cases (hk : k ∈ chart.land nodes s) :
  k ∈ s ∨ ∃ x ∈ nodes, chart.Within k x
  := NodeSet.mem_foldl_cases
    (fun _ _ _ hk => (wf.within_of_mem_descend hk).imp_right And.left) hk

/-- Landings within a node without nodes below it add to a set what they add to the empty
set. -/
theorem mem_land_iff (hlt : ∀ x ∈ nodes, x < chart.nodes.length)
    (hplain : ∀ x ∈ nodes, (chart.kind x).isHistory = false)
    (hnodes : ∀ x ∈ nodes, chart.Within x d) (hclear : chart.Clear s d) :
  k ∈ chart.land nodes s ↔ k ∈ s ∨ k ∈ chart.land nodes []
  := by
  obtain ⟨hextends, hland⟩ := wf.extends_land (s := s) hlt hplain
  by_cases hkd : chart.isBelow k d = true
  · rw [wf.land_congr hnodes (sameBelow_nil hclear) k hkd]
    constructor
    · exact fun hk => Or.inr hk
    · rintro (hk | hk)
      · exact absurd hkd (hclear k hk)
      · exact hk
  · -- of the nodes within `d` only `d` itself is not below it
    have hself : ∀ x ∈ nodes, chart.Within k x → k = x := by
      intro x hx hkx
      by_contra hne
      apply hkd (wf.isBelow_of_within (hkx.resolve_left hne) (hnodes x hx))
    constructor
    · intro hk
      rcases wf.mem_land_cases hk with hk | ⟨x, hx, hkx⟩
      · exact Or.inl hk
      · rw [hself x hx hkx]
        exact Or.inr ((wf.extends_land hlt hplain).2 x hx)
    · rintro (hk | hk)
      · apply hextends.mono hk
      · obtain ⟨x, hx, hkx⟩ := (wf.mem_land_cases hk).resolve_left List.not_mem_nil
        rw [hself x hx hkx]
        apply hland x hx

/-- What a descent adds hangs on its start. -/
theorem rooted_descend (hrooted : chart.Rooted ground marks s)
    (hn : ∀ b, chart.isBelow n b = true → b ∈ s ∨ ground b ∨ ∃ w ∈ marks, chart.Within w b) :
  chart.Rooted ground marks (chart.descend fuel n s)
  := by
  induction fuel generalizing n s with
  | zero => exact hrooted
  | succ fuel ih =>
    have hinsert : ∀ {k}, k ∈ s → k ∈ NodeSet.insert n s :=
      NodeSet.mem_insert_of_mem
    have hrooted' : chart.Rooted ground marks (NodeSet.insert n s) := by
      intro k hk b hkb
      rcases NodeSet.mem_insert.mp hk with rfl | hk
      · exact (hn b hkb).imp_left hinsert
      · exact (hrooted k hk b hkb).imp_left hinsert
    -- the children of `n` hang on `n`
    have hchild : ∀ {c s'}, chart.parent? c = some n → (∀ k ∈ NodeSet.insert n s, k ∈ s') →
        chart.Rooted ground marks s' → chart.Rooted ground marks (chart.descend fuel c s') := by
      intro c s' hc hsub hs'
      apply ih hs'
      intro b hcb
      rcases wf.within_parent hc hcb with rfl | hnb
      · exact Or.inl (hsub n (NodeSet.mem_insert.mpr (Or.inl rfl)))
      · exact (hn b hnb).imp_left (fun hb => hsub b (hinsert hb))
    rw [descend]
    cases hk : chart.kind n with
    | atomic => exact hrooted'
    | final data => exact hrooted'
    | compound i =>
      apply hchild (wf.parent_of_mem_children (wf.initial hk).1) (fun k hk => hk) hrooted'
    | parallel =>
      have hpair : (∀ k ∈ NodeSet.insert n s, k ∈ chart.completeRegions (chart.descend fuel)
            (chart.regions n) (NodeSet.insert n s)) ∧
          chart.Rooted ground marks (chart.completeRegions (chart.descend fuel)
            (chart.regions n) (NodeSet.insert n s)) := by
        apply completeRegions_preserves (P := fun s' =>
          (∀ k ∈ NodeSet.insert n s, k ∈ s') ∧ chart.Rooted ground marks s')
        · rintro r hr s' ⟨hsub, hs'⟩
          use fun k hk => subset_descend (hsub k hk)
          apply hchild (parent_of_mem_regions wf hr) hsub hs'
        · exact ⟨fun k hk => hk, hrooted'⟩
      exact hpair.2
    | history depth defaults => exact hrooted

/-- What landings add hangs on the landings. -/
theorem rooted_land (hrooted : chart.Rooted ground marks s) (hnodes : ∀ x ∈ nodes, x ∈ marks) :
  chart.Rooted ground marks (chart.land nodes s)
  := by
  rw [land]
  apply List.foldlRecOn (motive := fun s => chart.Rooted ground marks s) _ _ hrooted
  intro s hs x hx
  apply wf.rooted_descend hs
  intro b hxb
  exact Or.inr (Or.inr ⟨x, hnodes x hx, Or.inr hxb⟩)

/-- A transition adds its landings with their defaults, the nodes that its climbs pass, and
else only defaults of regions that hold no node. -/
theorem mem_addEntered_cases (haims : chart.Aims history t a d)
    (hk : k ∈ Progress.addEntered chart history s t) :
  k ∈ chart.land (chart.landings history a) s ∨
  ∃ e x b, (e, x) ∈ chart.climbs history t a ∧ chart.Passes e x b ∧ (k = b ∨
    (chart.kind b).isParallel = true ∧ ∃ r ∈ chart.regions b,
      chart.Clear (chart.land (chart.landings history a) s) r ∧ chart.Within k r)
  := by
  rw [wf.addEntered_eq haims.aims haims.apart.not_history,
    if_neg (scope_eq_some.mp haims.scope).1] at hk
  apply (wf.climb_spec _ _).2.2.1 k hk

end WellFormed

end Statechart.Chart
