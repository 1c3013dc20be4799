import Statechart.Proofs.Resolution.Domain
import Statechart.Proofs.Resolution.Entry
import Statechart.Resolution.Microstep

/-!
# Landings

A transition lands on the nodes that its aim stands for, each with its defaults, and climbs
from them: for a history node first to its parent, and always to the domain
(`addEntered_eq`).  Landings that are `Apart` keep the set of nodes to enter coherent.
-/

namespace Statechart.Chart

/-- Nodes that may be active together, none below another. -/
structure Apart (chart : Chart) (nodes : List Nat) : Prop where
  nodup : nodes.Nodup
  lt_length : ∀ x ∈ nodes, x < chart.nodes.length
  not_history : ∀ x ∈ nodes, (chart.kind x).isHistory = false
  not_below : ∀ x ∈ nodes, ∀ y ∈ nodes, ¬ chart.isBelow x y = true
  agree : ∀ {k c c' x y}, (chart.kind k).isCompound = true → chart.parent? c = some k →
    chart.parent? c' = some k → x ∈ nodes → y ∈ nodes → chart.Within x c → chart.Within y c' →
    c = c'

/-- The nodes that an aim stands for, where histories do not lead to further histories. -/
def landings (chart : Chart) (history : History) (n : Nat) : List Nat :=
  match chart.kind n with
  | .history _ defaults => chart.restored history n defaults
  | _ => [n]

/-- The climbs inside a history node, each with its ceiling. -/
def innerClimbs (chart : Chart) (history : History) (n : Nat) : List (Nat × Nat) :=
  match chart.kind n with
  | .history _ defaults =>
    (chart.restored history n defaults).map (fun m => ((chart.parent? n).getD n, m))
  | _ => []

/-- The climbs of a transition with one aim: inside a history node, and to the domain. -/
def climbs (chart : Chart) (history : History) (t : Transition) (aim : Nat) :
    List (Nat × Nat) :=
  chart.innerClimbs history aim ++ (chart.effectiveTargets history t).map
    (fun x => (chart.domain t (chart.effectiveTargets history t), x))

/-- The set with some nodes and their defaults. -/
def land (chart : Chart) (nodes : List Nat) (s : NodeSet) : NodeSet :=
  nodes.foldl (fun s n => chart.addDefaults n s) s

/-- The set after some climbs. -/
def climb (chart : Chart) (climbs : List (Nat × Nat)) (s : NodeSet) : NodeSet :=
  climbs.foldl (fun s e => chart.ascend e.1 e.2 s) s

variable {chart : Chart} {history : History} {t : Transition} {n a k x : Nat} {s : NodeSet}
  {ground : Nat → Prop} {nodes : List Nat} {climbs : List (Nat × Nat)}

theorem apart_singleton (wf : chart.WellFormed) (hn : n < chart.nodes.length)
    (hk : (chart.kind n).isHistory = false) :
  chart.Apart [n]
  := by
  constructor
  case nodup => simp
  case lt_length => simpa using hn
  case not_history => simpa using hk
  case not_below => simpa using wf.not_isBelow_self n
  case agree =>
    intro k c c' x y _ hc hc' hx hy hxc hyc
    rw [List.mem_singleton.mp hx] at hxc
    rw [List.mem_singleton.mp hy] at hyc
    apply wf.child_unique hc hc' hxc hyc

theorem Apart.tail (h : chart.Apart (x :: nodes)) :
  chart.Apart nodes
  := by
  have hcons : ∀ {y}, y ∈ nodes → y ∈ x :: nodes := List.mem_cons_of_mem x
  constructor
  case nodup => exact (List.nodup_cons.mp h.nodup).2
  case lt_length => exact fun y hy => h.lt_length y (hcons hy)
  case not_history => exact fun y hy => h.not_history y (hcons hy)
  case not_below => exact fun y hy z hz => h.not_below y (hcons hy) z (hcons hz)
  case agree => exact fun hk hc hc' hy hz => h.agree hk hc hc' (hcons hy) (hcons hz)

namespace WellFormed

variable (wf : chart.WellFormed)

include wf

/-! ### Descents to landings -/

/-- After a descent to one of the nodes that are apart, the set is clear of the others. -/
theorem clear_of_fills {s' : NodeSet} (hapart : chart.Apart (x :: nodes))
    (hfills : chart.Fills x s s') {y : Nat} (hy : y ∈ nodes) (hclear : chart.Clear s y) :
  chart.Clear s' y
  := by
  intro k hk hky
  have hy' := List.mem_cons_of_mem x hy
  rcases hfills.new hk with hks | hkx
  · apply hclear k hks hky
  · rcases wf.within_total hkx (Or.inr hky) with (heq | hxy) | hyx
    · rw [heq] at hapart
      apply (List.nodup_cons.mp hapart.nodup).1 hy
    · apply hapart.not_below x List.mem_cons_self y hy' hxy
    · apply hapart.not_below y hy' x List.mem_cons_self hyx

/-- After a descent to one of the nodes that are apart, the set agrees with the others. -/
theorem agrees_of_fills {s' : NodeSet} (hapart : chart.Apart (x :: nodes))
    (hfills : chart.Fills x s s') {y : Nat} (hy : y ∈ nodes) (hagrees : chart.Agrees s y) :
  chart.Agrees s' y
  := by
  intro k c c' z hk hc hc' hyc hz hzc
  have hy' := List.mem_cons_of_mem x hy
  rcases hfills.new hz with hzs | hzx
  · apply hagrees hk hc hc' hyc hzs hzc
  · have hyk := wf.within_isBelow hyc (wf.isBelow_of_parent hc)
    rcases wf.within_total hzx (wf.within_trans hzc (Or.inr (wf.isBelow_of_parent hc'))) with
      (heq | hxk) | hkx
    · rw [← heq] at hyk
      exact absurd hyk (hapart.not_below y hy' x List.mem_cons_self)
    · apply hapart.agree hk hc hc' hy' List.mem_cons_self hyc
        (wf.within_child_of_within hzx hxk hc' hzc)
    · exact absurd (wf.isBelow_trans hyk hkx) (hapart.not_below y hy' x List.mem_cons_self)

/-- Descents to nodes that are apart, each clear of the set and in agreement with it, keep
the set, add nodes within the landings alone, and keep it coherent and rooted. -/
theorem land_spec (hapart : chart.Apart nodes) (hclear : ∀ x ∈ nodes, chart.Clear s x)
    (hagrees : ∀ x ∈ nodes, chart.Agrees s x) :
  (∀ k ∈ s, k ∈ chart.land nodes s) ∧
  (∀ x ∈ nodes, x ∈ chart.land nodes s) ∧
  (∀ k ∈ chart.land nodes s, k ∈ s ∨ ∃ x ∈ nodes, chart.Within k x) ∧
  (chart.Coherent s → chart.Coherent (chart.land nodes s)) ∧
  ∀ {ground marks}, chart.Rooted ground marks s → (∀ x ∈ nodes, x ∈ marks) →
    chart.Rooted ground marks (chart.land nodes s)
  := by
  induction nodes generalizing s with
  | nil => simp [land]
  | cons x nodes ih =>
    have hfills := fills_addDefaults wf (hapart.lt_length x List.mem_cons_self)
      (hapart.not_history x List.mem_cons_self) (hclear x List.mem_cons_self)
    have hcons : ∀ y ∈ nodes, y ∈ x :: nodes := fun y hy => List.mem_cons_of_mem x hy
    have hclear' : ∀ y ∈ nodes, chart.Clear (chart.addDefaults x s) y := fun y hy =>
      wf.clear_of_fills hapart hfills hy (hclear y (hcons y hy))
    have hagrees' : ∀ y ∈ nodes, chart.Agrees (chart.addDefaults x s) y := fun y hy =>
      wf.agrees_of_fills hapart hfills hy (hagrees y (hcons y hy))
    obtain ⟨hmono, hmem, hnew, hcoherent, hrooted⟩ := ih hapart.tail hclear' hagrees'
    rw [land, List.foldl_cons, ← land]
    and_intros
    · exact fun k hk => hmono k (hfills.mono hk)
    · intro y hy
      rcases List.mem_cons.mp hy with rfl | hy
      · apply hmono _ hfills.branch.top.1
      · apply hmem y hy
    · intro k hk
      rcases hnew k hk with hk | ⟨y, hy, hky⟩
      · rcases hfills.new hk with hks | hkx
        · exact Or.inl hks
        · exact Or.inr ⟨x, List.mem_cons_self, hkx⟩
      · exact Or.inr ⟨y, hcons y hy, hky⟩
    · intro coherent
      have hsupports := wf.supports_addDefaults (s := s) (hapart.lt_length x List.mem_cons_self)
        (hapart.not_history x List.mem_cons_self)
      apply hcoherent (wf.coherent_of_fills coherent hsupports hfills
        (hclear x List.mem_cons_self) (hagrees x List.mem_cons_self))
    · intro ground marks hroots hmarks
      apply hrooted (wf.rooted_of_fills hroots hfills (hmarks x List.mem_cons_self))
        (fun y hy => hmarks y (hcons y hy))

/-! ### Climbs from landings -/

/-- Climbs keep the set, add the nodes that they pass, and add else only defaults of regions
that hold no node; they keep the set coherent and rooted. -/
theorem climb_spec (climbs : List (Nat × Nat)) (s : NodeSet) :
  (∀ k ∈ s, k ∈ chart.climb climbs s) ∧
  (∀ c x a, (c, x) ∈ climbs → chart.Passes c x a → a ∈ chart.climb climbs s) ∧
  (∀ k ∈ chart.climb climbs s, k ∈ s ∨ ∃ c x a, (c, x) ∈ climbs ∧ chart.Passes c x a ∧
    (k = a ∨ (chart.kind a).isParallel = true ∧
      ∃ r ∈ chart.regions a, chart.Clear s r ∧ chart.Within k r)) ∧
  (chart.Coherent s → (∀ e ∈ climbs, e.2 ∈ s) → chart.Coherent (chart.climb climbs s)) ∧
  ∀ {ground marks}, chart.Rooted ground marks s → (∀ e ∈ climbs, e.2 ∈ marks) →
    chart.Rooted ground marks (chart.climb climbs s)
  := by
  induction climbs generalizing s with
  | nil => simp [climb]
  | cons e climbs ih =>
    obtain ⟨c, x⟩ := e
    obtain ⟨hmono, hmem, hnew, hcoherent, hrooted⟩ := ih (chart.ascend c x s)
    obtain ⟨hmono', hmem', hnew'⟩ := wf.ascend_spec c x s
    rw [climb, List.foldl_cons, ← climb]
    and_intros
    · exact fun k hk => hmono k (hmono' k hk)
    · intro c' x' a he ha
      rcases List.mem_cons.mp he with he | he
      · cases he
        apply hmono a (hmem' a ha)
      · apply hmem c' x' a he ha
    · intro k hk
      rcases hnew k hk with hk | ⟨c', x', a, he, ha, hka⟩
      · rcases hnew' k hk with hks | ⟨a, ha, hka⟩
        · exact Or.inl hks
        · exact Or.inr ⟨c, x, a, List.mem_cons_self, ha, hka⟩
      · right
        use c', x', a, List.mem_cons_of_mem _ he, ha
        rcases hka with rfl | ⟨hparallel, r, hr, hclear, hkr⟩
        · exact Or.inl rfl
        · exact Or.inr ⟨hparallel, r, hr, hclear.anti (fun hk => hmono' _ hk), hkr⟩
    · intro coherent hlanded
      apply hcoherent
      · have hx := hlanded (c, x) List.mem_cons_self
        apply wf.coherent_ascend coherent ⟨x, hx, within_refl chart x⟩
      · exact fun e he => hmono' _ (hlanded e (List.mem_cons_of_mem _ he))
    · intro ground marks hroots hmarks
      apply hrooted
      · apply wf.rooted_ascend hroots (hmarks (c, x) List.mem_cons_self)
      · exact fun e he => hmarks e (List.mem_cons_of_mem _ he)

/-! ### Single aims -/

omit wf in
theorem enterTarget_of_plain {fuel : Nat} (hk : (chart.kind n).isHistory = false) :
  chart.enterTarget history (fuel + 1) n s = chart.addDefaults n s
  := by
  rw [enterTarget]
  cases hkind : chart.kind n with
  | history depth defaults =>
    rw [hkind] at hk
    cases hk
  | _ => rfl

omit wf in
theorem standsFor_of_plain {fuel : Nat} (hk : (chart.kind n).isHistory = false) :
  chart.standsFor history (fuel + 1) n = [n]
  := by
  rw [standsFor]
  cases hkind : chart.kind n with
  | history depth defaults =>
    rw [hkind] at hk
    cases hk
  | _ => rfl

omit wf in
theorem landings_of_plain (hk : (chart.kind n).isHistory = false) :
  chart.landings history n = [n] ∧ chart.innerClimbs history n = []
  := by
  rw [landings, innerClimbs]
  cases hkind : chart.kind n with
  | history depth defaults =>
    rw [hkind] at hk
    cases hk
  | _ => exact ⟨rfl, rfl⟩

/-- The chart has room for a history node below the root, so that there is fuel for two
steps. -/
theorem exists_depthBound (hk : (chart.kind n).isHistory = true) :
  ∃ fuel, chart.depthBound = fuel + 1 + 1
  := by
  have hn := lt_length_of_isHistory hk
  have hne := wf.ne_root_of_isHistory hk
  have hpos : 0 < n := Nat.pos_of_ne_zero hne
  exact ⟨chart.nodes.length - 2, by rw [depthBound]; omega⟩

/-- What a target stands for, if histories do not lead to further histories. -/
theorem standsFor_depthBound
    (hplain : ∀ x ∈ chart.landings history n, (chart.kind x).isHistory = false) :
  chart.standsFor history chart.depthBound n = chart.landings history n
  := by
  cases hk : chart.kind n with
  | history depth defaults =>
    obtain ⟨fuel, hfuel⟩ := wf.exists_depthBound (n := n) (by rw [hk]; rfl)
    rw [landings, hk] at hplain ⊢
    rw [hfuel, standsFor, hk]
    dsimp only
    rw [List.flatMap_congr (fun x hx => standsFor_of_plain (hplain x hx))]
    apply List.flatMap_singleton' _
  | _ =>
    have hk' : (chart.kind n).isHistory = false := by rw [hk]; rfl
    obtain ⟨fuel, hfuel⟩ := Nat.exists_eq_succ_of_ne_zero (Nat.ne_of_gt wf.root_lt)
    rw [depthBound, hfuel, (landings_of_plain hk').1]
    apply standsFor_of_plain hk'

/-- Entering a target descends to its landings and climbs inside it. -/
theorem enterTarget_depthBound
    (hplain : ∀ x ∈ chart.landings history n, (chart.kind x).isHistory = false) :
  chart.enterTarget history chart.depthBound n s =
    chart.climb (chart.innerClimbs history n) (chart.land (chart.landings history n) s)
  := by
  cases hk : chart.kind n with
  | history depth defaults =>
    obtain ⟨fuel, hfuel⟩ := wf.exists_depthBound (n := n) (by rw [hk]; rfl)
    rw [landings, hk] at hplain
    rw [hfuel, enterTarget, landings, innerClimbs, hk]
    dsimp only
    rw [climb, List.foldl_map, land]
    congr 1
    apply List.foldl_ext _ _ s (fun s x hx => enterTarget_of_plain (hplain x hx))
  | _ =>
    have hk' : (chart.kind n).isHistory = false := by rw [hk]; rfl
    obtain ⟨fuel, hfuel⟩ := Nat.exists_eq_succ_of_ne_zero (Nat.ne_of_gt wf.root_lt)
    rw [depthBound, hfuel, (landings_of_plain hk').1, (landings_of_plain hk').2]
    apply enterTarget_of_plain hk'

theorem effectiveTargets_of_aims (haims : t.aims = [a])
    (hplain : ∀ x ∈ chart.landings history a, (chart.kind x).isHistory = false) :
  chart.effectiveTargets history t = (chart.landings history a).eraseDups
  := by
  rw [effectiveTargets, haims, List.flatMap_singleton, wf.standsFor_depthBound hplain]

theorem effectiveTargets_of_plain (haims : t.aims = [a])
    (hplain : (chart.kind a).isHistory = false) :
  chart.effectiveTargets history t = [a]
  := by
  have hlandings : chart.landings history a = [a] := (landings_of_plain hplain).1
  rw [wf.effectiveTargets_of_aims haims (by simpa [hlandings] using hplain), hlandings]
  rfl

theorem mem_effectiveTargets (haims : t.aims = [a])
    (hplain : ∀ x ∈ chart.landings history a, (chart.kind x).isHistory = false) :
  x ∈ chart.effectiveTargets history t ↔ x ∈ chart.landings history a
  := by
  rw [wf.effectiveTargets_of_aims haims hplain, List.mem_eraseDups]

/-- A transition with one aim enters its landings with their defaults and climbs from
them; it enters nothing if its aim stands for no node. -/
theorem addEntered_eq (haims : t.aims = [a])
    (hplain : ∀ x ∈ chart.landings history a, (chart.kind x).isHistory = false) :
  Progress.addEntered chart history s t =
    if chart.effectiveTargets history t = [] then s
    else chart.climb (chart.climbs history t a) (chart.land (chart.landings history a) s)
  := by
  rw [Progress.addEntered]
  split
  · next h => rw [if_pos h]
  · next targets h =>
    rw [if_neg h, haims, List.foldl_cons, List.foldl_nil, wf.enterTarget_depthBound hplain]
    rw [climb, climb, climbs, List.foldl_append, List.foldl_map]

/-- All climbs start at landings; the ceilings are the domain and, for a history node, its
parent. -/
theorem mem_climbs {c : Nat} (haims : t.aims = [a])
    (hplain : ∀ x ∈ chart.landings history a, (chart.kind x).isHistory = false) :
  (c, x) ∈ chart.climbs history t a ↔ x ∈ chart.landings history a ∧
    (c = chart.domain t (chart.effectiveTargets history t) ∨
      (chart.kind a).isHistory = true ∧ chart.parent? a = some c)
  := by
  have hinner : (c, x) ∈ chart.innerClimbs history a ↔ x ∈ chart.landings history a ∧
      (chart.kind a).isHistory = true ∧ chart.parent? a = some c := by
    cases hk : (chart.kind a).isHistory with
    | false => simp [(landings_of_plain hk).2]
    | true =>
      obtain ⟨p, hp⟩ := wf.exists_parent_of_isHistory hk
      cases hkind : chart.kind a with
      | history depth defaults =>
        rw [innerClimbs, landings, hkind, hp]
        simp [and_comm]
      | _ =>
        rw [hkind] at hk
        cases hk
  rw [climbs, List.mem_append, hinner, List.mem_map]
  simp only [wf.mem_effectiveTargets haims hplain, Prod.mk.injEq]
  constructor
  · rintro (⟨hx, hk⟩ | ⟨y, hy, rfl, rfl⟩)
    · exact ⟨hx, Or.inr hk⟩
    · exact ⟨hy, Or.inl rfl⟩
  · rintro ⟨hx, rfl | hk⟩
    · exact Or.inr ⟨x, hx, rfl, rfl⟩
    · exact Or.inl ⟨hx, hk⟩

/-- Descents to plain nodes support what they add. -/
theorem extends_land (hlt : ∀ x ∈ nodes, x < chart.nodes.length)
    (hplain : ∀ x ∈ nodes, (chart.kind x).isHistory = false) :
  chart.Extends s (chart.land nodes s) ∧ ∀ x ∈ nodes, x ∈ chart.land nodes s
  := by
  induction nodes generalizing s with
  | nil => exact ⟨extends_refl chart s, by simp⟩
  | cons x nodes ih =>
    have hsupports := wf.supports_addDefaults (s := s) (hlt x List.mem_cons_self)
      (hplain x List.mem_cons_self)
    obtain ⟨hextends, hmem⟩ := ih (s := chart.addDefaults x s)
      (fun y hy => hlt y (List.mem_cons_of_mem x hy))
      (fun y hy => hplain y (List.mem_cons_of_mem x hy))
    rw [land, List.foldl_cons, ← land]
    use hsupports.extends.trans hextends
    intro y hy
    rcases List.mem_cons.mp hy with rfl | hy
    · apply hextends.mono hsupports.self
    · apply hmem y hy

/-- Climbs from nodes of the set support what they add. -/
theorem extends_climb (hclimbs : ∀ e ∈ climbs, e.2 ∈ s) :
  chart.Extends s (chart.climb climbs s)
  := by
  induction climbs generalizing s with
  | nil => apply extends_refl chart s
  | cons e climbs ih =>
    rw [climb, List.foldl_cons, ← climb]
    have hextends := wf.extends_ascend (c := e.1) (hclimbs e List.mem_cons_self)
    apply hextends.trans (ih (fun e he => hextends.mono (hclimbs e (List.mem_cons_of_mem _ he))))

/-- A transition with one aim supports what it enters. -/
theorem extends_addEntered (haims : t.aims = [a])
    (hlt : ∀ x ∈ chart.landings history a, x < chart.nodes.length)
    (hplain : ∀ x ∈ chart.landings history a, (chart.kind x).isHistory = false) :
  chart.Extends s (Progress.addEntered chart history s t)
  := by
  rw [wf.addEntered_eq haims hplain]
  split
  · apply extends_refl chart s
  · obtain ⟨hextends, hmem⟩ := wf.extends_land (s := s) hlt hplain
    apply hextends.trans
    apply wf.extends_climb
    exact fun e he => hmem e.2 ((wf.mem_climbs haims hplain).mp he).1

/-- What a transition with one aim enters: its landings and the nodes that the climbs pass,
and else only defaults of these.  The set stays coherent and rooted. -/
theorem addEntered_spec (haims : t.aims = [a])
    (hapart : chart.Apart (chart.landings history a))
    (hne : chart.effectiveTargets history t ≠ [])
    (hclear : ∀ x ∈ chart.landings history a, chart.Clear s x)
    (hagrees : ∀ x ∈ chart.landings history a, chart.Agrees s x) :
  (∀ k ∈ s, k ∈ Progress.addEntered chart history s t) ∧
  (∀ x ∈ chart.landings history a, x ∈ Progress.addEntered chart history s t) ∧
  (∀ c x q, (c, x) ∈ chart.climbs history t a → chart.Passes c x q →
    q ∈ Progress.addEntered chart history s t) ∧
  (∀ k ∈ Progress.addEntered chart history s t, k ∈ s ∨
    (∃ x ∈ chart.landings history a, chart.Within k x) ∨
    ∃ c x q, (c, x) ∈ chart.climbs history t a ∧ chart.Passes c x q ∧ (k = q ∨
      (chart.kind q).isParallel = true ∧ ∃ r ∈ chart.regions q,
        (∀ x ∈ chart.landings history a, ¬ chart.isBelow x r = true) ∧ chart.Within k r)) ∧
  (chart.Coherent s → chart.Coherent (Progress.addEntered chart history s t)) ∧
  ∀ {ground}, chart.Rooted ground (chart.landings history a) s →
    chart.Rooted ground (chart.landings history a) (Progress.addEntered chart history s t)
  := by
  have hplain := hapart.not_history
  have hclimbs : ∀ e ∈ chart.climbs history t a, e.2 ∈ chart.landings history a :=
    fun e he => ((wf.mem_climbs haims hplain).mp he).1
  rw [wf.addEntered_eq haims hplain, if_neg hne]
  obtain ⟨hmono, hland, hnew, hcoherent, hrooted⟩ := wf.land_spec hapart hclear hagrees
  obtain ⟨hmono', hclimb, hnew', hcoherent', hrooted'⟩ :=
    wf.climb_spec (chart.climbs history t a) (chart.land (chart.landings history a) s)
  and_intros
  · exact fun k hk => hmono' k (hmono k hk)
  · exact fun x hx => hmono' x (hland x hx)
  · exact hclimb
  · intro k hk
    rcases hnew' k hk with hk | ⟨c, x, q, he, hq, hkq⟩
    · rcases hnew k hk with hks | hkx
      · exact Or.inl hks
      · exact Or.inr (Or.inl hkx)
    · right
      right
      use c, x, q, he, hq
      rcases hkq with hkq | ⟨hparallel, r, hr, hclearr, hkr⟩
      · exact Or.inl hkq
      · exact Or.inr ⟨hparallel, r, hr, fun x hx => hclearr x (hland x hx), hkr⟩
  · intro coherent
    apply hcoherent' (hcoherent coherent) (fun e he => hland e.2 (hclimbs e he))
  · intro ground hroots
    apply hrooted' (hrooted hroots (fun x hx => hx)) hclimbs

end WellFormed

end Statechart.Chart
