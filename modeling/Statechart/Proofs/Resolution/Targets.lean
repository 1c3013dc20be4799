import Statechart.Proofs.Resolution.Descent
import Statechart.Proofs.Resolution.Preservation

/-!
# Lists of targets

A transition may lead to several nodes at once.  Without history nodes a microstep from a
legal configuration ends in a legal one if the targets of each of its transitions may be
active together (`legal_of_compatible`); else it ends with two active children of a compound
node (`split_of_not_compatible`).
-/

namespace Statechart.Chart

open Progress

/-- Whether no node of the chart is a history node. -/
def Historyless (chart : Chart) : Prop :=
  ∀ n, (chart.kind n).isHistory = false

instance (chart : Chart) : Decidable chart.Historyless :=
  decidable_of_iff
    (∀ n ∈ List.range chart.nodes.length, (chart.kind n).isHistory = false) (by
      constructor
      · intro hall n
        by_cases hn : n < chart.nodes.length
        · apply hall n (List.mem_range.mpr hn)
        · rw [kind_of_not_lt hn]
          rfl
      · exact fun hall n _ => hall n)

/-- Whether no two nodes of a set lie in different children of a compound node. -/
def Together (chart : Chart) (s : NodeSet) : Prop :=
  ∀ k c c' x y, (chart.kind k).isCompound = true → chart.parent? c = some k →
    chart.parent? c' = some k → x ∈ s → y ∈ s → chart.Within x c → chart.Within y c' → c = c'

/-- Whether a compound node has two active children. -/
def Split (chart : Chart) (configuration : NodeSet) : Prop :=
  ∃ k c c', (chart.kind k).isCompound = true ∧ chart.parent? c = some k ∧
    chart.parent? c' = some k ∧ c ≠ c' ∧ c ∈ configuration ∧ c' ∈ configuration

/-- Whether nodes that are entered in the given order, each with its defaults, may be active
together. -/
def Compatible (chart : Chart) (nodes : List Nat) : Prop :=
  chart.Together (chart.land nodes [])

instance (chart : Chart) (nodes : List Nat) : Decidable (chart.Compatible nodes) :=
  decidable_of_iff
    (∀ x ∈ chart.land nodes [], ∀ y ∈ chart.land nodes [], ∀ c ∈ x :: chart.ancestors x,
      ∀ c' ∈ y :: chart.ancestors y, ∀ k ∈ (chart.parent? c).toList,
        (chart.kind k).isCompound = true → chart.parent? c' = some k → c = c') (by
      have hwithin : ∀ {x c}, c ∈ x :: chart.ancestors x ↔ chart.Within x c := by
        intro x c
        rw [List.mem_cons, Within, isBelow_iff_mem, eq_comm]
      constructor
      · intro hall k c c' x y hk hc hc' hx hy hxc hyc
        apply hall x hx y hy c (hwithin.mpr hxc) c' (hwithin.mpr hyc) k
          (Option.mem_toList.mpr hc) hk hc'
      · intro hall x hx y hy c hxc c' hyc k hc hk hc'
        apply hall k c c' x y hk (Option.mem_toList.mp hc) hc' hx hy (hwithin.mp hxc)
          (hwithin.mp hyc))

/-- Whether some plain nodes lie below `d`, or within it if it is the root. -/
structure Inside (chart : Chart) (d : Nat) (nodes : List Nat) : Prop where
  lt_length : ∀ x ∈ nodes, x < chart.nodes.length
  not_history : ∀ x ∈ nodes, (chart.kind x).isHistory = false
  below : ∀ x ∈ nodes, d = root ∨ chart.isBelow x d = true

/-- The set with some nodes, their defaults and the nodes that climbs from them to `d`
pass. -/
def gather (chart : Chart) (d : Nat) (nodes : List Nat) (s : NodeSet) : NodeSet :=
  chart.climb (nodes.eraseDups.map (fun x => (d, x))) (chart.land nodes s)

/-- What holds of the set of nodes to enter after the transitions `done` of `ts`: it contains
the targets of `done` with their defaults, hangs on the nodes that remain, reaches below the
scopes of `done` and nowhere else, and its nodes may be active together if the targets of each
transition may. -/
structure Gathered (chart : Chart) (p : Progress) (ts done : List Transition) (s : NodeSet) :
    Prop where
  supported : ∀ {k}, k ∈ s → chart.Supported s k
  rooted : chart.Rooted (chart.Remains p ts) [] s
  located : Located chart p ts done s
  reached : ∀ u ∈ done, ∀ d, chart.scope p.history u = some d →
    ∃ k ∈ s, chart.isBelow k d = true
  landed : ∀ u ∈ done, ∀ k ∈ chart.land u.aims [], k ∈ s
  together : (∀ u ∈ done, chart.Compatible u.aims) → chart.Together s

variable {chart : Chart} {imps : Implementations} {trigger : Event} {p : Progress}
  {history history' : History} {ts done rest : List Transition} {t u : Transition}
  {s : NodeSet} {a d k x : Nat} {nodes : List Nat} {ground : Nat → Prop}

/-- A legal configuration is not split. -/
theorem Legal.not_split {configuration : NodeSet} (legal : chart.Legal configuration) :
  ¬ chart.Split configuration
  := by
  rintro ⟨k, c, c', hk, hc, hc', hne, hcs, hcs'⟩
  apply hne (legal.child_unique (legal.parent_mem hcs hc) hk hcs hc hcs' hc')

/-- A transition without aims keeps the entered nodes gathered. -/
theorem Gathered.append_of_aims_nil (h : Gathered chart p ts done s)
    (hnone : chart.scope p.history t = none) (haims : t.aims = []) :
  Gathered chart p ts (done ++ [t]) s
  := by
  constructor
  case supported => exact h.supported
  case rooted => exact h.rooted
  case located => apply h.located.append t
  case reached =>
    apply reached_append (fun k hk => hk) h.reached
    intro d hd
    rw [hnone] at hd
    cases hd
  case landed =>
    intro u hu k hk
    rcases List.mem_append.mp hu with hu | hu
    · apply h.landed u hu k hk
    · rw [List.mem_singleton.mp hu, haims] at hk
      cases hk
  case together => exact fun hall => h.together (fun u hu => hall u (List.mem_append_left _ hu))

theorem mem_climbs_gather {e : Nat} :
  (e, x) ∈ nodes.eraseDups.map (fun x => (d, x)) ↔ e = d ∧ x ∈ nodes
  := by
  simp only [List.mem_map, Prod.mk.injEq, List.mem_eraseDups]
  constructor
  · rintro ⟨y, hy, rfl, rfl⟩
    exact ⟨rfl, hy⟩
  · rintro ⟨rfl, hx⟩
    exact ⟨x, hx, rfl, rfl⟩

namespace WellFormed

variable (wf : chart.WellFormed)

include wf

/-! ### Landings in a place without nodes -/

section

variable (hinside : chart.Inside d nodes)

include hinside

theorem within_of_inside (hx : x ∈ nodes) :
  chart.Within x d
  := by
  rcases hinside.below x hx with rfl | hbelow
  · apply wf.within_root (hinside.lt_length x hx)
  · exact Or.inr hbelow

/-- What landings add lies within the place, and climbs to it support it. -/
theorem extends_gather :
  chart.Extends s (chart.gather d nodes s) ∧ ∀ x ∈ nodes, x ∈ chart.gather d nodes s
  := by
  obtain ⟨hextends, hland⟩ := wf.extends_land (s := s) hinside.lt_length hinside.not_history
  have hclimb : chart.Extends (chart.land nodes s) (chart.gather d nodes s) :=
    wf.extends_climb (fun e he => hland e.2 (mem_climbs_gather.mp he).2)
  exact ⟨hextends.trans hclimb, fun x hx => hclimb.mono (hland x hx)⟩

theorem mem_gather_of_mem_land (hclear : chart.Clear s d) (hk : k ∈ chart.land nodes []) :
  k ∈ chart.gather d nodes s
  := by
  rw [gather]
  apply (wf.climb_spec _ _).1
  exact (wf.mem_land_iff hinside.lt_length hinside.not_history
    (fun x hx => wf.within_of_inside hinside hx) hclear).mpr (Or.inr hk)

theorem within_of_mem_gather (hk : k ∈ chart.gather d nodes s) :
  k ∈ s ∨ chart.Within k d
  := by
  obtain ⟨-, -, hnew, -, -⟩ := wf.climb_spec (nodes.eraseDups.map (fun x => (d, x)))
    (chart.land nodes s)
  rcases hnew k hk with hk | ⟨e, x, q, he, hpasses, hkq⟩
  · rcases wf.mem_land_cases hk with hks | ⟨x, hx, hkx⟩
    · exact Or.inl hks
    · exact Or.inr (wf.within_trans hkx (wf.within_of_inside hinside hx))
  · obtain ⟨rfl, hx⟩ := mem_climbs_gather.mp he
    right
    have hkq : chart.Within k q ∧ k < chart.nodes.length := by
      rcases hkq with rfl | ⟨-, r, hr, -, hkr⟩
      · exact ⟨within_refl chart k, wf.lt_length_of_passes hpasses⟩
      · have hbelow := wf.within_isBelow hkr
          (wf.isBelow_of_parent (parent_of_mem_regions wf hr))
        exact ⟨Or.inr hbelow, lt_length_of_isBelow hbelow⟩
    rcases hinside.below x hx with rfl | hxd
    · apply wf.within_root hkq.2
    · exact Or.inr (wf.within_isBelow hkq.1 (hpasses.2 hxd))

theorem rooted_gather (hs : chart.Rooted ground [] s)
    (hground : ∀ {b}, chart.Within d b → ground b) :
  chart.Rooted ground [] (chart.gather d nodes s)
  := by
  obtain ⟨-, hpassed, -, -, hrooted⟩ := wf.climb_spec (nodes.eraseDups.map (fun x => (d, x)))
    (chart.land nodes s)
  have hmarked : chart.Rooted ground nodes (chart.gather d nodes s) :=
    hrooted (wf.rooted_land hs.marked (fun x hx => hx))
      (fun e he => (mem_climbs_gather.mp he).2)
  apply wf.rooted_of_climbed hmarked (wf.extends_gather hinside).2 _ hground
  exact fun w hw b => hpassed d w b (mem_climbs_gather.mpr ⟨rfl, hw⟩)

/-- Nodes that may be active together still may with landings that may and agree with
them. -/
theorem together_land (hclear : chart.Clear s d)
    (hagrees : ∀ {x}, chart.Within x d → chart.Agrees s x) (hs : chart.Together s)
    (hcompatible : chart.Compatible nodes) :
  chart.Together (chart.land nodes s)
  := by
  have hmem : ∀ {k}, k ∈ chart.land nodes s → k ∈ s ∨ k ∈ chart.land nodes [] :=
    (wf.mem_land_iff hinside.lt_length hinside.not_history
      (fun x hx => wf.within_of_inside hinside hx) hclear).mp
  have hland : ∀ {k}, k ∈ chart.land nodes [] → chart.Within k d := by
    intro k hk
    obtain ⟨x, hx, hkx⟩ := (wf.mem_land_cases hk).resolve_left List.not_mem_nil
    apply wf.within_trans hkx (wf.within_of_inside hinside hx)
  intro k c c' x y hk hc hc' hx hy hxc hyc
  rcases hmem hx with hxs | hx
  · rcases hmem hy with hys | hy
    · apply hs k c c' x y hk hc hc' hxs hys hxc hyc
    · exact (hagrees (hland hy) hk hc' hc hyc hxs hxc).symm
  · rcases hmem hy with hys | hy
    · apply hagrees (hland hx) hk hc hc' hxc hys hyc
    · apply hcompatible k c c' x y hk hc hc' hx hy hxc hyc

theorem together_gather (hclear : chart.Clear s d)
    (hagrees : ∀ {x}, chart.Within x d → chart.Agrees s x)
    (hsupported : ∀ {k}, k ∈ s → chart.Supported s k) (hs : chart.Together s)
    (hcompatible : chart.Compatible nodes) :
  chart.Together (chart.gather d nodes s)
  := by
  obtain ⟨hextends, hland⟩ := wf.extends_land (s := s) hinside.lt_length hinside.not_history
  obtain ⟨-, -, -, hcoherent, -⟩ := wf.climb_spec (nodes.eraseDups.map (fun x => (d, x)))
    (chart.land nodes s)
  have hlanded : chart.Coherent (chart.land nodes s) := by
    constructor
    case supported => exact fun hk => hextends.supported hsupported hk
    case agree => exact wf.together_land hinside hclear hagrees hs hcompatible _ _ _ _ _
  have hgathered := hcoherent hlanded (fun e he => hland e.2 (mem_climbs_gather.mp he).2)
  exact fun _ _ _ _ _ => hgathered.agree

end

/-! ### Transitions to lists of targets -/

/-- A transition aims at nodes of the chart. -/
theorem lt_of_mem_aims (ht : t ∈ chart.transitions t.source) (ha : a ∈ t.aims) :
  a < chart.nodes.length
  := by
  rcases mem_aims ha with rfl | ha
  · apply lt_of_mem_transitions ht
  · apply wf.target_lt ht ha

section

variable (haims : ∀ a ∈ t.aims, (chart.kind a).isHistory = false)

include haims

/-- A transition that aims at no history nodes leads to its aims. -/
theorem effectiveTargets_of_plain_aims :
  chart.effectiveTargets history t = t.aims.eraseDups
  := by
  have hstands : ∀ n ∈ t.aims, chart.standsFor history chart.depthBound n = [n] := by
    intro n hn
    have hlandings : chart.landings history n = [n] := (landings_of_plain (haims n hn)).1
    rw [wf.standsFor_depthBound (by simpa [hlandings] using haims n hn), hlandings]
  rw [effectiveTargets, List.flatMap_congr hstands, List.flatMap_singleton']

/-- It moves inside the same node whatever is recorded. -/
theorem scope_of_plain_aims :
  chart.scope history t = chart.scope history' t
  := by
  rw [scope, scope, wf.effectiveTargets_of_plain_aims haims,
    wf.effectiveTargets_of_plain_aims haims]

theorem aims_eq_nil_of_scope_none (hnone : chart.scope history t = none) :
  t.aims = []
  := by
  have hnil := scope_eq_none.mp hnone
  rw [wf.effectiveTargets_of_plain_aims haims] at hnil
  apply List.eq_nil_iff_forall_not_mem.mpr
  intro a ha
  have hmem := List.mem_eraseDups.mpr ha
  rw [hnil] at hmem
  cases hmem

/-- It lands on its aims and climbs from them to its scope. -/
theorem addEntered_of_plain_aims (hd : chart.scope history t = some d) :
  addEntered chart history s t = chart.gather d t.aims s
  := by
  obtain ⟨hne, rfl⟩ := scope_eq_some.mp hd
  have hland : t.aims.foldl (fun s n => chart.enterTarget history chart.depthBound n s) s =
      chart.land t.aims s := by
    rw [land]
    apply List.foldl_ext _ _ s
    intro s n hn
    have hlandings : chart.landings history n = [n] := (landings_of_plain (haims n hn)).1
    rw [wf.enterTarget_depthBound (by simpa [hlandings] using haims n hn), hlandings,
      (landings_of_plain (haims n hn)).2]
    rfl
  rw [addEntered]
  split
  · next hnil => exact absurd hnil hne
  · rw [hland, gather, climb, List.foldl_map, wf.effectiveTargets_of_plain_aims haims]

theorem inside_aims (ht : t ∈ chart.transitions t.source)
    (hd : chart.scope history t = some d) :
  chart.Inside d t.aims
  := by
  obtain ⟨-, rfl⟩ := scope_eq_some.mp hd
  constructor
  case lt_length => exact fun a ha => wf.lt_of_mem_aims ht ha
  case not_history => exact haims
  case below =>
    intro a ha
    rw [or_iff_not_imp_left]
    apply wf.isBelow_domain
    rw [wf.effectiveTargets_of_plain_aims haims, List.mem_eraseDups]
    exact ha

end

variable (hroot : (chart.kind root).isCompound = true) (hplain : chart.Historyless)

include hroot hplain

/-- One more transition keeps the entered nodes gathered. -/
theorem gathered_addEntered (legal : chart.Legal p.configuration)
    (hapart : chart.ScopesApart p.history ts)
    (hnew : ∀ u ∈ done, ∀ d d', chart.scope p.history t = some d →
      chart.scope p.history u = some d' → ¬ chart.Within d d' ∧ ¬ chart.Within d' d)
    (hdone : ∀ u ∈ done, u.source ∈ p.configuration) (hts : t ∈ ts)
    (ht : t ∈ chart.transitions t.source) (hsource : t.source ∈ p.configuration)
    (h : Gathered chart p ts done s) :
  Gathered chart p ts (done ++ [t]) (addEntered chart history s t)
  := by
  have haims : ∀ a ∈ t.aims, (chart.kind a).isHistory = false := fun a _ => hplain a
  have hscope : chart.scope history t = chart.scope p.history t := wf.scope_of_plain_aims haims
  cases hd : chart.scope p.history t with
  | none =>
    rw [addEntered_of_scope (hscope.trans hd)]
    apply h.append_of_aims_nil hd (wf.aims_eq_nil_of_scope_none haims hd)
  | some d =>
    rw [wf.addEntered_of_plain_aims haims (hscope.trans hd)]
    have hnew := fun u hu d' hd' => hnew u hu d d' hd hd'
    have hinside := wf.inside_aims haims ht hd
    have hclear : chart.Clear s d := wf.not_isBelow_of_located h.located hnew hts hd
    have hremains : ∀ {b}, chart.Within d b → chart.Remains p ts b :=
      wf.remains_of_within legal hapart hts hsource hd
    obtain ⟨hextends, hland⟩ := wf.extends_gather (s := s) hinside
    have hsupported : ∀ {k}, k ∈ chart.gather d t.aims s →
        chart.Supported (chart.gather d t.aims s) k := hextends.supported h.supported
    constructor
    case supported => exact hsupported
    case rooted => apply wf.rooted_gather hinside h.rooted hremains
    case located =>
      intro k hk
      rcases wf.within_of_mem_gather hinside hk with hks | rfl | hkd
      · apply h.located.append t k hks
      · exact Or.inl (hremains (within_refl chart k))
      · exact Or.inr ⟨t, by simp, d, hd, hkd⟩
    case reached =>
      apply reached_append (fun k hk => hextends.mono hk) h.reached
      intro d' hd'
      rw [hd, Option.some.injEq] at hd'
      subst hd'
      obtain ⟨x, hx⟩ := List.exists_mem_of_ne_nil _ (scope_eq_some.mp hd).1
      rw [wf.effectiveTargets_of_plain_aims haims, List.mem_eraseDups] at hx
      rcases wf.within_of_inside hinside hx with rfl | hxd
      · apply (hsupported (hland x hx)).child (wf.isCompound_of_scope hroot hd)
      · use x, hland x hx
    case landed =>
      intro u hu k hk
      rcases List.mem_append.mp hu with hu | hu
      · apply hextends.mono (h.landed u hu k hk)
      · rw [List.mem_singleton.mp hu] at hk
        apply wf.mem_gather_of_mem_land hinside hclear hk
    case together =>
      intro hall
      apply wf.together_gather hinside hclear
        (wf.agrees_of_located legal hdone h.located hnew hts hsource hd) h.supported
        (h.together (fun u hu => hall u (List.mem_append_left _ hu))) (hall t (by simp))

/-- The entered nodes are gathered after all transitions. -/
theorem gathered_entering (legal : chart.Legal p.configuration)
    (hts : ∀ t ∈ ts, t ∈ chart.transitions t.source ∧ t.source ∈ p.configuration)
    (hdisjoint : ts.Pairwise (fun t u => List.Disjoint
      (chart.exited p.configuration p.history [t])
      (chart.exited p.configuration p.history [u]))) :
  Gathered chart p ts ts (p.entering chart ts)
  := by
  have hsources := fun t ht => (hts t ht).2
  have hapart := wf.scopesApart_of_disjoint hroot legal hsources hdisjoint
  apply entered_induction (P := Gathered chart p ts)
  · constructor <;> simp [Rooted, Located, Together]
  · intro done t rest s heq h
    have ht : t ∈ ts := by simp [← heq]
    apply wf.gathered_addEntered hroot hplain legal hapart _ _ ht (hts t ht).1 (hts t ht).2 h
    · exact fun u hu d d' hd hd' =>
        wf.unrelated_of_split hroot legal hsources hdisjoint heq hu hd hd'
    · exact fun u hu => hsources u (by simp [← heq, hu])

/-- If the targets of a transition may not be active together, its microstep splits the
configuration. -/
theorem split_of_not_compatible (legal : chart.Legal p.configuration)
    (hts : ∀ t ∈ ts, t ∈ chart.transitions t.source ∧ t.source ∈ p.configuration)
    (hdisjoint : ts.Pairwise (fun t u => List.Disjoint
      (chart.exited p.configuration p.history [t])
      (chart.exited p.configuration p.history [u])))
    (ht : t ∈ ts) (hnot : ¬ chart.Compatible t.aims) :
  chart.Split (microstep chart imps ts trigger p).configuration
  := by
  have hgathered := wf.gathered_entering hroot hplain legal hts hdisjoint
  rw [Compatible, Together] at hnot
  push Not at hnot
  obtain ⟨k, c, c', x, y, hk, hc, hc', hx, hy, hxc, hyc, hne⟩ := hnot
  obtain ⟨a, ha, hxa⟩ := (wf.mem_land_cases hx).resolve_left List.not_mem_nil
  obtain ⟨b, hb, hyb⟩ := (wf.mem_land_cases hy).resolve_left List.not_mem_nil
  have haims : ∀ a ∈ t.aims, (chart.kind a).isHistory = false := fun a _ => hplain a
  obtain ⟨d, hd⟩ : ∃ d, chart.scope p.history t = some d := by
    apply Option.ne_none_iff_exists'.mp
    intro hnone
    rw [wf.aims_eq_nil_of_scope_none haims hnone] at ha
    cases ha
  have hinside := wf.inside_aims haims (hts t ht).1 hd
  have hxd := wf.within_trans hxa (wf.within_of_inside hinside ha)
  have hyd := wf.within_trans hyb (wf.within_of_inside hinside hb)
  have hkd : chart.Within k d := by
    rcases wf.within_total (wf.within_trans hxc (Or.inr (wf.isBelow_of_parent hc))) hxd with
      hkd | hdk
    · exact hkd
    · exact absurd (wf.child_unique hc hc' (wf.within_child_of_within hxd hdk hc hxc)
        (wf.within_child_of_within hyd hdk hc' hyc)) hne
  -- the children of `k` that lead to `x` and `y` lie below the scope
  have hentered : ∀ {c x}, chart.parent? c = some k → x ∈ chart.land t.aims [] →
      chart.Within x c → c ∈ (microstep chart imps ts trigger p).configuration := by
    intro c x hc hx hxc
    apply mem_configuration_microstep.mpr (Or.inr _)
    have hxs := hgathered.landed t ht x hx
    rcases hxc with rfl | hxc
    · exact hxs
    · rcases hgathered.rooted x hxs c hxc with hcs | ⟨hactive, hstays⟩ | ⟨w, hw, -⟩
      · exact hcs
      · exact absurd (mem_exiting.mpr ⟨hactive, t, ht, d, hd,
          wf.isBelow_of_parent_within hc hkd⟩) hstays
      · cases hw
  exact ⟨k, c, c', hk, hc, hc', hne, hentered hc hx hxc, hentered hc' hy hyc⟩

/-- A microstep under transitions that exit no node in common leads from a legal
configuration to a legal one if the targets of each transition may be active together. -/
theorem legal_of_compatible (legal : chart.Legal p.configuration)
    (hts : ∀ t ∈ ts, t ∈ chart.transitions t.source ∧ t.source ∈ p.configuration)
    (hdisjoint : ts.Pairwise (fun t u => List.Disjoint
      (chart.exited p.configuration p.history [t])
      (chart.exited p.configuration p.history [u])))
    (hall : ∀ t ∈ ts, chart.Compatible t.aims) :
  chart.Legal (microstep chart imps ts trigger p).configuration
  := by
  have hgathered := wf.gathered_entering hroot hplain legal hts hdisjoint
  apply wf.legal_of_fits hroot legal hgathered.supported
  apply wf.fits_of_rooted hgathered.rooted hgathered.located hgathered.reached
  intro k c c' hk hc hc' hcs hcs'
  apply hgathered.together hall k c c' c c' hk hc hc' hcs hcs' (within_refl chart c)
    (within_refl chart c')

end WellFormed

end Statechart.Chart
