import Statechart.Proofs.Resolution.Descent
import Statechart.Proofs.Resolution.Legality
import Statechart.Proofs.Resolution.Stability

/-!
# Preservation of legality

A microstep under transitions that exit no node in common leads from a legal configuration
to a legal one, provided that deep histories are sound (`legal_of_disjoint`).  The entered
nodes are built transition by transition; `Staged` is what holds after some of them.
-/

namespace Statechart.Chart

open Progress

/-- Whether the nodes to enter after the transitions `done` of `ts` remain or lie below the
scopes of `done`. -/
def Located (chart : Chart) (p : Progress) (ts done : List Transition) (s : NodeSet) : Prop :=
  ∀ k ∈ s, chart.Remains p ts k ∨
    ∃ u ∈ done, ∃ d, chart.scope p.history u = some d ∧ chart.isBelow k d = true

/-- What holds of the set of nodes to enter after the transitions `done` of `ts`: it hangs on
the nodes that remain, and it reaches below the scopes of `done` and nowhere else. -/
structure Staged (chart : Chart) (p : Progress) (ts done : List Transition) (s : NodeSet) :
    Prop where
  coherent : chart.Coherent s
  rooted : chart.Rooted (chart.Remains p ts) [] s
  located : Located chart p ts done s
  reached : ∀ u ∈ done, ∀ d, chart.scope p.history u = some d →
    ∃ k ∈ s, chart.isBelow k d = true

variable {chart : Chart} {imps : Implementations} {trigger : Event} {p : Progress}
  {ts done rest : List Transition} {t u : Transition} {s : NodeSet} {d d' : Nat}

theorem addEntered_of_scope {history : History} (h : chart.scope history t = none) :
  addEntered chart history s t = s
  := by
  rw [addEntered, scope_eq_none.mp h]

theorem Located.append (h : Located chart p ts done s) (t : Transition) :
  Located chart p ts (done ++ [t]) s
  := by
  intro k hk
  rcases h k hk with h | ⟨u, hu, h⟩
  · exact Or.inl h
  · exact Or.inr ⟨u, List.mem_append_left _ hu, h⟩

/-- What reaches below the scopes of some transitions still does with one more transition if it
gains what lies below the scope of that one. -/
theorem reached_append {s' : NodeSet} (hmono : ∀ k ∈ s, k ∈ s')
    (hreached : ∀ u ∈ done, ∀ d, chart.scope p.history u = some d →
      ∃ k ∈ s, chart.isBelow k d = true)
    (ht : ∀ d, chart.scope p.history t = some d → ∃ k ∈ s', chart.isBelow k d = true) :
  ∀ u ∈ done ++ [t], ∀ d, chart.scope p.history u = some d →
    ∃ k ∈ s', chart.isBelow k d = true
  := by
  intro u hu d hd
  rcases List.mem_append.mp hu with hu | hu
  · obtain ⟨k, hk, hkd⟩ := hreached u hu d hd
    exact ⟨k, hmono k hk, hkd⟩
  · rw [List.mem_singleton.mp hu] at hd
    apply ht d hd

/-- A transition without a scope keeps the entered nodes staged. -/
theorem Staged.append_of_scope_none (hstaged : Staged chart p ts done s)
    (hnone : chart.scope p.history t = none) :
  Staged chart p ts (done ++ [t]) s
  := by
  constructor
  case coherent => exact hstaged.coherent
  case rooted => exact hstaged.rooted
  case located => apply hstaged.located.append t
  case reached =>
    apply reached_append (fun k hk => hk) hstaged.reached
    intro d hd
    rw [hnone] at hd
    cases hd

namespace WellFormed

variable (wf : chart.WellFormed) (hroot : (chart.kind root).isCompound = true)

include wf hroot

omit hroot in
/-- Entered nodes that hang on the nodes that remain, and reach below the scopes of all
transitions and nowhere else, fit together. -/
theorem fits_of_rooted (hrooted : chart.Rooted (chart.Remains p ts) [] (p.entering chart ts))
    (hlocated : Located chart p ts ts (p.entering chart ts))
    (hreached : ∀ u ∈ ts, ∀ d, chart.scope p.history u = some d →
      ∃ k ∈ p.entering chart ts, chart.isBelow k d = true)
    (hunique : ∀ {k c c'}, (chart.kind k).isCompound = true → chart.parent? c = some k →
      chart.parent? c' = some k → c ∈ p.entering chart ts → c' ∈ p.entering chart ts →
      c = c') :
  chart.Fits p ts
  := by
  constructor
  case parent =>
    intro n q hn hq
    rcases hrooted n hn q (wf.isBelow_of_parent hq) with h | h | ⟨w, hw, -⟩
    · exact Or.inl h
    · exact Or.inr h
    · cases hw
  case unique => exact hunique
  case located =>
    intro n hn
    exact (hlocated n hn).imp_left (fun h => h.1)
  case reached => exact fun ht hd => hreached _ ht _ hd

omit hroot in
/-- The nodes to enter do not lie below the scope of a further transition. -/
theorem not_isBelow_of_located (hlocated : Located chart p ts done s)
    (hnew : ∀ u ∈ done, ∀ d', chart.scope p.history u = some d' →
      ¬ chart.Within d d' ∧ ¬ chart.Within d' d)
    (ht : t ∈ ts) (hd : chart.scope p.history t = some d) :
  ∀ k ∈ s, ¬ chart.isBelow k d = true
  := by
  intro k hk hkd
  rcases hlocated k hk with ⟨hactive, hstays⟩ | ⟨u, hu, d', hd', hkd'⟩
  · apply hstays (mem_exiting.mpr ⟨hactive, t, ht, d, hd, hkd⟩)
  · obtain ⟨hno, hno'⟩ := hnew u hu d' hd'
    rcases wf.within_total (Or.inr hkd) (Or.inr hkd') with h | h
    · apply hno h
    · apply hno' (Or.inr h)

omit hroot in
/-- The nodes to enter lie in the same children of compound nodes as what lies within the
scope of a further transition. -/
theorem agrees_of_located (legal : chart.Legal p.configuration)
    (hdone : ∀ u ∈ done, u.source ∈ p.configuration) (hlocated : Located chart p ts done s)
    (hnew : ∀ u ∈ done, ∀ d', chart.scope p.history u = some d' →
      ¬ chart.Within d d' ∧ ¬ chart.Within d' d)
    (ht : t ∈ ts) (hsource : t.source ∈ p.configuration)
    (hd : chart.scope p.history t = some d) {x : Nat} (hxd : chart.Within x d) :
  chart.Agrees s x
  := by
  have hscope : ∀ {u d}, chart.scope p.history u = some d → u.source ∈ p.configuration →
      d ∈ p.configuration := by
    intro u d hd hsource
    apply legal.mem_of_within wf hsource (wf.within_scope (legal.lt_length hsource) hd)
  intro k c c' y hk hc hc' hxc hy hyc
  have hxk := wf.within_isBelow hxc (wf.isBelow_of_parent hc)
  have hyk := wf.within_isBelow hyc (wf.isBelow_of_parent hc')
  have hyd := wf.not_isBelow_of_located hlocated hnew ht hd y hy
  have hdk : chart.isBelow d k = true := by
    rcases wf.within_total (Or.inr hxk) hxd with hkd | hdk
    · exact absurd (wf.isBelow_of_within hyk hkd) hyd
    · exact hdk
  have hdc := wf.within_child_of_within hxd hdk hc hxc
  have hcs := legal.mem_of_within wf (hscope hd hsource) hdc
  have hcs' : c' ∈ p.configuration := by
    rcases hlocated y hy with ⟨hactive, -⟩ | ⟨u, hu, d', hd', hyd'⟩
    · apply legal.mem_of_within wf hactive hyc
    · have hd'k : chart.isBelow d' k = true := by
        rcases wf.within_total (Or.inr hyk) (Or.inr hyd') with hkd' | hd'k
        · exact absurd (Or.inr (wf.isBelow_of_within hdk hkd')) (hnew u hu d' hd').1
        · exact hd'k
      apply legal.mem_of_within wf (hscope hd' (hdone u hu))
        (wf.within_child_of_within (Or.inr hyd') hd'k hc' hyc)
  apply legal.child_unique (legal.parent_mem hcs hc) hk hcs hc hcs' hc'

omit hroot in
/-- A node that a climb adds lies within the scope, or the scope lies within it. -/
theorem related_of_passes {history : History} {a e x q k : Nat}
    (hremembers : chart.Remembers history) (hsiblings : chart.SiblingDefaults)
    (hdeep : ∀ q, chart.parent? a = some q → (chart.kind a).isDeep = true →
      chart.RegionsBelow q)
    (haims : chart.Aims history t a d)
    (he : (e, x) ∈ chart.climbs history t a) (hpasses : chart.Passes e x q)
    (hlt : k < chart.nodes.length)
    (hkq : k = q ∨ (chart.kind q).isParallel = true ∧ ∃ r ∈ chart.regions q,
      (∀ x ∈ chart.landings history a, ¬ chart.isBelow x r = true) ∧ chart.Within k r) :
  chart.Within k d ∨ chart.Within d k
  := by
  obtain ⟨hx, hend⟩ := (wf.mem_climbs_of_aims haims).mp he
  have hqd := wf.within_total (Or.inr hpasses.1) (wf.within_of_aims haims hx)
  rcases hkq with rfl | ⟨hparallel, r, hr, hclear, hkr⟩
  · exact hqd.imp_right Or.inr
  have hkq := wf.within_isBelow hkr (wf.isBelow_of_parent (parent_of_mem_regions wf hr))
  left
  rcases hqd with hqd | hdq
  · exact Or.inr (wf.isBelow_of_within hkq hqd)
  · rcases hend with rfl | ⟨hhistory, hp⟩
    · -- the climb to the scope passes nodes below it alone
      by_cases hroot : e = root
      · rw [hroot]
        apply wf.within_root hlt
      · right
        apply wf.isBelow_trans hkq (hpasses.2 (wf.isBelow_of_aims haims hx hroot))
    · have hxe := wf.isBelow_of_mem_landings hremembers hsiblings hhistory hp hx
      rcases wf.exists_landing hremembers hsiblings hhistory hp (hdeep e hp) hx hpasses.1
        (hpasses.2 hxe) hparallel hr with ⟨y, hy, hyr⟩ | ⟨hrl, hatomic⟩
      · exact absurd hyr (hclear y hy)
      · rw [hkr.resolve_right (wf.not_isBelow_of_isAtomic hatomic k)]
        apply wf.within_of_aims haims hrl

omit hroot in
/-- What a transition enters is related to its scope: it lies within the scope, or the scope
lies within it. -/
theorem related_of_aims {history : History} {a k : Nat} (hremembers : chart.Remembers history)
    (hsiblings : chart.SiblingDefaults)
    (hdeep : ∀ q, chart.parent? a = some q → (chart.kind a).isDeep = true →
      chart.RegionsBelow q)
    (haims : chart.Aims history t a d) (hk : k ∈ addEntered chart history s t) :
  k ∈ s ∨ chart.Within k d ∨ chart.Within d k
  := by
  have hland := (wf.extends_land (s := s) haims.apart.lt_length haims.apart.not_history).2
  rcases wf.mem_addEntered_cases haims hk with hlanded | ⟨e, x, b, he, hb, hkb⟩
  · rcases wf.mem_land_cases hlanded with hks | ⟨x, hx, hkx⟩
    · exact Or.inl hks
    · exact Or.inr (Or.inl (wf.within_trans hkx (wf.within_of_aims haims hx)))
  · right
    rcases hkb with rfl | ⟨hparallel, r, hr, hclear, hkr⟩
    · apply wf.related_of_passes hremembers hsiblings hdeep haims he hb
        (wf.lt_length_of_passes hb) (Or.inl rfl)
    · have hkb := wf.within_isBelow hkr (wf.isBelow_of_parent (parent_of_mem_regions wf hr))
      apply wf.related_of_passes hremembers hsiblings hdeep haims he hb (lt_length_of_isBelow hkb)
      exact Or.inr ⟨hparallel, r, hr, fun x hx => hclear x (hland x hx), hkr⟩

/-- One more transition keeps the entered nodes staged. -/
theorem staged_addEntered (legal : chart.Legal p.configuration)
    (hremembers : chart.Remembers p.history) (hsiblings : chart.SiblingDefaults)
    (hsingle : chart.SingleTargets) (hsound : chart.SoundHistories)
    (hapart : chart.ScopesApart p.history ts)
    (hnew : ∀ u ∈ done, ∀ d d', chart.scope p.history t = some d →
      chart.scope p.history u = some d' → ¬ chart.Within d d' ∧ ¬ chart.Within d' d)
    (hdone : ∀ u ∈ done, u.source ∈ p.configuration) (hts : t ∈ ts)
    (ht : t ∈ chart.transitions t.source) (hsource : t.source ∈ p.configuration)
    (hstaged : Staged chart p ts done s) :
  Staged chart p ts (done ++ [t])
    (addEntered chart (recorded chart p.configuration p.history ts) s t)
  := by
  have hscope : chart.scope (recorded chart p.configuration p.history ts) t =
      chart.scope p.history t := wf.scope_recorded legal hremembers hsiblings hsingle hsound ht
    hsource (fun u hu d d' hd hd' hrelated => eq_of_related hapart hts hu hd hd'
      (hrelated.imp_right Or.inr))
  have hremembers' := hremembers.recorded wf legal ts
  generalize recorded chart p.configuration p.history ts = history at hscope hremembers' ⊢
  cases hd : chart.scope p.history t with
  | none =>
    rw [addEntered_of_scope (hscope.trans hd)]
    apply hstaged.append_of_scope_none hd
  | some d =>
    rw [hd] at hscope
    have hnew := fun u hu d' hd' => hnew u hu d d' hd hd'
    obtain ⟨a, haims⟩ := wf.exists_aims hremembers' hsiblings ht (hsingle _ t ht) hscope
    have hwithin : ∀ {x}, x ∈ chart.landings history a → chart.Within x d :=
      wf.within_of_aims haims
    obtain ⟨hmono, hland, hclimb, -, hcoherent, hrooted⟩ := wf.addEntered_spec (s := s)
      haims.aims haims.apart (scope_eq_some.mp hscope).1
      (fun x hx k hk hkx => wf.not_isBelow_of_located hstaged.located hnew hts hd k hk
        (wf.isBelow_of_within hkx (hwithin hx)))
      (fun x hx => wf.agrees_of_located legal hdone hstaged.located hnew hts hsource hd
        (hwithin hx))
    have hcoherent := hcoherent hstaged.coherent
    have hremains : ∀ {b}, chart.Within d b → chart.Remains p ts b :=
      wf.remains_of_within legal hapart hts hsource hd
    have hdeep : ∀ q, chart.parent? a = some q → (chart.kind a).isDeep = true →
        chart.RegionsBelow q := by
      intro q hq hdeep
      obtain ⟨defaults, hk⟩ := Kind.eq_history_of_isDeep hdeep
      have ha : a ∈ t.targets := mem_targets_of_isHistory (by simp [haims.aims])
        (by rw [hk]; rfl) (legal.not_history hsource)
      exact (hsound _ t ht a ha q hq hdeep).1
    constructor
    case coherent => exact hcoherent
    case rooted =>
      apply wf.rooted_of_climbed (hrooted hstaged.rooted.marked) hland _ hremains
      intro w hw b hpasses
      apply hclimb d w b ((wf.mem_climbs_of_aims haims).mpr ⟨hw, Or.inl rfl⟩) hpasses
    case located =>
      -- what lies within the scope is its top, which remains, or lies below it
      have hlocated : ∀ {k}, chart.Within k d → chart.Remains p ts k ∨
          ∃ u ∈ done ++ [t], ∃ d, chart.scope p.history u = some d ∧
            chart.isBelow k d = true := by
        rintro k (rfl | hkd)
        · exact Or.inl (hremains (within_refl chart k))
        · exact Or.inr ⟨t, by simp, d, hd, hkd⟩
      intro k hk
      rcases wf.related_of_aims hremembers' hsiblings hdeep haims hk with hks | hkd | hdk
      · apply hstaged.located.append t k hks
      · apply hlocated hkd
      · exact Or.inl (hremains hdk)
    case reached =>
      apply reached_append hmono hstaged.reached
      intro d' hd'
      rw [hd, Option.some.injEq] at hd'
      subst hd'
      obtain ⟨x, hx⟩ := wf.exists_mem_landings haims
      rcases hwithin hx with rfl | hxd
      · have hcompound := wf.isCompound_of_scope hroot hd
        apply (hcoherent.supported (hland x hx)).child hcompound
      · use x, hland x hx

/-- The scope of a transition that exits no node in common with those before it is not
related to theirs. -/
theorem unrelated_of_split (legal : chart.Legal p.configuration)
    (hts : ∀ t ∈ ts, t.source ∈ p.configuration)
    (hdisjoint : ts.Pairwise (fun t u => List.Disjoint
      (chart.exited p.configuration p.history [t])
      (chart.exited p.configuration p.history [u])))
    (heq : done ++ t :: rest = ts) (hu : u ∈ done) (hd : chart.scope p.history t = some d)
    (hd' : chart.scope p.history u = some d') :
  ¬ chart.Within d d' ∧ ¬ chart.Within d' d
  := by
  have ht : t ∈ ts := by simp [← heq]
  have hu' : u ∈ ts := by simp [← heq, hu]
  rw [← heq] at hdisjoint
  have hut := (List.pairwise_append.mp hdisjoint).2.2 u hu t List.mem_cons_self
  constructor
  · apply wf.not_within_of_disjoint hroot legal (hts t ht) (fun _ h h' => hut h' h) hd hd'
  · apply wf.not_within_of_disjoint hroot legal (hts u hu') hut hd' hd

/-- The entered nodes are staged after all transitions. -/
theorem staged_entering (legal : chart.Legal p.configuration)
    (hremembers : chart.Remembers p.history) (hsiblings : chart.SiblingDefaults)
    (hsingle : chart.SingleTargets) (hsound : chart.SoundHistories)
    (hts : ∀ t ∈ ts, t ∈ chart.transitions t.source ∧ t.source ∈ p.configuration)
    (hdisjoint : ts.Pairwise (fun t u => List.Disjoint
      (chart.exited p.configuration p.history [t])
      (chart.exited p.configuration p.history [u]))) :
  Staged chart p ts ts (p.entering chart ts)
  := by
  have hsources := fun t ht => (hts t ht).2
  have hapart := wf.scopesApart_of_disjoint hroot legal hsources hdisjoint
  apply entered_induction (P := Staged chart p ts)
  · constructor
    case coherent => apply coherent_nil chart
    case rooted => exact fun k hk => absurd hk List.not_mem_nil
    case located => exact fun k hk => absurd hk List.not_mem_nil
    case reached => exact fun u hu => absurd hu List.not_mem_nil
  · intro done t rest s heq hstaged
    have ht : t ∈ ts := by simp [← heq]
    apply wf.staged_addEntered hroot legal hremembers hsiblings hsingle hsound hapart _ _ ht
      (hts t ht).1 (hts t ht).2 hstaged
    · exact fun u hu d d' hd hd' =>
        wf.unrelated_of_split hroot legal hsources hdisjoint heq hu hd hd'
    · exact fun u hu => hsources u (by simp [← heq, hu])

/-- A microstep under transitions that exit no node in common leads from a legal
configuration to a legal one. -/
theorem legal_of_disjoint (legal : chart.Legal p.configuration)
    (hremembers : chart.Remembers p.history) (hsiblings : chart.SiblingDefaults)
    (hsingle : chart.SingleTargets) (hsound : chart.SoundHistories)
    (hts : ∀ t ∈ ts, t ∈ chart.transitions t.source ∧ t.source ∈ p.configuration)
    (hdisjoint : ts.Pairwise (fun t u => List.Disjoint
      (chart.exited p.configuration p.history [t])
      (chart.exited p.configuration p.history [u]))) :
  chart.Legal (microstep chart imps ts trigger p).configuration
  := by
  have hstaged := wf.staged_entering hroot legal hremembers hsiblings hsingle hsound hts hdisjoint
  apply wf.legal_of_fits hroot legal hstaged.coherent.supported
  apply wf.fits_of_rooted hstaged.rooted hstaged.located hstaged.reached
  intro k c c' hk hc hc' hcs hcs'
  apply hstaged.coherent.agree hk hc hc' hcs hcs' (within_refl chart c) (within_refl chart c')

end WellFormed

end Statechart.Chart
