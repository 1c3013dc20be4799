import Mathlib.Data.List.Induction
import Mathlib.Data.List.Nodup
import Statechart.Proofs.Resolution.Domain

/-!
# Selected transitions

What the selection of transitions guarantees.  Each active leaf nominates one transition;
the nominees are gone through in the document order of their first leaves (`Earlier`), and
`Settled` is what holds of the kept ones at each stage: they exit no node in common, and a
dropped nominee is in conflict with a kept one that comes from below it or comes earlier.
-/

namespace Statechart.Chart

section

variable (chart : Chart) (imps : Implementations) (context : Json) (event : Event)
  (eventless : Bool)

/-! ### Nominations -/

/-- Whether the event and the guard admit a transition. -/
def Admits (t : Transition) : Prop :=
  isCandidate event eventless t = true ∧
    (t.guard.map (Guard.passes imps.guards context event)).getD true = true

/-- Whether a transition is the first of a node that is admitted. -/
def Offers (n : Nat) (t : Transition) : Prop :=
  ∃ before after, chart.transitions n = before ++ t :: after ∧
    Admits imps context event eventless t ∧
    ∀ u ∈ before, ¬ Admits imps context event eventless u

/-- Whether a transition is the offer of the innermost node around a leaf that has one. -/
def Nominates (leaf : Nat) (t : Transition) : Prop :=
  ∃ n, chart.Within leaf n ∧ chart.Offers imps context event eventless n t ∧
    ∀ k, chart.Within leaf k → chart.isBelow k n = true →
      ∀ u, ¬ chart.Offers imps context event eventless k u

end

variable {chart : Chart} {imps : Implementations} {context : Json} {event : Event}
  {eventless : Bool} {configuration : NodeSet} {history : History} {n leaf : Nat}
  {s t u : Transition}

theorem firstPassing_eq_some_iff :
  chart.firstPassing imps context event eventless n = some t ↔
    chart.Offers imps context event eventless n t
  := by
  rw [firstPassing, List.find?_eq_some_iff_append]
  simp only [Offers, Admits, Bool.and_eq_true, Bool.not_eq_true', ← Bool.not_eq_true]
  constructor
  · rintro ⟨hadmits, before, after, heq, hbefore⟩
    exact ⟨before, after, heq, hadmits, hbefore⟩
  · rintro ⟨before, after, heq, hadmits, hbefore⟩
    exact ⟨hadmits, before, after, heq, hbefore⟩

theorem firstPassing_eq_none_iff :
  chart.firstPassing imps context event eventless n = none ↔
    ∀ u, ¬ chart.Offers imps context event eventless n u
  := by
  simp only [← firstPassing_eq_some_iff, Option.eq_none_iff_forall_ne_some]

theorem Offers.mem (h : chart.Offers imps context event eventless n t) :
  t ∈ chart.transitions n
  := by
  obtain ⟨before, after, heq, -⟩ := h
  rw [heq]
  simp

/-- A node has at most one offer. -/
theorem Offers.unique (ht : chart.Offers imps context event eventless n t)
    (hu : chart.Offers imps context event eventless n u) :
  t = u
  := by
  rw [← firstPassing_eq_some_iff] at ht hu
  rw [ht, Option.some.injEq] at hu
  exact hu

namespace WellFormed

variable (wf : chart.WellFormed)

include wf

/-- An active leaf takes the transition that it nominates. -/
theorem takenBy_eq_some_iff :
  chart.takenBy imps context event eventless leaf = some t ↔
    chart.Nominates imps context event eventless leaf t
  := by
  have hmem : ∀ k, k ∈ leaf :: chart.ancestors leaf ↔ chart.Within leaf k := by
    intro k
    rw [List.mem_cons, ← isBelow_iff_mem, Within, eq_comm]
  have hpairwise : (leaf :: chart.ancestors leaf).Pairwise
      (fun a b => chart.isBelow a b = true) := by
    apply List.pairwise_cons.mpr ⟨_, wf.ancestors_pairwise leaf⟩
    intro b hb
    apply isBelow_iff_mem.mpr hb
  rw [takenBy, List.findSome?_eq_some_iff]
  constructor
  · rintro ⟨before, n, after, heq, hoffers, hbefore⟩
    use n, (hmem n).mp (by simp [heq]), firstPassing_eq_some_iff.mp hoffers
    intro k hk hkn
    have hmemk := (hmem k).mpr hk
    rw [heq] at hmemk hpairwise
    rcases List.mem_append.mp hmemk with hmemk | hmemk
    · apply firstPassing_eq_none_iff.mp (hbefore k hmemk)
    · -- the nodes after `n` in the list are not below it
      exfalso
      rcases List.mem_cons.mp hmemk with rfl | hmemk
      · apply wf.not_isBelow_self _ hkn
      · have hnk := (List.pairwise_cons.mp (List.pairwise_append.mp hpairwise).2.1).1 k hmemk
        apply wf.not_isBelow_self _ (wf.isBelow_trans hkn hnk)
  · rintro ⟨n, hn, hoffers, hinner⟩
    obtain ⟨before, after, heq⟩ := List.append_of_mem ((hmem n).mpr hn)
    use before, n, after, heq, firstPassing_eq_some_iff.mpr hoffers
    intro k hk
    rw [heq, List.pairwise_append] at hpairwise
    apply firstPassing_eq_none_iff.mpr
    apply hinner k
    · apply (hmem k).mp
      rw [heq]
      apply List.mem_append_left _ hk
    · apply hpairwise.2.2 k hk n List.mem_cons_self

/-- The source of a nominee is the node that offers it. -/
theorem source_of_nominates (h : chart.Nominates imps context event eventless leaf t) :
  chart.Within leaf t.source ∧ chart.Offers imps context event eventless t.source t
  := by
  obtain ⟨n, hn, hoffers, -⟩ := h
  rw [wf.source hoffers.mem]
  exact ⟨hn, hoffers⟩

end WellFormed

/-! ### Nominees in order -/

section

variable (f : Nat → Option Transition) (leaves : List Nat)

/-- Whether some leaf nominates `t` before any nominates `u`. -/
def Earlier (t u : Transition) : Prop :=
  ∃ leaf ∈ leaves, f leaf = some t ∧ ∀ leaf' ∈ leaves, f leaf' = some u → leaf < leaf'

end

theorem distinct_concat (ts : List Transition) (t : Transition) :
  distinct (ts ++ [t]) =
    if (distinct ts).any (fun u => u.order == t.order) then distinct ts
    else distinct ts ++ [t]
  := by
  rw [distinct, List.foldl_append]
  rfl

theorem subset_distinct (ts : List Transition) :
  ∀ t ∈ distinct ts, t ∈ ts
  := by
  induction ts using List.reverseRecOn with
  | nil => simp [distinct]
  | append_singleton ts u ih =>
    intro t ht
    rw [distinct_concat] at ht
    split at ht
    · apply List.mem_append_left _ (ih t ht)
    · rcases List.mem_append.mp ht with ht | ht
      · apply List.mem_append_left _ (ih t ht)
      · apply List.mem_append_right _ ht

theorem exists_order_distinct {ts : List Transition} (ht : t ∈ ts) :
  ∃ u ∈ distinct ts, u.order = t.order
  := by
  induction ts using List.reverseRecOn with
  | nil => cases ht
  | append_singleton ts v ih =>
    rw [distinct_concat]
    rcases List.mem_append.mp ht with ht | ht
    · obtain ⟨u, hu, horder⟩ := ih ht
      use u
      split
      · exact ⟨hu, horder⟩
      · exact ⟨List.mem_append_left _ hu, horder⟩
    · rw [List.mem_singleton.mp ht]
      split
      case isTrue hknown =>
        obtain ⟨u, hu, horder⟩ := List.any_eq_true.mp hknown
        use u, hu, beq_iff_eq.mp horder
      case isFalse =>
        use v, by simp

/-- If transitions with the same place are the same, none is left out. -/
theorem mem_distinct {ts : List Transition}
    (hplaces : ∀ t ∈ ts, ∀ u ∈ ts, t.order = u.order → t = u) :
  t ∈ distinct ts ↔ t ∈ ts
  := by
  constructor
  · apply subset_distinct ts t
  · intro ht
    obtain ⟨u, hu, horder⟩ := exists_order_distinct ht
    rw [← hplaces u (subset_distinct ts u hu) t ht horder]
    exact hu

theorem subset_foldl_keep (ts : List Transition) :
  ∀ t ∈ ts.foldl (chart.keep configuration history) [], t ∈ ts
  := by
  induction ts using List.reverseRecOn with
  | nil => simp
  | append_singleton ts u ih =>
    intro t ht
    rw [List.foldl_append, List.foldl_cons, List.foldl_nil, keep] at ht
    split at ht
    · rcases List.mem_append.mp ht with ht | ht
      · apply List.mem_append_left _ (ih t (List.mem_filter.mp ht).1)
      · apply List.mem_append_right _ ht
    · apply List.mem_append_left _ (ih t ht)

theorem Earlier.concat {f : Nat → Option Transition} {leaves : List Nat} {l : Nat}
    (h : Earlier f leaves t u) (hl : ∀ leaf ∈ leaves, leaf < l) :
  Earlier f (leaves ++ [l]) t u
  := by
  obtain ⟨leaf, hleaf, ht, hbefore⟩ := h
  use leaf, List.mem_append_left _ hleaf, ht
  intro leaf' hleaf' hu
  rcases List.mem_append.mp hleaf' with hleaf' | hleaf'
  · apply hbefore leaf' hleaf' hu
  · rw [List.mem_singleton.mp hleaf']
    apply hl leaf hleaf

theorem not_earlier_self {f : Nat → Option Transition} {leaves : List Nat} :
  ¬ Earlier f leaves t t
  := by
  rintro ⟨leaf, hleaf, ht, hbefore⟩
  apply Nat.lt_irrefl leaf (hbefore leaf hleaf ht)

/-- Without repetitions, the nominees of an increasing list of leaves are in the order of the
first leaves. -/
theorem earlier_distinct {f : Nat → Option Transition} {leaves : List Nat}
    (hleaves : leaves.Pairwise (· < ·)) :
  (distinct (leaves.filterMap f)).Pairwise (Earlier f leaves)
  := by
  induction leaves using List.reverseRecOn with
  | nil => simp [distinct]
  | append_singleton leaves l ih =>
    obtain ⟨hpairwise, -, hlast⟩ := List.pairwise_append.mp hleaves
    have hlast : ∀ leaf ∈ leaves, leaf < l := fun leaf hleaf =>
      hlast leaf hleaf l (List.mem_singleton_self l)
    have hold : (distinct (leaves.filterMap f)).Pairwise (Earlier f (leaves ++ [l])) :=
      (ih hpairwise).imp (fun h => h.concat hlast)
    rw [List.filterMap_append]
    cases hl : f l with
    | none =>
      simp only [List.filterMap_cons, hl, List.filterMap_nil, List.append_nil]
      exact hold
    | some v =>
      simp only [List.filterMap_cons, hl, List.filterMap_nil]
      rw [distinct_concat]
      split
      case isTrue => exact hold
      case isFalse hnew =>
        -- no leaf before `l` nominates `v`
        have hv : ∀ leaf ∈ leaves, f leaf ≠ some v := by
          intro leaf hleaf hfv
          obtain ⟨u, hu, horder⟩ :=
            exists_order_distinct (List.mem_filterMap.mpr ⟨leaf, hleaf, hfv⟩)
          apply hnew
          apply List.any_eq_true.mpr ⟨u, hu, _⟩
          rw [horder, beq_self_eq_true]
        apply List.pairwise_append.mpr ⟨hold, List.pairwise_singleton _ _, _⟩
        intro t ht u hu
        rw [List.mem_singleton.mp hu]
        obtain ⟨leaf, hleaf, hft⟩ := List.mem_filterMap.mp (subset_distinct _ t ht)
        use leaf, List.mem_append_left _ hleaf, hft
        intro leaf' hleaf' hfv
        rcases List.mem_append.mp hleaf' with hleaf' | hleaf'
        · exact absurd hfv (hv leaf' hleaf')
        · rw [List.mem_singleton.mp hleaf']
          apply hlast leaf hleaf

/-! ### Kept nominees -/

section

variable (chart : Chart) (configuration : NodeSet) (history : History)
  (f : Nat → Option Transition) (leaves : List Nat)

/-- What holds of the kept transitions after some nominees: they are among them and exit no
node in common, and a nominee that is not kept is in conflict with a kept one that comes
from below it, or that it does not come from below and that is earlier. -/
structure Settled (nominees kept : List Transition) : Prop where
  subset : ∀ t ∈ kept, t ∈ nominees
  disjoint : kept.Pairwise (fun t u =>
    ¬ chart.conflict configuration history t u = true)
  dropped : ∀ t ∈ nominees, t ∈ kept ∨
    ∃ u ∈ kept, chart.conflict configuration history t u = true ∧
      (chart.isBelow u.source t.source = true ∨
        ¬ chart.isBelow t.source u.source = true ∧ Earlier f leaves u t)

end

section

variable {f : Nat → Option Transition} {leaves : List Nat} {nominees kept : List Transition}

namespace WellFormed

variable (wf : chart.WellFormed)

include wf

/-- A nominee that comes between `u` and a later one from below `u` is related to `u`: the
leaves below `u` are numbered without a gap. -/
theorem related_of_earlier (hf : ∀ {leaf t}, f leaf = some t → chart.Within leaf t.source)
    (hus : Earlier f leaves u s) (hst : Earlier f leaves s t)
    (ht : ∃ leaf ∈ leaves, f leaf = some t) (htu : chart.isBelow t.source u.source = true) :
  chart.Within s.source u.source ∨ chart.isBelow u.source s.source = true
  := by
  obtain ⟨lu, -, hfu, hbefore⟩ := hus
  obtain ⟨ls, hls, hfs, hbefore'⟩ := hst
  obtain ⟨lt, hlt, hft⟩ := ht
  have hlus := hbefore ls hls hfs
  have hlst := hbefore' lt hlt hft
  have hule := wf.le_of_within (hf hfu)
  have hlow : chart.isBelow ls u.source = true := by
    apply wf.isBelow_of_between (wf.within_isBelow (hf hft) htu) (by omega) (by omega)
  apply wf.within_total (hf hfs) (Or.inr hlow)

/-- The domains of a transition and of one from below it are comparable, so that they are
in conflict if both exit a node. -/
theorem conflict_of_isBelow (ht : t.source < chart.nodes.length)
    (hs : s.source < chart.nodes.length) (hts : chart.isBelow t.source s.source = true)
    (hte : chart.exited configuration history [t] ≠ [])
    (hse : chart.exited configuration history [s] ≠ []) :
  chart.conflict configuration history s t = true
  := by
  obtain ⟨k, hk⟩ := List.exists_mem_of_ne_nil _ hte
  obtain ⟨k', hk'⟩ := List.exists_mem_of_ne_nil _ hse
  obtain ⟨hactive, d, hd, hkd⟩ := mem_exited_singleton.mp hk
  obtain ⟨hactive', d', hd', hkd'⟩ := mem_exited_singleton.mp hk'
  have hsd := wf.within_trans (Or.inr hts) (wf.within_scope hs hd')
  apply conflict_iff.mpr
  rcases wf.within_total (wf.within_scope ht hd) hsd with hdd | hdd
  · use k
    constructor
    · apply mem_exited_singleton.mpr ⟨hactive, d', hd', wf.isBelow_of_within hkd hdd⟩
    · exact hk
  · use k'
    constructor
    · exact hk'
    · apply mem_exited_singleton.mpr ⟨hactive', d, hd, wf.isBelow_trans hkd' hdd⟩

/-- A transition that wins over a rival of an earlier nominee is itself a rival of the
nominee, from below it. -/
theorem conflict_of_rival
    (hf : ∀ {leaf t}, f leaf = some t →
      chart.Within leaf t.source ∧ t.source < chart.nodes.length)
    (hunique : ∀ {l l' t u}, f l = some t → f l' = some u → t.source = u.source → t = u)
    (hs : ∃ leaf ∈ leaves, f leaf = some s) (hu : ∃ leaf ∈ leaves, f leaf = some u)
    (ht : ∃ leaf ∈ leaves, f leaf = some t) (hst : Earlier f leaves s t)
    (hconflict : chart.conflict configuration history t u = true)
    (htu : chart.isBelow t.source u.source = true)
    (hsu : chart.conflict configuration history s u = true)
    (horder : chart.isBelow u.source s.source = true ∨
      ¬ chart.isBelow s.source u.source = true ∧ Earlier f leaves u s) :
  chart.conflict configuration history s t = true ∧ chart.isBelow t.source s.source = true
  := by
  obtain ⟨ls, -, hfs⟩ := hs
  obtain ⟨lu, -, hfu⟩ := hu
  have hbelow : chart.isBelow u.source s.source = true := by
    rcases horder with hbelow | ⟨hnot, hus⟩
    · exact hbelow
    · rcases wf.related_of_earlier (fun h => (hf h).1) hus hst ht htu with
        (heq | hbelow) | hbelow
      · rw [hunique hfs hfu heq] at hus
        exact absurd hus not_earlier_self
      · exact absurd hbelow hnot
      · exact hbelow
  have hts := wf.isBelow_trans htu hbelow
  obtain ⟨k, hkt, -⟩ := conflict_iff.mp hconflict
  obtain ⟨k', hks, -⟩ := conflict_iff.mp hsu
  obtain ⟨lt, -, hft⟩ := ht
  constructor
  · apply wf.conflict_of_isBelow (hf hft).2 (hf hfs).2 hts
      (List.ne_nil_of_mem hkt) (List.ne_nil_of_mem hks)
  · exact hts

/-- A nominee that wins over its rivals takes their place, and what they won over gives way to it. -/
theorem settled_keep_of_wins
    (hsettled : Settled chart configuration history f leaves nominees kept)
    (hf : ∀ {leaf t}, f leaf = some t →
      chart.Within leaf t.source ∧ t.source < chart.nodes.length)
    (hunique : ∀ {l l' t u}, f l = some t → f l' = some u → t.source = u.source → t = u)
    (hnominees : ∀ s ∈ nominees ++ [t], ∃ leaf ∈ leaves, f leaf = some s)
    (hearlier : ∀ s ∈ nominees, Earlier f leaves s t)
    (hrival : ∀ u ∈ kept, chart.conflict configuration history t u = true →
      chart.isBelow t.source u.source = true) :
  Settled chart configuration history f leaves (nominees ++ [t])
    (kept.filter (fun u => !chart.conflict configuration history t u) ++ [t])
  := by
  have ht := hnominees t (by simp)
  constructor
  case subset =>
    intro u hu
    rcases List.mem_append.mp hu with hu | hu
    · apply List.mem_append_left _ (hsettled.subset u (List.mem_filter.mp hu).1)
    · apply List.mem_append_right _ hu
  case disjoint =>
    apply List.pairwise_append.mpr ⟨hsettled.disjoint.filter _, List.pairwise_singleton _ _, _⟩
    intro u hu v hv
    rw [List.mem_singleton.mp hv, conflict_comm]
    simpa using (List.mem_filter.mp hu).2
  case dropped =>
    intro s hs
    rcases List.mem_append.mp hs with hs | hs
    · rcases hsettled.dropped s hs with hkept | ⟨u, hu, hsu, horder⟩
      · by_cases hconflict : chart.conflict configuration history t s = true
        · right
          use t, by simp, conflict_comm.mp hconflict
          exact Or.inl (hrival s hkept hconflict)
        · left
          apply List.mem_append_left
          apply List.mem_filter.mpr ⟨hkept, _⟩
          simpa using hconflict
      · by_cases hconflict : chart.conflict configuration history t u = true
        · -- the rival of `s` gives way to `t`, which is then a rival from below `s`
          right
          have htu := hrival u hu hconflict
          obtain ⟨hst, hbelow⟩ := wf.conflict_of_rival hf hunique
            (hnominees s (List.mem_append_left _ hs))
            (hnominees u (List.mem_append_left _ (hsettled.subset u hu))) ht (hearlier s hs)
            hconflict htu hsu horder
          use t, by simp, hst
          exact Or.inl hbelow
        · right
          use u
          constructor
          · apply List.mem_append_left
            apply List.mem_filter.mpr ⟨hu, _⟩
            simpa using hconflict
          · exact ⟨hsu, horder⟩
    · left
      apply List.mem_append_right _ hs

omit wf in
/-- A nominee that does not win over a rival gives way to it. -/
theorem settled_keep_of_loses
    (hsettled : Settled chart configuration history f leaves nominees kept)
    (hearlier : ∀ s ∈ nominees, Earlier f leaves s t) {u : Transition} (hu : u ∈ kept)
    (hconflict : chart.conflict configuration history t u = true)
    (hnot : ¬ chart.isBelow t.source u.source = true) :
  Settled chart configuration history f leaves (nominees ++ [t]) kept
  := by
  constructor
  case subset =>
    intro u hu
    apply List.mem_append_left _ (hsettled.subset u hu)
  case disjoint => apply hsettled.disjoint
  case dropped =>
    intro s hs
    rcases List.mem_append.mp hs with hs | hs
    · apply hsettled.dropped s hs
    · right
      rw [List.mem_singleton.mp hs]
      exact ⟨u, hu, hconflict, Or.inr ⟨hnot, hearlier u (hsettled.subset u hu)⟩⟩

/-- One more nominee keeps the kept transitions settled. -/
theorem settled_keep (hsettled : Settled chart configuration history f leaves nominees kept)
    (hf : ∀ {leaf t}, f leaf = some t →
      chart.Within leaf t.source ∧ t.source < chart.nodes.length)
    (hunique : ∀ {l l' t u}, f l = some t → f l' = some u → t.source = u.source → t = u)
    (hnominees : ∀ s ∈ nominees ++ [t], ∃ leaf ∈ leaves, f leaf = some s)
    (hearlier : ∀ s ∈ nominees, Earlier f leaves s t) :
  Settled chart configuration history f leaves (nominees ++ [t])
    (chart.keep configuration history kept t)
  := by
  rw [keep]
  split
  case isTrue hwins =>
    apply wf.settled_keep_of_wins hsettled hf hunique hnominees hearlier
    intro u hu hconflict
    apply List.all_eq_true.mp hwins u (List.mem_filter.mpr ⟨hu, hconflict⟩)
  case isFalse hloses =>
    simp only [List.all_eq_true, not_forall] at hloses
    obtain ⟨u, hu, hnot⟩ := hloses
    obtain ⟨hu, hconflict⟩ := List.mem_filter.mp hu
    apply settled_keep_of_loses hsettled hearlier hu hconflict hnot

/-- The kept transitions are settled after all nominees. -/
theorem settled_foldl (hf : ∀ {leaf t}, f leaf = some t →
      chart.Within leaf t.source ∧ t.source < chart.nodes.length)
    (hunique : ∀ {l l' t u}, f l = some t → f l' = some u → t.source = u.source → t = u)
    (hnominees : ∀ s ∈ nominees, ∃ leaf ∈ leaves, f leaf = some s)
    (hearlier : nominees.Pairwise (Earlier f leaves)) :
  Settled chart configuration history f leaves nominees
    (nominees.foldl (chart.keep configuration history) [])
  := by
  induction nominees using List.reverseRecOn with
  | nil =>
    constructor
    case subset => simp
    case disjoint => apply List.Pairwise.nil
    case dropped => simp
  | append_singleton nominees t ih =>
    obtain ⟨hpairwise, -, hlast⟩ := List.pairwise_append.mp hearlier
    rw [List.foldl_append]
    apply wf.settled_keep (ih _ hpairwise) hf hunique hnominees
    · intro s hs
      apply hlast s hs t (List.mem_singleton_self t)
    · intro s hs
      apply hnominees s (List.mem_append_left _ hs)

end WellFormed

end

/-! ### The selection -/

namespace WellFormed

variable (wf : chart.WellFormed)

include wf

/-- Two transitions of a chart with the same place are the same. -/
theorem eq_of_order (ht : t ∈ chart.transitions t.source) (hu : u ∈ chart.transitions u.source)
    (h : t.order = u.order) :
  t = u
  := by
  have hmem : ∀ {v n}, v ∈ chart.transitions n → v ∈ chart.nodes.flatMap Node.transitions := by
    intro v n hv
    rw [Chart.transitions] at hv
    cases hnode : chart.node? n with
    | none => simp [hnode] at hv
    | some node =>
      rw [hnode, Option.map_some, Option.getD_some] at hv
      apply List.mem_flatMap.mpr ⟨node, List.mem_of_getElem? hnode, hv⟩
  have hnodup : ((chart.nodes.flatMap Node.transitions).map Transition.order).Nodup :=
    wf.orders.imp (fun h => Nat.ne_of_lt h)
  apply List.inj_on_of_nodup_map hnodup (hmem ht) (hmem hu) h

/-- The selection is settled after the nominees of all active leaves. -/
theorem settled_select (legal : chart.Legal configuration) (imps : Implementations)
    (history : History) (context : Json) (event : Event) (eventless : Bool) :
  ∃ nominees,
    (∀ t, t ∈ nominees ↔ ∃ leaf ∈ chart.leaves configuration,
      chart.Nominates imps context event eventless leaf t) ∧
    Settled chart configuration history (chart.takenBy imps context event eventless)
      (chart.leaves configuration) nominees
      (chart.select imps configuration history context event eventless)
  := by
  have hsource : ∀ {leaf t}, chart.takenBy imps context event eventless leaf = some t →
      chart.Within leaf t.source ∧ chart.Offers imps context event eventless t.source t :=
    fun h => wf.source_of_nominates (wf.takenBy_eq_some_iff.mp h)
  have hleaves : (chart.leaves configuration).Pairwise (· < ·) := legal.increasing.filter _
  have hmem : ∀ t, t ∈ distinct ((chart.leaves configuration).filterMap
      (chart.takenBy imps context event eventless)) ↔
      ∃ leaf ∈ chart.leaves configuration,
        chart.takenBy imps context event eventless leaf = some t := by
    intro t
    rw [mem_distinct, List.mem_filterMap]
    intro t ht u hu
    obtain ⟨_, -, ht⟩ := List.mem_filterMap.mp ht
    obtain ⟨_, -, hu⟩ := List.mem_filterMap.mp hu
    apply wf.eq_of_order (hsource ht).2.mem (hsource hu).2.mem
  refine ⟨_, fun t => ?_, wf.settled_foldl ?_ ?_ (fun t => (hmem t).mp)
    (earlier_distinct hleaves)⟩
  · simp only [hmem, wf.takenBy_eq_some_iff]
  · intro leaf t ht
    obtain ⟨hwithin, hoffers⟩ := hsource ht
    exact ⟨hwithin, lt_of_mem_transitions hoffers.mem⟩
  · intro l l' t u ht hu heq
    obtain ⟨-, ht⟩ := hsource ht
    obtain ⟨-, hu⟩ := hsource hu
    rw [heq] at ht
    apply ht.unique hu

/-- In any configuration a selected transition is declared by its source. -/
theorem mem_transitions_of_mem_select
    (ht : t ∈ chart.select imps configuration history context event eventless) :
  t ∈ chart.transitions t.source
  := by
  obtain ⟨leaf, -, htaken⟩ :=
    List.mem_filterMap.mp (subset_distinct _ t (subset_foldl_keep _ t ht))
  exact (wf.source_of_nominates (wf.takenBy_eq_some_iff.mp htaken)).2.mem

/-- Selected transitions belong to active nodes. -/
theorem source_of_mem_select (legal : chart.Legal configuration)
    (ht : t ∈ chart.select imps configuration history context event eventless) :
  t ∈ chart.transitions t.source ∧ t.source ∈ configuration
  := by
  obtain ⟨nominees, hnominees, hsettled⟩ :=
    wf.settled_select legal imps history context event eventless
  obtain ⟨leaf, hleaf, hnominates⟩ := (hnominees t).mp (hsettled.subset t ht)
  obtain ⟨hwithin, hoffers⟩ := wf.source_of_nominates hnominates
  exact ⟨hoffers.mem, legal.mem_of_within wf (mem_leaves.mp hleaf).1 hwithin⟩

/-- Selected transitions exit no node in common. -/
theorem disjoint_select (legal : chart.Legal configuration) (imps : Implementations)
    (history : History) (context : Json) (event : Event) (eventless : Bool) :
  (chart.select imps configuration history context event eventless).Pairwise (fun t u =>
    List.Disjoint (chart.exited configuration history [t])
      (chart.exited configuration history [u]))
  := by
  obtain ⟨nominees, -, hsettled⟩ :=
    wf.settled_select legal imps history context event eventless
  apply hsettled.disjoint.imp disjoint_of_not_conflict

end WellFormed

/-- In a legal configuration of a compiled chart every selected transition is nominated by
an active leaf, no two selected transitions exit a node in common, and where the nominee of
an active leaf is not selected, a selected transition whose source does not lie above the
source of the nominee exits a node in common with it. -/
theorem select_of_legal {m : Document.Machine} (h : ofDocument m = .ok chart)
    (legal : chart.Legal configuration) (imps : Implementations) (history : History)
    (context : Json) (event : Event) (eventless : Bool) :
  (∀ t ∈ chart.select imps configuration history context event eventless,
    ∃ leaf ∈ chart.leaves configuration,
      chart.Nominates imps context event eventless leaf t) ∧
  (chart.select imps configuration history context event eventless).Pairwise (fun t u =>
    List.Disjoint (chart.exited configuration history [t])
      (chart.exited configuration history [u])) ∧
  ∀ leaf ∈ chart.leaves configuration, ∀ t,
    chart.Nominates imps context event eventless leaf t →
      t ∈ chart.select imps configuration history context event eventless ∨
      ∃ u ∈ chart.select imps configuration history context event eventless,
        (∃ n, n ∈ chart.exited configuration history [t] ∧
          n ∈ chart.exited configuration history [u]) ∧
        ¬ chart.isBelow t.source u.source = true
  := by
  have wf := wellFormed_of_ofDocument h
  obtain ⟨nominees, hnominees, hsettled⟩ :=
    wf.settled_select legal imps history context event eventless
  and_intros
  · intro t ht
    exact (hnominees t).mp (hsettled.subset t ht)
  · apply hsettled.disjoint.imp disjoint_of_not_conflict
  · intro leaf hleaf t ht
    rcases hsettled.dropped t ((hnominees t).mpr ⟨leaf, hleaf, ht⟩) with hkept | hdropped
    · exact Or.inl hkept
    · obtain ⟨u, hu, hconflict, horder⟩ := hdropped
      right
      use u, hu, conflict_iff.mp hconflict
      rcases horder with hbelow | ⟨hnot, -⟩
      · intro habove
        apply wf.not_isBelow_self _ (wf.isBelow_trans hbelow habove)
      · exact hnot

/-- A parallel machine whose regions both take the event `GO`: the outer transition of the
right region, which leads out of it, and the inner one of the left region exit nodes in
common, and the earlier one wins. -/
def rivals : Document.Machine where
  root := .node { type := some .parallel }
    [("left", .node { initial := some "a" }
      [("a", .node { on := [("GO", [{ targets := ["b"] }])] } []), ("b", .node {} [])]),
     ("right", .node { initial := some "x", on := [("GO", [{ targets := ["#machine.left.b"] }])] }
      [("x", .node {} []), ("y", .node {} [])])]

theorem select_of_legal_rivals :
  ∃ chart, ofDocument rivals = .ok chart ∧ chart.Legal [0, 1, 2, 4, 5] ∧
    (chart.select {} [0, 1, 2, 4, 5] [] .null (.bare "GO") false).map Transition.source = [2] ∧
    ∀ leaf ∈ chart.leaves [0, 1, 2, 4, 5], ∀ t,
      chart.Nominates {} .null (.bare "GO") false leaf t →
        t ∈ chart.select {} [0, 1, 2, 4, 5] [] .null (.bare "GO") false ∨
        ∃ u ∈ chart.select {} [0, 1, 2, 4, 5] [] .null (.bare "GO") false,
          (∃ n, n ∈ chart.exited [0, 1, 2, 4, 5] [] [t] ∧
            n ∈ chart.exited [0, 1, 2, 4, 5] [] [u]) ∧
          ¬ chart.isBelow t.source u.source = true
  := by
  obtain ⟨chart, h, hp⟩ := Outcome.exists_of_any (x := ofDocument rivals)
    (p := fun chart => chart.Legal [0, 1, 2, 4, 5] ∧
      (chart.select {} [0, 1, 2, 4, 5] [] .null (.bare "GO") false).map Transition.source = [2])
    (by decide +kernel)
  obtain ⟨legal, hselect⟩ := of_decide_eq_true hp
  use chart, h, legal, hselect
  exact (select_of_legal h legal {} [] .null (.bare "GO") false).2.2

end Statechart.Chart
