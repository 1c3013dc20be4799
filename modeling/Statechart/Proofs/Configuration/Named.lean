import Mathlib.Tactic.Common
import Statechart.Proofs.Configuration.Branch
import Statechart.Proofs.Outcome

/-!
# Named configurations

The configuration that a state value names is legal (`legal_of_configurationOf`): where the
value names a child the subtree of the child is filled, and elsewhere the defaults are.
-/

namespace Statechart.Chart

variable {chart : Chart} {n c k : Nat} {value : Option StateValue} {s s' : NodeSet}

/-- The named child of a compound node is a child. -/
theorem parent_of_activeChild (wf : chart.WellFormed) {i : Nat} {below : Option StateValue}
    (hk : chart.kind n = .compound i) (h : chart.activeChild n i value = .ok (c, below)) :
  chart.parent? c = some n
  := by
  have hinitial : chart.parent? i = some n := wf.parent_of_mem_children (wf.initial hk).1
  have hnamed : ∀ {key value}, chart.namedChild n key value = .ok (c, below) →
      chart.parent? c = some n := by
    intro key value h
    rw [namedChild] at h
    split at h
    · next c' hc' =>
      cases h
      apply wf.parent_of_mem_children (List.mem_of_find?_eq_some hc')
    · cases h
  unfold activeChild at h
  split at h
  · cases h
    exact hinitial
  · apply hnamed h
  · cases h
    exact hinitial
  · apply hnamed h
  · cases h

/-- Regions that are filled one after the other under fallible additions. -/
theorem completes_foldlM (wf : chart.WellFormed) {ε : Type}
    {add : NodeSet → Nat → Except ε NodeSet} {regions : List Nat}
    (hregions : ∀ r ∈ regions, chart.parent? r = some n) (hnodup : regions.Nodup)
    (hadd : ∀ r ∈ regions, ∀ s s', chart.Clear s r → add s r = .ok s' → chart.Fills r s s')
    (hclear : ∀ r ∈ regions, chart.Clear s r) (h : regions.foldlM add s = .ok s') :
  chart.Completes regions s s'
  := by
  induction regions generalizing s with
  | nil =>
    cases h
    apply Completes.nil _
  | cons r rs ih =>
    obtain ⟨hr, hrs⟩ := List.nodup_cons.mp hnodup
    rw [List.foldlM_cons] at h
    obtain ⟨t, ht, h⟩ := Outcome.bind_eq_ok.mp h
    have hclearr := hclear r List.mem_cons_self
    have hfills := hadd r List.mem_cons_self s t hclearr ht
    apply Completes.cons wf hregions hr hclearr hfills
    apply ih (fun r' hr' => hregions r' (List.mem_cons_of_mem r hr')) hrs
      (fun r' hr' => hadd r' (List.mem_cons_of_mem r hr')) _ h
    intro r' hr' k hk
    rcases hfills.new hk with hk | hkr
    · apply hclear r' (List.mem_cons_of_mem r hr') k hk
    · intro hkr'
      have heq := wf.child_unique (hregions r List.mem_cons_self)
        (hregions r' (List.mem_cons_of_mem r hr')) hkr (Or.inr hkr')
      rw [heq] at hr
      apply hr hr'

/-- Below an active node a value fills the subtree of the node. -/
theorem fills_activate (wf : chart.WellFormed) {fuel : Nat} (hn : n < chart.nodes.length)
    (hfuel : chart.nodes.length ≤ fuel + n) (hk : (chart.kind n).isHistory = false)
    (hclear : chart.Clear s n)
    (h : chart.activate fuel n value (NodeSet.insert n s) = .ok s') :
  chart.Fills n s s'
  := by
  induction fuel generalizing n value s s' with
  | zero => omega
  | succ fuel ih =>
    have hclear_insert : ∀ {c}, chart.parent? c = some n →
        chart.Clear (NodeSet.insert n s) c := by
      intro c hc k hks hkc
      have hcn := wf.isBelow_of_parent hc
      rcases NodeSet.mem_insert.mp hks with rfl | hks
      · apply wf.not_isBelow_of_within (Or.inr hcn) hkc
      · apply hclear k hks (wf.isBelow_trans hkc hcn)
    have hchild : ∀ {c value s s'}, chart.parent? c = some n →
        (chart.kind c).isHistory = false → chart.Clear s c →
        chart.activate fuel c value (NodeSet.insert c s) = .ok s' → chart.Fills c s s' := by
      intro c value s s' hc hkc hclearc h
      have := wf.parent_lt hc
      apply ih (lt_of_parent hc) (by omega) hkc hclearc h
    have hatomic : (chart.kind n).isAtomic = true → chart.Fills n s (NodeSet.insert n s) :=
      fun hkind => Fills.atomic hn hkind hclear
    unfold activate at h
    cases hkind : chart.kind n with
    | atomic =>
      -- an atomic node takes no value, and nothing is added below it
      rw [hkind] at hatomic h
      dsimp only at h
      split at h
      · cases h
        apply hatomic rfl
      · cases h
        apply hatomic rfl
      · cases h
    | final data =>
      rw [hkind] at hatomic h
      dsimp only at h
      split at h
      · cases h
        apply hatomic rfl
      · cases h
        apply hatomic rfl
      · cases h
    | compound i =>
      rw [hkind] at h
      dsimp only at h
      obtain ⟨⟨c, below⟩, hc, h⟩ := Outcome.bind_eq_ok.mp h
      dsimp only at h
      have hcn := parent_of_activeChild wf hkind hc
      split at h
      · cases h
      · next hplain =>
        apply Fills.compound wf (by rw [hkind]; rfl) hcn hclear
        apply hchild hcn (by simpa using hplain) (hclear_insert hcn) h
    | parallel =>
      rw [hkind] at h
      dsimp only at h
      obtain ⟨values, -, h⟩ := Outcome.bind_eq_ok.mp h
      have hcompletes := completes_foldlM wf (fun r hr => parent_of_mem_regions wf hr)
        (nodup_regions wf n)
        (fun r hr s s' hclear h =>
          hchild (parent_of_mem_regions wf hr) (mem_regions.mp hr).2 hclear h)
        (fun r hr => hclear_insert (parent_of_mem_regions wf hr)) h
      apply Fills.parallel wf hn (by rw [hkind]; rfl) hclear hcompletes.mono
      · intro k hks
        rcases hcompletes.new hks with hks | ⟨r, hr, -, hkr⟩
        · exact Or.inl hks
        · exact Or.inr ⟨r, hr, hkr⟩
      · intro r hr
        apply hcompletes.branch r hr (hclear_insert (parent_of_mem_regions wf hr))
    | history depth defaults =>
      rw [hkind] at hk
      cases hk

/-- Activation keeps a set increasing. -/
theorem activate_increasing {fuel : Nat} (hs : s.Pairwise (· < ·))
    (h : chart.activate fuel n value s = .ok s') :
  s'.Pairwise (· < ·)
  := by
  induction fuel generalizing n value s s' with
  | zero =>
    cases h
    exact hs
  | succ fuel ih =>
    unfold activate at h
    split at h
    · obtain ⟨⟨c, below⟩, -, h⟩ := Outcome.bind_eq_ok.mp h
      dsimp only at h
      split at h
      · cases h
      · apply ih (NodeSet.insert_increasing hs) h
    · obtain ⟨values, -, h⟩ := Outcome.bind_eq_ok.mp h
      apply Outcome.foldlM_preserves
        (fun s r t hs ht => ih (NodeSet.insert_increasing hs) ht) hs h
    · split at h
      · cases h
        exact hs
      · cases h
        exact hs
      · cases h

/-- A set that fills the subtree of the root is a legal configuration. -/
theorem legal_of_fills (wf : chart.WellFormed) (hs : s'.Pairwise (· < ·))
    (h : chart.Fills root [] s') :
  chart.Legal s'
  := by
  apply legal_of_branch wf hs
  apply h.branch.congr
  intro k
  constructor
  · exact fun hk => hk.1
  · exact fun hk => ⟨hk, (h.new hk).resolve_left List.not_mem_nil⟩

/-- The configuration that a value names is legal. -/
theorem legal_of_configurationOf (wf : chart.WellFormed) {value : StateValue}
    (h : chart.configurationOf value = .ok s) :
  chart.Legal s
  := by
  rw [configurationOf] at h
  split at h
  · next s' hs' =>
    cases h
    apply legal_of_fills wf
    · apply activate_increasing (List.pairwise_singleton _ _) hs'
    · apply fills_activate wf wf.root_lt (by omega) wf.root_kind
        (fun k hk => absurd hk List.not_mem_nil) hs'
  · cases h

/-- The default configuration is legal. -/
theorem legal_addDefaults (wf : chart.WellFormed) :
  chart.Legal ((chart.addDefaults root []).foldl (fun s n => NodeSet.insert n s) [])
  := by
  have hfills := fills_addDefaults wf wf.root_lt wf.root_kind
    (fun k hk => absurd hk List.not_mem_nil)
  apply legal_of_branch wf (NodeSet.foldl_insert_increasing _ List.Pairwise.nil)
  apply hfills.branch.congr
  intro k
  rw [NodeSet.mem_foldl_insert]
  constructor
  · exact fun hk => Or.inr hk.1
  · rintro (hk | hk)
    · cases hk
    · exact ⟨hk, (hfills.new hk).resolve_left List.not_mem_nil⟩

end Statechart.Chart
