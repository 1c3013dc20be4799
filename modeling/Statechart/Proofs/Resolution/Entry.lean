import Statechart.Proofs.Resolution.Support

/-!
# Entered nodes

The set of nodes to enter is built by descents to defaults and by climbs that complete
parallel nodes.  `Coherent` is what holds of the set at each stage: no two nodes of it lie
in different children of a compound node, and each inner node of it has what it needs below
it.  `Rooted` says how far the set reaches up: the ancestors of its nodes are in it or in a
given set, unless they lie above the nodes `landings` that are still to be climbed from.
-/

namespace Statechart.Chart

/-- What holds of the set of nodes to enter at each stage. -/
structure Coherent (chart : Chart) (s : NodeSet) : Prop where
  supported : ∀ {k}, k ∈ s → chart.Supported s k
  agree : ∀ {k c c' x y}, (chart.kind k).isCompound = true → chart.parent? c = some k →
    chart.parent? c' = some k → x ∈ s → y ∈ s → chart.Within x c → chart.Within y c' → c = c'

/-- Whether a node lies in the same children of compound nodes as the nodes of a set. -/
def Agrees (chart : Chart) (s : NodeSet) (n : Nat) : Prop :=
  ∀ {k c c' y}, (chart.kind k).isCompound = true → chart.parent? c = some k →
    chart.parent? c' = some k → chart.Within n c → y ∈ s → chart.Within y c' → c = c'

/-- The ancestors of the nodes of a set are in it or in `ground`, or lie within reach of a
landing. -/
def Rooted (chart : Chart) (ground : Nat → Prop) (landings : List Nat) (s : NodeSet) : Prop :=
  ∀ k ∈ s, ∀ b, chart.isBelow k b = true → b ∈ s ∨ ground b ∨ ∃ w ∈ landings, chart.Within w b

/-- A set is extended by a node whose subtree it reaches, with the defaults of the regions
that it does not reach. -/
structure Joins (chart : Chart) (a : Nat) (s s' : NodeSet) : Prop where
  mono : ∀ {k}, k ∈ s → k ∈ s'
  self : a ∈ s'
  new : ∀ {k}, k ∈ s' → k ∈ s ∨ k = a ∨
    (chart.kind a).isParallel = true ∧ ∃ r ∈ chart.regions a, chart.Clear s r ∧ chart.Within k r
  branch : (chart.kind a).isParallel = true → ∀ r ∈ chart.regions a, chart.Clear s r →
    chart.Branch r (fun k => k ∈ s' ∧ chart.Within k r)

/-- Whether a climb from `n` to the ceiling `c` passes `a`. -/
def Passes (chart : Chart) (c n a : Nat) : Prop :=
  chart.isBelow n a = true ∧ (chart.isBelow n c = true → chart.isBelow a c = true)

variable {chart : Chart} {n c a k x : Nat} {s s' : NodeSet} {ground : Nat → Prop}
  {landings : List Nat}

theorem coherent_nil (chart : Chart) :
  chart.Coherent []
  := by
  constructor <;> simp

/-- A set that is rooted without landings is rooted with them. -/
theorem Rooted.marked (h : chart.Rooted ground [] s) :
  chart.Rooted ground landings s
  := by
  intro k hk b hkb
  rcases h k hk b hkb with hb | hb | ⟨w, hw, -⟩
  · exact Or.inl hb
  · exact Or.inr (Or.inl hb)
  · cases hw

theorem Clear.anti (h : chart.Clear s' n) (hsub : ∀ {k}, k ∈ s → k ∈ s') :
  chart.Clear s n
  := fun k hk => h k (hsub hk)

namespace WellFormed

variable (wf : chart.WellFormed)

include wf

/-- What lies within two nodes, one below `k`, lies in the child of `k` that leads there. -/
theorem within_child_of_within (hx : chart.Within x n) (hn : chart.isBelow n k = true)
    (hc : chart.parent? c = some k) (hxc : chart.Within x c) :
  chart.Within n c
  := by
  obtain ⟨c', hc', hnc⟩ := wf.exists_child hn
  rw [wf.child_unique hc hc' hxc (wf.within_trans hx hnc)]
  exact hnc

/-! ### Descents -/

theorem coherent_of_fills (coherent : chart.Coherent s) (hsupports : chart.Supports n s s')
    (h : chart.Fills n s s') (hclear : chart.Clear s n) (hagrees : chart.Agrees s n) :
  chart.Coherent s'
  := by
  -- a node of the new branch and a node that was there before
  have hmixed : ∀ {k c c' x y}, (chart.kind k).isCompound = true → chart.parent? c = some k →
      chart.parent? c' = some k → x ∈ s → chart.Within y n → chart.Within x c →
      chart.Within y c' → c = c' := by
    intro k c c' x y hk hc hc' hx hy hxc hyc
    rcases wf.within_total hy (wf.within_trans hyc (Or.inr (wf.isBelow_of_parent hc'))) with
      (heq | hnk) | hkn
    · subst heq
      exact absurd (wf.within_isBelow hxc (wf.isBelow_of_parent hc)) (hclear x hx)
    · exact (hagrees hk hc' hc (wf.within_child_of_within hy hnk hc' hyc) hx hxc).symm
    · have hxn := wf.isBelow_trans (wf.within_isBelow hxc (wf.isBelow_of_parent hc)) hkn
      exact absurd hxn (hclear x hx)
  constructor
  case supported =>
    intro k hk
    rcases hsupports.new hk with hks | hsupported
    · exact (coherent.supported hks).mono h.mono
    · exact hsupported
  case agree =>
    intro k c c' x y hk hc hc' hx hy hxc hyc
    rcases h.new hx with hxs | hxn
    · rcases h.new hy with hys | hyn
      · apply coherent.agree hk hc hc' hxs hys hxc hyc
      · apply hmixed hk hc hc' hxs hyn hxc hyc
    · rcases h.new hy with hys | hyn
      · exact (hmixed hk hc' hc hys hxn hyc hxc).symm
      · have hkc := wf.isBelow_of_parent hc
        have hkc' := wf.isBelow_of_parent hc'
        rcases wf.within_total hxn (wf.within_trans hxc (Or.inr hkc)) with hnk | hkn
        · rcases hnk with heq | hnk
          · -- both lie below the top of the branch
            subst heq
            have hcs := h.branch.active_of_within wf ⟨hx, hxn⟩ hxc (Or.inr hkc)
            have hcs' := h.branch.active_of_within wf ⟨hy, hyn⟩ hyc (Or.inr hkc')
            exact (h.branch.child h.branch.top hk).unique ⟨hcs, hc⟩ ⟨hcs', hc'⟩
          · apply wf.child_unique hc hc' (wf.within_child_of_within hxn hnk hc hxc)
              (wf.within_child_of_within hyn hnk hc' hyc)
        · have hcn := wf.isBelow_trans hkc hkn
          have hcn' := wf.isBelow_trans hkc' hkn
          have hcs := h.branch.active_of_within wf ⟨hx, hxn⟩ hxc (Or.inr hcn)
          have hcs' := h.branch.active_of_within wf ⟨hy, hyn⟩ hyc (Or.inr hcn')
          have hks := h.branch.active_of_within wf hcs (Or.inr hkc) (Or.inr hkn)
          exact (h.branch.child hks hk).unique ⟨hcs, hc⟩ ⟨hcs', hc'⟩

theorem rooted_of_fills (hrooted : chart.Rooted ground landings s) (h : chart.Fills n s s')
    (hn : n ∈ landings) :
  chart.Rooted ground landings s'
  := by
  intro k hk b hkb
  rcases h.new hk with hks | hkn
  · rcases hrooted k hks b hkb with hb | hrest
    · exact Or.inl (h.mono hb)
    · exact Or.inr hrest
  · rcases wf.within_total hkn (Or.inr hkb) with hnb | hbn
    · exact Or.inr (Or.inr ⟨n, hn, hnb⟩)
    · exact Or.inl (h.branch.active_of_within wf ⟨hk, hkn⟩ (Or.inr hkb) (Or.inr hbn)).1

/-! ### Climbs -/

theorem joins_addAncestor (ha : a < chart.nodes.length) :
  chart.Joins a s (chart.addAncestor s a)
  := by
  have hclear : ∀ {r}, r ∈ chart.regions a → chart.Clear s r →
      chart.Clear (NodeSet.insert a s) r := by
    intro r hr hclear k hk hkr
    rcases NodeSet.mem_insert.mp hk with rfl | hk
    · apply wf.not_isBelow_of_within (Or.inr (wf.isBelow_of_parent (parent_of_mem_regions wf hr)))
        hkr
    · apply hclear k hk hkr
  have hinsert : ∀ {k}, k ∈ s → k ∈ NodeSet.insert a s :=
    NodeSet.mem_insert_of_mem
  rw [addAncestor]
  split
  · next hparallel =>
    have hcompletes := completes_completeRegions wf
      (fun r hr => parent_of_mem_regions wf hr) (nodup_regions wf a)
      (fun r hr s hclear => fills_addDefaults wf (lt_of_parent (parent_of_mem_regions wf hr))
        (mem_regions.mp hr).2 hclear)
      (NodeSet.insert a s)
    constructor
    case mono => exact fun hk => hcompletes.mono (hinsert hk)
    case self => apply hcompletes.mono (NodeSet.mem_insert.mpr (Or.inl rfl))
    case new =>
      intro k hk
      rcases hcompletes.new hk with hk | ⟨r, hr, hclear, hkr⟩
      · rcases NodeSet.mem_insert.mp hk with rfl | hk
        · exact Or.inr (Or.inl rfl)
        · exact Or.inl hk
      · exact Or.inr (Or.inr ⟨hparallel, r, hr, hclear.anti hinsert, hkr⟩)
    case branch =>
      intro _ r hr hclearr
      apply hcompletes.branch r hr (hclear hr hclearr)
  · next hparallel =>
    constructor
    case mono => exact hinsert
    case self => apply NodeSet.mem_insert.mpr (Or.inl rfl)
    case new =>
      intro k hk
      rcases NodeSet.mem_insert.mp hk with rfl | hk
      · exact Or.inr (Or.inl rfl)
      · exact Or.inl hk
    case branch =>
      intro h
      exact absurd h hparallel

theorem coherent_of_joins (coherent : chart.Coherent s) (hsupports : chart.Supports a s s')
    (h : chart.Joins a s s') (hx : ∃ x ∈ s, chart.isBelow x a = true) :
  chart.Coherent s'
  := by
  obtain ⟨w, hw, hwa⟩ := hx
  have hra : ∀ {k r}, r ∈ chart.regions a → chart.Within k r → chart.isBelow k a = true := by
    intro k r hr hkr
    apply wf.within_isBelow hkr (wf.isBelow_of_parent (parent_of_mem_regions wf hr))
  -- above `a` the new nodes lie where `w` lies
  have habove : ∀ {k c y}, chart.isBelow a k = true → chart.parent? c = some k → y ∈ s' →
      chart.Within y c → ∃ y' ∈ s, chart.Within y' c := by
    intro k c y hak hc hy hyc
    rcases h.new hy with hys | hya
    · exact ⟨y, hys, hyc⟩
    · have hya : chart.Within y a := by
        rcases hya with rfl | ⟨-, r, hr, -, hyr⟩
        · apply within_refl chart y
        · exact Or.inr (hra hr hyr)
      have hac := wf.within_child_of_within hya hak hc hyc
      exact ⟨w, hw, Or.inr (wf.isBelow_of_within hwa hac)⟩
  -- below `a` a new node lies in a region without other nodes
  have hnew : ∀ {k c c' x y}, (chart.kind k).isCompound = true → chart.parent? c = some k →
      chart.parent? c' = some k → ¬ chart.isBelow a k = true → x ∈ s' → y ∈ s' → y ∉ s →
      chart.Within x c → chart.Within y c' → c = c' := by
    intro k c c' x y hk hc hc' hak hx hy hys hxc hyc
    have hkc := wf.isBelow_of_parent hc
    have hkc' := wf.isBelow_of_parent hc'
    rcases h.new hy with hys' | rfl | ⟨hparallel, r, hr, hclear, hyr⟩
    · exact absurd hys' hys
    · exact absurd (wf.within_isBelow hyc hkc') hak
    · have hrp := parent_of_mem_regions wf hr
      have hkr : chart.Within k r := by
        rcases wf.within_total hyr (wf.within_trans hyc (Or.inr hkc')) with (heq | hrk) | hkr
        · exact Or.inl heq.symm
        · rcases wf.within_parent hrp hrk with heq | hak'
          · rw [heq] at hparallel
            rw [(Kind.plain_of_isCompound hk).2.1] at hparallel
            cases hparallel
          · exact absurd hak' hak
        · exact Or.inr hkr
      have hxr : chart.isBelow x r = true :=
        wf.isBelow_of_within (wf.within_isBelow hxc hkc) hkr
      have hcr := wf.isBelow_of_within hkc hkr
      have hcr' := wf.isBelow_of_within hkc' hkr
      have hbranch := h.branch hparallel r hr hclear
      have hcs := hbranch.active_of_within wf ⟨hx, Or.inr hxr⟩ hxc (Or.inr hcr)
      have hcs' := hbranch.active_of_within wf ⟨hy, hyr⟩ hyc (Or.inr hcr')
      have hks := hbranch.active_of_within wf hcs (Or.inr hkc) hkr
      exact (hbranch.child hks hk).unique ⟨hcs, hc⟩ ⟨hcs', hc'⟩
  constructor
  case supported =>
    intro k hk
    rcases hsupports.new hk with hks | hsupported
    · exact (coherent.supported hks).mono h.mono
    · exact hsupported
  case agree =>
    intro k c c' x y hk hc hc' hx hy hxc hyc
    by_cases hak : chart.isBelow a k = true
    · obtain ⟨x', hx', hxc'⟩ := habove hak hc hx hxc
      obtain ⟨y', hy', hyc'⟩ := habove hak hc' hy hyc
      apply coherent.agree hk hc hc' hx' hy' hxc' hyc'
    · by_cases hys : y ∈ s
      · by_cases hxs : x ∈ s
        · apply coherent.agree hk hc hc' hxs hys hxc hyc
        · exact (hnew hk hc' hc hak hy hx hxs hyc hxc).symm
      · apply hnew hk hc hc' hak hx hy hys hxc hyc

theorem rooted_of_joins (hrooted : chart.Rooted ground landings s) (h : chart.Joins a s s')
    (hx : ∃ x ∈ landings, chart.isBelow x a = true) :
  chart.Rooted ground landings s'
  := by
  obtain ⟨w, hw, hwa⟩ := hx
  intro k hk b hkb
  rcases h.new hk with hks | rfl | ⟨hparallel, r, hr, hclear, hkr⟩
  · rcases hrooted k hks b hkb with hb | hrest
    · exact Or.inl (h.mono hb)
    · exact Or.inr hrest
  · exact Or.inr (Or.inr ⟨w, hw, Or.inr (wf.isBelow_trans hwa hkb)⟩)
  · rcases wf.within_total hkr (Or.inr hkb) with hrb | hbr
    · rcases hrb with rfl | hrb
      · exact Or.inl (h.branch hparallel r hr hclear).top.1
      · have hab := wf.within_parent (parent_of_mem_regions wf hr) hrb
        exact Or.inr (Or.inr ⟨w, hw, Or.inr (wf.isBelow_of_within hwa hab)⟩)
    · exact Or.inl ((h.branch hparallel r hr hclear).active_of_within wf ⟨hk, hkr⟩ (Or.inr hkb)
        (Or.inr hbr)).1

/-- A climb that does not pass an ancestor stops within it. -/
theorem within_of_not_passes (h : chart.isBelow n a = true) (hnot : ¬ chart.Passes c n a) :
  chart.Within c a
  := by
  by_cases hnc : chart.isBelow n c = true
  · rcases wf.within_total (Or.inr h) (Or.inr hnc) with (heq | hac) | hca
    · exact Or.inl heq.symm
    · exact absurd ⟨h, fun _ => hac⟩ hnot
    · exact Or.inr hca
  · exact absurd ⟨h, fun hnc' => absurd hnc' hnc⟩ hnot

theorem lt_length_of_passes (h : chart.Passes c n a) :
  a < chart.nodes.length
  := Nat.lt_trans (wf.lt_of_isBelow h.1) (lt_length_of_isBelow h.1)

/-- A climb keeps the set, adds the nodes that it passes, and adds else only defaults of
regions that hold no node. -/
theorem ascend_spec (c n : Nat) (s : NodeSet) :
  (∀ k ∈ s, k ∈ chart.ascend c n s) ∧
  (∀ a, chart.Passes c n a → a ∈ chart.ascend c n s) ∧
  ∀ k ∈ chart.ascend c n s, k ∈ s ∨ ∃ a, chart.Passes c n a ∧ (k = a ∨
    (chart.kind a).isParallel = true ∧
      ∃ r ∈ chart.regions a, chart.Clear s r ∧ chart.Within k r)
  := by
  have hpasses : ∀ a, chart.Passes c n a ↔ a ∈ (chart.ancestors n).takeWhile (· ≠ c) :=
    fun a => wf.mem_takeWhile_ancestors.symm
  simp only [hpasses]
  have hlt : ∀ a ∈ (chart.ancestors n).takeWhile (· ≠ c), a < chart.nodes.length :=
    fun a ha => wf.lt_length_of_passes ((hpasses a).mpr ha)
  rw [ascend]
  generalize (chart.ancestors n).takeWhile (· ≠ c) = passed at hlt
  clear hpasses
  induction passed generalizing s with
  | nil => simp
  | cons a passed ih =>
    rw [List.foldl_cons]
    have hjoins := wf.joins_addAncestor (s := s) (hlt a List.mem_cons_self)
    obtain ⟨hmono, hmem, hnew⟩ := ih (chart.addAncestor s a)
      (fun a' ha' => hlt a' (List.mem_cons_of_mem a ha'))
    and_intros
    · intro k hk
      apply hmono k (hjoins.mono hk)
    · intro a' ha'
      rcases List.mem_cons.mp ha' with rfl | ha'
      · apply hmono _ hjoins.self
      · apply hmem a' ha'
    · intro k hk
      rcases hnew k hk with hk | ⟨a', ha', hk⟩
      · rcases hjoins.new hk with hks | hka
        · exact Or.inl hks
        · exact Or.inr ⟨a, List.mem_cons_self, hka⟩
      · right
        use a', List.mem_cons_of_mem a ha'
        rcases hk with rfl | ⟨hparallel, r, hr, hclear, hkr⟩
        · exact Or.inl rfl
        · exact Or.inr ⟨hparallel, r, hr, hclear.anti hjoins.mono, hkr⟩

theorem subset_ascend (hk : k ∈ s) :
  k ∈ chart.ascend c n s
  := (wf.ascend_spec c n s).1 k hk

theorem mem_ascend_of_passes (h : chart.Passes c n a) :
  a ∈ chart.ascend c n s
  := (wf.ascend_spec c n s).2.1 a h

/-- What a climb adds lies within a node that it passes. -/
theorem within_of_mem_ascend (hk : k ∈ chart.ascend c n s) :
  k ∈ s ∨ ∃ a, chart.Passes c n a ∧ chart.Within k a
  := by
  rcases (wf.ascend_spec c n s).2.2 k hk with hks | ⟨a, ha, rfl | ⟨-, r, hr, -, hkr⟩⟩
  · exact Or.inl hks
  · exact Or.inr ⟨k, ha, within_refl chart k⟩
  · have hra := wf.isBelow_of_parent (parent_of_mem_regions wf hr)
    exact Or.inr ⟨a, ha, Or.inr (wf.within_isBelow hkr hra)⟩

theorem coherent_ascend (coherent : chart.Coherent s) (hx : ∃ x ∈ s, chart.Within x n) :
  chart.Coherent (chart.ascend c n s)
  := by
  obtain ⟨x, hx, hxn⟩ := hx
  have h : chart.Coherent (chart.ascend c n s) ∧ x ∈ chart.ascend c n s := by
    rw [ascend]
    apply List.foldlRecOn (motive := fun s => chart.Coherent s ∧ x ∈ s)
    · exact ⟨coherent, hx⟩
    · rintro s ⟨coherent, hx⟩ a ha
      have hpasses := wf.mem_takeWhile_ancestors.mp ha
      have hjoins := wf.joins_addAncestor (s := s) (wf.lt_length_of_passes hpasses)
      have hxa := wf.within_isBelow hxn hpasses.1
      have hsupports := wf.supports_addAncestor hx hxa
      exact ⟨wf.coherent_of_joins coherent hsupports hjoins ⟨x, hx, hxa⟩, hjoins.mono hx⟩
  apply h.1

theorem rooted_ascend (hrooted : chart.Rooted ground landings s) (hn : n ∈ landings) :
  chart.Rooted ground landings (chart.ascend c n s)
  := by
  rw [ascend]
  apply List.foldlRecOn (motive := fun s => chart.Rooted ground landings s)
  · exact hrooted
  · intro s hrooted a ha
    have hpasses := wf.mem_takeWhile_ancestors.mp ha
    apply wf.rooted_of_joins hrooted (wf.joins_addAncestor (wf.lt_length_of_passes hpasses))
      ⟨n, hn, hpasses.1⟩

/-- Where the marks are entered with all that climbs from them pass below a node, and what
the node lies within is in the ground, the set is rooted without the marks. -/
theorem rooted_of_climbed {d : Nat} (hrooted : chart.Rooted ground landings s)
    (hland : ∀ w ∈ landings, w ∈ s)
    (hclimb : ∀ w ∈ landings, ∀ b, chart.Passes d w b → b ∈ s)
    (hground : ∀ {b}, chart.Within d b → ground b) :
  chart.Rooted ground [] s
  := by
  intro k hk b hkb
  rcases hrooted k hk b hkb with hb | hb | ⟨w, hw, rfl | hwb⟩
  · exact Or.inl hb
  · exact Or.inr (Or.inl hb)
  · exact Or.inl (hland w hw)
  · by_cases hpasses : chart.Passes d w b
    · exact Or.inl (hclimb w hw b hpasses)
    · exact Or.inr (Or.inl (hground (wf.within_of_not_passes hwb hpasses)))

end WellFormed

end Statechart.Chart
