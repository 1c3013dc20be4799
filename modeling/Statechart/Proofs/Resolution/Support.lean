import Statechart.Proofs.Configuration.Branch

/-!
# Supported nodes

An entered compound node needs an entered node below it, and an entered parallel node needs
one in each region.  Whatever set they start from, descents and climbs support the nodes
that they add (`supports_descend`, `supports_addAncestor`).
-/

namespace Statechart.Chart

/-- What a node of the set of nodes to enter needs of the set. -/
structure Supported (chart : Chart) (s : NodeSet) (k : Nat) : Prop where
  lt_length : k < chart.nodes.length
  not_history : (chart.kind k).isHistory = false
  child : (chart.kind k).isCompound = true → ∃ x ∈ s, chart.isBelow x k = true
  regions : ∀ {r}, (chart.kind k).isParallel = true → r ∈ chart.regions k →
    ∃ x ∈ s, chart.Within x r

/-- A set is extended by a node, and the new nodes are supported. -/
structure Supports (chart : Chart) (n : Nat) (s s' : NodeSet) : Prop where
  mono : ∀ {k}, k ∈ s → k ∈ s'
  self : n ∈ s'
  new : ∀ {k}, k ∈ s' → k ∈ s ∨ chart.Supported s' k

/-- A set is extended by supported nodes. -/
structure Extends (chart : Chart) (s s' : NodeSet) : Prop where
  mono : ∀ {k}, k ∈ s → k ∈ s'
  new : ∀ {k}, k ∈ s' → k ∈ s ∨ chart.Supported s' k

variable {chart : Chart} {n a c k x fuel : Nat} {s s' s'' : NodeSet}

/-- A node stays supported when further nodes are entered. -/
theorem Supported.mono (h : chart.Supported s k) (hsub : ∀ {x}, x ∈ s → x ∈ s') :
  chart.Supported s' k
  := by
  constructor
  case lt_length => apply h.lt_length
  case not_history => apply h.not_history
  case child =>
    intro hk
    obtain ⟨x, hx, hxk⟩ := h.child hk
    exact ⟨x, hsub hx, hxk⟩
  case regions =>
    intro r hk hr
    obtain ⟨x, hx, hxr⟩ := h.regions hk hr
    exact ⟨x, hsub hx, hxr⟩

theorem Supports.extends (h : chart.Supports n s s') :
  chart.Extends s s'
  := ⟨h.mono, h.new⟩

theorem extends_refl (chart : Chart) (s : NodeSet) :
  chart.Extends s s
  := ⟨fun hk => hk, fun hk => Or.inl hk⟩

theorem Extends.trans (h : chart.Extends s s') (h' : chart.Extends s' s'') :
  chart.Extends s s''
  := by
  constructor
  case mono => exact fun hk => h'.mono (h.mono hk)
  case new =>
    intro k hk
    rcases h'.new hk with hk | hk
    · exact (h.new hk).imp_right (fun hk => hk.mono h'.mono)
    · exact Or.inr hk

/-- Supported nodes stay supported when supported nodes are added. -/
theorem Extends.supported (h : chart.Extends s s')
    (hs : ∀ {k}, k ∈ s → chart.Supported s k) (hk : k ∈ s') :
  chart.Supported s' k
  := by
  rcases h.new hk with hks | hk
  · apply (hs hks).mono h.mono
  · exact hk

/-- An atomic node needs nothing. -/
theorem supported_of_isAtomic (hn : n < chart.nodes.length)
    (hk : (chart.kind n).isAtomic = true) :
  chart.Supported s n
  := by
  obtain ⟨hcompound, hparallel, hhistory⟩ := Kind.plain_of_isAtomic hk
  constructor
  case lt_length => exact hn
  case not_history => exact hhistory
  case child =>
    intro hc
    rw [hcompound] at hc
    cases hc
  case regions =>
    intro r hp
    rw [hparallel] at hp
    cases hp

/-! ### Descents -/

theorem completeRegions_preserves {P : NodeSet → Prop} {add : Nat → NodeSet → NodeSet}
    {regions : List Nat} (hadd : ∀ r ∈ regions, ∀ s, P s → P (add r s)) (hs : P s) :
  P (chart.completeRegions add regions s)
  := by
  rw [completeRegions]
  apply List.foldlRecOn (motive := P) _ _ hs
  intro s hs r hr
  split
  · exact hs
  · apply hadd r hr s hs

/-- A descent keeps what insertions keep. -/
theorem descend_preserves {P : NodeSet → Prop}
    (hinsert : ∀ n s, P s → P (NodeSet.insert n s)) (hs : P s) :
  P (chart.descend fuel n s)
  := by
  induction fuel generalizing n s with
  | zero => exact hs
  | succ fuel ih =>
    rw [descend]
    split
    · apply hinsert n s hs
    · apply hinsert n s hs
    · apply ih (hinsert n s hs)
    · apply completeRegions_preserves (fun r _ s hs => ih hs) (hinsert n s hs)
    · exact hs

theorem subset_descend (hk : k ∈ s) :
  k ∈ chart.descend fuel n s
  := descend_preserves (P := fun s => k ∈ s) (fun _ _ => NodeSet.mem_insert_of_mem) hk

/-- A descent enters the node that it starts from, unless it is a history node. -/
theorem mem_descend_self (hn : (chart.kind n).isHistory = false) :
  n ∈ chart.descend (fuel + 1) n s
  := by
  have hinsert : n ∈ NodeSet.insert n s := NodeSet.mem_insert.mpr (Or.inl rfl)
  rw [descend]
  cases hk : chart.kind n with
  | atomic => exact hinsert
  | final data => exact hinsert
  | compound initial => apply subset_descend hinsert
  | parallel =>
    apply completeRegions_preserves (P := fun s => n ∈ s) (fun r _ s hs => subset_descend hs)
      hinsert
  | history depth defaults =>
    rw [hk] at hn
    cases hn

/-- Where descents support what they add, completed regions hold nodes, and what is added to
complete them is supported. -/
theorem supports_completeRegions {add : Nat → NodeSet → NodeSet} {regions : List Nat}
    (hadd : ∀ r ∈ regions, ∀ s, chart.Supports r s (add r s)) (s : NodeSet) :
  (∀ k ∈ s, k ∈ chart.completeRegions add regions s) ∧
  (∀ r ∈ regions, ∃ x ∈ chart.completeRegions add regions s, chart.Within x r) ∧
  ∀ k ∈ chart.completeRegions add regions s,
    k ∈ s ∨ chart.Supported (chart.completeRegions add regions s) k
  := by
  induction regions generalizing s with
  | nil =>
    rw [completeRegions, List.foldl_nil]
    exact ⟨fun k hk => hk, by simp, fun k hk => Or.inl hk⟩
  | cons r rs ih =>
    have ih := fun s => ih (fun r' hr' => hadd r' (List.mem_cons_of_mem r hr')) s
    rw [completeRegions, List.foldl_cons, ← completeRegions]
    cases hheld : chart.holdsBelow s r with
    | true =>
      rw [if_pos rfl]
      obtain ⟨hmono, hreach, hnew⟩ := ih s
      obtain ⟨x, hx, hxr⟩ := List.any_eq_true.mp hheld
      exact ⟨hmono, List.forall_mem_cons.mpr ⟨⟨x, hmono x hx, Or.inr hxr⟩, hreach⟩, hnew⟩
    | false =>
      rw [if_neg Bool.false_ne_true]
      obtain ⟨hmono, hreach, hnew⟩ := ih (add r s)
      have hsupports := hadd r List.mem_cons_self s
      and_intros
      · exact fun k hk => hmono k (hsupports.mono hk)
      · have hr := hmono r hsupports.self
        apply List.forall_mem_cons.mpr ⟨⟨r, hr, within_refl chart r⟩, hreach⟩
      · intro k hk
        rcases hnew k hk with hk | hk
        · exact (hsupports.new hk).imp_right (fun h => h.mono (fun hx => hmono _ hx))
        · exact Or.inr hk

namespace WellFormed

variable (wf : chart.WellFormed)

include wf

/-- A descent supports what it adds. -/
theorem supports_descend (hn : n < chart.nodes.length) (hfuel : chart.nodes.length ≤ fuel + n)
    (hk : (chart.kind n).isHistory = false) :
  chart.Supports n s (chart.descend fuel n s)
  := by
  induction fuel generalizing n s with
  | zero => omega
  | succ fuel ih =>
    have hchild : ∀ {c s}, chart.parent? c = some n → (chart.kind c).isHistory = false →
        chart.Supports c s (chart.descend fuel c s) := by
      intro c s hc hkc
      have := wf.parent_lt hc
      apply ih (lt_of_parent hc) (by omega) hkc
    constructor
    case mono => exact fun hk => subset_descend hk
    case self => apply mem_descend_self hk
    case new =>
      intro k hks
      -- the node itself is supported if what follows supports it
      have hinsert : ∀ {s'}, chart.Supported s' n → k ∈ NodeSet.insert n s →
          k ∈ s ∨ chart.Supported s' k := by
        intro s' hsupported hk
        rcases NodeSet.mem_insert.mp hk with rfl | hk
        · exact Or.inr hsupported
        · exact Or.inl hk
      rw [descend] at hks ⊢
      cases hkind : chart.kind n with
      | atomic =>
        rw [hkind] at hks
        apply hinsert (supported_of_isAtomic hn (by rw [hkind]; rfl)) hks
      | final data =>
        rw [hkind] at hks
        apply hinsert (supported_of_isAtomic hn (by rw [hkind]; rfl)) hks
      | compound i =>
        rw [hkind] at hks
        obtain ⟨hi, hki⟩ := wf.initial hkind
        have hi := wf.parent_of_mem_children hi
        have hsupports := hchild (s := NodeSet.insert n s) hi hki
        rcases hsupports.new hks with hk' | hk'
        · apply hinsert _ hk'
          constructor
          case lt_length => exact hn
          case not_history => exact hk
          case child => exact fun _ => ⟨i, hsupports.self, wf.isBelow_of_parent hi⟩
          case regions =>
            intro r hparallel
            rw [hkind] at hparallel
            cases hparallel
        · exact Or.inr hk'
      | parallel =>
        rw [hkind] at hks
        obtain ⟨hmono, hreach, hnew⟩ := supports_completeRegions
          (fun r hr s => hchild (s := s) (parent_of_mem_regions wf hr) (mem_regions.mp hr).2)
          (NodeSet.insert n s)
        rcases hnew k hks with hk' | hk'
        · apply hinsert _ hk'
          constructor
          case lt_length => exact hn
          case not_history => exact hk
          case child =>
            intro hcompound
            rw [hkind] at hcompound
            cases hcompound
          case regions => exact fun _ hr => hreach _ hr
        · exact Or.inr hk'
      | history depth defaults =>
        rw [hkind] at hk
        cases hk

theorem supports_addDefaults (hn : n < chart.nodes.length)
    (hk : (chart.kind n).isHistory = false) :
  chart.Supports n s (chart.addDefaults n s)
  := wf.supports_descend hn (by rw [depthBound]; omega) hk

/-! ### Climbs -/

/-- An ancestor of a node of the set is added with support. -/
theorem supports_addAncestor (hx : x ∈ s) (hxa : chart.isBelow x a = true) :
  chart.Supports a s (chart.addAncestor s a)
  := by
  have ha := wf.lt_length_of_within (lt_length_of_isBelow hxa) (Or.inr hxa)
  have hself : a ∈ NodeSet.insert a s := NodeSet.mem_insert.mpr (Or.inl rfl)
  have hsub : ∀ {k}, k ∈ s → k ∈ NodeSet.insert a s :=
    NodeSet.mem_insert_of_mem
  rw [addAncestor]
  split
  · next hparallel =>
    obtain ⟨hcompound, -, hhistory⟩ := Kind.plain_of_isParallel hparallel
    obtain ⟨hmono, hreach, hnew⟩ := supports_completeRegions
      (fun r hr s => wf.supports_addDefaults (s := s) (lt_of_parent (parent_of_mem_regions wf hr))
        (mem_regions.mp hr).2) (NodeSet.insert a s)
    constructor
    case mono => exact fun hk => hmono _ (hsub hk)
    case self => apply hmono a hself
    case new =>
      intro k hk
      rcases hnew k hk with hk | hk
      · rcases NodeSet.mem_insert.mp hk with rfl | hk
        · right
          constructor
          case lt_length => exact ha
          case not_history => exact hhistory
          case child => exact fun _ => ⟨x, hmono x (hsub hx), hxa⟩
          case regions => exact fun _ hr => hreach _ hr
        · exact Or.inl hk
      · exact Or.inr hk
  · next hparallel =>
    have hcompound := (wf.inner_of_isBelow hxa).resolve_right hparallel
    constructor
    case mono => exact hsub
    case self => exact hself
    case new =>
      intro k hk
      rcases NodeSet.mem_insert.mp hk with rfl | hk
      · right
        constructor
        case lt_length => exact ha
        case not_history => exact (Kind.plain_of_isCompound hcompound).2.2
        case child => exact fun _ => ⟨x, hsub hx, hxa⟩
        case regions => exact fun hk => absurd hk hparallel
      · exact Or.inl hk

/-- A climb from a node of the set supports what it adds. -/
theorem extends_ascend (hn : n ∈ s) :
  chart.Extends s (chart.ascend c n s)
  := by
  have hbelow : ∀ a ∈ (chart.ancestors n).takeWhile (· ≠ c), chart.isBelow n a = true :=
    fun a ha => isBelow_iff_mem.mpr (List.takeWhile_subset _ ha)
  rw [ascend]
  generalize (chart.ancestors n).takeWhile (· ≠ c) = passed at hbelow
  induction passed generalizing s with
  | nil => apply extends_refl chart s
  | cons a passed ih =>
    rw [List.foldl_cons]
    have hsupports := wf.supports_addAncestor hn (hbelow a List.mem_cons_self)
    apply hsupports.extends.trans (ih (hsupports.mono hn)
      (fun b hb => hbelow b (List.mem_cons_of_mem a hb)))

end WellFormed

end Statechart.Chart
