import Statechart.Proofs.Chart.WellFormed

/-!
# Ancestry

The order of a well-formed chart: `isBelow` is the strict order of descendants, `Within` the
order with equality.  The ancestors of a node form a chain (`within_total`), the descendants
of a node follow it without a gap (`isBelow_of_between`), and from a node to a descendant
leads exactly one child (`exists_child`, `child_unique`).
-/

namespace Statechart.Chart

/-- Whether `n` is `a` or lies below `a`. -/
def Within (chart : Chart) (n a : Nat) : Prop :=
  n = a ∨ chart.isBelow n a = true

variable {chart : Chart} {n a b c k : Nat}

theorem isBelow_iff_mem :
  chart.isBelow n a = true ↔ a ∈ chart.ancestors n
  := by
  simp [isBelow]

theorem within_refl (chart : Chart) (n : Nat) :
  chart.Within n n
  := Or.inl rfl

theorem ancestors_of_parent_none (h : chart.parent? n = none) :
  chart.ancestors n = []
  := by
  rw [ancestors, h]

theorem lt_of_parent {p : Nat} (h : chart.parent? n = some p) :
  n < chart.nodes.length
  := by
  by_contra hn
  rw [parent?, node?_eq_none hn] at h
  cases h

theorem lt_length_of_isBelow (h : chart.isBelow n a = true) :
  n < chart.nodes.length
  := by
  rw [isBelow_iff_mem] at h
  cases hp : chart.parent? n with
  | none =>
    rw [ancestors_of_parent_none hp] at h
    cases h
  | some p => apply lt_of_parent hp

theorem lt_length_of_isHistory (h : (chart.kind n).isHistory = true) :
  n < chart.nodes.length
  := by
  by_contra hn
  rw [kind_of_not_lt hn] at h
  cases h

namespace WellFormed

variable (wf : chart.WellFormed)

include wf

/-! ### Ancestors -/

theorem ancestors_of_parent {p : Nat} (h : chart.parent? n = some p) :
  chart.ancestors n = p :: chart.ancestors p
  := by
  rw [ancestors, h]
  simp [wf.parent_lt h]

/-- A node lies below `a` exactly if its parent is `a` or lies below `a`. -/
theorem isBelow_iff :
  chart.isBelow n a = true ↔ ∃ p, chart.parent? n = some p ∧ chart.Within p a
  := by
  rw [isBelow_iff_mem]
  cases h : chart.parent? n with
  | none => simp [ancestors_of_parent_none h]
  | some p =>
    rw [wf.ancestors_of_parent h, List.mem_cons, ← isBelow_iff_mem]
    constructor
    · rintro (rfl | hpa)
      · exact ⟨a, rfl, within_refl chart a⟩
      · exact ⟨p, rfl, Or.inr hpa⟩
    · rintro ⟨q, hq, hqa⟩
      rw [Option.some.injEq] at hq
      subst hq
      rcases hqa with rfl | hpa
      · exact Or.inl rfl
      · exact Or.inr hpa

theorem isBelow_of_parent (h : chart.parent? n = some a) :
  chart.isBelow n a = true
  := wf.isBelow_iff.mpr ⟨a, h, within_refl chart a⟩

theorem isBelow_of_parent_within {p : Nat} (h : chart.parent? n = some p)
    (hp : chart.Within p a) :
  chart.isBelow n a = true
  := wf.isBelow_iff.mpr ⟨p, h, hp⟩

/-- Each ancestor of a node lies below those listed after it. -/
theorem ancestors_pairwise (n : Nat) :
  (chart.ancestors n).Pairwise (fun a b => chart.isBelow a b = true)
  := by
  induction n using Nat.strongRecOn with
  | _ n ih =>
    cases h : chart.parent? n with
    | none =>
      rw [ancestors_of_parent_none h]
      apply List.Pairwise.nil
    | some p =>
      rw [wf.ancestors_of_parent h, List.pairwise_cons]
      constructor
      · intro b hb
        apply isBelow_iff_mem.mpr hb
      · apply ih p (wf.parent_lt h)

/-! ### The order -/

theorem lt_of_isBelow (h : chart.isBelow n a = true) :
  a < n
  := by
  induction n using Nat.strongRecOn with
  | _ n ih =>
    obtain ⟨p, hp, hpa⟩ := wf.isBelow_iff.mp h
    have hlt := wf.parent_lt hp
    rcases hpa with rfl | hpa
    · exact hlt
    · have := ih p hlt hpa
      omega

theorem le_of_within (h : chart.Within n a) :
  a ≤ n
  := by
  rcases h with rfl | h
  · apply Nat.le_refl n
  · apply Nat.le_of_lt (wf.lt_of_isBelow h)

theorem not_isBelow_self (n : Nat) :
  ¬ chart.isBelow n n = true
  := by
  intro h
  apply Nat.lt_irrefl n (wf.lt_of_isBelow h)

theorem isBelow_of_within (h : chart.isBelow n b = true) (hb : chart.Within b a) :
  chart.isBelow n a = true
  := by
  induction n using Nat.strongRecOn with
  | _ n ih =>
    obtain ⟨p, hp, hpb⟩ := wf.isBelow_iff.mp h
    rcases hpb with rfl | hpb
    · apply wf.isBelow_of_parent_within hp hb
    · apply wf.isBelow_of_parent_within hp (Or.inr (ih p (wf.parent_lt hp) hpb))

theorem isBelow_trans (h : chart.isBelow n b = true) (hb : chart.isBelow b a = true) :
  chart.isBelow n a = true
  := wf.isBelow_of_within h (Or.inr hb)

theorem within_isBelow (h : chart.Within n b) (hb : chart.isBelow b a = true) :
  chart.isBelow n a = true
  := by
  rcases h with rfl | h
  · exact hb
  · apply wf.isBelow_trans h hb

theorem within_trans (h : chart.Within n b) (hb : chart.Within b a) :
  chart.Within n a
  := by
  rcases h with rfl | h
  · exact hb
  · exact Or.inr (wf.isBelow_of_within h hb)

theorem not_isBelow_of_within (h : chart.Within n a) :
  ¬ chart.isBelow a n = true
  := by
  intro h'
  apply wf.not_isBelow_self a (wf.isBelow_of_within h' h)

/-- The nodes that a node lies within form a chain. -/
theorem within_total (ha : chart.Within n a) (hb : chart.Within n b) :
  chart.Within a b ∨ chart.isBelow b a = true
  := by
  induction n using Nat.strongRecOn with
  | _ n ih =>
    rcases ha with rfl | ha
    · exact Or.inl hb
    · rcases hb with rfl | hb
      · exact Or.inr ha
      · obtain ⟨p, hp, hpa⟩ := wf.isBelow_iff.mp ha
        obtain ⟨p', hp', hpb⟩ := wf.isBelow_iff.mp hb
        rw [hp, Option.some.injEq] at hp'
        subst hp'
        apply ih p (wf.parent_lt hp) hpa hpb

/-! ### Range and root -/

theorem lt_length_of_within (hn : n < chart.nodes.length) (h : chart.Within n a) :
  a < chart.nodes.length
  := Nat.lt_of_le_of_lt (wf.le_of_within h) hn

theorem within_root (hn : n < chart.nodes.length) :
  chart.Within n root
  := by
  induction n using Nat.strongRecOn with
  | _ n ih =>
    by_cases hr : n = root
    · exact Or.inl hr
    · obtain ⟨p, hp⟩ := wf.exists_parent hn hr
      have hlt := wf.parent_lt hp
      exact Or.inr (wf.isBelow_of_parent_within hp (ih p hlt (by omega)))

theorem isBelow_root (hn : n < chart.nodes.length) (hr : n ≠ root) :
  chart.isBelow n root = true
  := by
  rcases wf.within_root hn with h | h
  · exact absurd h hr
  · exact h

theorem not_isBelow_of_root (a : Nat) :
  ¬ chart.isBelow root a = true
  := by
  intro h
  apply Nat.not_lt_zero a (wf.lt_of_isBelow h)

theorem ne_root_of_isHistory (h : (chart.kind n).isHistory = true) :
  n ≠ root
  := by
  rintro rfl
  rw [wf.root_kind] at h
  cases h

theorem exists_parent_of_isHistory (h : (chart.kind n).isHistory = true) :
  ∃ p, chart.parent? n = some p
  := wf.exists_parent (lt_length_of_isHistory h) (wf.ne_root_of_isHistory h)

/-! ### Document order -/

/-- The descendants of a node are numbered without a gap from the node on. -/
theorem isBelow_of_between (h : chart.isBelow n a = true) (hak : a < k) (hkn : k ≤ n) :
  chart.isBelow k a = true
  := by
  induction n using Nat.strongRecOn with
  | _ n ih =>
    rcases Nat.lt_or_eq_of_le hkn with hlt | rfl
    · obtain ⟨p, hp, hpa⟩ := wf.isBelow_iff.mp h
      rcases Nat.lt_or_ge p k with hpk | hkp
      · -- the parent of `k` lies between the parent of `n` and `k`
        clear ih
        induction k using Nat.strongRecOn with
        | _ k ihk =>
          obtain ⟨q, hq, hpq⟩ := wf.parent_le hp hpk hlt
          have hqk := wf.parent_lt hq
          apply wf.isBelow_of_parent_within hq
          rcases Nat.lt_or_eq_of_le hpq with hpq | rfl
          · have := wf.le_of_within hpa
            exact Or.inr (ihk q hqk (by omega) (by omega) (by omega) hpq)
          · exact hpa
      · rcases hpa with rfl | hpa
        · omega
        · apply ih p (wf.parent_lt hp) hpa hkp
    · exact h

/-! ### Children -/

theorem parent_of_mem_children (h : c ∈ chart.children n) :
  chart.parent? c = some n
  := wf.mem_children.mp h

/-- A child of `a` leads to each descendant of `a`. -/
theorem exists_child (h : chart.isBelow n a = true) :
  ∃ c, chart.parent? c = some a ∧ chart.Within n c
  := by
  induction n using Nat.strongRecOn with
  | _ n ih =>
    obtain ⟨p, hp, hpa⟩ := wf.isBelow_iff.mp h
    rcases hpa with rfl | hpa
    · exact ⟨n, hp, within_refl chart n⟩
    · obtain ⟨c, hc, hpc⟩ := ih p (wf.parent_lt hp) hpa
      exact ⟨c, hc, Or.inr (wf.isBelow_of_parent_within hp hpc)⟩

theorem not_within_of_parent {p : Nat} (h : chart.parent? c = some p) :
  ¬ chart.Within p c
  := by
  intro hp
  apply wf.not_isBelow_of_within hp (wf.isBelow_of_parent h)

/-- What lies strictly between two nodes lies within the parent of the lower one. -/
theorem within_parent {p : Nat} (h : chart.parent? n = some p) (ha : chart.isBelow n a = true) :
  chart.Within p a
  := by
  obtain ⟨p', hp', hpa⟩ := wf.isBelow_iff.mp ha
  rw [h, Option.some.injEq] at hp'
  rw [hp']
  exact hpa

/-- Only one child of a node leads to a given node. -/
theorem child_unique {p : Nat} {c' : Nat} (hc : chart.parent? c = some p)
    (hc' : chart.parent? c' = some p) (h : chart.Within n c) (h' : chart.Within n c') :
  c = c'
  := by
  rcases wf.within_total h h' with (rfl | hlt) | hlt
  · rfl
  · exact absurd (wf.within_parent hc hlt) (wf.not_within_of_parent hc')
  · exact absurd (wf.within_parent hc' hlt) (wf.not_within_of_parent hc)

/-- What lies within a node comes before what lies within a later sibling. -/
theorem lt_of_siblings {p c' n' : Nat} (hc : chart.parent? c = some p)
    (hc' : chart.parent? c' = some p) (hlt : c < c') (hn : chart.Within n c)
    (hn' : chart.Within n' c') :
  n < n'
  := by
  apply Nat.lt_of_lt_of_le _ (wf.le_of_within hn')
  rcases hn with rfl | hn
  · exact hlt
  · by_contra hle
    -- else the sibling would lie between the two nodes, and so below the earlier one
    have hbelow := wf.isBelow_of_between hn hlt (Nat.not_lt.mp hle)
    apply wf.not_within_of_parent hc (wf.within_parent hc' hbelow)

/-! ### Climbing -/

/-- The ancestors of a node that come before `d` lie strictly below `d`, unless `d` is no
ancestor. -/
theorem mem_takeWhile_ancestors {d : Nat} :
  a ∈ (chart.ancestors n).takeWhile (· ≠ d) ↔
    chart.isBelow n a = true ∧ (chart.isBelow n d = true → chart.isBelow a d = true)
  := by
  induction n using Nat.strongRecOn with
  | _ n ih =>
    cases h : chart.parent? n with
    | none =>
      rw [ancestors_of_parent_none h, List.takeWhile_nil, isBelow_iff_mem,
        ancestors_of_parent_none h]
      simp
    | some p =>
      rw [wf.ancestors_of_parent h]
      by_cases hpd : p = d
      · rw [List.takeWhile_cons_of_neg (by simpa using hpd)]
        constructor
        · intro hmem
          cases hmem
        · rintro ⟨hna, hd⟩
          subst hpd
          have hpa := wf.within_parent h hna
          exact absurd (hd (wf.isBelow_of_parent h)) (wf.not_isBelow_of_within hpa)
      · rw [List.takeWhile_cons_of_pos (by simpa using hpd), List.mem_cons,
          ih p (wf.parent_lt h)]
        have hnd : chart.isBelow n d = true ↔ chart.isBelow p d = true := by
          rw [wf.isBelow_iff]
          constructor
          · rintro ⟨p', hp', hpd'⟩
            rw [h, Option.some.injEq] at hp'
            subst hp'
            apply hpd'.resolve_left hpd
          · intro hpd'
            exact ⟨p, h, Or.inr hpd'⟩
        rw [hnd]
        constructor
        · rintro (rfl | ⟨hpa, hd⟩)
          · exact ⟨wf.isBelow_of_parent h, fun hd => hd⟩
          · exact ⟨wf.isBelow_of_parent_within h (Or.inr hpa), hd⟩
        · rintro ⟨hna, hd⟩
          rcases wf.within_parent h hna with rfl | hpa
          · exact Or.inl rfl
          · exact Or.inr ⟨hpa, hd⟩

end WellFormed

end Statechart.Chart
