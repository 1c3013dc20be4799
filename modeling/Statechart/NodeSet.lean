/-!
# Sets of nodes

Sets of numbers as increasing lists, so that a set of nodes lists them in document order.
-/

namespace Statechart

/-- A set of nodes, in document order. -/
abbrev NodeSet := List Nat

namespace NodeSet

/-- The set with one more node. -/
def insert (n : Nat) : NodeSet → NodeSet
  | [] => [n]
  | m :: rest =>
    if n < m then n :: m :: rest
    else if n = m then m :: rest
    else m :: insert n rest

/-- The set of the nodes of a list. -/
def ofList (ns : List Nat) : NodeSet :=
  ns.foldl (fun s n => insert n s) []

/-- The set without a node. -/
def erase (n : Nat) (s : NodeSet) : NodeSet :=
  s.filter (· ≠ n)

theorem mem_insert {n m : Nat} {s : NodeSet} :
  m ∈ insert n s ↔ m = n ∨ m ∈ s
  := by
  induction s with
  | nil => simp [insert]
  | cons k rest ih =>
    simp only [insert]
    split
    · simp
    · split
      · next h => subst h; simp
      · simp only [List.mem_cons, ih]
        constructor
        · rintro (h | h | h) <;> simp [h]
        · rintro (h | h | h) <;> simp [h]

theorem mem_insert_of_mem {n m : Nat} {s : NodeSet} (h : m ∈ s) :
  m ∈ insert n s
  := mem_insert.mpr (Or.inr h)

/-- Insertion keeps a set increasing. -/
theorem insert_increasing {n : Nat} {s : NodeSet} (h : s.Pairwise (· < ·)) :
  (insert n s).Pairwise (· < ·)
  := by
  induction s with
  | nil => simp [insert]
  | cons k rest ih =>
    have hk := List.pairwise_cons.1 h
    simp only [insert]
    split
    · next hn =>
      refine List.pairwise_cons.2 ⟨?_, h⟩
      intro m hm
      rcases List.mem_cons.1 hm with rfl | hm
      · exact hn
      · exact Nat.lt_trans hn (hk.1 m hm)
    · split
      · exact h
      · refine List.pairwise_cons.2 ⟨?_, ih hk.2⟩
        intro m hm
        rcases mem_insert.1 hm with rfl | hm
        · omega
        · exact hk.1 m hm

theorem mem_foldl_insert {m : Nat} (ns : List Nat) {s : NodeSet} :
  m ∈ ns.foldl (fun s n => insert n s) s ↔ m ∈ s ∨ m ∈ ns
  := by
  induction ns generalizing s with
  | nil => simp
  | cons n ns ih =>
    rw [List.foldl_cons, ih, mem_insert, List.mem_cons]
    constructor
    · rintro ((h | h) | h) <;> simp [h]
    · rintro (h | h | h) <;> simp [h]

theorem foldl_insert_increasing (ns : List Nat) {s : NodeSet} (h : s.Pairwise (· < ·)) :
  (ns.foldl (fun s n => insert n s) s).Pairwise (· < ·)
  := by
  induction ns generalizing s with
  | nil => exact h
  | cons n ns ih => exact ih (insert_increasing h)

section

variable {α : Type} {f : NodeSet → α → NodeSet} {items : List α} {s : NodeSet} {k : Nat}

/-- What the steps of a fold keep is in its result. -/
theorem subset_foldl (hmono : ∀ s a, k ∈ s → k ∈ f s a) (hk : k ∈ s) :
  k ∈ items.foldl f s
  := by
  induction items generalizing s with
  | nil => exact hk
  | cons a items ih => exact ih (hmono s a hk)

/-- What a step of a fold adds is in its result. -/
theorem mem_foldl_of_mem {a : α} (hmono : ∀ s a, k ∈ s → k ∈ f s a) (ha : a ∈ items)
    (hadd : ∀ s, k ∈ f s a) :
  k ∈ items.foldl f s
  := by
  induction items generalizing s with
  | nil => cases ha
  | cons b items ih =>
    rw [List.foldl_cons]
    rcases List.mem_cons.1 ha with rfl | ha
    · exact subset_foldl hmono (hadd s)
    · exact ih ha

/-- What is in the result of a fold was there before, or some step adds it. -/
theorem mem_foldl_cases {added : α → Prop}
    (hnew : ∀ a ∈ items, ∀ s, k ∈ f s a → k ∈ s ∨ added a) (hk : k ∈ items.foldl f s) :
  k ∈ s ∨ ∃ a ∈ items, added a
  := by
  induction items generalizing s with
  | nil => exact Or.inl hk
  | cons a items ih =>
    rcases ih (fun b hb => hnew b (List.mem_cons_of_mem a hb)) hk with hk | ⟨b, hb, hadded⟩
    · rcases hnew a List.mem_cons_self s hk with hk | hadded
      · exact Or.inl hk
      · exact Or.inr ⟨a, List.mem_cons_self, hadded⟩
    · exact Or.inr ⟨b, List.mem_cons_of_mem a hb, hadded⟩

end

end NodeSet

end Statechart
