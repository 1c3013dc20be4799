/-!
# Association lists

Finite maps as lists of pairs.  `insert` keeps the order in which keys first came,
`insertSorted` keeps the keys in increasing order; both replace the value of a key that is
there already.  `List.lookup` reads either.
-/

namespace Statechart.Association

variable {α β : Type}

/-- The list with `key` bound to `value`, at the place of the key or else at the end. -/
def insert [DecidableEq α] (key : α) (value : β) : List (α × β) → List (α × β)
  | [] => [(key, value)]
  | (k, v) :: rest =>
    if k = key then (key, value) :: rest else (k, v) :: insert key value rest

/-- The sorted list with `key` bound to `value`. -/
def insertSorted [LT α] [DecidableEq α] [DecidableLT α] (key : α) (value : β) :
    List (α × β) → List (α × β)
  | [] => [(key, value)]
  | (k, v) :: rest =>
    if key = k then (key, value) :: rest
    else if key < k then (key, value) :: (k, v) :: rest
    else (k, v) :: insertSorted key value rest

/-- The list without the bindings of `key`. -/
def erase [DecidableEq α] (key : α) (entries : List (α × β)) : List (α × β) :=
  entries.filter (fun e => e.1 ≠ key)

/-- The bindings of `entries` in increasing order of the keys; of two bindings of a key the
later one counts. -/
def sorted [LT α] [DecidableEq α] [DecidableLT α] (entries : List (α × β)) :
    List (α × β) :=
  entries.foldl (fun acc e => insertSorted e.1 e.2 acc) []

theorem lookup_insert_self [DecidableEq α] (key : α) (value : β) (l : List (α × β)) :
  (insert key value l).lookup key = some value
  := by
  induction l with
  | nil => simp [insert]
  | cons e l ih =>
    obtain ⟨k, v⟩ := e
    by_cases h : k = key
    · simp [insert, h]
    · have h' : (key == k) = false := by simpa using fun e => h e.symm
      simp [insert, h, List.lookup_cons, h', ih]

theorem lookup_insert_of_ne [DecidableEq α] {key other : α} (value : β) (l : List (α × β))
    (h : other ≠ key) :
  (insert key value l).lookup other = l.lookup other
  := by
  have hb : (other == key) = false := by simpa using h
  induction l with
  | nil => simp [insert, List.lookup_cons, hb]
  | cons e l ih =>
    obtain ⟨k, v⟩ := e
    by_cases hk : k = key
    · subst hk
      simp [insert, List.lookup_cons, hb]
    · simp only [insert, hk, if_false, List.lookup_cons, ih]

theorem lookup_insertSorted_self [LT α] [DecidableEq α] [DecidableLT α] (key : α) (value : β)
    (l : List (α × β)) :
  (insertSorted key value l).lookup key = some value
  := by
  induction l with
  | nil => simp [insertSorted]
  | cons e l ih =>
    obtain ⟨k, v⟩ := e
    rw [insertSorted]
    split
    · simp
    · next hk =>
      split
      · simp
      · have hb : (key == k) = false := by simpa using hk
        rw [List.lookup_cons, hb]
        exact ih

theorem lookup_insertSorted_of_ne [LT α] [DecidableEq α] [DecidableLT α] {key other : α}
    (value : β) (l : List (α × β)) (h : other ≠ key) :
  (insertSorted key value l).lookup other = l.lookup other
  := by
  have hb : (other == key) = false := by simpa using h
  induction l with
  | nil => simp [insertSorted, List.lookup_cons, hb]
  | cons e l ih =>
    obtain ⟨k, v⟩ := e
    rw [insertSorted]
    split
    · next hk =>
      subst hk
      simp [List.lookup_cons, hb]
    · split
      · simp [List.lookup_cons, hb]
      · simp only [List.lookup_cons, ih]

/-- An entry of a sorted list with one more binding is the binding, or was there before. -/
theorem mem_of_mem_insertSorted [LT α] [DecidableEq α] [DecidableLT α] {key : α} {value : β}
    {l : List (α × β)} {e : α × β} (h : e ∈ insertSorted key value l) :
  e = (key, value) ∨ e ∈ l
  := by
  induction l with
  | nil => exact Or.inl (List.mem_singleton.mp h)
  | cons f l ih =>
    obtain ⟨k, v⟩ := f
    rw [insertSorted] at h
    split at h
    · exact (List.mem_cons.mp h).imp_right (List.mem_cons_of_mem _)
    · split at h
      · exact List.mem_cons.mp h
      · rcases List.mem_cons.mp h with rfl | h
        · exact Or.inr List.mem_cons_self
        · exact (ih h).imp_right (List.mem_cons_of_mem _)

end Statechart.Association
