import Mathlib.Tactic.Common
import Statechart.Chart.Layout

/-!
# The tree of a layout

The places of a tree of states carry the tree: the parent of a place comes before it
(`parent_of_mem_layOut`), the places between a node and one of its children lie below the
node (`parent_le_of_mem_layOut`), and the children of a place are the places whose parent
it is (`mem_children_of_mem_layOut`).

A place is addressed together with its number: `(p, n)` is an entry of the layout numbered
from its first place on.
-/

namespace Statechart.Chart

open Document (State)

variable {machine : String} {start : Nat} {path : List String}

/-! ### Numbered places -/

/-- The places of the children of a state are those of its first child and then those of
the others. -/
theorem mem_zipIdx_layOutAll {key : String} {child : State} {rest : List (String × State)}
    {parent n : Nat} {p : Place} :
  (p, n) ∈ (layOutAll machine start path parent ((key, child) :: rest)).zipIdx start ↔
    (p, n) ∈ (layOut machine start (path ++ [key]) (some parent) child).zipIdx start ∨
      (p, n) ∈ (layOutAll machine (start + child.size) path parent rest).zipIdx
        (start + child.size)
  := by
  rw [layOutAll, List.zipIdx_append, length_layOut, List.mem_append]

/-- The first place of a tree is its root, and the others are those of the children. -/
theorem mem_zipIdx_layOut {own : Document.Declaration} {children : List (String × State)}
    {parent : Option Nat} {n : Nat} {p : Place} :
  (p, n) ∈ (layOut machine start path parent (.node own children)).zipIdx start ↔
    (p = place machine start path parent own children ∧ n = start) ∨
      (p, n) ∈ (layOutAll machine (start + 1) path start children).zipIdx (start + 1)
  := by
  rw [layOut, List.zipIdx_cons, List.mem_cons, Prod.mk.injEq]

theorem lt_of_mem_layOut {parent : Option Nat} {s : State} {p : Place} {n : Nat}
    (h : (p, n) ∈ (layOut machine start path parent s).zipIdx start) :
  n < start + s.size
  := by
  have hn := List.snd_lt_add_of_mem_zipIdx h
  rwa [length_layOut] at hn

/-! ### Parents -/

mutual

/-- The parent of a place lies before it in the tree, except that of the root. -/
theorem parent_of_mem_layOut {start : Nat} {path : List String} {parent : Option Nat}
    {p : Place} {n : Nat} (s : State)
    (h : (p, n) ∈ (layOut machine start path parent s).zipIdx start) :
  (n = start ∧ p.node.parent = parent) ∨ ∃ q, p.node.parent = some q ∧ start ≤ q ∧ q < n
  := by
  cases s with
  | node own children =>
    rcases mem_zipIdx_layOut.mp h with ⟨rfl, rfl⟩ | h
    · left
      exact ⟨rfl, rfl⟩
    · right
      obtain ⟨q, hq, hle, hlt⟩ := parent_of_mem_layOutAll children (Nat.lt_succ_self start) h
      use q, hq
      omega

/-- The parent of a place below the children of `above` is `above` or lies before the place
in their trees. -/
theorem parent_of_mem_layOutAll {start : Nat} {path : List String} {above : Nat}
    {p : Place} {n : Nat} (children : List (String × State)) (ha : above < start)
    (h : (p, n) ∈ (layOutAll machine start path above children).zipIdx start) :
  ∃ q, p.node.parent = some q ∧ (q = above ∨ start ≤ q) ∧ q < n
  := by
  cases children with
  | nil => simp [layOutAll] at h
  | cons e rest =>
    obtain ⟨key, child⟩ := e
    rcases mem_zipIdx_layOutAll.mp h with h | h
    · rcases parent_of_mem_layOut child h with ⟨rfl, hp⟩ | ⟨q, hq, hle, hlt⟩
      · exact ⟨above, hp, Or.inl rfl, ha⟩
      · exact ⟨q, hq, Or.inr hle, hlt⟩
    · obtain ⟨q, hq, hle, hlt⟩ := parent_of_mem_layOutAll rest (by omega) h
      use q, hq
      omega

end

mutual

/-- Between a place and its parent, every place has its parent at or after that parent. -/
theorem parent_le_of_mem_layOut {start : Nat} {path : List String} {parent : Option Nat}
    {p p' : Place} {n k q : Nat} (s : State)
    (h : (p, n) ∈ (layOut machine start path parent s).zipIdx start)
    (h' : (p', k) ∈ (layOut machine start path parent s).zipIdx start)
    (hp : p.node.parent = some q) (hn : n ≠ start) (hqk : q < k) (hkn : k < n) :
  ∃ q', p'.node.parent = some q' ∧ q ≤ q'
  := by
  cases s with
  | node own children =>
    rcases mem_zipIdx_layOut.mp h with ⟨-, hs⟩ | h
    · exact absurd hs hn
    · rcases mem_zipIdx_layOut.mp h' with ⟨-, rfl⟩ | h'
      · obtain ⟨q', hq', hle, -⟩ := parent_of_mem_layOutAll children (Nat.lt_succ_self k) h
        rw [hp, Option.some.injEq] at hq'
        omega
      · apply parent_le_of_mem_layOutAll children (Nat.lt_succ_self start) h h' hp hqk hkn

/-- The same among the places below the children of `above`. -/
theorem parent_le_of_mem_layOutAll {start : Nat} {path : List String} {above : Nat}
    {p p' : Place} {n k q : Nat} (children : List (String × State)) (ha : above < start)
    (h : (p, n) ∈ (layOutAll machine start path above children).zipIdx start)
    (h' : (p', k) ∈ (layOutAll machine start path above children).zipIdx start)
    (hp : p.node.parent = some q) (hqk : q < k) (hkn : k < n) :
  ∃ q', p'.node.parent = some q' ∧ q ≤ q'
  := by
  obtain ⟨q₁, hq₁, hle₁, -⟩ := parent_of_mem_layOutAll children ha h'
  cases children with
  | nil => simp [layOutAll] at h
  | cons e rest =>
    obtain ⟨key, child⟩ := e
    rcases mem_zipIdx_layOutAll.mp h with h | h
    · -- the later place lies in the first tree, and so does the earlier one
      have hlt := lt_of_mem_layOut h
      rcases mem_zipIdx_layOutAll.mp h' with h' | h'
      · by_cases hn : n = start
        · have := List.le_snd_of_mem_zipIdx h'
          simp only at this
          omega
        · apply parent_le_of_mem_layOut child h h' hp hn hqk hkn
      · have := List.le_snd_of_mem_zipIdx h'
        simp only at this
        omega
    · obtain ⟨q₂, hq₂, hle₂, -⟩ := parent_of_mem_layOutAll rest (by omega) h
      rw [hp, Option.some.injEq] at hq₂
      rcases mem_zipIdx_layOutAll.mp h' with h' | h'
      · -- the parent is `above`, for the first tree ends before the later place
        have hlt := lt_of_mem_layOut h'
        use q₁, hq₁
        omega
      · apply parent_le_of_mem_layOutAll rest (by omega) h h' hp hqk hkn

end

/-! ### Children -/

theorem le_of_mem_childPlaces {c : Nat} {children : List (String × State)}
    (h : c ∈ childPlaces start children) :
  start ≤ c
  := by
  induction children generalizing start with
  | nil => simp [childPlaces] at h
  | cons e rest ih =>
    rw [childPlaces, List.mem_cons] at h
    rcases h with rfl | h
    · apply Nat.le_refl c
    · have := ih h
      omega

/-- The children of a state stand in increasing order. -/
theorem childPlaces_increasing (children : List (String × State)) :
  (childPlaces start children).Pairwise (· < ·)
  := by
  induction children generalizing start with
  | nil => simp [childPlaces]
  | cons e rest ih =>
    rw [childPlaces, List.pairwise_cons]
    constructor
    · intro c hc
      have := le_of_mem_childPlaces hc
      have := e.2.size_pos
      omega
    · exact ih

/-- The places of the children of `above` are those below it whose parent is `above`. -/
theorem mem_childPlaces_iff {above c : Nat} {children : List (String × State)}
    (ha : above < start) :
  c ∈ childPlaces start children ↔
    ∃ p, (p, c) ∈ (layOutAll machine start path above children).zipIdx start ∧
      p.node.parent = some above
  := by
  induction children generalizing start with
  | nil => simp [childPlaces, layOutAll]
  | cons e rest ih =>
    obtain ⟨key, child⟩ := e
    rw [childPlaces, List.mem_cons, ih (by omega : above < start + child.size)]
    constructor
    · rintro (rfl | ⟨p, hp, hparent⟩)
      · cases child with
        | node own grandchildren =>
          use place machine c (path ++ [key]) (some above) own grandchildren
          constructor
          · apply mem_zipIdx_layOutAll.mpr
            left
            apply mem_zipIdx_layOut.mpr
            left
            exact ⟨rfl, rfl⟩
          · rfl
      · exact ⟨p, mem_zipIdx_layOutAll.mpr (Or.inr hp), hparent⟩
    · rintro ⟨p, hp, hparent⟩
      rcases mem_zipIdx_layOutAll.mp hp with hp | hp
      · left
        rcases parent_of_mem_layOut child hp with ⟨rfl, -⟩ | ⟨q, hq, hle, -⟩
        · rfl
        · rw [hparent, Option.some.injEq] at hq
          omega
      · exact Or.inr ⟨p, hp, hparent⟩

mutual

/-- The children of a place are the places whose parent it is. -/
theorem mem_children_of_mem_layOut {start : Nat} {path : List String} {parent : Option Nat}
    {p : Place} {n c : Nat} (s : State) (hparent : ∀ q, parent = some q → q < start)
    (h : (p, n) ∈ (layOut machine start path parent s).zipIdx start) :
  c ∈ p.node.children ↔
    ∃ p', (p', c) ∈ (layOut machine start path parent s).zipIdx start ∧
      p'.node.parent = some n
  := by
  have hn : start ≤ n := List.le_snd_of_mem_zipIdx h
  cases s with
  | node own children =>
    have hroot : (place machine start path parent own children).node.parent ≠ some n := by
      intro hr
      have := hparent n hr
      omega
    have hsplit : (∃ p', (p', c) ∈ (layOut machine start path parent
          (.node own children)).zipIdx start ∧ p'.node.parent = some n) ↔
        ∃ p', (p', c) ∈ (layOutAll machine (start + 1) path start children).zipIdx
          (start + 1) ∧ p'.node.parent = some n := by
      constructor
      · rintro ⟨p', hp', hq⟩
        rcases mem_zipIdx_layOut.mp hp' with ⟨rfl, -⟩ | hp'
        · exact absurd hq hroot
        · exact ⟨p', hp', hq⟩
      · rintro ⟨p', hp', hq⟩
        exact ⟨p', mem_zipIdx_layOut.mpr (Or.inr hp'), hq⟩
    rw [hsplit]
    rcases mem_zipIdx_layOut.mp h with ⟨rfl, rfl⟩ | h
    · apply mem_childPlaces_iff (Nat.lt_succ_self n)
    · apply mem_children_of_mem_layOutAll children (Nat.lt_succ_self start) h

/-- The same for the places below the children of `above`. -/
theorem mem_children_of_mem_layOutAll {start : Nat} {path : List String} {above : Nat}
    {p : Place} {n c : Nat} (children : List (String × State)) (ha : above < start)
    (h : (p, n) ∈ (layOutAll machine start path above children).zipIdx start) :
  c ∈ p.node.children ↔
    ∃ p', (p', c) ∈ (layOutAll machine start path above children).zipIdx start ∧
      p'.node.parent = some n
  := by
  cases children with
  | nil => simp [layOutAll] at h
  | cons e rest =>
    obtain ⟨key, child⟩ := e
    rcases mem_zipIdx_layOutAll.mp h with h | h
    · have hlt := lt_of_mem_layOut h
      have hle : start ≤ n := List.le_snd_of_mem_zipIdx h
      rw [mem_children_of_mem_layOut child (by rintro q ⟨⟩; exact ha) h]
      constructor
      · rintro ⟨p', hp', hq⟩
        exact ⟨p', mem_zipIdx_layOutAll.mpr (Or.inl hp'), hq⟩
      · rintro ⟨p', hp', hq⟩
        rcases mem_zipIdx_layOutAll.mp hp' with hp' | hp'
        · exact ⟨p', hp', hq⟩
        · obtain ⟨q, hq', hle', -⟩ := parent_of_mem_layOutAll rest (by omega) hp'
          rw [hq, Option.some.injEq] at hq'
          omega
    · have hle : start + child.size ≤ n := List.le_snd_of_mem_zipIdx h
      rw [mem_children_of_mem_layOutAll rest (by omega) h]
      constructor
      · rintro ⟨p', hp', hq⟩
        exact ⟨p', mem_zipIdx_layOutAll.mpr (Or.inr hp'), hq⟩
      · rintro ⟨p', hp', hq⟩
        rcases mem_zipIdx_layOutAll.mp hp' with hp' | hp'
        · have hlt := lt_of_mem_layOut hp'
          rcases parent_of_mem_layOut child hp' with ⟨-, hq'⟩ | ⟨q, hq', -, hqc⟩
          · rw [hq, Option.some.injEq] at hq'
            omega
          · rw [hq, Option.some.injEq] at hq'
            omega
        · exact ⟨p', hp', hq⟩

end

mutual

/-- Every place of a tree is that of some state with its children. -/
theorem exists_place_of_mem_layOut {start : Nat} {path : List String} {parent : Option Nat}
    {p : Place} (s : State) (h : p ∈ layOut machine start path parent s) :
  ∃ start path parent own children, p = place machine start path parent own children
  := by
  cases s with
  | node own children =>
    rw [layOut, List.mem_cons] at h
    rcases h with rfl | h
    · exact ⟨_, _, _, _, _, rfl⟩
    · exact exists_place_of_mem_layOutAll children h

/-- The same for the places below the children of a node. -/
theorem exists_place_of_mem_layOutAll {start : Nat} {path : List String} {above : Nat}
    {p : Place} (children : List (String × State))
    (h : p ∈ layOutAll machine start path above children) :
  ∃ start path parent own children, p = place machine start path parent own children
  := by
  cases children with
  | nil => simp [layOutAll] at h
  | cons e rest =>
    obtain ⟨key, child⟩ := e
    rw [layOutAll, List.mem_append] at h
    rcases h with h | h
    · exact exists_place_of_mem_layOut child h
    · exact exists_place_of_mem_layOutAll rest h

end

/-- The children of every place stand in increasing order. -/
theorem children_increasing_of_mem_layOut {start : Nat} {path : List String}
    {parent : Option Nat} {p : Place} (s : State)
    (h : p ∈ layOut machine start path parent s) :
  p.node.children.Pairwise (· < ·)
  := by
  obtain ⟨start, path, parent, own, children, rfl⟩ := exists_place_of_mem_layOut s h
  exact childPlaces_increasing children

/-- A place has the actions that its state declares, and so far no others. -/
theorem actions_of_mem_layOut {start : Nat} {path : List String} {parent : Option Nat}
    {p : Place} (s : State) (h : p ∈ layOut machine start path parent s) :
  p.node.entry = p.own.entry ∧ p.node.exit = p.own.exit
  := by
  obtain ⟨start, path, parent, own, children, rfl⟩ := exists_place_of_mem_layOut s h
  exact ⟨rfl, rfl⟩

end Statechart.Chart
