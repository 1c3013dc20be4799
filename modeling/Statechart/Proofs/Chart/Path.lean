import Statechart.Proofs.Chart.Identity

/-!
# Paths of nodes

The path of a node spells the keys on the way to it: the root has the empty path, and the path
of a child goes on with the key of the child (`pathed_of_ofDocument`).
-/

namespace Statechart.Chart

open Document (State)

/-! ### Paths of places -/

variable {machine : String}

theorem key_of_mem_layOut {start : Nat} {path : List String} {parent : Option Nat} {p : Place}
    (s : State) (h : p ∈ layOut machine start path parent s) :
  p.node.key = p.node.path.getLast?.getD ""
  := by
  obtain ⟨start, path, parent, own, children, rfl⟩ := exists_place_of_mem_layOut s h
  rfl

mutual

/-- A place of a tree is its root, or its path is that of its parent and one key more. -/
theorem path_of_mem_layOut {start : Nat} {path : List String} {parent : Option Nat} {p : Place}
    {n : Nat} (s : State) (h : (p, n) ∈ (layOut machine start path parent s).zipIdx start) :
  (n = start ∧ p.node.path = path) ∨
    ∃ q k key, (q, k) ∈ (layOut machine start path parent s).zipIdx start ∧
      p.node.parent = some k ∧ p.node.path = q.node.path ++ [key]
  := by
  cases s with
  | node own children =>
    rcases mem_zipIdx_layOut.mp h with ⟨rfl, rfl⟩ | h
    · exact Or.inl ⟨rfl, rfl⟩
    · right
      rcases path_of_mem_layOutAll children h with ⟨key, hparent, hpath⟩ | ⟨q, k, key, hq, hp⟩
      · exact ⟨_, _, key, mem_zipIdx_layOut.mpr (Or.inl ⟨rfl, rfl⟩), hparent, hpath⟩
      · exact ⟨q, k, key, mem_zipIdx_layOut.mpr (Or.inr hq), hp⟩

/-- The same for a place below the children of a node with the given path. -/
theorem path_of_mem_layOutAll {start : Nat} {path : List String} {above : Nat} {p : Place}
    {n : Nat} (children : List (String × State))
    (h : (p, n) ∈ (layOutAll machine start path above children).zipIdx start) :
  (∃ key, p.node.parent = some above ∧ p.node.path = path ++ [key]) ∨
    ∃ q k key, (q, k) ∈ (layOutAll machine start path above children).zipIdx start ∧
      p.node.parent = some k ∧ p.node.path = q.node.path ++ [key]
  := by
  cases children with
  | nil => simp [layOutAll] at h
  | cons e rest =>
    obtain ⟨key, child⟩ := e
    rcases mem_zipIdx_layOutAll.mp h with h | h
    · rcases path_of_mem_layOut child h with ⟨rfl, hpath⟩ | ⟨q, k, key', hq, hp⟩
      · left
        rcases parent_of_mem_layOut child h with ⟨-, hparent⟩ | ⟨q, -, hle, hlt⟩
        · exact ⟨key, hparent, hpath⟩
        · omega
      · exact Or.inr ⟨q, k, key', mem_zipIdx_layOutAll.mpr (Or.inl hq), hp⟩
    · rcases path_of_mem_layOutAll rest h with hchild | ⟨q, k, key', hq, hp⟩
      · exact Or.inl hchild
      · exact Or.inr ⟨q, k, key', mem_zipIdx_layOutAll.mpr (Or.inr hq), hp⟩

end

/-! ### Paths of nodes -/

/-- The keys from the root to a node. -/
def path (chart : Chart) (n : Nat) : List String :=
  ((chart.node? n).map Node.path).getD []

/-- The keys from the root to a node, with a point between neighbours. -/
def dottedPath (chart : Chart) (n : Nat) : String :=
  Text.join "." (chart.path n)

/-- Whether the paths of the nodes spell their keys. -/
structure Pathed (chart : Chart) : Prop where
  path_root : chart.path root = []
  path_child : ∀ {n p}, chart.parent? n = some p → chart.path n = chart.path p ++ [chart.key n]

variable {document : Document.Machine} {chart : Chart} {p : Place} {n : Nat}

theorem path_of_places (h : ofDocument document = .ok chart)
    (hp : (places document)[n]? = some p) :
  chart.path n = p.node.path ∧ chart.key n = p.node.key
  := by
  have hpaths := congrArg (·[n]?)
    (map_of_ofDocument (f := Node.path) (fun hlinked => (named_of_linked hlinked).2.2) h)
  have hkeys := congrArg (·[n]?)
    (map_of_ofDocument (f := Node.key) (fun hlinked => (named_of_linked hlinked).2.1) h)
  simp only [List.getElem?_map, hp, Option.map_some] at hpaths hkeys
  rw [path, key, node?, hpaths, hkeys]
  exact ⟨rfl, rfl⟩

/-- The paths of a compiled chart spell the keys of its nodes. -/
theorem pathed_of_ofDocument (h : ofDocument document = .ok chart) :
  chart.Pathed
  := by
  have hnone := (wellFormed_of_ofDocument h).parent_root
  constructor
  case path_root =>
    have hroot : (places document)[root]? = some _ :=
      List.getElem?_eq_getElem (places_ne_nil document)
    rw [(path_of_places h hroot).1]
    rcases path_of_mem_layOut _ (mem_zipIdx_places.mpr hroot) with ⟨-, hpath⟩ | ⟨q, k, -, hq, hp, -⟩
    · exact hpath
    · rw [(parent?_eq_some_iff h).mpr ⟨_, hroot, hp⟩] at hnone
      cases hnone
  case path_child =>
    intro n k hparent
    obtain ⟨p, hp, hk⟩ := (parent?_eq_some_iff h).mp hparent
    have hkey : p.node.key = p.node.path.getLast?.getD "" :=
      key_of_mem_layOut _ (List.mem_of_getElem? hp)
    rcases path_of_mem_layOut _ (mem_zipIdx_places.mpr hp) with ⟨rfl, -⟩ | ⟨q, k', key, hq, hk', hpath⟩
    · rw [show chart.parent? 0 = none from hnone] at hparent
      cases hparent
    · rw [hk, Option.some.injEq] at hk'
      subst hk'
      rw [hpath, List.getLast?_concat, Option.getD_some] at hkey
      rw [(path_of_places h hp).1, (path_of_places h hp).2, hpath, hkey,
        (path_of_places h (mem_zipIdx_places.mp hq)).1]

end Statechart.Chart
