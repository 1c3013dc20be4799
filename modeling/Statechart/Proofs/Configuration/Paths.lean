import Statechart.Proofs.Configuration.Leaves

/-!
# The order of leaf paths

A state value lists its leaves in the order of their keys, branch by branch.  Their paths, where
the keys are joined with points, increase exactly if no key of a branch overtakes one before it:
goes on from it with a character that comes before the point (`increasing_leafPaths_iff`).
-/

namespace Statechart

namespace Text

/-! ### Joined texts -/

theorem toList_join_cons {part : String} {parts : List String} (h : parts ≠ []) :
  (join "." (part :: parts)).toList = part.toList ++ '.' :: (join "." parts).toList
  := by
  cases parts with
  | nil => exact absurd rfl h
  | cons second parts =>
    rw [join, String.intercalate_cons_cons, String.toList_append, String.toList_append,
      List.append_assoc]
    rfl

/-- Whether a text goes on from another one with a character that comes before the point. -/
def Overtakes (t s : String) : Prop :=
  ∃ c rest, t.toList = s.toList ++ c :: rest ∧ c < '.'

theorem append_lt_append_iff {s x y : List Char} :
  s ++ x < s ++ y ↔ x < y
  := by
  induction s with
  | nil => rfl
  | cons c s ih =>
    rw [List.cons_append, List.cons_append, List.cons_lt_cons_iff, or_iff_right (lt_irrefl c),
      and_iff_right rfl, ih]

/-- Let one text come before another one without points.  With a point and more text behind each,
they are in the same order unless the other one overtakes. -/
theorem append_point_lt_iff {s t : List Char} (h : s < t) (hpoint : '.' ∉ t) (x y : List Char) :
  s ++ '.' :: x < t ++ '.' :: y ↔ ¬ ∃ c rest, t = s ++ c :: rest ∧ c < '.'
  := by
  induction s generalizing t with
  | nil =>
    cases t with
    | nil => cases h
    | cons c t =>
      have hne : '.' ≠ c := fun heq => hpoint (heq ▸ List.mem_cons_self)
      rw [List.nil_append, List.cons_append, List.cons_lt_cons_iff]
      constructor
      · rintro (hlt | ⟨heq, -⟩) ⟨c', rest, hrest, hlt'⟩
        · cases hrest
          exact lt_asymm hlt hlt'
        · exact hne heq
      · intro hnot
        exact Or.inl (lt_of_le_of_ne (not_lt.mp fun hlt => hnot ⟨c, t, rfl, hlt⟩) hne)
  | cons d s ih =>
    cases t with
    | nil => cases h
    | cons c t =>
      rw [List.cons_append, List.cons_append, List.cons_lt_cons_iff]
      rcases List.cons_lt_cons_iff.mp h with hlt | ⟨rfl, hlt⟩
      · refine iff_of_true (Or.inl hlt) ?_
        rintro ⟨c', rest, hrest, -⟩
        cases hrest
        exact lt_irrefl _ hlt
      · rw [or_iff_right (lt_irrefl d), and_iff_right rfl,
          ih hlt fun hmem => hpoint (List.mem_cons_of_mem d hmem)]
        simp

end Text

namespace StateValue

/-! ### Ordered and plain values -/

/-- Whether a key is nonempty and without a point. -/
def PlainKey (key : String) : Prop :=
  key ≠ "" ∧ '.' ∉ key.toList

instance (key : String) : Decidable (PlainKey key) :=
  inferInstanceAs (Decidable (key ≠ "" ∧ '.' ∉ key.toList))

/-- Whether the keys of each branch increase. -/
inductive Ordered : StateValue → Prop
  | leaf (key : String) : Ordered (.leaf key)
  | branch {children : List (String × StateValue)} (increasing : Association.Increasing children)
      (ordered : ∀ e ∈ children, Ordered e.2) : Ordered (.branch children)

/-- Whether all keys are plain. -/
inductive Plain : StateValue → Prop
  | leaf {key : String} (plain : PlainKey key) : Plain (.leaf key)
  | branch {children : List (String × StateValue)} (keys : ∀ e ∈ children, PlainKey e.1)
      (plain : ∀ e ∈ children, Plain e.2) : Plain (.branch children)

/-- Whether at each branch no key overtakes one before it, where both lead to leaves. -/
inductive Untangled : StateValue → Prop
  | leaf (key : String) : Untangled (.leaf key)
  | branch {children : List (String × StateValue)}
      (keys : children.Pairwise fun e f =>
        e.2.leafCount ≠ 0 → f.2.leafCount ≠ 0 → ¬ Text.Overtakes f.1 e.1)
      (untangled : ∀ e ∈ children, Untangled e.2) : Untangled (.branch children)

theorem untangled_branch_iff {children : List (String × StateValue)} :
  (branch children).Untangled ↔
    (∀ e ∈ children, e.2.Untangled) ∧ children.Pairwise fun e f =>
      e.2.leafCount ≠ 0 → f.2.leafCount ≠ 0 → ¬ Text.Overtakes f.1 e.1
  := by
  constructor
  · rintro (_ | ⟨hkeys, huntangled⟩)
    exact ⟨huntangled, hkeys⟩
  · rintro ⟨huntangled, hkeys⟩
    exact .branch hkeys huntangled

mutual

/-- What is read is ordered. -/
theorem ordered_of_ofJson? {value : StateValue} (j : Json) (h : ofJson? j = some value) :
  value.Ordered
  := by
  cases j with
  | str key =>
    cases h
    exact .leaf key
  | obj fields =>
    obtain ⟨children, hchildren, rfl⟩ := Option.map_eq_some_iff.mp h
    refine .branch (Association.increasing_sorted children) fun e he => ?_
    exact ordered_of_ofFields? fields hchildren e (Association.mem_of_mem_sorted he)
  | _ => cases h

theorem ordered_of_ofFields? {children : List (String × StateValue)} (fields : List (String × Json))
    (h : ofFields? fields = some children) (e : String × StateValue) (he : e ∈ children) :
  e.2.Ordered
  := by
  cases fields with
  | nil =>
    cases h
    cases he
  | cons f fields =>
    obtain ⟨child, hchild, h⟩ := Option.bind_eq_some_iff.mp h
    obtain ⟨rest, hrest, h⟩ := Option.bind_eq_some_iff.mp h
    cases h
    rcases List.mem_cons.mp he with rfl | he
    · exact ordered_of_ofJson? f.2 hchild
    · exact ordered_of_ofFields? fields hrest e he

end

/-- Addresses are ordered. -/
theorem ordered_addressBelow {chart : Chart} {configuration : NodeSet} {fuel n : Nat} :
  (chart.addressBelow configuration fuel n).Ordered
  := by
  have hempty : (branch []).Ordered := .branch List.Pairwise.nil fun e he => nomatch he
  induction fuel generalizing n with
  | zero => exact hempty
  | succ fuel ih =>
    rw [Chart.addressBelow]
    split
    · split
      · exact hempty
      · next c _ =>
        split
        · exact .leaf (chart.key c)
        · exact .branch (List.pairwise_singleton _ _) (List.forall_mem_singleton.mpr ih)
    · change (branch (chart.regionAddresses configuration fuel n)).Ordered
      rw [Chart.regionAddresses_eq_sorted]
      refine .branch (Association.increasing_sorted _) fun e he => ?_
      obtain ⟨r, -, rfl⟩ := List.mem_map.mp (Association.mem_of_mem_sorted he)
      exact ih
    · exact hempty

/-! ### Rows of keys -/

mutual

/-- The rows of keys that lead to the addressed leaves. -/
def leafKeys : StateValue → List (List String)
  | .leaf key => [[key]]
  | .branch children => leafKeysAll children

/-- The rows of keys that lead to the leaves that the children address. -/
def leafKeysAll : List (String × StateValue) → List (List String)
  | [] => []
  | (key, child) :: rest => (leafKeys child).map (key :: ·) ++ leafKeysAll rest

end

variable {value : StateValue} {children : List (String × StateValue)} {keys : List String}

theorem leafKeysAll_eq_flatMap :
  leafKeysAll children = children.flatMap (fun e => e.2.leafKeys.map (e.1 :: ·))
  := by
  induction children with
  | nil => rfl
  | cons e rest ih => rw [leafKeysAll, ih, List.flatMap_cons]

theorem mem_leafKeys_branch :
  keys ∈ (branch children).leafKeys ↔
    ∃ e ∈ children, ∃ below ∈ e.2.leafKeys, e.1 :: below = keys
  := by
  rw [leafKeys, leafKeysAll_eq_flatMap, List.mem_flatMap]
  exact exists_congr fun e => and_congr_right fun _ => List.mem_map

theorem ne_nil_of_mem_leafKeys (h : keys ∈ value.leafKeys) :
  keys ≠ []
  := by
  cases value with
  | leaf key =>
    rw [List.mem_singleton.mp h]
    exact List.cons_ne_nil key []
  | branch children =>
    obtain ⟨e, -, below, -, rfl⟩ := mem_leafKeys_branch.mp h
    exact List.cons_ne_nil e.1 below

/-- The keys of a plain value are plain. -/
theorem Plain.plain_of_mem_leafKeys (hplain : value.Plain) (h : keys ∈ value.leafKeys) :
  ∀ key ∈ keys, PlainKey key
  := by
  induction hplain generalizing keys with
  | @leaf own hown =>
    rw [List.mem_singleton.mp h]
    exact List.forall_mem_singleton.mpr hown
  | branch hkeys _ ih =>
    obtain ⟨e, he, below, hbelow, rfl⟩ := mem_leafKeys_branch.mp h
    exact List.forall_mem_cons.mpr ⟨hkeys e he, ih e he hbelow⟩

/-- The path of a row below the path of a key is that of the row with the key in front. -/
theorem pathBelow_join_cons {path key : String} (hkey : key ≠ "") (hkeys : keys ≠ []) :
  pathBelow (pathBelow path key) (Text.join "." keys) = pathBelow path (Text.join "." (key :: keys))
  := by
  have hjoin : Text.join "." (key :: keys) = key ++ "." ++ Text.join "." keys := by
    apply String.toList_inj.mp
    rw [Text.toList_join_cons hkeys, String.toList_append, String.toList_append, List.append_assoc]
    rfl
  have hnonempty : pathBelow path key ≠ "" := by
    rw [pathBelow]
    split
    · exact hkey
    · intro hempty
      exact hkey (String.append_eq_empty_iff.mp hempty).2
  rw [hjoin, pathBelow.eq_def (pathBelow path key), if_neg hnonempty, pathBelow, pathBelow]
  split
  · rfl
  · simp only [String.append_assoc]

/-- The paths of a plain value are its rows of keys, joined with points. -/
theorem Plain.leafPathsFrom_eq (hplain : value.Plain) (path : String) :
  value.leafPathsFrom path = value.leafKeys.map (fun keys => pathBelow path (Text.join "." keys))
  := by
  induction hplain generalizing path with
  | leaf => rfl
  | branch hkeys _ ih =>
    rw [leafPathsFrom, leafKeys, leafPathsAll_eq_flatMap, leafKeysAll_eq_flatMap, List.map_flatMap]
    apply List.flatMap_congr
    intro e he
    rw [ih e he, List.map_map]
    apply List.map_congr_left
    intro below hbelow
    exact pathBelow_join_cons (hkeys e he).1 (ne_nil_of_mem_leafKeys hbelow)

theorem Plain.leafPaths_eq (hplain : value.Plain) :
  value.leafPaths = value.leafKeys.map (Text.join ".")
  := by
  rw [leafPaths, hplain.leafPathsFrom_eq]
  rfl

/-- A value has rows of keys exactly if it has leaves. -/
theorem Plain.exists_leafKeys_iff (hplain : value.Plain) :
  (∃ keys, keys ∈ value.leafKeys) ↔ value.leafCount ≠ 0
  := by
  rw [← length_leafPathsFrom "", hplain.leafPathsFrom_eq, List.length_map, ← Nat.pos_iff_ne_zero,
    List.length_pos_iff_exists_mem]

/-- The nonempty segments of a path are the keys of its row. -/
theorem Plain.filter_segments (hplain : value.Plain) (h : keys ∈ value.leafKeys) :
  (Text.segments '.' (Text.join "." keys)).filter (· ≠ "") = keys
  := Text.filter_segments_join (hplain.plain_of_mem_leafKeys h)

/-- An ordered value covers the rows that lead to its leaves. -/
theorem Ordered.coversKeys_of_mem_leafKeys (hordered : value.Ordered) (h : keys ∈ value.leafKeys) :
  value.coversKeys keys = true
  := by
  induction hordered generalizing keys with
  | leaf own =>
    rw [List.mem_singleton.mp h]
    exact coversKeys_leaf_iff.mpr ⟨rfl, rfl⟩
  | branch hincreasing _ ih =>
    obtain ⟨e, he, below, hbelow, rfl⟩ := mem_leafKeys_branch.mp h
    exact coversKeys_branch_iff.mpr ⟨e.2, hincreasing.lookup he, ih e he hbelow⟩

/-! ### Order -/

/-- An ordered value has no row of keys twice. -/
theorem Ordered.nodup_leafKeys (hordered : value.Ordered) :
  value.leafKeys.Nodup
  := by
  induction hordered with
  | leaf => exact List.nodup_singleton _
  | branch hincreasing _ ih =>
    rw [leafKeys, leafKeysAll_eq_flatMap, List.nodup_flatMap]
    refine ⟨fun e he => (ih e he).map fun _ _ heq => (List.cons.inj heq).2, ?_⟩
    apply hincreasing.imp
    intro e f hlt keys he hf
    obtain ⟨below, -, rfl⟩ := List.mem_map.mp he
    obtain ⟨below', -, heq⟩ := List.mem_map.mp hf
    rw [(List.cons.inj heq).1] at hlt
    exact lt_irrefl _ hlt

/-- Below the same key, paths are in the order of the rows behind it. -/
theorem join_cons_lt_iff {key : String} {keys' : List String} (h : keys ≠ []) (h' : keys' ≠ []) :
  Text.join "." (key :: keys) < Text.join "." (key :: keys') ↔
    Text.join "." keys < Text.join "." keys'
  := by
  rw [String.lt_iff_toList_lt, String.lt_iff_toList_lt, Text.toList_join_cons h,
    Text.toList_join_cons h', Text.append_lt_append_iff, List.cons_lt_cons_iff,
    or_iff_right (lt_irrefl _), and_iff_right rfl]

/-- Below different keys, paths are in the order of the keys unless the second overtakes. -/
theorem join_cons_lt_iff_of_lt {key key' : String} {keys' : List String} (hlt : key < key')
    (hplain : PlainKey key') (h : keys ≠ []) (h' : keys' ≠ []) :
  Text.join "." (key :: keys) < Text.join "." (key' :: keys') ↔ ¬ Text.Overtakes key' key
  := by
  rw [String.lt_iff_toList_lt, Text.toList_join_cons h, Text.toList_join_cons h']
  exact Text.append_point_lt_iff (String.lt_iff_toList_lt.mp hlt) hplain.2 _ _

/-- The paths below one child come before those below a later one unless the key of the latter
overtakes, or one of the two has no leaves. -/
theorem join_lt_siblings_iff {e f : String × StateValue} (he : e.2.Plain) (hf : f.2.Plain)
    (hkey : PlainKey f.1) (hlt : e.1 < f.1) :
  (∀ keys ∈ e.2.leafKeys.map (e.1 :: ·), ∀ keys' ∈ f.2.leafKeys.map (f.1 :: ·),
      Text.join "." keys < Text.join "." keys') ↔
    (e.2.leafCount ≠ 0 → f.2.leafCount ≠ 0 → ¬ Text.Overtakes f.1 e.1)
  := by
  rw [← he.exists_leafKeys_iff, ← hf.exists_leafKeys_iff]
  constructor
  · rintro h ⟨keys, hkeys⟩ ⟨keys', hkeys'⟩
    rw [← join_cons_lt_iff_of_lt hlt hkey (ne_nil_of_mem_leafKeys hkeys)
      (ne_nil_of_mem_leafKeys hkeys')]
    exact h _ (List.mem_map_of_mem hkeys) _ (List.mem_map_of_mem hkeys')
  · intro h keys hkeys keys' hkeys'
    obtain ⟨below, hbelow, rfl⟩ := List.mem_map.mp hkeys
    obtain ⟨below', hbelow', rfl⟩ := List.mem_map.mp hkeys'
    rw [join_cons_lt_iff_of_lt hlt hkey (ne_nil_of_mem_leafKeys hbelow)
      (ne_nil_of_mem_leafKeys hbelow')]
    exact h ⟨below, hbelow⟩ ⟨below', hbelow'⟩

/-- The rows of an ordered and plain value, joined with points, increase exactly if no key
overtakes another one. -/
theorem Ordered.pairwise_leafKeys_iff (hordered : value.Ordered) (hplain : value.Plain) :
  value.leafKeys.Pairwise (fun keys keys' => Text.join "." keys < Text.join "." keys') ↔
    value.Untangled
  := by
  induction hordered with
  | leaf key => exact iff_of_true (List.pairwise_singleton _ _) (.leaf key)
  | @branch children hincreasing _ ih =>
    obtain _ | ⟨hkeys, hchildren⟩ := hplain
    rw [leafKeys, leafKeysAll_eq_flatMap, List.pairwise_flatMap, untangled_branch_iff]
    apply and_congr
    · refine forall₂_congr fun e he => ?_
      rw [List.pairwise_map, ← ih e he (hchildren e he)]
      apply List.Pairwise.iff_of_mem
      intro keys keys' h h'
      exact join_cons_lt_iff (ne_nil_of_mem_leafKeys h) (ne_nil_of_mem_leafKeys h')
    · constructor
      · intro h
        refine (hincreasing.and h).imp_of_mem fun {e f} he hf ⟨hlt, h⟩ => ?_
        exact (join_lt_siblings_iff (hchildren e he) (hchildren f hf) (hkeys f hf) hlt).mp h
      · intro h
        refine (hincreasing.and h).imp_of_mem fun {e f} he hf ⟨hlt, h⟩ => ?_
        exact (join_lt_siblings_iff (hchildren e he) (hchildren f hf) (hkeys f hf) hlt).mpr h

/-- No key overtakes another one if no character of the keys comes before the point. -/
theorem Plain.untangled_of_forall (hplain : value.Plain)
    (h : ∀ keys ∈ value.leafKeys, ∀ key ∈ keys, ∀ c ∈ key.toList, '.' ≤ c) :
  value.Untangled
  := by
  induction hplain with
  | @leaf key => exact .leaf key
  | @branch children _ hplain ih =>
    have hchild : ∀ e ∈ children, ∀ below ∈ e.2.leafKeys, ∀ key ∈ e.1 :: below,
        ∀ c ∈ key.toList, '.' ≤ c :=
      fun e he below hbelow => h _ (mem_leafKeys_branch.mpr ⟨e, he, below, hbelow, rfl⟩)
    refine .branch (List.pairwise_of_forall_mem_list ?_) fun e he =>
      ih e he fun below hbelow key hkey =>
        hchild e he below hbelow key (List.mem_cons_of_mem _ hkey)
    rintro e he f hf - hleaf ⟨c, rest, hrest, hlt⟩
    obtain ⟨below, hbelow⟩ := (hplain f hf).exists_leafKeys_iff.mpr hleaf
    refine not_lt.mpr (hchild f hf below hbelow f.1 List.mem_cons_self c ?_) hlt
    rw [hrest]
    exact List.mem_append_right _ List.mem_cons_self

/-- Let the keys of each branch of a state value increase, and let them be nonempty and without
points.  The value lists as many leaf paths as it has leaves, none twice, and covers each of them.
The paths increase if and only if, among the keys of each branch that lead to leaves, none goes on
from one before it with a character that comes before the point. -/
theorem increasing_leafPaths_iff (hordered : value.Ordered) (hplain : value.Plain) :
  value.leafPaths.length = value.leafCount ∧
    value.leafPaths.Nodup ∧
    (∀ path ∈ value.leafPaths, value.covers path = true) ∧
    (value.leafPaths.Pairwise (· < ·) ↔ value.Untangled)
  := by
  refine ⟨length_leafPathsFrom "" value, ?_, ?_, ?_⟩
  · rw [hplain.leafPaths_eq]
    apply List.Nodup.map_on _ hordered.nodup_leafKeys
    intro keys h keys' h' heq
    rw [← hplain.filter_segments h, heq, hplain.filter_segments h']
  · intro path hpath
    rw [hplain.leafPaths_eq] at hpath
    obtain ⟨keys, h, rfl⟩ := List.mem_map.mp hpath
    rw [covers, hplain.filter_segments h]
    exact hordered.coversKeys_of_mem_leafKeys h
  · rw [hplain.leafPaths_eq, List.pairwise_map]
    exact hordered.pairwise_leafKeys_iff hplain

/-- A value with two branches. -/
def forked : StateValue :=
  .branch [("a", .branch [("b", .leaf "x"), ("c", .leaf "y")]), ("d", .leaf "z")]

theorem increasing_leafPaths_iff_forked :
  forked.Ordered ∧ forked.Plain ∧ forked.Untangled ∧ forked.leafPaths.length = 3 ∧
    forked.leafPaths.Nodup ∧ (∀ path ∈ forked.leafPaths, forked.covers path = true) ∧
    forked.leafPaths.Pairwise (· < ·)
  := by
  have hordered : forked.Ordered := ordered_of_ofJson? forked.toJson rfl
  have hplain : forked.Plain := by
    refine .branch (by decide) ?_
    rw [List.forall_mem_cons, List.forall_mem_singleton]
    refine ⟨.branch (by decide) ?_, .leaf (by decide)⟩
    rw [List.forall_mem_cons, List.forall_mem_singleton]
    exact ⟨.leaf (by decide), .leaf (by decide)⟩
  have huntangled : forked.Untangled :=
    hplain.untangled_of_forall (by simp [forked, leafKeys, leafKeysAll])
  obtain ⟨hlength, hnodup, hcovers, hsorted⟩ := increasing_leafPaths_iff hordered hplain
  exact ⟨hordered, hplain, huntangled, hlength, hnodup, hcovers, hsorted.mpr huntangled⟩

/-- A value one of whose keys goes on from the other one with a hyphen. -/
def hyphened : StateValue :=
  .branch [("a", .leaf "x"), ("a-b", .leaf "y")]

/-- The hyphen comes before the point, so the paths stand in the wrong order. -/
theorem not_increasing_hyphened :
  hyphened.Ordered ∧ hyphened.Plain ∧ hyphened.leafPaths = ["a.x", "a-b.y"] ∧
    ¬ hyphened.leafPaths.Pairwise (· < ·)
  := by
  refine ⟨ordered_of_ofJson? hyphened.toJson rfl, ?_, by decide, by decide⟩
  refine .branch (by decide) ?_
  rw [List.forall_mem_cons, List.forall_mem_singleton]
  exact ⟨.leaf (by decide), .leaf (by decide)⟩

end StateValue

end Statechart
