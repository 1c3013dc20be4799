import Mathlib.Data.List.Induction
import Mathlib.Data.List.Nodup
import Mathlib.Order.RelClasses
import Statechart.Association

/-!
# Bindings of association lists

Lookup, insertion and removal by key.  A row of insertions writes its bindings one after the other
(`Writes`), so the last one of a key counts (`lookup_foldl_insert`).  A sorted insertion keeps the
keys increasing, so that each is bound once, and sorting leaves an increasing list as it is.
-/

namespace Statechart

namespace Association

/-- One binding is written into a list: that of a new key at the end, and that of a key which is
there at its first place. -/
inductive Binds {α β : Type} (k : α) (v : β) : List (α × β) → List (α × β) → Prop
  | new {l} : k ∉ l.map Prod.fst → Binds k v l (l ++ [(k, v)])
  | present {before w after} : k ∉ before.map Prod.fst →
    Binds k v (before ++ (k, w) :: after) (before ++ (k, v) :: after)

/-- Bindings are written into a list, one after the other. -/
inductive Writes {α β : Type} : List (α × β) → List (α × β) → List (α × β) → Prop
  | nil {l} : Writes l [] l
  | cons {l e middle entries written} : Binds e.1 e.2 l middle → Writes middle entries written →
    Writes l (e :: entries) written

variable {α β : Type} [DecidableEq α] {l entries written : List (α × β)} {k : α} {v : β} {e : α × β}

theorem lookup_ne_none_of_mem (h : e ∈ l) :
  l.lookup e.1 ≠ none
  := by
  intro hnone
  have hkeys := List.lookup_eq_none_iff.mp hnone e h
  rw [bne_self_eq_false] at hkeys
  cases hkeys

theorem mem_of_lookup (h : l.lookup k = some v) :
  (k, v) ∈ l
  := by
  obtain ⟨xs, ys, rfl, -⟩ := List.lookup_eq_some_iff.mp h
  exact List.mem_append_right _ List.mem_cons_self

theorem mem_erase :
  e ∈ erase k l ↔ e ∈ l ∧ e.1 ≠ k
  := by
  rw [erase, List.mem_filter, decide_eq_true_iff]

theorem lookup_erase_self (k : α) (l : List (α × β)) :
  (erase k l).lookup k = none
  := by
  rw [List.lookup_eq_none_iff]
  intro e he
  rw [bne_iff_ne]
  exact fun heq => (mem_erase.mp he).2 heq.symm

theorem lookup_erase_of_ne {k' : α} (h : k' ≠ k) (l : List (α × β)) :
  (erase k l).lookup k' = l.lookup k'
  := by
  induction l with
  | nil => rfl
  | cons f l ih =>
    rw [erase] at ih ⊢
    by_cases hf : f.1 = k
    · rw [List.filter_cons_of_neg (by simpa using hf), ih, List.lookup_cons,
        beq_eq_false_iff_ne.mpr (fun heq => h (heq.trans hf))]
    · rw [List.filter_cons_of_pos (by simpa using hf), List.lookup_cons, List.lookup_cons, ih]

theorem lookup_of_lookup_erase {k' : α} (h : (erase k l).lookup k' = some v) :
  k' ≠ k ∧ l.lookup k' = some v
  := by
  by_cases hk : k' = k
  · subst hk
    rw [lookup_erase_self] at h
    cases h
  · rw [lookup_erase_of_ne hk] at h
    exact ⟨hk, h⟩

/-- A key that a list does not have is inserted at the end. -/
theorem insert_of_not_mem (h : k ∉ l.map Prod.fst) :
  insert k v l = l ++ [(k, v)]
  := by
  induction l with
  | nil => rfl
  | cons f l ih =>
    obtain ⟨hne, hmem⟩ := not_or.1 (List.mem_cons.not.1 h)
    rw [insert, if_neg (Ne.symm hne), ih hmem, List.cons_append]

/-- An entry of a list with one more binding is the binding, or was there before. -/
theorem mem_of_mem_insert (h : e ∈ insert k v l) :
  e = (k, v) ∨ e ∈ l
  := by
  induction l with
  | nil => exact Or.inl (List.mem_singleton.mp h)
  | cons f l ih =>
    rw [insert] at h
    split at h
    · exact (List.mem_cons.mp h).imp_right (List.mem_cons_of_mem _)
    · rcases List.mem_cons.mp h with rfl | h
      · exact Or.inr List.mem_cons_self
      · exact (ih h).imp_right (List.mem_cons_of_mem _)

/-- Insertion keeps the keys, and adds the new one at the end if it is not among them. -/
theorem keys_insert (k : α) (v : β) (l : List (α × β)) :
  (insert k v l).map Prod.fst =
    if k ∈ l.map Prod.fst then l.map Prod.fst else l.map Prod.fst ++ [k]
  := by
  split
  · next hin =>
    induction l with
    | nil => cases hin
    | cons f l ih =>
      rw [insert]
      split
      · next heq => rw [List.map_cons, List.map_cons, heq]
      · next hne =>
        have hmem : k ∈ l.map Prod.fst := (List.mem_cons.mp hin).resolve_left (Ne.symm hne)
        rw [List.map_cons, List.map_cons, ih hmem]
  · next hout => rw [insert_of_not_mem hout, List.map_append, List.map_singleton]

theorem nodup_keys_insert (h : (l.map Prod.fst).Nodup) (k : α) (v : β) :
  ((insert k v l).map Prod.fst).Nodup
  := by
  rw [keys_insert]
  split
  · exact h
  · next hout => exact List.concat_eq_append ▸ h.concat hout

theorem mem_keys_insert {k' : α} :
  k' ∈ (insert k v l).map Prod.fst ↔ k' ∈ l.map Prod.fst ∨ k' = k
  := by
  rw [keys_insert]
  split
  · next hin => exact ⟨Or.inl, fun h => h.elim id (fun heq => heq ▸ hin)⟩
  · rw [List.mem_append, List.mem_singleton]

/-- After an insertion there is a single binding if there was none before, or one of the key. -/
theorem insert_eq_singleton_iff :
  insert k v l = [e] ↔ e = (k, v) ∧ (l = [] ∨ ∃ w, l = [(k, w)])
  := by
  cases l with
  | nil => rw [insert, List.singleton_inj, eq_comm, and_iff_left (Or.inl rfl)]
  | cons f l =>
    rw [insert]
    split
    · next heq =>
      constructor
      · intro h
        cases h
        exact ⟨rfl, Or.inr ⟨f.2, heq ▸ rfl⟩⟩
      · rintro ⟨rfl, h | ⟨w, h⟩⟩
        · cases h
        · cases h
          rfl
    · next hne =>
      refine iff_of_false ?_ ?_
      · intro h
        have hk : k ∈ (insert k v l).map Prod.fst := mem_keys_insert.mpr (Or.inr rfl)
        rw [(List.cons.inj h).2] at hk
        cases hk
      · rintro ⟨-, h | ⟨w, h⟩⟩
        · cases h
        · cases h
          exact hne rfl

/-! ### Rows of insertions -/

/-- A key that a list has is bound anew at its first place. -/
theorem insert_append_cons {before after : List (α × β)} (h : k ∉ before.map Prod.fst) (w : β) :
  insert k v (before ++ (k, w) :: after) = before ++ (k, v) :: after
  := by
  induction before with
  | nil => rw [List.nil_append, insert, if_pos rfl, List.nil_append]
  | cons f before ih =>
    obtain ⟨hne, hmem⟩ := not_or.1 (List.mem_cons.not.1 h)
    rw [List.cons_append, insert, if_neg (Ne.symm hne), ih hmem, List.cons_append]

theorem binds_iff :
  Binds k v l written ↔ insert k v l = written
  := by
  constructor
  · intro h
    cases h with
    | new hk => exact insert_of_not_mem hk
    | present hk => exact insert_append_cons hk _
  · rintro rfl
    by_cases hk : k ∈ l.map Prod.fst
    · obtain ⟨e, he, rfl⟩ := List.mem_map.mp hk
      obtain ⟨w, hw⟩ := Option.ne_none_iff_exists'.mp (lookup_ne_none_of_mem he)
      obtain ⟨before, after, rfl, hbefore⟩ := List.lookup_eq_some_iff.mp hw
      have hfirst : e.1 ∉ before.map Prod.fst := by
        intro hmem
        obtain ⟨f, hf, hkey⟩ := List.mem_map.mp hmem
        simpa [hkey] using hbefore f hf
      rw [insert_append_cons hfirst]
      exact .present hfirst
    · rw [insert_of_not_mem hk]
      exact .new hk

theorem writes_iff :
  Writes l entries written ↔ entries.foldl (fun acc e => insert e.1 e.2 acc) l = written
  := by
  constructor
  · intro h
    induction h with
    | nil => rfl
    | cons hbinds _ ih => rw [List.foldl_cons, binds_iff.mp hbinds, ih]
  · rintro rfl
    induction entries generalizing l with
    | nil => exact .nil
    | cons e entries ih => exact .cons (binds_iff.mpr rfl) ih

/-- After a row of insertions the last value of a key counts, and a key that is not among them keeps
its value. -/
theorem lookup_foldl_insert (entries l : List (α × β)) (k : α) :
  (entries.foldl (fun acc e => insert e.1 e.2 acc) l).lookup k =
    ((entries.filter (fun e => e.1 == k)).getLast?.map Prod.snd).or (l.lookup k)
  := by
  induction entries generalizing l with
  | nil => rfl
  | cons e entries ih =>
    obtain ⟨k', v⟩ := e
    rw [List.foldl_cons, ih, List.filter_cons]
    by_cases hk : k' = k
    · subst hk
      rw [if_pos (beq_self_eq_true k'), List.getLast?_cons, lookup_insert_self]
      cases (entries.filter (fun e => e.1 == k')).getLast? <;> rfl
    · rw [if_neg (by simpa using hk), lookup_insert_of_ne _ _ (Ne.symm hk)]

variable [LT α]

/-- Whether the keys of a list increase. -/
def Increasing (l : List (α × β)) : Prop :=
  l.Pairwise (fun x y => x.1 < y.1)

variable [IsStrictTotalOrder α (· < ·)]

/-- Each key of an increasing list is bound once. -/
theorem Increasing.lookup (h : Increasing l) (he : e ∈ l) :
  l.lookup e.1 = some e.2
  := by
  induction l with
  | nil => cases he
  | cons f l ih =>
    obtain ⟨hfirst, hrest⟩ := List.pairwise_cons.mp h
    rcases List.mem_cons.mp he with rfl | he
    · exact List.lookup_cons_self
    · have hne : (e.1 == f.1) = false := by
        rw [beq_eq_false_iff_ne]
        intro heq
        exact irrefl_of (· < ·) e.1 (heq ▸ hfirst e he)
      rw [List.lookup_cons, hne]
      exact ih hrest he

variable [DecidableLT α]

/-- A binding of an increasing list replaces the one that the key had. -/
theorem Increasing.mem_insertSorted (h : Increasing l) (he : e ∈ insertSorted k v l) :
  e = (k, v) ∨ (e ∈ l ∧ e.1 ≠ k)
  := by
  induction l with
  | nil => exact Or.inl (List.mem_singleton.mp he)
  | cons f l ih =>
    obtain ⟨hfirst, hrest⟩ := List.pairwise_cons.mp h
    have hlater : f.1 = k ∨ k < f.1 → ∀ x ∈ l, x.1 ≠ k := by
      rintro hk x hx rfl
      have hx := hfirst x hx
      rcases hk with hk | hk
      · exact irrefl_of (· < ·) x.1 (hk ▸ hx)
      · exact irrefl_of (· < ·) x.1 (trans_of (· < ·) hk hx)
    rw [insertSorted] at he
    split at he
    · next heq =>
      rcases List.mem_cons.mp he with he | he
      · exact Or.inl he
      · exact Or.inr ⟨List.mem_cons_of_mem _ he, hlater (Or.inl heq.symm) e he⟩
    · next hne =>
      split at he
      · next hlt =>
        rcases List.mem_cons.mp he with he | he
        · exact Or.inl he
        · refine Or.inr ⟨he, ?_⟩
          rcases List.mem_cons.mp he with rfl | he
          · exact fun heq => hne heq.symm
          · exact hlater (Or.inr hlt) e he
      · rcases List.mem_cons.mp he with rfl | he
        · exact Or.inr ⟨List.mem_cons_self, fun heq => hne heq.symm⟩
        · exact (ih hrest he).imp_right (fun h => ⟨List.mem_cons_of_mem _ h.1, h.2⟩)

theorem Increasing.insertSorted (h : Increasing l) (k : α) (v : β) :
  Increasing (insertSorted k v l)
  := by
  induction l with
  | nil => exact List.pairwise_singleton _ _
  | cons f l ih =>
    obtain ⟨hfirst, hrest⟩ := List.pairwise_cons.mp h
    rw [Association.insertSorted]
    split
    · next heq =>
      subst heq
      exact List.pairwise_cons.mpr ⟨hfirst, hrest⟩
    · next hne =>
      split
      · next hlt =>
        refine List.pairwise_cons.mpr ⟨?_, h⟩
        intro x hx
        rcases List.mem_cons.mp hx with rfl | hx
        · exact hlt
        · exact trans_of (· < ·) hlt (hfirst x hx)
      · next hnlt =>
        refine List.pairwise_cons.mpr ⟨?_, ih hrest⟩
        intro x hx
        rcases Increasing.mem_insertSorted hrest hx with rfl | ⟨hx, -⟩
        · rcases trichotomous_of (· < ·) k f.1 with hlt | heq | hlt
          · exact absurd hlt hnlt
          · exact absurd heq hne
          · exact hlt
        · exact hfirst x hx

theorem increasing_sorted (l : List (α × β)) :
  Increasing (sorted l)
  := by
  have main : ∀ (l done : List (α × β)), Increasing done →
      Increasing (l.foldl (fun acc e => insertSorted e.1 e.2 acc) done) := by
    intro l
    induction l with
    | nil => exact fun done hdone => hdone
    | cons e l ih => exact fun done hdone => ih _ (hdone.insertSorted e.1 e.2)
  exact main l [] List.Pairwise.nil

omit [IsStrictTotalOrder α (· < ·)] in
/-- Sorting invents no binding. -/
theorem mem_of_mem_sorted (h : e ∈ sorted l) :
  e ∈ l
  := by
  have main : ∀ (l done : List (α × β)),
      e ∈ l.foldl (fun acc e => insertSorted e.1 e.2 acc) done → e ∈ done ∨ e ∈ l := by
    intro l
    induction l with
    | nil => exact fun done he => .inl he
    | cons f l ih =>
      intro done he
      rcases ih _ he with he | he
      · rcases mem_of_mem_insertSorted he with rfl | he
        · exact .inr List.mem_cons_self
        · exact .inl he
      · exact .inr (List.mem_cons_of_mem f he)
  exact (main l [] h).resolve_left List.not_mem_nil

omit [IsStrictTotalOrder α (· < ·)] in
/-- Sorting keeps the bindings of a list whose keys do not repeat. -/
theorem mem_sorted_of_mem (hkeys : (l.map Prod.fst).Nodup) (he : e ∈ l) :
  e ∈ sorted l
  := by
  have other : ∀ (l done : List (α × β)) (k : α), k ∉ l.map Prod.fst →
      (l.foldl (fun acc e => insertSorted e.1 e.2 acc) done).lookup k = done.lookup k := by
    intro l
    induction l with
    | nil => exact fun done k _ => rfl
    | cons f l ih =>
      intro done k hk
      obtain ⟨hne, hk⟩ := not_or.1 (List.mem_cons.not.1 hk)
      rw [List.foldl_cons, ih _ k hk, lookup_insertSorted_of_ne _ _ hne]
  have main : ∀ (l done : List (α × β)), (l.map Prod.fst).Nodup → e ∈ l →
      (l.foldl (fun acc e => insertSorted e.1 e.2 acc) done).lookup e.1 = some e.2 := by
    intro l
    induction l with
    | nil => exact fun done _ he => absurd he List.not_mem_nil
    | cons f l ih =>
      intro done hkeys he
      obtain ⟨hfirst, hkeys⟩ := List.nodup_cons.1 hkeys
      rw [List.foldl_cons]
      rcases List.mem_cons.1 he with rfl | he
      · rw [other l _ _ hfirst, lookup_insertSorted_self]
      · exact ih _ hkeys he
  exact mem_of_lookup (main l [] hkeys he)

/-- A binding whose key comes after all others is inserted at the end. -/
theorem insertSorted_eq_append (h : ∀ e ∈ l, e.1 < k) :
  insertSorted k v l = l ++ [(k, v)]
  := by
  induction l with
  | nil => rfl
  | cons f l ih =>
    have hf := h f List.mem_cons_self
    have hne : k ≠ f.1 := by
      rintro rfl
      exact irrefl_of (· < ·) f.1 hf
    have hnlt : ¬ k < f.1 := fun hlt => irrefl_of (· < ·) k (trans_of (· < ·) hlt hf)
    rw [insertSorted, if_neg hne, if_neg hnlt, ih fun e he => h e (List.mem_cons_of_mem f he),
      List.cons_append]

/-- Sorting leaves an increasing list as it is. -/
theorem Increasing.sorted_eq (h : Increasing l) :
  sorted l = l
  := by
  have main : ∀ l done : List (α × β), Increasing (done ++ l) →
      l.foldl (fun acc e => Association.insertSorted e.1 e.2 acc) done = done ++ l := by
    intro l
    induction l with
    | nil => exact fun done _ => (List.append_nil done).symm
    | cons e l ih =>
      intro done hdone
      have hlast : ∀ f ∈ done, f.1 < e.1 := fun f hf =>
        (List.pairwise_append.1 hdone).2.2 f hf e List.mem_cons_self
      rw [List.foldl_cons, insertSorted_eq_append hlast, ih, List.append_assoc]
      · rfl
      · simpa using hdone
  exact main l [] h

omit [IsStrictTotalOrder α (· < ·)] in
/-- Inserting a binding of a new key leaves the others as they are. -/
theorem insertSorted_perm (h : k ∉ l.map Prod.fst) :
  (insertSorted k v l).Perm ((k, v) :: l)
  := by
  induction l with
  | nil => exact List.Perm.refl _
  | cons f l ih =>
    obtain ⟨hne, hl⟩ := not_or.1 (List.mem_cons.not.1 h)
    rw [insertSorted, if_neg hne]
    split
    · exact List.Perm.refl _
    · exact ((ih hl).cons f).trans (List.Perm.swap _ _ l)

omit [IsStrictTotalOrder α (· < ·)] in
/-- Sorting rearranges a list whose keys do not repeat. -/
theorem sorted_perm (hkeys : (l.map Prod.fst).Nodup) :
  (sorted l).Perm l
  := by
  rw [sorted]
  induction l using List.reverseRecOn with
  | nil => exact List.Perm.refl _
  | append_singleton l e ih =>
    rw [List.map_append, List.nodup_append] at hkeys
    obtain ⟨hl, -, hne⟩ := hkeys
    have hsorted := ih hl
    have hfresh : e.1 ∉ (l.foldl (fun acc e => insertSorted e.1 e.2 acc) []).map Prod.fst := by
      rw [(hsorted.map Prod.fst).mem_iff]
      exact fun hmem => hne e.1 hmem e.1 (by simp) rfl
    rw [List.foldl_append, List.foldl_cons, List.foldl_nil]
    exact (insertSorted_perm hfresh).trans
      ((hsorted.cons e).trans (List.perm_append_singleton e l).symm)

omit [DecidableEq α] [DecidableLT α] in
/-- The keys of an increasing list do not repeat. -/
theorem Increasing.nodup_keys (h : Increasing l) :
  (l.map Prod.fst).Nodup
  := by
  refine List.pairwise_map.2 (h.imp ?_)
  rintro x y hlt heq
  exact irrefl_of (· < ·) y.1 (heq ▸ hlt)

end Association

end Statechart
