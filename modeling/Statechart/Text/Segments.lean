/-!
# Segments of a text

Strings cut at a separator, and strings without a leading or a trailing part.  The
functions work on the characters of a string; `segments` joined with the separator is
the string again.
-/

namespace Statechart.Text

/-- The parts of `s` between the occurrences of `sep`; there is always at least one. -/
def segments (sep : Char) (s : String) : List String :=
  (s.toList.splitOn sep).map String.ofList

/-- What follows `lead` in `s`, if `s` begins with `lead`. -/
def after? (lead s : String) : Option String :=
  (lead.toList.isPrefixOf? s.toList).map String.ofList

/-- What precedes `tail` in `s`, if `s` ends with `tail`. -/
def before? (tail s : String) : Option String :=
  (tail.toList.isSuffixOf? s.toList).map String.ofList

/-- Whether `s` begins with `lead`. -/
def beginsWith (lead s : String) : Bool :=
  lead.toList.isPrefixOf s.toList

/-- The string `s` without all its leading occurrences of `c`. -/
def dropLeading (c : Char) (s : String) : String :=
  String.ofList (s.toList.dropWhile (· == c))

/-- The strings of `parts` with `sep` between neighbours. -/
def join (sep : String) (parts : List String) : String :=
  sep.intercalate parts

theorem isPrefixOf?_eq_some_iff {lead s rest : List Char} :
  lead.isPrefixOf? s = some rest ↔ lead ++ rest = s
  := by
  induction lead generalizing s with
  | nil =>
    change some s = some rest ↔ _
    simp [eq_comm]
  | cons c lead ih =>
    cases s with
    | nil =>
      change none = some rest ↔ _
      simp
    | cons d s =>
      change (if c == d then lead.isPrefixOf? s else none) = some rest ↔ _
      by_cases h : c = d
      · simp [h, ih]
      · simp [h]

/-- Parts without the separator are the segments of the text that they make when joined. -/
theorem segments_join {sep : Char} {parts : List String} (hne : parts ≠ [])
    (hparts : ∀ part ∈ parts, sep ∉ part.toList) :
  segments sep (join (String.singleton sep) parts) = parts
  := by
  have hnone : ∀ l ∈ parts.map String.toList, sep ∉ l := by simpa using hparts
  have hsplit := List.splitOn_intercalate sep hnone (by simpa using hne)
  rw [segments, join, String.toList_intercalate, String.toList_singleton, hsplit, List.map_map]
  simp

/-- Nonempty parts without points are the nonempty segments of the text that they make. -/
theorem filter_segments_join {parts : List String}
    (h : ∀ part ∈ parts, part ≠ "" ∧ '.' ∉ part.toList) :
  (segments '.' (join "." parts)).filter (· ≠ "") = parts
  := by
  cases parts with
  | nil => rfl
  | cons part parts =>
    rw [show "." = String.singleton '.' from rfl,
      segments_join (List.cons_ne_nil part parts) fun part hpart => (h part hpart).2]
    exact List.filter_eq_self.mpr fun part hpart => decide_eq_true (h part hpart).1

/-- A part that is joined to others comes last, after a separator. -/
theorem join_concat {sep part : String} {parts : List String} (hne : parts ≠ []) :
  join sep (parts ++ [part]) = join sep parts ++ sep ++ part
  := by
  rw [join, join]
  induction parts with
  | nil => exact absurd rfl hne
  | cons first parts ih =>
    cases parts with
    | nil => simp [String.intercalate_cons_cons]
    | cons second parts =>
      rw [List.cons_append, List.cons_append, String.intercalate_cons_cons, ← List.cons_append,
        ih (List.cons_ne_nil second parts), String.intercalate_cons_cons]
      simp only [String.append_assoc]

end Statechart.Text
