import Statechart.Guard.Evaluation
import Statechart.Proofs.Guard.Reading
import Statechart.Proofs.Number.Difference

/-!
# Comparisons of numbers

A field whose value is a number is compared with a literal by order as their exact values are,
but counts as equal to it as soon as the two are less than `Number.margin` apart
(`passes_compare_iff`).  So the comparisons of a number with a literal agree with each other
exactly if the two are equal or at least the margin apart (`consistent_iff`).
-/

namespace Statechart.Guard

open Number (exact margin)

/-- What a comparison says of the exact values of two numbers: equal are those that are less than
the margin apart. -/
def Comparison.Compares (x n : ℚ) : Comparison → Prop
  | .eq => |x - n| < margin
  | .ne => margin ≤ |x - n|
  | .gt => n < x
  | .ge => n ≤ x
  | .lt => x < n
  | .le => x ≤ n

/-- Whether the outcomes of the comparisons of two numbers agree with each other: exactly one
of less, equal and greater holds, and the other two hold exactly when one of their cases
does. -/
structure Consistent (holds : Comparison → Bool) : Prop where
  one : [Comparison.lt, .eq, .gt].countP holds = 1
  le : holds .le = (holds .lt || holds .eq)
  ge : holds .ge = (holds .gt || holds .eq)

/-- The tolerance is a finite number, and a power of two. -/
theorem exact_tolerance :
  exact tolerance = 2 ^ (-52 : ℤ) ∧ tolerance.isFinite = true
  := by
  constructor
  · rw [Number.exact_eq (s := .positive) (m := 2 ^ 52) (e := -104) (by decide) rfl]
    norm_num [Float.Model.UnpackedFloat.Sign.apply]
  · decide +kernel

/-- A comparison of a number with a literal holds if it does of their exact values. -/
theorem holds_number_iff {value : Json} {x n : Float} (hvalue : value.number? = some x)
    (hx : x.isFinite = true) (hn : n.isFinite = true) (c : Comparison) :
  c.holds value (.number n) = true ↔ c.Compares (exact x) (exact n)
  := by
  have hequals : (Literal.number n).equals value = true ↔ |exact x - exact n| < margin := by
    obtain ⟨htolerance, hfinite⟩ := exact_tolerance
    rw [Literal.equals, hvalue, decide_eq_true_iff]
    apply Number.abs_sub_lt_iff hx hn htolerance hfinite
  have hrelated : ∀ r : Float → Float → Bool,
      (Literal.number n).related r value = r x n := by
    intro r
    simp only [Literal.related, hvalue]
  cases c with
  | eq => exact hequals
  | ne =>
    rw [Comparison.holds, Bool.not_eq_true', ← Bool.not_eq_true, hequals, Comparison.Compares,
      not_lt]
  | gt =>
    rw [Comparison.holds, hrelated, decide_eq_true_iff]
    apply Number.exact_lt_iff hn hx
  | ge =>
    rw [Comparison.holds, hrelated, decide_eq_true_iff]
    apply Number.exact_le_iff hn hx
  | lt =>
    rw [Comparison.holds, hrelated, decide_eq_true_iff]
    apply Number.exact_lt_iff hx hn
  | le =>
    rw [Comparison.holds, hrelated, decide_eq_true_iff]
    apply Number.exact_le_iff hx hn

/-- Outcomes that are those of exact values agree with each other exactly if the values are
equal or at least the margin apart. -/
theorem consistent_iff_of_compares {holds : Comparison → Bool} {x n : ℚ}
    (h : ∀ c, holds c = true ↔ c.Compares x n) :
  Consistent holds ↔ x = n ∨ margin ≤ |x - n|
  := by
  have hfalse : ∀ c, ¬ c.Compares x n → holds c = false :=
    fun c hc => Bool.eq_false_iff.mpr (fun hholds => hc ((h c).mp hholds))
  have hmargin : 0 < margin := by norm_num [margin]
  constructor
  · intro consistent
    by_contra hapart
    obtain ⟨hne, hlt⟩ := not_or.mp hapart
    have heq : holds .eq = true := (h .eq).mpr (not_le.mp hlt)
    have hone := consistent.one
    rcases lt_or_gt_of_ne hne with hless | hgreater
    · have hholds : holds .lt = true := (h .lt).mpr hless
      simp [heq, hholds] at hone
    · have hholds : holds .gt = true := (h .gt).mpr hgreater
      have hless : holds .lt = false := hfalse .lt (not_lt.mpr hgreater.le)
      simp [heq, hholds, hless] at hone
  · rintro (rfl | hle)
    · have heq : holds .eq = true := (h .eq).mpr (by simpa [Comparison.Compares] using hmargin)
      have hle : holds .le = true := (h .le).mpr le_rfl
      have hge : holds .ge = true := (h .ge).mpr le_rfl
      have hlt : holds .lt = false := hfalse .lt (lt_irrefl _)
      have hgt : holds .gt = false := hfalse .gt (lt_irrefl _)
      constructor
      case one => simp [heq, hlt, hgt]
      case le => rw [hle, heq, Bool.or_true]
      case ge => rw [hge, heq, Bool.or_true]
    · have heq : holds .eq = false := hfalse .eq (not_lt.mpr hle)
      have hne : x ≠ n := by
        rintro rfl
        rw [sub_self, abs_zero] at hle
        exact hmargin.not_ge hle
      rcases lt_or_gt_of_ne hne with hless | hgreater
      · have hlt : holds .lt = true := (h .lt).mpr hless
        have hle : holds .le = true := (h .le).mpr hless.le
        have hgt : holds .gt = false := hfalse .gt (not_lt.mpr hless.le)
        have hge : holds .ge = false := hfalse .ge (not_le.mpr hless)
        constructor
        case one => simp [heq, hlt, hgt]
        case le => rw [hle, hlt, Bool.true_or]
        case ge => rw [hge, hgt, heq, Bool.or_false]
      · have hgt : holds .gt = true := (h .gt).mpr hgreater
        have hge : holds .ge = true := (h .ge).mpr hgreater.le
        have hlt : holds .lt = false := hfalse .lt (not_lt.mpr hgreater.le)
        have hle : holds .le = false := hfalse .le (not_le.mpr hgreater)
        constructor
        case one => simp [heq, hlt, hgt]
        case le => rw [hle, hlt, heq, Bool.or_false]
        case ge => rw [hge, hgt, Bool.true_or]

/-- The texts that compare a field with a number literal are read as guards.  When the value of
the field is a number, each of them passes exactly if the comparison holds of the exact values,
up to the margin, and they agree with each other exactly if these are equal or at least the
margin apart. -/
theorem consistent_iff {field : Field} {n x : Float} {text : Comparison → String}
    (htext : ∀ c, Spells [.field field, .comparison c, .literal (.number n)] (text c).toList)
    {context : Json} {event : Event} (hvalue : (field.value context event).number? = some x)
    (hx : x.isFinite = true) (hn : n.isFinite = true) (named : String → Option Predicate) :
  ∃ guard : Comparison → Guard,
    (∀ c, read (text c) = .ok (guard c)) ∧
    (∀ c, passes named context event (guard c) = true ↔ c.Compares (exact x) (exact n)) ∧
    (Consistent (fun c => passes named context event (guard c)) ↔
      exact x = exact n ∨ margin ≤ |exact x - exact n|)
  := by
  have hpasses : ∀ c, passes named context event (.formula (.compare field c (.number n))) = true ↔
      c.Compares (exact x) (exact n) := holds_number_iff hvalue hx hn
  refine ⟨fun c => .formula (.compare field c (.number n)), ?_, hpasses, ?_⟩
  · intro c
    have hunary := Unary.compare field c (.number n) (.inr (.inr ⟨n, rfl⟩))
    exact read_eq_formula_iff.mpr
      (Formula.read_eq_ok_iff.mpr ⟨_, htext c, .single (.single hunary)⟩)
  · apply consistent_iff_of_compares hpasses

/-- A load of a half is less than three quarters, and the comparisons agree. -/
theorem consistent_iff_load :
  let text (c : Comparison) := "ctx.load" ++ c.sign ++ "0.75"
  let context : Json := .obj [("load", .float 0.5)]
  ∃ guard : Comparison → Guard,
    (∀ c, Spells [.field ⟨.context, "load"⟩, .comparison c, .literal (.number 0.75)]
      (text c).toList) ∧
    (∀ c, read (text c) = .ok (guard c)) ∧
    (∀ c, passes (fun _ => none) context ⟨"TICK", .null⟩ (guard c) = true ↔
      c.Compares (1 / 2) (3 / 4)) ∧
    Consistent (fun c => passes (fun _ => none) context ⟨"TICK", .null⟩ (guard c))
  := by
  intro text context
  have blank : ∀ c ∈ ([] : List Char), Text.isBlank c = true := by simp
  have field : Spelling (.field ⟨.context, "load"⟩) "ctx.load".toList :=
    .field .context (by decide) (fun c hc => isPathChar_iff.1 (List.all_eq_true.1
      (by decide +kernel : ['l', 'o', 'a', 'd'].all isPathChar = true) c hc)) (by decide)
  have number : Spelling (.literal (.number 0.75)) "0.75".toList :=
    .number (.inl rfl) (fun c hc => isNumberChar_iff.1 (List.all_eq_true.1
      (by decide : ['0', '.', '7', '5'].all isNumberChar = true) c hc)) (by decide +kernel)
  have hspells : ∀ c, Spells [.field ⟨.context, "load"⟩, .comparison c, .literal (.number 0.75)]
      (text c).toList := by
    intro c
    have sign : Spelling (.comparison c) c.sign.toList := .fixed rfl
    have h := Spells.cons blank field (.cons blank sign (.cons blank number (.nil blank)))
    simpa only [text, String.toList_append, List.append_assoc, List.nil_append, List.append_nil]
      using h
  have hhalf : exact 0.5 = 1 / 2 := by
    rw [Number.exact_eq (s := .positive) (m := 2 ^ 52) (e := -53) (by decide) rfl]
    norm_num [Float.Model.UnpackedFloat.Sign.apply]
  have hquarters : exact 0.75 = 3 / 4 := by
    rw [Number.exact_eq (s := .positive) (m := 3 * 2 ^ 51) (e := -53) (by decide) rfl]
    norm_num [Float.Model.UnpackedFloat.Sign.apply]
  have hvalue : (Field.value ⟨.context, "load"⟩ context ⟨"TICK", .null⟩).number? = some 0.5 := rfl
  obtain ⟨guard, hread, hpasses, hconsistent⟩ := consistent_iff hspells hvalue
    (by decide +kernel) (by decide +kernel) (fun _ => none)
  rw [hhalf, hquarters] at hpasses hconsistent
  exact ⟨guard, hspells, hread, hpasses, hconsistent.mpr (by norm_num [margin])⟩

/-- A value that is a little greater than zero counts as equal to zero and as greater, and not as
at most zero. -/
theorem not_consistent_tiny :
  let text (c : Comparison) := "ctx.x " ++ c.sign ++ " 0"
  let context : Json := .obj [("x", .float 1e-17)]
  let holds (c : Comparison) :=
    (read (text c)).toOption.any (passes (fun _ => none) context ⟨"E", .null⟩)
  (∀ c, (read (text c)).isOk = true) ∧
    holds .eq = true ∧ holds .gt = true ∧ holds .le = false ∧ ¬ Consistent holds
  := by
  intro text context holds
  have hread : ∀ c, (read (text c)).isOk = true := by
    intro c
    cases c <;> decide +kernel
  have heq : holds .eq = true := by decide +kernel
  have hgt : holds .gt = true := by decide +kernel
  have hle : holds .le = false := by decide +kernel
  refine ⟨hread, heq, hgt, hle, ?_⟩
  intro consistent
  have h := consistent.le
  rw [hle, heq, Bool.or_true] at h
  cases h

end Statechart.Guard
