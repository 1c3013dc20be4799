import Mathlib.Data.List.DropRight
import Statechart.Guard.Reader

/-!
# The grammar of guard expressions

The tokens of a guard expression and the texts that spell them; `Spells`, which allows any
blanks between the tokens; and the grammar over tokens, `Disjunction`, `Conjunction` and
`Unary`, in which both operators group to the left.  `Prints` relates an expression to the
rows of tokens that put parentheses around its composite operands.
-/

namespace Statechart.Guard

open Text (isBlank dropBlank trim isAlphanumeric)

/-! ### Tokens -/

/-- The tokens of a guard expression. -/
inductive Token where
  | or
  | and
  | not
  | opening
  | closing
  | field (field : Field)
  | comparison (comparison : Comparison)
  | literal (literal : Literal)

/-- What a field of the scope begins with. -/
def Scope.lead : Scope → String
  | .context => "ctx."
  | .event => "event."

/-- The sign of a comparison. -/
def Comparison.sign : Comparison → String
  | .eq => "=="
  | .ne => "!="
  | .gt => ">"
  | .ge => ">="
  | .lt => "<"
  | .le => "<="

/-- The text of a token that has only one. -/
def Token.text? : Token → Option String
  | .or => some "||"
  | .and => some "&&"
  | .not => some "!"
  | .opening => some "("
  | .closing => some ")"
  | .comparison c => some c.sign
  | .literal .null => some "null"
  | .literal (.bool true) => some "true"
  | .literal (.bool false) => some "false"
  | _ => none

/-- The text between two quotes stands for a row of characters when a backslash before a
character stands for nothing, and each quote and each backslash of the row has one before
it. -/
inductive Quoted : List Char → List Char → Prop where
  | nil : Quoted [] []
  | plain {c : Char} {text body : List Char} (quote : c ≠ '"') (backslash : c ≠ '\\')
      (rest : Quoted text body) : Quoted (c :: text) (c :: body)
  | escaped {c : Char} {text body : List Char} (rest : Quoted text body) :
      Quoted (c :: text) ('\\' :: c :: body)

/-- The texts that spell a token. -/
inductive Spelling : Token → List Char → Prop where
  | fixed {t : Token} {text : String} (single : t.text? = some text) : Spelling t text.toList
  | field (scope : Scope) {path : List Char} (nonempty : path ≠ [])
      (chars : ∀ c ∈ path, isAlphanumeric c = true ∨ c = '_' ∨ c = '.')
      (last : path.getLast? ≠ some '.') :
      Spelling (.field ⟨scope, String.ofList path⟩) (scope.lead.toList ++ path)
  | str {text body : List Char} (quoted : Quoted text body) :
      Spelling (.literal (.str (String.ofList text))) ('"' :: (body ++ ['"']))
  | number {x : Float} {sign digits : List Char} (optional : sign = [] ∨ sign = ['-'])
      (chars : ∀ c ∈ digits, c.isDigit = true ∨ c = '.')
      (value : Decimal.plain? (sign ++ digits) = some x) :
      Spelling (.literal (.number x)) (sign ++ digits)

/-- A text spells a row of tokens when it consists of spellings of them in order, with any
blanks before, between and after them. -/
inductive Spells : List Token → List Char → Prop where
  | nil {blanks : List Char} (blank : ∀ c ∈ blanks, isBlank c = true) : Spells [] blanks
  | cons {t : Token} {ts : List Token} {blanks word rest : List Char}
      (blank : ∀ c ∈ blanks, isBlank c = true) (spelling : Spelling t word)
      (tail : Spells ts rest) : Spells (t :: ts) (blanks ++ (word ++ rest))

/-! ### The grammar -/

mutual

/-- The rows of tokens of a disjunction: conjunctions with `||` between them. -/
inductive Disjunction : List Token → Formula → Prop where
  | single {ts : List Token} {f : Formula} (conjunction : Conjunction ts f) :
      Disjunction ts f
  | or {ts us : List Token} {left right : Formula} (disjunction : Disjunction ts left)
      (conjunction : Conjunction us right) : Disjunction (ts ++ .or :: us) (.or left right)

/-- The rows of tokens of a conjunction: unary expressions with `&&` between them. -/
inductive Conjunction : List Token → Formula → Prop where
  | single {ts : List Token} {f : Formula} (unary : Unary ts f) : Conjunction ts f
  | and {ts us : List Token} {left right : Formula} (conjunction : Conjunction ts left)
      (unary : Unary us right) : Conjunction (ts ++ .and :: us) (.and left right)

/-- The rows of tokens of a unary expression: a negation, an expression in parentheses, a
field, or a field compared with a literal, by order only with a number. -/
inductive Unary : List Token → Formula → Prop where
  | not {ts : List Token} {f : Formula} (unary : Unary ts f) :
      Unary (.not :: ts) (.not f)
  | parentheses {ts : List Token} {f : Formula} (disjunction : Disjunction ts f) :
      Unary (.opening :: (ts ++ [.closing])) f
  | truthy (field : Field) : Unary [.field field] (.truthy field)
  | compare (field : Field) (comparison : Comparison) (literal : Literal)
      (ordered : comparison = .eq ∨ comparison = .ne ∨ ∃ x, literal = .number x) :
      Unary [.field field, .comparison comparison, .literal literal]
        (.compare field comparison literal)

end

/-! ### Printed expressions -/

/-- Whether an expression joins two others. -/
def Formula.isComposite : Formula → Bool
  | .and _ _ | .or _ _ => true
  | _ => false

mutual

/-- The rows of tokens that print an expression with its operands. -/
inductive Prints : Formula → List Token → Prop where
  | truthy (field : Field) : Prints (.truthy field) [.field field]
  | compare (field : Field) (comparison : Comparison) (literal : Literal)
      (ordered : comparison = .eq ∨ comparison = .ne ∨ ∃ x, literal = .number x) :
      Prints (.compare field comparison literal)
        [.field field, .comparison comparison, .literal literal]
  | not {f : Formula} {ts : List Token} (operand : PrintsOperand f ts) :
      Prints (.not f) (.not :: ts)
  | and {f g : Formula} {ts us : List Token} (left : PrintsOperand f ts)
      (right : PrintsOperand g us) : Prints (.and f g) (ts ++ .and :: us)
  | or {f g : Formula} {ts us : List Token} (left : PrintsOperand f ts)
      (right : PrintsOperand g us) : Prints (.or f g) (ts ++ .or :: us)

/-- The rows of tokens that print an operand: a composite one stands in parentheses, any
other may. -/
inductive PrintsOperand : Formula → List Token → Prop where
  | bare {f : Formula} {ts : List Token} (simple : f.isComposite = false)
      (prints : Prints f ts) : PrintsOperand f ts
  | parentheses {f : Formula} {ts : List Token} (prints : Prints f ts) :
      PrintsOperand f (.opening :: (ts ++ [.closing]))

end

/-! ### Characters -/

/-- The characters of the path of a field. -/
theorem isPathChar_iff {c : Char} :
  isPathChar c = true ↔ isAlphanumeric c = true ∨ c = '_' ∨ c = '.'
  := by
  simp [isPathChar, or_assoc]

/-- The characters of a number after its sign. -/
theorem isNumberChar_iff {c : Char} :
  isNumberChar c = true ↔ c.isDigit = true ∨ c = '.'
  := by
  simp [isNumberChar]

/-- A character that may stand in the path of a field is not blank. -/
theorem isBlank_of_isPathChar {c : Char} (h : isPathChar c = true) :
  isBlank c = false
  := by
  have hnone : Text.blankCodes.all (fun n => !isPathChar (Char.ofNat n)) = true := by
    decide +kernel
  rw [Bool.eq_false_iff]
  intro hblank
  have hcode : c.toNat ∈ Text.blankCodes := List.contains_iff_mem.1 hblank
  have hc := List.all_eq_true.1 hnone c.toNat hcode
  rw [Char.ofNat_toNat, h] at hc
  exact Bool.noConfusion hc

/-- A character that may stand in a number may stand in the path of a field. -/
theorem isPathChar_of_isNumberChar {c : Char} (h : isNumberChar c = true) :
  isPathChar c = true
  := by
  rcases isNumberChar_iff.1 h with h | rfl
  · have halnum : c.isAlphanum = true := by simp [Char.isAlphanum, h]
    simp [isPathChar, Text.isAlphanumeric_of_isAlphanum halnum]
  · decide

theorem dropBlank_of_blank {blanks s : List Char} (h : ∀ c ∈ blanks, isBlank c = true) :
  dropBlank (blanks ++ s) = dropBlank s
  := by
  rw [dropBlank, List.dropWhile_append_of_pos h, dropBlank]

theorem dropBlank_cons {c : Char} {s : List Char} (h : isBlank c = false) :
  dropBlank (c :: s) = c :: s
  := by
  simp [dropBlank, h]

/-- A text is its leading blanks and what comes after them. -/
theorem exists_blanks (s : List Char) :
  ∃ blanks, (∀ c ∈ blanks, isBlank c = true) ∧ s = blanks ++ dropBlank s
  := ⟨s.takeWhile isBlank, fun _ hc => List.mem_takeWhile_imp hc,
    List.takeWhile_append_dropWhile.symm⟩

theorem rdropWhile_append {front rest : List Char} {c : Char} (h : isBlank c = false) :
  (front ++ c :: rest).rdropWhile isBlank = front ++ c :: rest.rdropWhile isBlank
  := by
  induction rest using List.reverseRecOn with
  | nil => simp [h]
  | append_singleton rest d ih =>
    rw [← List.cons_append, ← List.append_assoc, List.rdropWhile_concat,
      List.rdropWhile_concat, ih]
    split <;> simp

/-! ### Spellings -/

/-- A token with a single text is spelled by it. -/
theorem Spelling.eq_of_text {t : Token} {text : String} {word : List Char}
    (h : Spelling t word) (ht : t.text? = some text) :
  word = text.toList
  := by
  cases h with
  | fixed single =>
    rw [single] at ht
    cases ht
    rfl
  | _ => simp [Token.text?] at ht

/-- A single text begins and ends with characters that are not blank. -/
theorem Token.ends_of_text {t : Token} {text : String} (h : t.text? = some text) :
  text.toList.head?.any (fun c => !isBlank c) = true ∧
    text.toList.getLast?.any (fun c => !isBlank c) = true
  := by
  have main : ∀ word ∈ ["||", "&&", "!", "(", ")", "==", "!=", ">", ">=", "<", "<=", "null",
      "true", "false"], word.toList.head?.any (fun c => !isBlank c) = true ∧
        word.toList.getLast?.any (fun c => !isBlank c) = true := by
    decide
  refine main text ?_
  cases t with
  | comparison comparison => cases comparison <;> cases h <;> decide
  | literal literal =>
    cases literal with
    | null => cases h; decide
    | bool b => cases b <;> cases h <;> decide
    | _ => cases h
  | field => cases h
  | _ => cases h; decide

/-- A spelling begins with a character that is not blank. -/
theorem Spelling.head {t : Token} {word : List Char} (h : Spelling t word) :
  ∃ c rest, word = c :: rest ∧ isBlank c = false
  := by
  cases h with
  | fixed single =>
    obtain ⟨c, hc, hblank⟩ := (Option.any_eq_true _ _).1 (Token.ends_of_text single).1
    obtain ⟨rest, hrest⟩ := List.head?_eq_some_iff.1 hc
    exact ⟨c, rest, hrest, by simpa using hblank⟩
  | field scope nonempty chars last => cases scope <;> exact ⟨_, _, rfl, by decide⟩
  | str quoted => exact ⟨_, _, rfl, by decide⟩
  | @number x sign digits optional chars value =>
    rcases optional with rfl | rfl
    · cases digits with
      | nil => simp [Decimal.plain?] at value
      | cons c digits =>
        have hc : isNumberChar c = true := isNumberChar_iff.2 (chars c (by simp))
        exact ⟨c, digits, rfl, isBlank_of_isPathChar (isPathChar_of_isNumberChar hc)⟩
    · exact ⟨'-', digits, rfl, by decide⟩

/-- A spelling ends with a character that is not blank. -/
theorem Spelling.getLast {t : Token} {word : List Char} (h : Spelling t word) :
  ∃ front c, word = front ++ [c] ∧ isBlank c = false
  := by
  cases h with
  | fixed single =>
    obtain ⟨c, hc, hblank⟩ := (Option.any_eq_true _ _).1 (Token.ends_of_text single).2
    obtain ⟨front, hfront⟩ := List.getLast?_eq_some_iff.1 hc
    exact ⟨front, c, hfront, by simpa using hblank⟩
  | @field scope path nonempty chars last =>
    refine ⟨scope.lead.toList ++ path.dropLast, path.getLast nonempty, ?_, ?_⟩
    · rw [List.append_assoc, List.dropLast_append_getLast]
    · have hc := chars _ (List.getLast_mem nonempty)
      exact isBlank_of_isPathChar (isPathChar_iff.2 hc)
  | @str text body quoted => exact ⟨'"' :: body, '"', rfl, by decide⟩
  | @number x sign digits optional chars value =>
    rcases List.eq_nil_or_concat digits with rfl | ⟨front, c, rfl⟩
    · rcases optional with rfl | rfl <;> simp [Decimal.plain?] at value
    · have hc : isNumberChar c = true := isNumberChar_iff.2 (chars c (by simp))
      exact ⟨sign ++ front, c, by simp,
        isBlank_of_isPathChar (isPathChar_of_isNumberChar hc)⟩

/-- Only the sign of equality begins with an equals sign. -/
theorem Spelling.eq_of_equals {t : Token} {word : List Char} (h : Spelling t ('=' :: word)) :
  t = .comparison .eq
  := by
  generalize hword : '=' :: word = w at h
  cases h with
  | fixed single =>
    cases t with
    | comparison comparison =>
      cases comparison with
      | eq => rfl
      | _ => cases single; cases hword
    | literal literal =>
      cases literal with
      | null => cases single; cases hword
      | bool b => cases b <;> cases single <;> cases hword
      | _ => cases single
    | field => cases single
    | _ => cases single; cases hword
  | field scope => cases scope <;> cases hword
  | str quoted => cases hword
  | @number x sign digits optional chars value =>
    rcases optional with rfl | rfl
    · have hc := chars '=' (by rw [← List.nil_append digits, ← hword]; simp)
      exact absurd hc (by decide)
    · cases hword

namespace Spells

/-- Exactly the blank texts spell no token. -/
theorem nil_iff {s : List Char} :
  Spells [] s ↔ dropBlank s = []
  := by
  constructor
  · rintro ⟨blank⟩
    exact List.dropWhile_eq_nil_iff.2 blank
  · intro h
    exact .nil (List.dropWhile_eq_nil_iff.1 h)

/-- What follows the blanks of a text is a spelling of the first of its tokens and a text
of the others. -/
theorem cons_iff {t : Token} {ts : List Token} {s : List Char} :
  Spells (t :: ts) s ↔
    ∃ word rest, Spelling t word ∧ dropBlank s = word ++ rest ∧ Spells ts rest
  := by
  constructor
  · rintro (_ | @⟨_, _, blanks, word, rest, blank, spelling, tail⟩)
    obtain ⟨c, word', rfl, hc⟩ := spelling.head
    exact ⟨_, rest, spelling, by rw [dropBlank_of_blank blank]; exact dropBlank_cons hc, tail⟩
  · rintro ⟨word, rest, spelling, hs, tail⟩
    obtain ⟨blanks, blank, h⟩ := exists_blanks s
    rw [h, hs]
    exact .cons blank spelling tail

/-- Leading blanks do not matter. -/
theorem dropBlank_iff {ts : List Token} {s : List Char} :
  Spells ts (dropBlank s) ↔ Spells ts s
  := by
  have hs : dropBlank (dropBlank s) = dropBlank s := List.dropWhile_idempotent _ s
  cases ts with
  | nil => rw [nil_iff, nil_iff, hs]
  | cons t ts => rw [cons_iff, cons_iff, hs]

/-- Blanks may be added at the end. -/
theorem append_blank {ts : List Token} {s blanks : List Char} (h : Spells ts s)
    (blank : ∀ c ∈ blanks, isBlank c = true) :
  Spells ts (s ++ blanks)
  := by
  induction h with
  | nil before => exact .nil fun c hc => (List.mem_append.1 hc).elim (before c) (blank c)
  | cons before spelling tail ih =>
    rw [List.append_assoc, List.append_assoc]
    exact .cons before spelling ih

/-- The blanks at the end may be taken away. -/
theorem rdropWhile_blank {ts : List Token} {s : List Char} (h : Spells ts s) :
  Spells ts (s.rdropWhile isBlank)
  := by
  induction h with
  | nil blank =>
    rw [List.rdropWhile_eq_nil_iff.2 blank]
    exact .nil (by simp)
  | @cons t ts blanks word rest blank spelling tail ih =>
    obtain ⟨front, c, rfl, hc⟩ := spelling.getLast
    -- The blanks taken away all belong to the rest, as the word does not end with one.
    have hrest : (blanks ++ front ++ c :: rest).rdropWhile isBlank
        = blanks ++ front ++ c :: rest.rdropWhile isBlank := rdropWhile_append hc
    rw [show blanks ++ ((front ++ [c]) ++ rest) = blanks ++ front ++ c :: rest by simp, hrest,
      show ∀ u, blanks ++ front ++ c :: u = blanks ++ ((front ++ [c]) ++ u) by simp]
    exact .cons blank spelling ih

/-- The blanks at the ends of a text do not matter. -/
theorem trim_iff {ts : List Token} {s : List Char} :
  Spells ts (trim s) ↔ Spells ts s
  := by
  change Spells ts ((dropBlank s).rdropWhile isBlank) ↔ _
  rw [← dropBlank_iff (s := s)]
  constructor
  · intro h
    rw [← List.rdropWhile_append_rtakeWhile (p := isBlank) (l := dropBlank s)]
    exact h.append_blank fun c hc => List.mem_rtakeWhile_imp hc
  · exact rdropWhile_blank

/-- A text has at least as many characters as tokens. -/
theorem length_le {ts : List Token} {s : List Char} (h : Spells ts s) :
  ts.length ≤ s.length
  := by
  induction h with
  | nil => simp
  | cons blank spelling tail ih =>
    obtain ⟨c, word, rfl, -⟩ := spelling.head
    simp only [List.length_append, List.length_cons]
    omega

/-- The first character of a text is blank or begins a spelling of its first token. -/
theorem head {ts : List Token} {c : Char} {s : List Char} (h : Spells ts (c :: s)) :
  isBlank c = true ∨ ∃ t us word, ts = t :: us ∧ Spelling t (c :: word)
  := by
  cases hc : isBlank c with
  | true => exact .inl rfl
  | false =>
    refine .inr ?_
    cases ts with
    | nil => simp [nil_iff, dropBlank_cons hc] at h
    | cons t us =>
      obtain ⟨word, rest, spelling, hs, -⟩ := cons_iff.1 h
      obtain ⟨d, word, rfl, -⟩ := spelling.head
      rw [dropBlank_cons hc, List.cons_append, List.cons.injEq] at hs
      obtain ⟨rfl, -⟩ := hs
      exact ⟨t, us, word, rfl, spelling⟩

/-- A text that begins with an equals sign spells the sign of equality first. -/
theorem eq_of_equals {t : Token} {ts : List Token} {s : List Char}
    (h : Spells (t :: ts) ('=' :: s)) :
  t = .comparison .eq
  := by
  rcases h.head with hblank | ⟨t', us, word, hts, spelling⟩
  · exact absurd hblank (by decide)
  · obtain ⟨rfl, rfl⟩ := List.cons.inj hts
    exact spelling.eq_of_equals

end Spells

/-! ### Derivations -/

/-- Whether an expression may begin with a token. -/
inductive Token.Begins : Token → Prop where
  | not : Token.Begins .not
  | opening : Token.Begins .opening
  | field (field : Field) : Token.Begins (.field field)

theorem Unary.head {ts : List Token} {f : Formula} (h : Unary ts f) :
  ∃ t us, ts = t :: us ∧ t.Begins
  := by
  cases h with
  | not => exact ⟨_, _, rfl, .not⟩
  | parentheses => exact ⟨_, _, rfl, .opening⟩
  | truthy field => exact ⟨_, _, rfl, .field field⟩
  | compare field => exact ⟨_, _, rfl, .field field⟩

theorem Conjunction.head {ts : List Token} {f : Formula} (h : Conjunction ts f) :
  ∃ t us, ts = t :: us ∧ t.Begins
  := by
  cases h with
  | single unary => exact unary.head
  | and conjunction unary =>
    obtain ⟨t, us, rfl, ht⟩ := conjunction.head
    exact ⟨t, _, rfl, ht⟩

theorem Disjunction.head {ts : List Token} {f : Formula} (h : Disjunction ts f) :
  ∃ t us, ts = t :: us ∧ t.Begins
  := by
  cases h with
  | single conjunction => exact conjunction.head
  | or disjunction conjunction =>
    obtain ⟨t, us, rfl, ht⟩ := disjunction.head
    exact ⟨t, _, rfl, ht⟩

theorem Unary.length_pos {ts : List Token} {f : Formula} (h : Unary ts f) :
  0 < ts.length
  := by
  obtain ⟨t, us, rfl, -⟩ := h.head
  simp

theorem Conjunction.length_pos {ts : List Token} {f : Formula} (h : Conjunction ts f) :
  0 < ts.length
  := by
  obtain ⟨t, us, rfl, -⟩ := h.head
  simp

mutual

/-- A printed expression is derived in the grammar, as a unary one unless it is
composite. -/
theorem Prints.derives {f : Formula} {ts : List Token} :
  Prints f ts → Disjunction ts f ∧ (f.isComposite = false → Unary ts f)
  | .truthy field => ⟨.single (.single (.truthy field)), fun _ => .truthy field⟩
  | .compare field comparison literal ordered =>
    have unary := Unary.compare field comparison literal ordered
    ⟨.single (.single unary), fun _ => unary⟩
  | .not operand =>
    have unary := Unary.not operand.unary
    ⟨.single (.single unary), fun _ => unary⟩
  | .and left right =>
    ⟨.single (.and (.single left.unary) right.unary), nofun⟩
  | .or left right =>
    ⟨.or (.single (.single left.unary)) (.single right.unary), nofun⟩

theorem PrintsOperand.unary {f : Formula} {ts : List Token} :
  PrintsOperand f ts → Unary ts f
  | .bare simple prints => prints.derives.2 simple
  | .parentheses prints => .parentheses prints.derives.1

end

end Statechart.Guard
