import Statechart.Proofs.Guard.Grammar
import Statechart.Proofs.Outcome

/-!
# Reading guard expressions

The readers of guard expressions accept the texts of the grammar and no others.  What a
reader takes from a text is `Leaves`: tokens of which the rest of the text can spell the
continuation.  Soundness goes by induction on the fuel, completeness by induction on the
derivation, with the fuel bounded by the number of tokens.
-/

namespace Statechart.Guard

open Text (isBlank dropBlank trim isAlphanumeric)

/-! ### Tokens that readers take -/

/-- The text `s` is a text of the tokens `ts` and the text `rest` after it: whatever the
rest spells, `s` spells after `ts`. -/
def Leaves (ts : List Token) (s rest : List Char) : Prop :=
  ∀ us, Spells us rest → Spells (ts ++ us) s

namespace Leaves

theorem nil (s : List Char) :
  Leaves [] s s
  := fun _ h => h

theorem append {ts us : List Token} {s middle rest : List Char} (h : Leaves ts s middle)
    (h' : Leaves us middle rest) :
  Leaves (ts ++ us) s rest
  := by
  intro vs hvs
  rw [List.append_assoc]
  exact h _ (h' _ hvs)

theorem cons {t : Token} {us : List Token} {s middle rest : List Char}
    (h : Leaves [t] s middle) (h' : Leaves us middle rest) :
  Leaves (t :: us) s rest
  := h.append h'

theorem dropBlank {ts : List Token} {s rest : List Char} (h : Leaves ts s rest) :
  Leaves ts s (Text.dropBlank rest)
  := fun us hus => h us (Spells.dropBlank_iff.1 hus)

theorem single {t : Token} {s word rest : List Char} (spelling : Spelling t word)
    (h : Text.dropBlank s = word ++ rest) :
  Leaves [t] s rest
  := fun _ hus => Spells.cons_iff.2 ⟨word, rest, spelling, h, hus⟩

end Leaves

/-- A token comes next exactly when its characters follow the blanks. -/
theorem token?_eq_some_iff {token : String} {s rest : List Char} :
  token? token s = some rest ↔ dropBlank s = token.toList ++ rest
  := by
  rw [token?, Text.isPrefixOf?_eq_some_iff, eq_comm]

/-- The number whose sign has been read. -/
def numberAfter (sign body : List Char) : Except Refusal (Literal × List Char) :=
  (Decimal.plain? (sign ++ body.takeWhile isNumberChar)).elim
    (.error (.badNumber (String.ofList (sign ++ body.takeWhile isNumberChar))))
    (fun x => .ok (.number x, body.dropWhile isNumberChar))

theorem readNumber_of_minus {s body : List Char} (h : dropBlank s = '-' :: body) :
  readNumber s = numberAfter ['-'] body
  := by
  rw [numberAfter, readNumber]
  simp only [h]
  cases Decimal.plain? (['-'] ++ body.takeWhile isNumberChar) <;> rfl

theorem readNumber_of_no_minus {s : List Char} (h : ∀ body, dropBlank s ≠ '-' :: body) :
  readNumber s = numberAfter [] (dropBlank s)
  := by
  rw [numberAfter, readNumber]
  simp only
  cases Decimal.plain? ([] ++ (dropBlank s).takeWhile isNumberChar) <;> rfl

/-- The first word of a text that is a literal. -/
def word? (s : List Char) : Option (Literal × List Char) :=
  words.findSome? (fun (word, value) => (token? word s).map (fun rest => (value, rest)))

/-- The first comparison sign of a text. -/
def comparison? (s : List Char) : Option (Comparison × List Char) :=
  comparisons.findSome?
    (fun (sign, comparison) => (token? sign s).map (fun rest => (comparison, rest)))

/-- A comparison reads a field and, if a sign comes next, the literal after it. -/
theorem readComparison_eq_ok_iff {s rest : List Char} {f : Formula} :
  readComparison s = .ok (f, rest) ↔
    ∃ field after, readField s = .ok (field, after) ∧
      ((comparison? after = none ∧ f = .truthy field ∧ rest = dropBlank after) ∨
        ∃ comparison behind literal, comparison? after = some (comparison, behind) ∧
          f = .compare field comparison literal ∧
          (if comparison = .eq ∨ comparison = .ne then readLiteral behind
            else readNumber behind) = .ok (literal, rest))
  := by
  rw [readComparison, Outcome.bind_eq_ok, Prod.exists]
  refine exists_congr fun field => exists_congr fun after => and_congr_right fun _ => ?_
  change (match comparison? after with
    | none => Except.ok (Formula.truthy field, dropBlank after)
    | some (comparison, behind) => if comparison = Comparison.eq ∨ comparison = Comparison.ne
        then readLiteral behind >>= fun read => Except.ok (.compare field comparison read.1, read.2)
        else readNumber behind >>= fun read => Except.ok (.compare field comparison read.1, read.2))
      = Except.ok (f, rest) ↔ _
  cases comparison? after with
  | none => simp [eq_comm]
  | some found =>
    obtain ⟨comparison, behind⟩ := found
    by_cases h : comparison = Comparison.eq ∨ comparison = Comparison.ne
    all_goals
      simp only [h, ↓reduceIte, Outcome.bind_eq_ok, Option.some.injEq, Prod.mk.injEq]
      grind

/-! ### Soundness -/

theorem leaves_of_readPath {scope : Scope} {s body rest : List Char} {field : Field}
    (h : readPath scope body = .ok (field, rest))
    (hs : dropBlank s = scope.lead.toList ++ body) :
  Leaves [.field field] s rest
  := by
  simp only [readPath] at h
  split at h
  · simp at h
  · rename_i hpath
    obtain ⟨nonempty, last⟩ := not_or.1 hpath
    obtain ⟨rfl, rfl⟩ : _ ∧ _ := by simpa using h
    have chars : ∀ c ∈ body.takeWhile isPathChar, isAlphanumeric c = true ∨ c = '_' ∨ c = '.' :=
      fun c hc => isPathChar_iff.1 (List.mem_takeWhile_imp hc)
    refine .single (.field scope nonempty chars last) ?_
    rw [List.append_assoc, List.takeWhile_append_dropWhile, hs]

theorem leaves_of_readField {s rest : List Char} {field : Field}
    (h : readField s = .ok (field, rest)) :
  Leaves [.field field] s rest
  := by
  rw [readField] at h
  split at h
  · rename_i body hbody
    exact leaves_of_readPath h (token?_eq_some_iff.1 hbody)
  · split at h
    · rename_i body hbody
      exact leaves_of_readPath h (token?_eq_some_iff.1 hbody)
    · simp at h

/-- The reader of a string takes the text between the quotes. -/
theorem quoted_of_readQuoted {read s rest : List Char} {text : String}
    (h : readQuoted read s = .ok (text, rest)) :
  ∃ word body, Quoted word body ∧ s = body ++ '"' :: rest ∧
    text = String.ofList (read.reverse ++ word)
  := by
  fun_induction readQuoted read s with
  | case1 read => simp at h
  | case2 read after =>
    obtain ⟨rfl, rfl⟩ : _ ∧ _ := by simpa using h
    exact ⟨[], [], .nil, rfl, by simp⟩
  | case3 read => simp at h
  | case4 read c after ih =>
    obtain ⟨word, body, quoted, rfl, rfl⟩ := ih h
    exact ⟨c :: word, '\\' :: c :: body, .escaped quoted, rfl, by simp⟩
  | case5 read c after quote final escaped ih =>
    obtain ⟨word, body, quoted, rfl, rfl⟩ := ih h
    refine ⟨c :: word, c :: body, .plain quote ?_ quoted, rfl, by simp⟩
    rintro rfl
    cases body with
    | nil => exact escaped '"' rest rfl rfl
    | cons d body => exact escaped d _ rfl rfl

theorem leaves_of_numberAfter {s sign body rest : List Char} {literal : Literal}
    (h : numberAfter sign body = .ok (literal, rest)) (optional : sign = [] ∨ sign = ['-'])
    (hs : dropBlank s = sign ++ body) :
  (∃ x, literal = .number x) ∧ Leaves [.literal literal] s rest
  := by
  rw [numberAfter] at h
  cases value : Decimal.plain? (sign ++ body.takeWhile isNumberChar) with
  | none =>
    rw [value] at h
    cases h
  | some x =>
    rw [value] at h
    cases h
    have chars : ∀ c ∈ body.takeWhile isNumberChar, c.isDigit = true ∨ c = '.' :=
      fun c hc => isNumberChar_iff.1 (List.mem_takeWhile_imp hc)
    refine ⟨⟨x, rfl⟩, .single (.number optional chars value) ?_⟩
    rw [List.append_assoc, List.takeWhile_append_dropWhile, hs]

theorem leaves_of_readNumber {s rest : List Char} {literal : Literal}
    (h : readNumber s = .ok (literal, rest)) :
  (∃ x, literal = .number x) ∧ Leaves [.literal literal] s rest
  := by
  by_cases hs : ∃ body, dropBlank s = '-' :: body
  · obtain ⟨body, hs⟩ := hs
    rw [readNumber_of_minus hs] at h
    exact leaves_of_numberAfter h (.inr rfl) hs
  · rw [readNumber_of_no_minus (not_exists.1 hs)] at h
    exact leaves_of_numberAfter h (.inl rfl) rfl

/-- The reader of a literal takes one of the words that are literals, if one comes next. -/
theorem leaves_of_readLiteral {s rest : List Char} {literal : Literal}
    (h : readLiteral s = .ok (literal, rest)) :
  Leaves [.literal literal] s rest
  := by
  rw [readLiteral] at h
  split at h
  · rename_i found hfound
    obtain rfl : found = (literal, rest) := by simpa using h
    obtain ⟨⟨word, value⟩, hword, hfound⟩ := List.exists_of_findSome?_eq_some hfound
    obtain ⟨after, hafter, hpair⟩ := Option.map_eq_some_iff.1 hfound
    obtain ⟨rfl, rfl⟩ := Prod.mk.inj hpair
    have spelling : Spelling (.literal value) word.toList := by
      simp only [words, List.mem_cons, List.not_mem_nil, or_false, Prod.mk.injEq] at hword
      rcases hword with ⟨rfl, rfl⟩ | ⟨rfl, rfl⟩ | ⟨rfl, rfl⟩
      all_goals exact .fixed rfl
    exact .single spelling (token?_eq_some_iff.1 hafter)
  · split at h
    · rename_i body hbody
      obtain ⟨⟨text, after⟩, hread, hpair⟩ := Outcome.map_eq_ok.1 h
      obtain ⟨rfl, rfl⟩ := Prod.mk.inj hpair
      obtain ⟨word, quoted, hquoted, rfl, rfl⟩ := quoted_of_readQuoted hread
      refine .single (.str hquoted) ?_
      simpa using hbody
    · exact fun us hus => Spells.dropBlank_iff.1 ((leaves_of_readNumber h).2 us hus)

theorem leaves_of_comparison? {s rest : List Char} {comparison : Comparison}
    (h : comparison? s = some (comparison, rest)) :
  Leaves [.comparison comparison] s rest
  := by
  obtain ⟨⟨sign, value⟩, hsign, hfound⟩ := List.exists_of_findSome?_eq_some h
  obtain ⟨after, hafter, hpair⟩ := Option.map_eq_some_iff.1 hfound
  obtain ⟨rfl, rfl⟩ := Prod.mk.inj hpair
  have hvalue : sign = value.sign := by
    simp only [comparisons, List.mem_cons, List.not_mem_nil, or_false, Prod.mk.injEq] at hsign
    rcases hsign with ⟨rfl, rfl⟩ | ⟨rfl, rfl⟩ | ⟨rfl, rfl⟩ | ⟨rfl, rfl⟩ | ⟨rfl, rfl⟩ | ⟨rfl, rfl⟩
      <;> rfl
  refine .single (.fixed rfl) ?_
  rw [← hvalue]
  exact token?_eq_some_iff.1 hafter

theorem unary_of_readComparison {s rest : List Char} {f : Formula}
    (h : readComparison s = .ok (f, rest)) :
  ∃ ts, Unary ts f ∧ Leaves ts s rest
  := by
  obtain ⟨field, after, hfield, h⟩ := readComparison_eq_ok_iff.1 h
  have hleaves := leaves_of_readField hfield
  rcases h with ⟨-, rfl, rfl⟩ | ⟨comparison, behind, literal, hsign, rfl, hliteral⟩
  · exact ⟨_, .truthy field, hleaves.dropBlank⟩
  · have hsign := leaves_of_comparison? hsign
    split at hliteral
    · rename_i hequal
      exact ⟨_, .compare field comparison literal (by tauto),
        hleaves.cons (hsign.cons (leaves_of_readLiteral hliteral))⟩
    · obtain ⟨hnumber, hleft⟩ := leaves_of_readNumber hliteral
      exact ⟨_, .compare field comparison literal (.inr (.inr hnumber)),
        hleaves.cons (hsign.cons hleft)⟩

/-- With the given fuel every reader takes tokens of the expression that it answers with;
the loops extend the tokens of the expression so far. -/
structure Sound (fuel : Nat) : Prop where
  or : ∀ {s rest : List Char} {f : Formula}, readOr fuel s = .ok (f, rest) →
    ∃ ts, Disjunction ts f ∧ Leaves ts s rest
  orRest : ∀ {s rest : List Char} {left f : Formula} {ts : List Token},
    readOrRest fuel left s = .ok (f, rest) → Disjunction ts left →
    ∃ us, Disjunction (ts ++ us) f ∧ Leaves us s rest
  and : ∀ {s rest : List Char} {f : Formula}, readAnd fuel s = .ok (f, rest) →
    ∃ ts, Conjunction ts f ∧ Leaves ts s rest
  andRest : ∀ {s rest : List Char} {left f : Formula} {ts : List Token},
    readAndRest fuel left s = .ok (f, rest) → Conjunction ts left →
    ∃ us, Conjunction (ts ++ us) f ∧ Leaves us s rest
  unary : ∀ {s rest : List Char} {f : Formula}, readUnary fuel s = .ok (f, rest) →
    ∃ ts, Unary ts f ∧ Leaves ts s rest

namespace Sound

variable {fuel : Nat} {s rest : List Char} {left f : Formula} {ts : List Token}

theorem or_succ (sound : Sound fuel) (h : readOr (fuel + 1) s = .ok (f, rest)) :
  ∃ ts, Disjunction ts f ∧ Leaves ts s rest
  := by
  rw [readOr] at h
  split at h
  · rename_i left middle hleft
    obtain ⟨ts, conjunction, hts⟩ := sound.and hleft
    obtain ⟨us, disjunction, hus⟩ := sound.orRest h (.single conjunction)
    exact ⟨ts ++ us, disjunction, hts.append hus⟩
  · simp at h

theorem orRest_succ (sound : Sound fuel) (h : readOrRest (fuel + 1) left s = .ok (f, rest))
    (disjunction : Disjunction ts left) :
  ∃ us, Disjunction (ts ++ us) f ∧ Leaves us s rest
  := by
  rw [readOrRest] at h
  split at h
  · obtain ⟨rfl, rfl⟩ : _ ∧ _ := by simpa using h
    exact ⟨[], by simpa using disjunction, .nil s⟩
  · rename_i after hsign
    have hor : Leaves [.or] s after := .single (.fixed rfl) (token?_eq_some_iff.1 hsign)
    split at h
    · rename_i right middle hright
      obtain ⟨us, conjunction, hus⟩ := sound.and hright
      obtain ⟨vs, whole, hvs⟩ := sound.orRest h (.or disjunction conjunction)
      refine ⟨.or :: us ++ vs, ?_, (hor.cons hus).append hvs⟩
      rwa [← List.append_assoc]
    · simp at h

theorem and_succ (sound : Sound fuel) (h : readAnd (fuel + 1) s = .ok (f, rest)) :
  ∃ ts, Conjunction ts f ∧ Leaves ts s rest
  := by
  rw [readAnd] at h
  split at h
  · rename_i left middle hleft
    obtain ⟨ts, unary, hts⟩ := sound.unary hleft
    obtain ⟨us, conjunction, hus⟩ := sound.andRest h (.single unary)
    exact ⟨ts ++ us, conjunction, hts.append hus⟩
  · simp at h

theorem andRest_succ (sound : Sound fuel)
    (h : readAndRest (fuel + 1) left s = .ok (f, rest)) (conjunction : Conjunction ts left) :
  ∃ us, Conjunction (ts ++ us) f ∧ Leaves us s rest
  := by
  rw [readAndRest] at h
  split at h
  · obtain ⟨rfl, rfl⟩ : _ ∧ _ := by simpa using h
    exact ⟨[], by simpa using conjunction, .nil s⟩
  · rename_i after hsign
    have hand : Leaves [.and] s after := .single (.fixed rfl) (token?_eq_some_iff.1 hsign)
    split at h
    · rename_i right middle hright
      obtain ⟨us, unary, hus⟩ := sound.unary hright
      obtain ⟨vs, whole, hvs⟩ := sound.andRest h (.and conjunction unary)
      refine ⟨.and :: us ++ vs, ?_, (hand.cons hus).append hvs⟩
      rwa [← List.append_assoc]
    · simp at h

theorem unary_succ (sound : Sound fuel) (h : readUnary (fuel + 1) s = .ok (f, rest)) :
  ∃ ts, Unary ts f ∧ Leaves ts s rest
  := by
  have comparison : readComparison (dropBlank s) = .ok (f, rest) →
      ∃ ts, Unary ts f ∧ Leaves ts s rest := by
    intro h
    obtain ⟨ts, unary, hts⟩ := unary_of_readComparison h
    exact ⟨ts, unary, fun us hus => Spells.dropBlank_iff.1 (hts us hus)⟩
  rw [readUnary] at h
  split at h
  · rename_i hs
    rw [← hs] at h
    exact comparison h
  · rename_i after _ hs
    split at h
    · rename_i inner middle hinner
      obtain ⟨rfl, rfl⟩ : _ ∧ _ := by simpa using h
      obtain ⟨ts, unary, hts⟩ := sound.unary hinner
      exact ⟨.not :: ts, .not unary, (Leaves.single (.fixed rfl) hs).cons hts⟩
    · simp at h
  · rename_i after hs
    split at h
    · rename_i inner middle hinner
      split at h
      · rename_i behind hclosing
        obtain ⟨rfl, rfl⟩ : _ ∧ _ := by simpa using h
        obtain ⟨ts, disjunction, hts⟩ := sound.or hinner
        have hclosing : Leaves [.closing] middle behind :=
          .single (.fixed rfl) (token?_eq_some_iff.1 hclosing)
        exact ⟨.opening :: (ts ++ [.closing]), .parentheses disjunction,
          (Leaves.single (.fixed rfl) hs).cons (hts.append hclosing)⟩
      · simp at h
    · simp at h
  · exact comparison h

end Sound

/-- Every reader is sound. -/
theorem sound (fuel : Nat) :
  Sound fuel
  := by
  induction fuel with
  | zero => constructor <;> simp [readOr, readOrRest, readAnd, readAndRest, readUnary]
  | succ fuel ih =>
    exact ⟨ih.or_succ, ih.orRest_succ, ih.and_succ, ih.andRest_succ, ih.unary_succ⟩

/-! ### Completeness -/

/-- The next token, if there is one, ends an expression: it closes it or joins it with
another. -/
def Ends (us : List Token) : Prop :=
  ∀ t ∈ us.head?, t = .closing ∨ t = .and ∨ t = .or

/-- The next token, if there is one, ends an expression or compares it. -/
def EndsField (us : List Token) : Prop :=
  ∀ t ∈ us.head?, (t = .closing ∨ t = .and ∨ t = .or) ∨ ∃ comparison, t = .comparison comparison

theorem Ends.endsField {us : List Token} (h : Ends us) :
  EndsField us
  := fun t ht => .inl (h t ht)

/-- What is read before such a token does not go on with a character of a path. -/
theorem EndsField.not_isPathChar {us : List Token} {rest : List Char} {c : Char}
    (h : EndsField us) (hrest : Spells us rest) (hc : c ∈ rest.head?) :
  isPathChar c = false
  := by
  obtain ⟨tail, rfl⟩ := List.head?_eq_some_iff.1 hc
  rcases hrest.head with hblank | ⟨t, us, word, rfl, spelling⟩
  · by_contra hpath
    rw [isBlank_of_isPathChar (by simpa using hpath)] at hblank
    contradiction
  · have main : ∀ text ∈ [")", "&&", "||", "==", "!=", ">", ">=", "<", "<="],
        c :: word = text.toList → isPathChar c = false := by
      intro text htext hword
      have hall : ∀ text ∈ [")", "&&", "||", "==", "!=", ">", ">=", "<", "<="],
          text.toList.head?.all (fun c => !isPathChar c) = true := by decide +kernel
      have hc := hall text htext
      rw [← hword] at hc
      simpa using hc
    rcases h t rfl with (rfl | rfl | rfl) | ⟨comparison, rfl⟩
    · exact main ")" (by simp) (spelling.eq_of_text rfl)
    · exact main "&&" (by simp) (spelling.eq_of_text rfl)
    · exact main "||" (by simp) (spelling.eq_of_text rfl)
    · exact main comparison.sign (by cases comparison <;> simp [Comparison.sign])
        (spelling.eq_of_text rfl)

/-- A row of characters of a class before one that is not of it is found whole. -/
theorem span_append {p : Char → Bool} {xs rest : List Char} (h : ∀ c ∈ xs, p c = true)
    (hrest : ∀ c ∈ rest.head?, p c = false) :
  (xs ++ rest).takeWhile p = xs ∧ (xs ++ rest).dropWhile p = rest
  := by
  rw [List.takeWhile_append_of_pos h, List.dropWhile_append_of_pos h]
  cases rest with
  | nil => simp
  | cons c rest => simp [hrest c rfl]

theorem readField_of_spells {us : List Token} {s : List Char} {field : Field}
    (h : Spells (.field field :: us) s) (hus : EndsField us) :
  ∃ rest, readField s = .ok (field, rest) ∧ Spells us rest
  := by
  obtain ⟨word, rest, spelling, hs, tail⟩ := Spells.cons_iff.1 h
  refine ⟨rest, ?_, tail⟩
  cases spelling with
  | fixed single => simp [Token.text?] at single
  | @field scope path nonempty chars last =>
    have chars : ∀ c ∈ path, isPathChar c = true := fun c hc => isPathChar_iff.2 (chars c hc)
    obtain ⟨htake, hdrop⟩ := span_append chars fun c hc => hus.not_isPathChar tail hc
    have hpath : readPath scope (path ++ rest) = .ok (⟨scope, String.ofList path⟩, rest) := by
      simp [readPath, htake, hdrop, nonempty, last]
    rw [List.append_assoc] at hs
    cases scope with
    | context =>
      have hscope : token? "ctx." s = some (path ++ rest) := token?_eq_some_iff.2 hs
      rw [readField, hscope]
      exact hpath
    | event =>
      have hcontext : token? "ctx." s = none := by
        rw [token?, hs]
        rfl
      have hscope : token? "event." s = some (path ++ rest) := token?_eq_some_iff.2 hs
      rw [readField, hcontext, hscope]
      exact hpath

theorem readNumber_of_spells {us : List Token} {s : List Char} {x : Float}
    (h : Spells (.literal (.number x) :: us) s) (hus : Ends us) :
  ∃ rest, readNumber s = .ok (.number x, rest) ∧ Spells us rest
  := by
  obtain ⟨word, rest, spelling, hs, tail⟩ := Spells.cons_iff.1 h
  refine ⟨rest, ?_, tail⟩
  cases spelling with
  | fixed single => simp [Token.text?] at single
  | @number x sign digits optional chars value =>
    have chars : ∀ c ∈ digits, isNumberChar c = true := fun c hc =>
      isNumberChar_iff.2 (chars c hc)
    have hrest : ∀ c ∈ rest.head?, isNumberChar c = false := fun c hc => by
      by_contra hnumber
      have hpath := isPathChar_of_isNumberChar (by simpa using hnumber)
      rw [hus.endsField.not_isPathChar tail hc] at hpath
      contradiction
    obtain ⟨htake, hdrop⟩ := span_append chars hrest
    have hafter : numberAfter sign (digits ++ rest) = .ok (.number x, rest) := by
      rw [numberAfter, htake, hdrop, value, Option.elim_some]
    rw [List.append_assoc] at hs
    rcases optional with rfl | rfl
    · rw [readNumber_of_no_minus, hs]
      · exact hafter
      · intro body hbody
        cases digits with
        | nil => simp [Decimal.plain?] at value
        | cons c digits =>
          rw [hs] at hbody
          obtain ⟨rfl, -⟩ := List.cons.inj hbody
          exact absurd (chars '-' (by simp)) (by decide)
    · rw [readNumber_of_minus hs]
      exact hafter

theorem readQuoted_append {word body : List Char} (h : Quoted word body)
    (read rest : List Char) :
  readQuoted read (body ++ '"' :: rest) = .ok (String.ofList (read.reverse ++ word), rest)
  := by
  induction h generalizing read with
  | nil => simp [readQuoted]
  | @plain c word body quote backslash hrest ih =>
    rw [List.cons_append, readQuoted]
    · rw [ih]
      simp
    · exact quote
    · exact fun h => absurd h backslash
    · exact fun _ _ h => absurd h backslash
  | @escaped c word body hrest ih =>
    rw [List.cons_append, List.cons_append, readQuoted, ih]
    simp

/-- A literal that begins like a number is read as one. -/
theorem readLiteral_eq_readNumber {s behind : List Char} {c : Char}
    (hc : dropBlank s = c :: behind) (h : c = '-' ∨ isNumberChar c = true) :
  readLiteral s = readNumber s
  := by
  have hne : ∀ d ∈ ['t', 'f', 'n', '"'], d ≠ c := by
    rintro d hd rfl
    rcases h with rfl | hnumber
    · simp at hd
    · have hall : ['t', 'f', 'n', '"'].all (fun d => !isNumberChar d) = true := by decide
      have hd := List.all_eq_true.1 hall d hd
      rw [hnumber] at hd
      exact Bool.noConfusion hd
  have hwords : word? s = none := by
    have ht := hne 't' (by simp)
    have hf := hne 'f' (by simp)
    have hn := hne 'n' (by simp)
    simp [word?, words, token?, hc, List.isPrefixOf?, ht, hf, hn]
  have hnumber : readNumber (c :: behind) = readNumber s := by
    have hidem : dropBlank (c :: behind) = dropBlank s := by
      rw [← hc]
      exact List.dropWhile_idempotent _ s
    simp only [readNumber, hidem]
  rw [word?] at hwords
  rw [readLiteral, hwords, hc]
  dsimp only
  split
  · rename_i heq
    exact absurd (List.cons.inj heq).1.symm (hne '"' (by simp))
  · exact hnumber

theorem readLiteral_of_spells {us : List Token} {s : List Char} {literal : Literal}
    (h : Spells (.literal literal :: us) s) (hus : Ends us) :
  ∃ rest, readLiteral s = .ok (literal, rest) ∧ Spells us rest
  := by
  obtain ⟨word, rest, spelling, hs, tail⟩ := Spells.cons_iff.1 h
  cases spelling with
  | fixed single =>
    refine ⟨rest, ?_, tail⟩
    cases literal with
    | null =>
      cases single
      simp [readLiteral, words, token?, hs, List.isPrefixOf?]
    | bool b =>
      cases b <;> cases single <;>
        simp [readLiteral, words, token?, hs, List.isPrefixOf?]
    | _ => simp [Token.text?] at single
  | @str word body quoted =>
    refine ⟨rest, ?_, tail⟩
    have hwords : word? s = none := by simp [word?, words, token?, hs, List.isPrefixOf?]
    have hs : dropBlank s = '"' :: (body ++ '"' :: rest) := by simpa using hs
    rw [word?] at hwords
    rw [readLiteral, hwords, hs]
    simp [readQuoted_append quoted, Except.map]
  | @number x sign digits optional chars value =>
    obtain ⟨after, hnumber, hafter⟩ := readNumber_of_spells h hus
    obtain ⟨c, behind, hc, hother⟩ : ∃ c behind, dropBlank s = c :: behind ∧
        (c = '-' ∨ isNumberChar c = true) := by
      rcases optional with rfl | rfl
      · cases digits with
        | nil => simp [Decimal.plain?] at value
        | cons c digits =>
          exact ⟨c, _, hs, .inr (isNumberChar_iff.2 (chars c (by simp)))⟩
      · exact ⟨'-', _, hs, .inl rfl⟩
    exact ⟨after, (readLiteral_eq_readNumber hc hother).trans hnumber, hafter⟩

theorem comparison?_of_spells {us : List Token} {s : List Char} {comparison : Comparison}
    {literal : Literal} (h : Spells (.comparison comparison :: .literal literal :: us) s) :
  ∃ rest, comparison? s = some (comparison, rest) ∧ Spells (.literal literal :: us) rest
  := by
  obtain ⟨word, rest, spelling, hs, tail⟩ := Spells.cons_iff.1 h
  refine ⟨rest, ?_, tail⟩
  obtain rfl := spelling.eq_of_text rfl
  -- A sign of one character is not the beginning of one of two.
  have hequals : ['='].isPrefixOf? rest = none := by
    rw [Option.eq_none_iff_forall_ne_some]
    intro after hafter
    obtain rfl := Text.isPrefixOf?_eq_some_iff.1 hafter
    exact Token.noConfusion tail.eq_of_equals
  cases comparison <;>
    simp [comparison?, comparisons, token?, hs, Comparison.sign, List.isPrefixOf?, hequals]

/-- Before a token that ends an expression there is no comparison sign. -/
theorem comparison?_eq_none {us : List Token} {s : List Char} (h : Spells us s)
    (hus : Ends us) :
  comparison? s = none
  := by
  cases us with
  | nil => simp [comparison?, comparisons, token?, Spells.nil_iff.1 h, List.isPrefixOf?]
  | cons t us =>
    obtain ⟨word, rest, spelling, hs, -⟩ := Spells.cons_iff.1 h
    rcases hus t rfl with rfl | rfl | rfl
    all_goals
      obtain rfl := spelling.eq_of_text rfl
      simp [comparison?, comparisons, token?, hs, List.isPrefixOf?]

/-- The readers of a field and of a comparison read what the grammar derives, up to the
blanks after it. -/
theorem readComparison_of_truthy {us : List Token} {s : List Char} {field : Field}
    (h : Spells (.field field :: us) s) (hus : Ends us) :
  ∃ rest, readComparison s = .ok (.truthy field, rest) ∧ Spells us rest
  := by
  obtain ⟨rest, hfield, hrest⟩ := readField_of_spells h hus.endsField
  refine ⟨dropBlank rest, ?_, Spells.dropBlank_iff.2 hrest⟩
  exact readComparison_eq_ok_iff.2
    ⟨field, rest, hfield, .inl ⟨comparison?_eq_none hrest hus, rfl, rfl⟩⟩

theorem readComparison_of_compare {us : List Token} {s : List Char} {field : Field}
    {comparison : Comparison} {literal : Literal}
    (ordered : comparison = .eq ∨ comparison = .ne ∨ ∃ x, literal = .number x)
    (h : Spells (.field field :: .comparison comparison :: .literal literal :: us) s)
    (hus : Ends us) :
  ∃ rest, readComparison s = .ok (.compare field comparison literal, rest) ∧ Spells us rest
  := by
  obtain ⟨after, hfield, hafter⟩ := readField_of_spells h
    (fun t ht => .inr ⟨comparison, by simpa using ht.symm⟩)
  obtain ⟨behind, hsign, hbehind⟩ := comparison?_of_spells hafter
  obtain ⟨rest, hliteral, hrest⟩ : ∃ rest,
      (if comparison = .eq ∨ comparison = .ne then readLiteral behind
        else readNumber behind) = .ok (literal, rest) ∧ Spells us rest := by
    split
    · exact readLiteral_of_spells hbehind hus
    · obtain ⟨x, rfl⟩ : ∃ x, literal = .number x := by tauto
      exact readNumber_of_spells hbehind hus
  exact ⟨rest, readComparison_eq_ok_iff.2 ⟨field, after, hfield,
    .inr ⟨comparison, behind, literal, hsign, rfl, hliteral⟩⟩, hrest⟩

/-- At the end of a disjunction the loop of its reader stops. -/
theorem readOrRest_of_ends {us : List Token} {s : List Char} {f : Formula} {fuel : Nat}
    (h : Spells us s) (hus : Ends us) (hor : .or ∉ us.head?) (hfuel : 0 < fuel) :
  readOrRest fuel f s = .ok (f, s)
  := by
  obtain ⟨fuel, rfl⟩ := Nat.exists_eq_add_one.2 hfuel
  have hsign : token? "||" s = none := by
    cases us with
    | nil => simp [token?, Spells.nil_iff.1 h, List.isPrefixOf?]
    | cons t us =>
      obtain ⟨word, rest, spelling, hs, -⟩ := Spells.cons_iff.1 h
      rcases hus t rfl with rfl | rfl | rfl
      · obtain rfl := spelling.eq_of_text rfl
        simp [token?, hs, List.isPrefixOf?]
      · obtain rfl := spelling.eq_of_text rfl
        simp [token?, hs, List.isPrefixOf?]
      · exact absurd rfl hor
  rw [readOrRest, hsign]

/-- At the end of a conjunction the loop of its reader stops. -/
theorem readAndRest_of_ends {us : List Token} {s : List Char} {f : Formula} {fuel : Nat}
    (h : Spells us s) (hus : Ends us) (hand : .and ∉ us.head?) (hfuel : 0 < fuel) :
  readAndRest fuel f s = .ok (f, s)
  := by
  obtain ⟨fuel, rfl⟩ := Nat.exists_eq_add_one.2 hfuel
  have hsign : token? "&&" s = none := by
    cases us with
    | nil => simp [token?, Spells.nil_iff.1 h, List.isPrefixOf?]
    | cons t us =>
      obtain ⟨word, rest, spelling, hs, -⟩ := Spells.cons_iff.1 h
      rcases hus t rfl with rfl | rfl | rfl
      · obtain rfl := spelling.eq_of_text rfl
        simp [token?, hs, List.isPrefixOf?]
      · exact absurd rfl hand
      · obtain rfl := spelling.eq_of_text rfl
        simp [token?, hs, List.isPrefixOf?]
  rw [readAndRest, hsign]

/-- Where a field comes next, a unary expression is a comparison. -/
theorem readUnary_of_field {us : List Token} {s : List Char} {field : Field} {fuel : Nat}
    (h : Spells (.field field :: us) s) :
  readUnary (fuel + 1) s = readComparison (dropBlank s)
  := by
  obtain ⟨word, rest, spelling, hs, -⟩ := Spells.cons_iff.1 h
  cases spelling with
  | fixed single => cases single
  | field scope =>
    rw [readUnary, hs]
    cases scope <;> rfl

/-- Where a negation comes next, a unary expression is one: its operand does not begin with
an equals sign. -/
theorem readUnary_of_not {us ts : List Token} {s rest : List Char} {f : Formula} {fuel : Nat}
    (h : Unary ts f) (hs : dropBlank s = '!' :: rest) (hrest : Spells (ts ++ us) rest) :
  readUnary (fuel + 1) s = (readUnary fuel rest).map (fun read => (.not read.1, read.2))
  := by
  obtain ⟨t, vs, rfl, ht⟩ := h.head
  have hequals : ∀ after, rest ≠ '=' :: after := by
    rintro after rfl
    have heq := hrest.eq_of_equals
    cases ht <;> cases heq
  rw [readUnary, hs]
  split
  · rename_i after heq
    exact absurd (List.cons.inj heq).2 (hequals after)
  · rename_i heq
    obtain ⟨-, rfl⟩ := List.cons.inj heq
    cases readUnary fuel rest <;> rfl
  · rename_i heq
    exact absurd (List.cons.inj heq).1 (by decide)
  · rename_i hnot _
    exact absurd rfl (hnot rest)

mutual

/-- With fuel for its tokens the reader of a disjunction comes to its end: there its loop
goes on with the fuel that is left. -/
theorem readOr_of_disjunction {ts : List Token} {f : Formula} {s : List Char}
    (h : Disjunction ts f) (fuel : Nat) (us : List Token) (hs : Spells (ts ++ us) s)
    (hus : Ends us) (hand : .and ∉ us.head?) (hfuel : 4 * ts.length + 1 ≤ fuel) :
  ∃ left rest, Spells us rest ∧ readOr fuel s = readOrRest left f rest ∧
    0 < left ∧ fuel ≤ left + ts.length
  := by
  obtain ⟨fuel, rfl⟩ := Nat.exists_eq_add_one.2 (show 0 < fuel by omega)
  cases h with
  | single conjunction =>
    have hpos := conjunction.length_pos
    obtain ⟨left, rest, hrest, hread, hleft, -⟩ :=
      readAnd_of_conjunction conjunction fuel us hs hus (by omega)
    refine ⟨fuel, rest, hrest, ?_, by omega, by omega⟩
    rw [readOr, hread, readAndRest_of_ends hrest hus hand hleft]
  | @or ts vs f g disjunction conjunction =>
    have hpos := conjunction.length_pos
    rw [List.length_append, List.length_cons] at hfuel ⊢
    rw [List.append_assoc, List.cons_append] at hs
    obtain ⟨left, rest, hrest, hread, hleft, hle⟩ :=
      readOr_of_disjunction disjunction (fuel + 1) (.or :: (vs ++ us)) hs
        (fun t ht => .inr (.inr (by simpa using ht.symm))) (by simp) (by omega)
    obtain ⟨left, rfl⟩ := Nat.exists_eq_add_one.2 hleft
    obtain ⟨word, after, spelling, hword, hafter⟩ := Spells.cons_iff.1 hrest
    obtain rfl := spelling.eq_of_text rfl
    obtain ⟨left', rest', hrest', hread', hleft', -⟩ :=
      readAnd_of_conjunction conjunction left us hafter hus (by omega)
    refine ⟨left, rest', hrest', ?_, by omega, by omega⟩
    rw [hread, readOrRest, token?_eq_some_iff.2 hword]
    dsimp only
    rw [hread', readAndRest_of_ends hrest' hus hand hleft']

/-- The reader of a conjunction likewise. -/
theorem readAnd_of_conjunction {ts : List Token} {f : Formula} {s : List Char}
    (h : Conjunction ts f) (fuel : Nat) (us : List Token) (hs : Spells (ts ++ us) s)
    (hus : Ends us) (hfuel : 4 * ts.length ≤ fuel + 1) :
  ∃ left rest, Spells us rest ∧ readAnd fuel s = readAndRest left f rest ∧
    0 < left ∧ fuel ≤ left + ts.length
  := by
  have hpos := h.length_pos
  obtain ⟨fuel, rfl⟩ := Nat.exists_eq_add_one.2 (show 0 < fuel by omega)
  cases h with
  | single unary =>
    obtain ⟨rest, hread, hrest⟩ := readUnary_of_unary unary fuel us hs hus (by omega)
    refine ⟨fuel, rest, hrest, ?_, by omega, by omega⟩
    rw [readAnd, hread]
  | @and ts vs f g conjunction unary =>
    have hpos := conjunction.length_pos
    have hpos' := unary.length_pos
    rw [List.length_append, List.length_cons] at hfuel ⊢
    rw [List.append_assoc, List.cons_append] at hs
    obtain ⟨left, rest, hrest, hread, hleft, hle⟩ :=
      readAnd_of_conjunction conjunction (fuel + 1) (.and :: (vs ++ us)) hs
        (fun t ht => .inr (.inl (by simpa using ht.symm))) (by omega)
    obtain ⟨left, rfl⟩ := Nat.exists_eq_add_one.2 hleft
    obtain ⟨word, after, spelling, hword, hafter⟩ := Spells.cons_iff.1 hrest
    obtain rfl := spelling.eq_of_text rfl
    obtain ⟨rest', hread', hrest'⟩ := readUnary_of_unary unary left us hafter hus (by omega)
    refine ⟨left, rest', hrest', ?_, by omega, by omega⟩
    rw [hread, readAndRest, token?_eq_some_iff.2 hword]
    dsimp only
    rw [hread']

/-- With fuel for its tokens the reader of a unary expression reads it. -/
theorem readUnary_of_unary {ts : List Token} {f : Formula} {s : List Char}
    (h : Unary ts f) (fuel : Nat) (us : List Token) (hs : Spells (ts ++ us) s) (hus : Ends us)
    (hfuel : 4 * ts.length ≤ fuel + 3) :
  ∃ rest, readUnary fuel s = .ok (f, rest) ∧ Spells us rest
  := by
  have hpos := h.length_pos
  obtain ⟨fuel, rfl⟩ := Nat.exists_eq_add_one.2 (show 0 < fuel by omega)
  cases h with
  | @not ts f unary =>
    rw [List.length_cons] at hfuel
    obtain ⟨word, after, spelling, hword, hafter⟩ := Spells.cons_iff.1 hs
    obtain rfl := spelling.eq_of_text rfl
    obtain ⟨rest, hread, hrest⟩ := readUnary_of_unary unary fuel us hafter hus (by omega)
    refine ⟨rest, ?_, hrest⟩
    have hnot : readUnary (fuel + 1) s
        = (readUnary fuel after).map (fun read => (.not read.1, read.2)) :=
      readUnary_of_not unary hword hafter
    rw [hnot, hread]
    rfl
  | @parentheses ts f disjunction =>
    simp only [List.length_cons, List.length_append, List.length_nil] at hfuel
    rw [List.cons_append, List.append_assoc] at hs
    obtain ⟨word, after, spelling, hword, hafter⟩ := Spells.cons_iff.1 hs
    obtain rfl := spelling.eq_of_text rfl
    have hends : Ends ([.closing] ++ us) := fun t ht => .inl (by simpa using ht.symm)
    obtain ⟨left, rest, hrest, hread, hleft, -⟩ :=
      readOr_of_disjunction disjunction fuel ([.closing] ++ us) hafter hends (by simp) (by omega)
    obtain ⟨word, behind, spelling, hclosing, hbehind⟩ := Spells.cons_iff.1 hrest
    obtain rfl := spelling.eq_of_text rfl
    refine ⟨behind, ?_, hbehind⟩
    rw [readOrRest_of_ends hrest hends (by simp) hleft] at hread
    rw [readUnary, hword]
    change (match readOr fuel after with
      | .ok (inner, rest) => _
      | .error e => _) = _
    rw [hread]
    dsimp only
    rw [token?_eq_some_iff.2 hclosing]
  | truthy field =>
    rw [readUnary_of_field hs]
    exact readComparison_of_truthy (Spells.dropBlank_iff.2 hs) hus
  | compare field comparison literal ordered =>
    rw [readUnary_of_field hs]
    exact readComparison_of_compare ordered (Spells.dropBlank_iff.2 hs) hus

end

/-! ### Whole texts -/

/-- A text is read as an expression exactly if it spells tokens that derive it. -/
theorem Formula.read_eq_ok_iff {text : String} {f : Formula} :
  Formula.read text = .ok f ↔ ∃ ts, Spells ts text.toList ∧ Disjunction ts f
  := by
  rw [Formula.read]
  constructor
  · intro h
    split at h
    · simp at h
    split at h
    · simp at h
    · rename_i whole rest hread
      split at h
      · rename_i hrest
        obtain rfl : whole = f := by simpa using h
        obtain ⟨ts, disjunction, hts⟩ := (sound _).or hread
        have hspells := hts [] (Spells.nil_iff.2 hrest)
        rw [List.append_nil] at hspells
        exact ⟨ts, Spells.trim_iff.1 hspells, disjunction⟩
      · simp at h
  · rintro ⟨ts, hs, disjunction⟩
    have hs := Spells.trim_iff.2 hs
    have hlength := hs.length_le
    rw [← List.append_nil ts] at hs
    obtain ⟨left, rest, hrest, hread, hleft, -⟩ :=
      readOr_of_disjunction disjunction (4 * (trim text.toList).length + 4) [] hs
        (by simp [Ends]) (by simp) (by omega)
    rw [readOrRest_of_ends hrest (by simp [Ends]) (by simp) hleft] at hread
    obtain ⟨t, us, rfl, -⟩ := disjunction.head
    have hne : trim text.toList ≠ [] := by
      intro hnil
      rw [hnil] at hlength
      simp at hlength
    rw [if_neg hne, hread]
    dsimp only
    rw [Spells.nil_iff.1 hrest]

/-- The text of an expression has a character that no name has. -/
theorem not_all_isNameChar {ts : List Token} {s : List Char} {f : Formula}
    (hs : Spells ts s) (disjunction : Disjunction ts f) :
  s.all isNameChar = false
  := by
  obtain ⟨t, us, rfl, ht⟩ := disjunction.head
  obtain ⟨word, rest, spelling, hword, -⟩ := Spells.cons_iff.1 hs
  obtain ⟨c, hc, hname⟩ : ∃ c ∈ word, isNameChar c = false := by
    cases ht with
    | not =>
      rw [spelling.eq_of_text rfl]
      exact ⟨'!', by simp, by decide +kernel⟩
    | opening =>
      rw [spelling.eq_of_text rfl]
      exact ⟨'(', by simp, by decide +kernel⟩
    | field =>
      cases spelling with
      | fixed single => cases single
      | field scope => exact ⟨'.', by cases scope <;> simp [Scope.lead], by decide +kernel⟩
  have hmem : c ∈ s := by
    apply List.dropWhile_sublist isBlank |>.subset
    change c ∈ dropBlank s
    rw [hword]
    exact List.mem_append_left rest hc
  rw [List.all_eq_false]
  exact ⟨c, hmem, by simp [hname]⟩

/-- A text is read as the guard of an expression exactly if it is read as the
expression. -/
theorem read_eq_formula_iff {text : String} {f : Formula} :
  read text = .ok (.formula f) ↔ Formula.read text = .ok f
  := by
  rw [read]
  constructor
  · intro h
    split at h
    · simp at h
    · obtain ⟨f', hf', heq⟩ := Outcome.map_eq_ok.1 h
      cases heq
      exact hf'
  · intro h
    obtain ⟨ts, hs, disjunction⟩ := Formula.read_eq_ok_iff.1 h
    have hname := not_all_isNameChar (Spells.trim_iff.2 hs) disjunction
    rw [if_neg (by simp [hname]), h]
    rfl

/-- A text is read as an expression, and as the guard that is this expression, exactly if
it spells tokens that derive it; so a printed expression is read back, whatever blanks stand
between its tokens. -/
theorem read_iff_derives (text : String) (f : Formula) :
  (Formula.read text = .ok f ↔ ∃ ts, Spells ts text.toList ∧ Disjunction ts f) ∧
    (read text = .ok (.formula f) ↔ ∃ ts, Spells ts text.toList ∧ Disjunction ts f) ∧
    ∀ ts, Prints f ts → Spells ts text.toList →
      Formula.read text = .ok f ∧ read text = .ok (.formula f)
  := by
  refine ⟨Formula.read_eq_ok_iff, read_eq_formula_iff.trans Formula.read_eq_ok_iff, ?_⟩
  intro ts hprints hs
  have h : Formula.read text = .ok f := Formula.read_eq_ok_iff.2 ⟨ts, hs, hprints.derives.1⟩
  exact ⟨h, read_eq_formula_iff.2 h⟩

/-- A negated comparison with a number and, in parentheses, an alternative of a comparison
with a string that holds a quote and of a field: the printed expression is read back. -/
theorem read_iff_derives_nested :
  ∃ x ts,
    let f : Formula := .and (.not (.compare ⟨.context, "a"⟩ .ge (.number x)))
      (.or (.compare ⟨.event, "o_k"⟩ .eq (.str "a\"b")) (.truthy ⟨.context, "x.y"⟩))
    let text := "!(ctx.a>= -1.5)&& ( event.o_k ==\"a\\\"b\"|| ctx.x.y )"
    Prints f ts ∧ Spells ts text.toList ∧ Formula.read text = .ok f ∧
      read text = .ok (.formula f)
  := by
  obtain ⟨x, hx⟩ : ∃ x, Decimal.plain? ("-".toList ++ "1.5".toList) = some x :=
    Option.isSome_iff_exists.1 (by decide +kernel)
  let f : Formula := .and (.not (.compare ⟨.context, "a"⟩ .ge (.number x)))
    (.or (.compare ⟨.event, "o_k"⟩ .eq (.str "a\"b")) (.truthy ⟨.context, "x.y"⟩))
  let comparison : List Token := [.field ⟨.context, "a"⟩, .comparison .ge, .literal (.number x)]
  let alternative : List Token := [.field ⟨.event, "o_k"⟩, .comparison .eq,
    .literal (.str "a\"b")] ++ .or :: [.field ⟨.context, "x.y"⟩]
  let ts : List Token := (.not :: .opening :: (comparison ++ [.closing])) ++
    .and :: (.opening :: (alternative ++ [.closing]))
  have hprints : Prints f ts :=
    .and (.bare rfl (.not (.parentheses (.compare _ _ _ (.inr (.inr ⟨x, rfl⟩))))))
      (.parentheses (.or (.bare rfl (.compare _ _ _ (.inl rfl))) (.bare rfl (.truthy _))))
  have hspells : Spells ts "!(ctx.a>= -1.5)&& ( event.o_k ==\"a\\\"b\"|| ctx.x.y )".toList := by
    have none : ∀ c ∈ ([] : List Char), isBlank c = true := by simp
    have one : ∀ c ∈ [' '], isBlank c = true := by
      rw [List.forall_mem_singleton]
      decide
    have chars : ∀ path : List Char, path.all isPathChar = true →
        ∀ c ∈ path, isAlphanumeric c = true ∨ c = '_' ∨ c = '.' :=
      fun path h c hc => isPathChar_iff.1 (List.all_eq_true.1 h c hc)
    have a : Spelling (.field ⟨.context, "a"⟩) "ctx.a".toList :=
      .field .context (by decide) (chars ['a'] (by decide +kernel)) (by decide)
    have ok : Spelling (.field ⟨.event, "o_k"⟩) "event.o_k".toList :=
      .field .event (by decide) (chars ['o', '_', 'k'] (by decide +kernel)) (by decide)
    have xy : Spelling (.field ⟨.context, "x.y"⟩) "ctx.x.y".toList :=
      .field .context (by decide) (chars ['x', '.', 'y'] (by decide +kernel)) (by decide)
    have digits : ∀ c ∈ ['1', '.', '5'], c.isDigit = true ∨ c = '.' :=
      fun c hc => isNumberChar_iff.1
        (List.all_eq_true.1 (by decide : ['1', '.', '5'].all isNumberChar = true) c hc)
    have number : Spelling (.literal (.number x)) "-1.5".toList :=
      .number (.inr rfl) digits hx
    have str : Spelling (.literal (.str "a\"b")) "\"a\\\"b\"".toList :=
      .str (.plain (by decide) (by decide) (.escaped (.plain (by decide) (by decide) .nil)))
    have fixed : ∀ {t : Token} (text : String), t.text? = some text → Spelling t text.toList :=
      fun _ single => .fixed single
    exact .cons none (fixed "!" rfl) <| .cons none (fixed "(" rfl) <| .cons none a <|
      .cons none (fixed ">=" rfl) <| .cons one number <| .cons none (fixed ")" rfl) <|
      .cons none (fixed "&&" rfl) <| .cons one (fixed "(" rfl) <| .cons one ok <|
      .cons one (fixed "==" rfl) <| .cons none str <| .cons none (fixed "||" rfl) <|
      .cons one xy <| .cons one (fixed ")" rfl) <| .nil none
  obtain ⟨hread, hguard⟩ := (read_iff_derives _ f).2.2 ts hprints hspells
  exact ⟨x, ts, hprints, hspells, hread, hguard⟩

end Statechart.Guard
