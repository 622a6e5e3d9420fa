import Mathlib.Data.List.TakeWhile
import ScriptEngine.Proofs.Token.Spelling

/-!
# Numerals

A number can be written into a text of a script, where the lexer finds its end one character
after the other, and it can be spelled by a string that is converted, which is read from its end
to its end.  This module gives the grammar of the numerals and shows that both readers go by it:
a text is converted exactly if it is a literal.  There is one exception, digits of base sixteen
with a plus sign between them and their mark, which are converted and are no literal.

## Main definitions

* `Number.IsNumeral` — the grammar: decimals, and base sixteen behind its mark.
* `Number.IsSignedHexadecimal` — base sixteen with a plus sign behind the mark.
* `IsLiteral` — a text that is one number to the lexer.

## Main results

* `Number.isSome_parseMagnitude_iff` — what is converted are numerals and the exception.
* `Number.IsNumeral.splitNumber_eq` — the lexer finds the end of a numeral.
* `isSome_parse_of_lex` — whatever is read as a number spells one.
* `isSome_parse_iff_isLiteral` — **the texts that are converted are the literals**, but for the
  exception.
-/

namespace ScriptEngine

/-! ### Blanks -/

namespace Text

variable {cs : List Char}

theorem trimStart_eq (hfirst : ∀ c ∈ cs.head?, ¬ isBlank c) : trimStart cs = cs := by
  cases cs with
  | nil => rfl
  | cons c rest => exact List.dropWhile_cons_of_neg (hfirst c rfl)

/-- Nothing is trimmed off a text with no blank at its ends. -/
theorem trim_eq (hfirst : ∀ c ∈ cs.head?, ¬ isBlank c) (hlast : ∀ c ∈ cs.getLast?, ¬ isBlank c) :
    trim cs = cs := by
  unfold trim
  rw [trimStart_eq hfirst, trimStart_eq (by rwa [List.head?_reverse]), List.reverse_reverse]

end Text

namespace Number

/-! ### Grammar -/

/-- The part behind the point, with the point, or nothing. -/
inductive IsFraction : List Char → Prop
  | none : IsFraction []
  | point {digits : List Char} (hdigits : ∀ c ∈ digits, isDigit c) : IsFraction ('.' :: digits)

/-- A power of ten, or nothing. -/
inductive IsExponent : List Char → Prop
  | none : IsExponent []
  | power {mark : Char} {sign digits : List Char} (hmark : mark = 'e' ∨ mark = 'E')
      (hsign : sign = [] ∨ sign = ['+'] ∨ sign = ['-']) (hdigits : ∀ c ∈ digits, isDigit c)
      (hne : digits ≠ []) : IsExponent (mark :: (sign ++ digits))

/-- The value of digits of base sixteen. -/
def hexadecimalValue (digits : List Char) : Nat :=
  digits.foldl (fun value c => value * 16 + (digitValue? c).getD 0) 0

/-- One or more digits of base sixteen whose value is a word. -/
structure IsHexadecimal (digits : List Char) : Prop where
  ne_nil : digits ≠ []
  all : ∀ c ∈ digits, isHexDigit c
  fits : hexadecimalValue digits < Word.count

/-- Decimal digits with an optional point, before or behind which there is a digit, and an
optional power of ten. -/
inductive IsDecimal : List Char → Prop
  | parts {front fraction exponent : List Char} (hfront : ∀ c ∈ front, isDigit c)
      (hfraction : IsFraction fraction) (hexponent : IsExponent exponent)
      (hsome : front ≠ [] ∨ 1 < fraction.length) : IsDecimal (front ++ (fraction ++ exponent))

/-- How a number is written: as a decimal, or in base sixteen behind the mark of that base. -/
inductive IsNumeral : List Char → Prop
  | decimal {cs : List Char} (h : IsDecimal cs) : IsNumeral cs
  | hexadecimal {x : Char} {digits : List Char} (hx : x = 'x' ∨ x = 'X')
      (hdigits : IsHexadecimal digits) : IsNumeral ('0' :: x :: digits)

/-- Digits of base sixteen with a plus sign between them and their mark. -/
def IsSignedHexadecimal (cs : List Char) : Prop :=
  ∃ x digits, (x = 'x' ∨ x = 'X') ∧ IsHexadecimal digits ∧ cs = '0' :: x :: '+' :: digits

/-! ### Digits of base sixteen -/

section Hexadecimal

variable {c : Char} {cs digits : List Char} {value n : Nat}

theorem isHexDigit_iff : isHexDigit c ↔ ∃ d < 16, digitValue? c = some d := by
  unfold isHexDigit isDigit digitValue?
  simp only [Bool.or_eq_true, Bool.and_eq_true, decide_eq_true_eq]
  constructor
  · intro h
    split_ifs
    · exact ⟨_, by omega, rfl⟩
    · exact ⟨_, by omega, rfl⟩
    · exact ⟨_, by omega, rfl⟩
    · omega
  · rintro ⟨d, hd, h⟩
    split_ifs at h <;> cases h <;> omega

/-- Digits are read to the end. -/
theorem digitsValue?_of_forall (h : ∀ c ∈ cs, isHexDigit c) (value : Nat) :
    digitsValue? 16 value cs =
      some (cs.foldl (fun value c => value * 16 + (digitValue? c).getD 0) value) := by
  induction cs generalizing value with
  | nil => rfl
  | cons c cs ih =>
    obtain ⟨hc, hcs⟩ := List.forall_mem_cons.1 h
    obtain ⟨d, hd, hvalue⟩ := isHexDigit_iff.1 hc
    simp only [digitsValue?, hvalue, if_pos hd, ih hcs, List.foldl_cons, Option.getD_some]

/-- What is read to the end are digits. -/
theorem forall_of_digitsValue? (h : digitsValue? 16 value cs = some n) :
    ∀ c ∈ cs, isHexDigit c := by
  induction cs generalizing value with
  | nil => exact fun c hc => absurd hc List.not_mem_nil
  | cons c cs ih =>
    unfold digitsValue? at h
    split at h
    · next d hvalue =>
      split at h
      · next hd => exact List.forall_mem_cons.2 ⟨isHexDigit_iff.2 ⟨d, hd, hvalue⟩, ih h⟩
      · cases h
    · cases h

/-- The value of digits that are a word. -/
theorem isHexadecimal_iff :
    IsHexadecimal digits ↔ ∃ n < Word.count, parseDigits 16 digits = some n := by
  constructor
  · rintro ⟨hne, hall, hfits⟩
    cases digits with
    | nil => exact absurd rfl hne
    | cons c cs => exact ⟨_, hfits, digitsValue?_of_forall hall 0⟩
  · rintro ⟨n, hn, h⟩
    cases digits with
    | nil => cases h
    | cons c cs =>
      have hall := forall_of_digitsValue? h
      have hvalue : some (hexadecimalValue (c :: cs)) = some n :=
        (digitsValue?_of_forall hall 0).symm.trans h
      exact ⟨List.cons_ne_nil c cs, hall, Option.some.inj hvalue ▸ hn⟩

theorem not_isHexadecimal_plus : ¬ IsHexadecimal ('+' :: digits) := fun h =>
  absurd (h.all '+' List.mem_cons_self) (by decide)

/-- Digits without a plus sign before them. -/
def dropPlus : List Char → List Char
  | '+' :: rest => rest
  | cs => cs

theorem isSome_parseHexadecimal_iff_dropPlus (cs : List Char) :
    (parseHexadecimal cs).isSome ↔ IsHexadecimal (dropPlus cs) := by
  rw [isHexadecimal_iff]
  fun_cases parseHexadecimal cs with
  | case1 digits n hparse hn | case2 digits n hparse hn =>
    have hparse : parseDigits 16 (dropPlus cs) = some n := hparse
    simp [hparse, hn]
  | case3 digits hparse =>
    have hparse : parseDigits 16 (dropPlus cs) = none := hparse
    simp [hparse]

/-- Digits of base sixteen are read with a plus sign before them and without one. -/
theorem isSome_parseHexadecimal_iff :
    (parseHexadecimal cs).isSome ↔
      IsHexadecimal cs ∨ ∃ digits, IsHexadecimal digits ∧ cs = '+' :: digits := by
  rw [isSome_parseHexadecimal_iff_dropPlus]
  fun_cases dropPlus cs with
  | case1 digits => simp [not_isHexadecimal_plus]
  | case2 _ hplus =>
    refine (or_iff_left ?_).symm
    rintro ⟨digits, -, rfl⟩
    exact hplus digits rfl

end Hexadecimal

/-! ### Decimal digits -/

section Decimal

variable {c : Char} {cs front fraction exponent digits rest : List Char}

/-- That no digit comes first. -/
def NoDigit (cs : List Char) : Prop := ∀ c ∈ cs.head?, isDigit c = false

/-- Digits are taken off what begins with no digit. -/
theorem takeWhile_digits (hdigits : ∀ c ∈ digits, isDigit c) (hrest : NoDigit rest) :
    (digits ++ rest).takeWhile isDigit = digits ∧ (digits ++ rest).dropWhile isDigit = rest := by
  rw [List.takeWhile_append_of_pos hdigits, List.dropWhile_append_of_pos hdigits]
  cases rest with
  | nil => simp
  | cons c rest => simp [hrest c rfl]

/-- What is left behind digits begins with none. -/
theorem noDigit_dropWhile (cs : List Char) : NoDigit (cs.dropWhile isDigit) := by
  intro c hc
  have h := List.head?_dropWhile_not isDigit cs
  rw [hc] at h
  simpa using h

theorem forall_takeWhile (cs : List Char) : ∀ c ∈ cs.takeWhile isDigit, isDigit c :=
  fun _ hc => List.mem_takeWhile_imp hc

theorem IsExponent.noDigit (h : IsExponent exponent) : NoDigit exponent := by
  cases h with
  | none => exact fun c hc => by cases hc
  | power hmark =>
    intro c hc
    cases hc
    rcases hmark with rfl | rfl <;> rfl

theorem IsExponent.ne_point (h : IsExponent exponent) (rest : List Char) :
    exponent ≠ '.' :: rest := by
  rintro rfl
  cases h with
  | power hmark => rcases hmark with hmark | hmark <;> cases hmark

theorem IsFraction.noDigit (h : IsFraction fraction) (hexponent : NoDigit exponent) :
    NoDigit (fraction ++ exponent) := by
  cases h with
  | none => exact hexponent
  | point =>
    intro c hc
    cases hc
    rfl

/-- A text is digits, a part behind a point and a rest that goes on with neither. -/
theorem exists_decimal_parts (cs : List Char) :
    ∃ front fraction exponent, cs = front ++ (fraction ++ exponent) ∧
      (∀ c ∈ front, isDigit c) ∧ IsFraction fraction ∧ NoDigit exponent ∧
      (fraction = [] → ∀ rest, exponent ≠ '.' :: rest) := by
  have hfront := forall_takeWhile cs
  have hcs : cs.takeWhile isDigit ++ cs.dropWhile isDigit = cs := List.takeWhile_append_dropWhile
  -- a fraction is there if a point follows the first digits, also if nothing follows the point
  by_cases hpoint : ∃ tail, cs.dropWhile isDigit = '.' :: tail
  · obtain ⟨tail, htail⟩ := hpoint
    refine ⟨cs.takeWhile isDigit, '.' :: tail.takeWhile isDigit, tail.dropWhile isDigit, ?_,
      hfront, .point (forall_takeWhile tail), noDigit_dropWhile tail, fun h => by cases h⟩
    rw [List.cons_append, List.takeWhile_append_dropWhile, ← htail, hcs]
  · refine ⟨cs.takeWhile isDigit, [], cs.dropWhile isDigit, hcs.symm, hfront, .none,
      noDigit_dropWhile cs, fun _ rest h => hpoint ⟨rest, h⟩⟩

/-- The parts of a decimal are found: there has to be a digit, and a power of ten, if anything,
behind the digits. -/
theorem isSome_parseDecimal_append (hfront : ∀ c ∈ front, isDigit c)
    (hfraction : IsFraction fraction) (hexponent : NoDigit exponent)
    (hpoint : fraction = [] → ∀ rest, exponent ≠ '.' :: rest) :
    (parseDecimal (front ++ (fraction ++ exponent))).isSome ↔
      (front ≠ [] ∨ 1 < fraction.length) ∧ (parseExponent exponent).isSome := by
  obtain ⟨htake, hdrop⟩ := takeWhile_digits hfront (hfraction.noDigit hexponent)
  unfold parseDecimal
  rw [htake, hdrop]
  cases hfraction with
  | none =>
    dsimp only [List.nil_append]
    split
    · next tail => exact absurd rfl (hpoint rfl tail)
    · cases front <;> simp
  | @point digits hdigits =>
    obtain ⟨htake, hdrop⟩ := takeWhile_digits hdigits hexponent
    simp only [List.cons_append, htake, hdrop]
    cases front <;> cases digits <;> simp

/-- A power of ten is read if it is one. -/
theorem isSome_parseExponent_iff : (parseExponent cs).isSome ↔ IsExponent cs := by
  have hread (negative : Bool) (digits : List Char) :
      (if digits.isEmpty || !digits.all isDigit then none
        else some (signed negative (decimalValue digits))).isSome ↔
      (∀ c ∈ digits, isDigit c) ∧ digits ≠ [] := by
    cases digits <;> simp
  constructor
  · intro h
    unfold parseExponent at h
    split at h
    · exact .none
    · next mark rest =>
      split at h
      · next hmark =>
        dsimp only at h
        split at h
        · next digits =>
          obtain ⟨hdigits, hne⟩ := (hread true digits).1 h
          exact @IsExponent.power mark ['-'] digits hmark (.inr (.inr rfl)) hdigits hne
        · next digits =>
          obtain ⟨hdigits, hne⟩ := (hread false digits).1 h
          exact @IsExponent.power mark ['+'] digits hmark (.inr (.inl rfl)) hdigits hne
        · obtain ⟨hdigits, hne⟩ := (hread false rest).1 h
          exact @IsExponent.power mark [] rest hmark (.inl rfl) hdigits hne
      · cases h
  · intro h
    cases h with
    | none => rfl
    | @power mark sign digits hmark hsign hdigits hne =>
      unfold parseExponent
      dsimp only
      rw [if_pos hmark]
      rcases hsign with rfl | rfl | rfl
      · rw [List.nil_append]
        -- what stands behind the mark is a digit, and no sign
        split
        · exact absurd (hdigits '-' List.mem_cons_self) (by decide)
        · exact absurd (hdigits '+' List.mem_cons_self) (by decide)
        · exact (hread false digits).2 ⟨hdigits, hne⟩
      · exact (hread false digits).2 ⟨hdigits, hne⟩
      · exact (hread true digits).2 ⟨hdigits, hne⟩

theorem isSome_parseDecimal_iff : (parseDecimal cs).isSome ↔ IsDecimal cs := by
  constructor
  · obtain ⟨front, fraction, exponent, rfl, hfront, hfraction, hexponent, hpoint⟩ :=
      exists_decimal_parts cs
    rw [isSome_parseDecimal_append hfront hfraction hexponent hpoint, isSome_parseExponent_iff]
    rintro ⟨hsome, hpower⟩
    exact .parts hfront hfraction hpower hsome
  · rintro ⟨hfront, hfraction, hexponent, hsome⟩
    rw [isSome_parseDecimal_append hfront hfraction hexponent.noDigit fun _ => hexponent.ne_point,
      isSome_parseExponent_iff]
    exact ⟨hsome, hexponent⟩

theorem ne_of_isDigit (hc : isDigit c) : c ≠ 'x' ∧ c ≠ 'X' := by
  constructor <;> rintro rfl <;> cases hc

/-- The mark of base sixteen is in no decimal. -/
theorem IsDecimal.ne_of_mem (h : IsDecimal cs) : ∀ c ∈ cs, c ≠ 'x' ∧ c ≠ 'X' := by
  obtain ⟨hfront, hfraction, hexponent, -⟩ := h
  intro c hc
  rcases List.mem_append.1 hc with hc | hc
  · exact ne_of_isDigit (hfront c hc)
  rcases List.mem_append.1 hc with hc | hc
  · cases hfraction with
    | none => exact absurd hc List.not_mem_nil
    | point hdigits =>
      rcases List.mem_cons.1 hc with rfl | hc
      · decide
      · exact ne_of_isDigit (hdigits c hc)
  · cases hexponent with
    | none => exact absurd hc List.not_mem_nil
    | power hmark hsign hdigits =>
      rcases List.mem_cons.1 hc with rfl | hc
      · rcases hmark with rfl | rfl <;> decide
      rcases List.mem_append.1 hc with hc | hc
      · rcases hsign with rfl | rfl | rfl
        · exact absurd hc List.not_mem_nil
        · obtain rfl := List.mem_singleton.1 hc
          decide
        · obtain rfl := List.mem_singleton.1 hc
          decide
      · exact ne_of_isDigit (hdigits c hc)

/-- A decimal begins with a digit, or with a point and a digit. -/
theorem IsDecimal.head (h : IsDecimal cs) :
    ∃ c rest, cs = c :: rest ∧ (isDigit c ∨ c = '.' ∧ rest.head?.any isDigit) := by
  obtain @⟨front, fraction, exponent, hfront, hfraction, -, hsome⟩ := h
  cases front with
  | cons c front => exact ⟨c, _, rfl, .inl (hfront c List.mem_cons_self)⟩
  | nil =>
    cases hfraction with
    | none => simp at hsome
    | @point digits hdigits =>
      cases digits with
      | nil => simp at hsome
      | cons d digits =>
        exact ⟨'.', d :: (digits ++ exponent), rfl, .inr ⟨rfl, hdigits d List.mem_cons_self⟩⟩

theorem splitFraction_parts (hfraction : IsFraction fraction) (hexponent : NoDigit exponent)
    (hpoint : ∀ rest, exponent ≠ '.' :: rest) :
    splitFraction (fraction ++ exponent) = (fraction, exponent) := by
  cases hfraction with
  | none =>
    unfold splitFraction
    split
    · next h => exact absurd h (hpoint _)
    · next h => exact absurd h (hpoint _)
    · rfl
  | @point digits hdigits =>
    -- a second point would be a digit, or would begin what is behind the digits
    have hnext (tail : List Char) : digits ++ exponent ≠ '.' :: tail := by
      cases digits with
      | nil => exact hpoint tail
      | cons d digits =>
        rintro h
        cases h
        exact absurd (hdigits '.' List.mem_cons_self) (by decide)
    obtain ⟨htake, hdrop⟩ := takeWhile_digits hdigits hexponent
    rw [List.cons_append, splitFraction.eq_2 _ hnext, htake, hdrop]

theorem splitMark_power {mark : Char} {sign : List Char} (hmark : mark = 'e' ∨ mark = 'E')
    (hsign : sign = [] ∨ sign = ['+'] ∨ sign = ['-']) (hdigits : ∀ c ∈ digits, isDigit c) :
    splitMark (mark :: (sign ++ digits)) = (mark :: sign, digits) := by
  have hplus (tail : List Char) : digits ≠ '+' :: tail := by
    rintro rfl
    exact absurd (hdigits '+' List.mem_cons_self) (by decide)
  have hminus (tail : List Char) : digits ≠ '-' :: tail := by
    rintro rfl
    exact absurd (hdigits '-' List.mem_cons_self) (by decide)
  rcases hsign with rfl | rfl | rfl <;> rcases hmark with rfl | rfl
  · exact splitMark.eq_3 digits hplus hminus
  · exact splitMark.eq_6 digits hplus hminus
  all_goals rfl

/-- A decimal is split off as a whole. -/
theorem IsDecimal.splitNumber_eq (h : IsDecimal cs) : splitNumber cs = (cs, []) := by
  -- a decimal does not begin like base sixteen, so that its parts are cut off one by one
  have hx := h.ne_of_mem
  obtain ⟨hfront, hfraction, hexponent, -⟩ := h
  rw [splitNumber_decimal
    (fun rest h => absurd rfl (hx 'x' (by simp [h])).1)
    (fun rest h => absurd rfl (hx 'X' (by simp [h])).2)]
  obtain ⟨htake, hdrop⟩ := takeWhile_digits hfront (hfraction.noDigit hexponent.noDigit)
  unfold splitDecimal
  rw [htake, hdrop, splitFraction_parts hfraction hexponent.noDigit hexponent.ne_point]
  dsimp only
  cases hexponent with
  | none => simp [splitMark, splitExponent]
  | power hmark hsign hdigits hne =>
    have hall := List.takeWhile_eq_self_iff.2 hdigits
    have hnil := List.dropWhile_eq_nil_iff.2 hdigits
    rw [splitMark_power hmark hsign hdigits]
    simp [splitExponent, hall, hnil]

end Decimal

/-! ### Numerals -/

section Numerals

variable {cs : List Char} {x : Char}

theorem parseMagnitude_hexadecimal (hx : x = 'x' ∨ x = 'X') :
    parseMagnitude ('0' :: x :: cs) = parseHexadecimal cs := by
  rcases hx with rfl | rfl <;> rfl

theorem splitNumber_hexadecimal (hx : x = 'x' ∨ x = 'X') :
    splitNumber ('0' :: x :: cs) =
      ('0' :: x :: cs.takeWhile isHexDigit, cs.dropWhile isHexDigit) := by
  rcases hx with rfl | rfl <;> rfl

theorem isNumeral_hexadecimal_iff (hx : x = 'x' ∨ x = 'X') :
    IsNumeral ('0' :: x :: cs) ↔ IsHexadecimal cs := by
  constructor
  · rintro (h | ⟨-, h⟩)
    · have hne := h.ne_of_mem x (by simp)
      rcases hx with rfl | rfl
      · exact absurd rfl hne.1
      · exact absurd rfl hne.2
    · exact h
  · exact .hexadecimal hx

theorem isSignedHexadecimal_iff (hx : x = 'x' ∨ x = 'X') :
    IsSignedHexadecimal ('0' :: x :: cs) ↔ ∃ digits, IsHexadecimal digits ∧ cs = '+' :: digits := by
  constructor
  · rintro ⟨x', digits, -, hdigits, h⟩
    cases h
    exact ⟨digits, hdigits, rfl⟩
  · rintro ⟨digits, hdigits, rfl⟩
    exact ⟨x, digits, hx, hdigits, rfl⟩

/-- **The unsigned spellings of numbers are the numerals**, and digits of base sixteen behind a
plus sign. -/
theorem isSome_parseMagnitude_iff :
    (parseMagnitude cs).isSome ↔ IsNumeral cs ∨ IsSignedHexadecimal cs := by
  by_cases hexadecimal : ∃ x rest, (x = 'x' ∨ x = 'X') ∧ cs = '0' :: x :: rest
  · obtain ⟨x, rest, hx, rfl⟩ := hexadecimal
    rw [parseMagnitude_hexadecimal hx, isSome_parseHexadecimal_iff, isNumeral_hexadecimal_iff hx,
      isSignedHexadecimal_iff hx]
  · have hsigned : ¬ IsSignedHexadecimal cs := fun ⟨x, _, hx, _, h⟩ =>
      hexadecimal ⟨x, _, hx, h⟩
    have hnumeral : IsNumeral cs ↔ IsDecimal cs := by
      constructor
      · rintro (h | ⟨hx, -⟩)
        · exact h
        · exact absurd ⟨_, _, hx, rfl⟩ hexadecimal
      · exact .decimal
    rw [or_iff_left hsigned, hnumeral]
    unfold parseMagnitude
    split
    · exact absurd ⟨'x', _, .inl rfl, rfl⟩ hexadecimal
    · exact absurd ⟨'X', _, .inr rfl, rfl⟩ hexadecimal
    · exact iff_of_false (by simp) fun h => by
        obtain ⟨c, rest, hnil, -⟩ := h.head
        cases hnil
    · next c rest _ _ =>
      split_ifs with hfirst
      · exact isSome_parseDecimal_iff
      · refine iff_of_false (by simp) fun h => hfirst ?_
        obtain ⟨c, rest, hcons, hc⟩ := h.head
        cases hcons
        rcases hc with hc | ⟨rfl, -⟩
        · rw [hc, Bool.true_or]
        · rfl

/-- What has nothing to trim and no minus sign is read as it is. -/
theorem parse_eq {text : String} (hfirst : ∀ c ∈ text.toList.head?, ¬ Text.isBlank c)
    (hlast : ∀ c ∈ text.toList.getLast?, ¬ Text.isBlank c)
    (hminus : text.toList.head? ≠ some '-') : parse text = parseMagnitude text.toList := by
  unfold parse
  rw [Text.trim_eq hfirst hlast]
  split
  · next rest h => exact absurd (by rw [h]; rfl) hminus
  · rfl

/-- A numeral is split off as a whole. -/
theorem IsNumeral.splitNumber_eq (h : IsNumeral cs) : splitNumber cs = (cs, []) := by
  cases h with
  | decimal h => exact h.splitNumber_eq
  | hexadecimal hx hdigits =>
    have hall := List.takeWhile_eq_self_iff.2 hdigits.all
    have hnil := List.dropWhile_eq_nil_iff.2 hdigits.all
    rw [splitNumber_hexadecimal hx, hall, hnil]

/-- A numeral begins with a digit, or with a point and a digit. -/
theorem IsNumeral.head (h : IsNumeral cs) :
    ∃ c rest, cs = c :: rest ∧ (isDigit c ∨ c = '.' ∧ rest.head?.any isDigit) := by
  cases h with
  | decimal h => exact h.head
  | hexadecimal => exact ⟨'0', _, rfl, .inl rfl⟩

end Numerals

end Number

/-! ### Literals -/

section Literals

open Number

variable {c : Char} {rest : List Char} {p : Position} {text : String}

/-- A number is read where a digit stands, or a point before a digit. -/
theorem lex_number (hc : isDigit c ∨ c = '.' ∧ rest.head?.any isDigit) :
    (Cursor.before (c :: rest) p).lex = lexNumber p (c :: rest) := by
  -- neither a gap nor any other token begins with a digit or a point
  have hne (d : Char) (hdigit : isDigit d = false) (hpoint : d ≠ '.') : c ≠ d := by
    rintro rfl
    rcases hc with hc | ⟨rfl, -⟩
    · rw [hdigit] at hc
      cases hc
    · exact hpoint rfl
  have hspace : isSpace c = false := by simp [isSpace, hne, isDigit]
  simp only [Cursor.lex, Cursor.before, Bool.false_eq_true, if_false]
  rw [skipGap_stop hspace (hne '-' rfl (by decide))]
  simp only [Cursor.before, lexAt, hne '\x22' rfl (by decide), hne '\x27' rfl (by decide),
    hne '[' rfl (by decide), decide_false, Bool.or_self, Bool.false_and, Bool.false_eq_true,
    if_false]
  rcases hc with hc | ⟨rfl, hdigit⟩
  · rw [if_pos hc, ite_self]
  · rw [if_pos (by simp [hdigit])]

/-- What is split off as a whole and spells a number is one number. -/
theorem lexNumber_whole (hsplit : splitNumber text.toList = (text.toList, []))
    (hsome : (Number.parse text).isSome) :
    lexNumber p text.toList = (.token ⟨.number, text, p⟩, .before [] (p.afterAll text.toList)) := by
  obtain ⟨value, hvalue⟩ := Option.isSome_iff_exists.1 hsome
  simp only [lexNumber, hsplit, String.ofList_toList, hvalue]

/-- A text that is read as one number, which is all of it. -/
def IsLiteral (text : String) : Prop :=
  ∃ p, (Lexer.ofText text).Yields [⟨.number, text, p⟩]

/-- A numeral that spells a number is a literal. -/
theorem isLiteral_of_isNumeral (h : IsNumeral text.toList) (hsome : (Number.parse text).isSome) :
    IsLiteral text := by
  obtain ⟨c, rest, hcs, hc⟩ := h.head
  refine ⟨.start, yields_single (p := Position.start.afterAll text.toList) ?_ (by simp)⟩
  rw [Cursor.ofText, hcs, lex_number hc, ← hcs]
  exact lexNumber_whole h.splitNumber_eq hsome

/-- Whatever is read as a number spells one. -/
theorem isSome_parse_of_lex {cursor : Cursor} {t : Token} (h : cursor.lex.1 = .token t)
    (hkind : t.kind = .number) : (Number.parse t.text).isSome := by
  obtain ⟨p, cs, behind, hread⟩ := exists_lexAt h
  exact (lexNumber_kind ((lexAt_kind hread).2 hkind)).2

theorem IsLiteral.isSome_parse (h : IsLiteral text) : (Number.parse text).isSome := by
  obtain ⟨p, h⟩ := h
  cases h with
  | token hnext =>
    have hlex := congrArg Prod.fst (lex_of_next hnext).1
    have hsome := isSome_parse_of_lex hlex rfl
    exact hsome

/-- Digits of base sixteen behind a plus sign are not read: the number ends before the sign. -/
theorem next_of_isSignedHexadecimal (h : IsSignedHexadecimal text.toList) :
    (Lexer.ofText text).next.1 =
      .error ⟨.malformedNumber (String.ofList (text.toList.take 2)), .start⟩ := by
  obtain ⟨x, digits, hx, -, hcs⟩ := h
  have hnone : Number.parse (String.ofList ['0', x]) = none := by
    rcases hx with rfl | rfl <;> decide +kernel
  -- a plus sign is no digit, so that the mark is all that is taken
  have hsplit : splitNumber text.toList = (['0', x], '+' :: digits) := by
    rw [hcs, splitNumber_hexadecimal hx]
    rfl
  have hlex : (Cursor.ofText text).lex = lexNumber .start text.toList := by
    rw [Cursor.ofText, hcs, lex_number (.inl rfl)]
  simp only [Lexer.next, Lexer.ofText, hlex, lexNumber, hsplit, hnone]
  rw [hcs]
  rfl

theorem not_isLiteral_of_isSignedHexadecimal (h : IsSignedHexadecimal text.toList) :
    ¬ IsLiteral text := by
  rintro ⟨p, hyields⟩
  have herror := next_of_isSignedHexadecimal h
  cases hyields with
  | token hnext =>
    rw [hnext] at herror
    cases herror

/-- **The texts that are converted to numbers are the number literals**, save for digits of base
sixteen behind a plus sign, which are converted, and which no literal is: such a text is an error
at its beginning.  The literals are the numerals.  The texts are those with nothing to trim and
with no minus sign. -/
theorem isSome_parse_iff_isLiteral (text : String)
    (hfirst : ∀ c ∈ text.toList.head?, ¬ Text.isBlank c)
    (hlast : ∀ c ∈ text.toList.getLast?, ¬ Text.isBlank c)
    (hminus : text.toList.head? ≠ some '-') :
    ((Number.parse text).isSome ↔ IsLiteral text ∨ IsSignedHexadecimal text.toList) ∧
    (IsLiteral text ↔ IsNumeral text.toList) ∧
    (IsSignedHexadecimal text.toList → ¬ IsLiteral text ∧
      (Lexer.ofText text).next.1 =
        .error ⟨.malformedNumber (String.ofList (text.toList.take 2)), .start⟩) := by
  have hparse : (Number.parse text).isSome ↔
      IsNumeral text.toList ∨ IsSignedHexadecimal text.toList := by
    rw [parse_eq hfirst hlast hminus, isSome_parseMagnitude_iff]
  have hliteral : IsLiteral text ↔ IsNumeral text.toList := by
    constructor
    · intro h
      exact (hparse.1 h.isSome_parse).resolve_right fun hsigned =>
        not_isLiteral_of_isSignedHexadecimal hsigned h
    · exact fun h => isLiteral_of_isNumeral h (hparse.2 (.inl h))
  exact ⟨by rw [hparse, hliteral], hliteral, fun h =>
    ⟨not_isLiteral_of_isSignedHexadecimal h, next_of_isSignedHexadecimal h⟩⟩

/-- A power of ten behind a point and a digit, and digits of base sixteen behind a plus sign. -/
theorem isSome_parse_iff_isLiteral_of_sign :
    IsLiteral ".5e-2" ∧ (Number.parse "0x+1F").isSome ∧ ¬ IsLiteral "0x+1F" ∧
      (Lexer.ofText "0x+1F").next.1 = .error ⟨.malformedNumber "0x", .start⟩ := by
  have hfraction : IsFraction ['.', '5'] := .point (by simp [isDigit])
  have hexponent : IsExponent ['e', '-', '2'] :=
    .power (.inl rfl) (.inr (.inr rfl)) (by simp [isDigit]) (List.cons_ne_nil '2' [])
  have hnumeral : IsNumeral ".5e-2".toList :=
    .decimal (@IsDecimal.parts [] _ _ (by simp) hfraction hexponent (.inr (by decide)))
  have hsigned : IsSignedHexadecimal "0x+1F".toList :=
    ⟨'x', ['1', 'F'], .inl rfl, ⟨by simp, by simp [isHexDigit, isDigit], by decide⟩, rfl⟩
  obtain ⟨-, hliteral, -⟩ := isSome_parse_iff_isLiteral ".5e-2" (by simp [Text.isBlank])
    (by simp [Text.isBlank]) (by simp)
  obtain ⟨hparse, -, hrefused⟩ := isSome_parse_iff_isLiteral "0x+1F" (by simp [Text.isBlank])
    (by simp [Text.isBlank]) (by simp)
  exact ⟨hliteral.2 hnumeral, hparse.2 (.inr hsigned), hrefused hsigned⟩

end Literals

end ScriptEngine
