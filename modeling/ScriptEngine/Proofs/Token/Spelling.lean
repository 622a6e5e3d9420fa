import Mathlib.Data.List.Induction
import ScriptEngine.Token.Lexer

/-!
# Texts and their tokens

Reading a text loses nothing of it.  A text that is read to its end consists of the spellings of
its tokens, in their order, and of gaps between them that hold white space and comments only.
Every token carries the place where its spelling begins, counted in lines and characters.

## Main definitions

* `Position.behind` — the place behind a text, counted in the text.
* `Blank` — white space and comments, as they stand between tokens.
* `Token.IsSpelling` — how a token is written.
* `splitDecimal` — the parts of a decimal number, cut off one behind the other.
* `Lexer.Yields` — a lexer that gives these tokens and then the end.
* `Spelled` — a text made of gaps and of the spellings of tokens that know their places.

## Main results

* `Position.afterAll_start` — the place that the lexer keeps is the one that is counted.
* `skipGap_blank` — what is skipped before a token is blank.
* `lexAt_token` — a token that is not the end is spelled by what was taken for it.
* `lexAt_kind` — strings and numbers are read by their own readers.
* `spelled_of_yields` — a text that gives tokens without an error is spelled by them.
-/

namespace ScriptEngine

/-! ### Counted places -/

/-- The place behind a text: as many lines down as there are newlines in it, and behind the
characters that follow the last one. -/
def Position.behind (text : List Char) : Position :=
  ⟨1 + text.count '\n', 1 + (text.reverse.takeWhile (· ≠ '\n')).length⟩

theorem Position.behind_concat (text : List Char) (c : Char) :
    behind (text ++ [c]) = (behind text).after c := by
  by_cases hc : c = '\n'
  · subst hc
    simp [behind, Nat.add_assoc]
  · simp [behind, after_of_ne _ hc, hc, Nat.add_assoc]

theorem Position.afterAll_append (p : Position) (first second : List Char) :
    p.afterAll (first ++ second) = (p.afterAll first).afterAll second :=
  List.foldl_append

/-- **The place the lexer keeps is the one that is counted**: going over a text one character at a
time from its beginning ends at its number of lines and at the length of the last one. -/
theorem Position.afterAll_start (text : List Char) : start.afterAll text = behind text := by
  induction text using List.reverseRecOn with
  | nil => rfl
  | append_singleton text c ih => rw [afterAll_append, ih, behind_concat]; rfl

/-! ### Gaps -/

/-- White space and comments.  A line comment goes to the end of its line, which may be missing if
the gap is the last one of the text; a bracketed comment goes to the first two closing brackets. -/
inductive Blank (last : Bool) : List Char → Prop
  | nil : Blank last []
  | space {c : Char} {gap : List Char} (hc : c ∈ [' ', '\t', '\n', '\r', '\x0c'])
      (rest : Blank last gap) : Blank last (c :: gap)
  | line {comment gap : List Char} (hline : '\n' ∉ comment) (hopen : ¬ ['[', '['] <+: comment)
      (rest : Blank last gap) : Blank last (['-', '-'] ++ comment ++ ['\n'] ++ gap)
  | lastLine {comment : List Char} (hlast : last = true) (hline : '\n' ∉ comment)
      (hopen : ¬ ['[', '['] <+: comment) : Blank last (['-', '-'] ++ comment)
  | long {comment gap : List Char} (hclose : ¬ [']', ']'] <:+: comment ++ [']'])
      (rest : Blank last gap) :
      Blank last (['-', '-', '[', '['] ++ comment ++ [']', ']'] ++ gap)

/-- What brings a reader of a gap to the token behind it: from between two comments a gap, from in
a comment the rest of that comment and a gap. -/
def Gap.Closes (last : Bool) : Gap → List Char → Prop
  | .between, taken => Blank last taken
  | .line, taken => ∃ comment, '\n' ∉ comment ∧
      ((∃ gap, taken = comment ++ ['\n'] ++ gap ∧ Blank last gap) ∨ last = true ∧ taken = comment)
  | .long _, taken => ∃ comment gap, ¬ [']', ']'] <:+: comment ++ [']'] ∧
      taken = comment ++ [']', ']'] ++ gap ∧ Blank last gap

theorem isSpace_iff {c : Char} : isSpace c ↔ c ∈ [' ', '\t', '\n', '\r', '\x0c'] := by
  simp [isSpace, or_assoc]

/-- The two brackets that close a comment are still the first ones with one more character before
the comment, unless that is a bracket with another one behind it. -/
theorem not_infix_cons {c : Char} {comment : List Char}
    (hclose : ¬ [']', ']'] <:+: comment ++ [']'])
    (hc : c = ']' → ∀ rest, comment ++ [']'] ≠ ']' :: rest) :
    ¬ [']', ']'] <:+: (c :: comment) ++ [']'] := by
  rw [List.cons_append, List.infix_cons_iff, not_or]
  refine ⟨?_, hclose⟩
  rintro ⟨rest, h⟩
  simp only [List.cons_append, List.nil_append, List.cons.injEq] at h
  exact hc h.1.symm rest h.2.symm

/-- **What is skipped before a token is blank**, and the reader stands behind it. -/
theorem skipGap_blank (g : Gap) (p : Position) (cs : List Char) {behind : Cursor}
    (h : skipGap g p cs = (none, behind)) :
    ∃ taken, g.Closes behind.rest.isEmpty taken ∧ cs = taken ++ behind.rest ∧
      behind = .before behind.rest (p.afterAll taken) := by
  fun_induction skipGap g p cs with
  | case1 p | case5 p | case6 p =>
    cases h
    exact ⟨[], .nil, rfl, rfl⟩
  | case2 p c rest hc ih =>
    obtain ⟨taken, hgap, rfl, hplace⟩ := ih h
    exact ⟨c :: taken, .space (isSpace_iff.1 hc) hgap, rfl, hplace⟩
  | case3 p rest _ ih =>
    obtain ⟨_, ⟨comment, gap, hclose, rfl, hgap⟩, rfl, hplace⟩ := ih h
    exact ⟨_, .long hclose hgap, by simp, by simpa [Position.afterAll] using hplace⟩
  | case4 p rest hopen _ ih =>
    obtain ⟨_, ⟨comment, hline, hgap⟩, rfl, hplace⟩ := ih h
    have hnot : ¬ ['[', '['] <+: comment := by
      rintro ⟨inner, rfl⟩
      obtain ⟨gap, rfl, -⟩ | ⟨-, rfl⟩ := hgap <;> simp at hopen
    obtain ⟨gap, rfl, hgap⟩ | ⟨hlast, rfl⟩ := hgap
    · exact ⟨_, .line hline hnot hgap, by simp, by simpa [Position.afterAll] using hplace⟩
    · exact ⟨_, .lastLine hlast hline hnot, rfl, hplace⟩
  | case7 p =>
    cases h
    exact ⟨[], ⟨[], List.not_mem_nil, .inr ⟨rfl, rfl⟩⟩, rfl, rfl⟩
  | case8 p c rest ih =>
    obtain ⟨taken, hcloses, rfl, hplace⟩ := ih h
    refine ⟨c :: taken, ?_, rfl, hplace⟩
    by_cases hc : c = '\n'
    · rw [if_pos hc] at hcloses
      exact ⟨[], List.not_mem_nil, .inl ⟨taken, by simp [hc], hcloses⟩⟩
    · rw [if_neg hc] at hcloses
      obtain ⟨comment, hline, hgap⟩ := hcloses
      refine ⟨c :: comment, by simp [hline, Ne.symm hc], ?_⟩
      obtain ⟨gap, rfl, hgap⟩ | ⟨hlast, rfl⟩ := hgap
      · exact .inl ⟨gap, rfl, hgap⟩
      · exact .inr ⟨hlast, rfl⟩
  | case9 opened p => cases h
  | case10 opened p rest ih =>
    obtain ⟨gap, hgap, rfl, hplace⟩ := ih h
    exact ⟨_, ⟨[], gap, by decide, rfl, hgap⟩, rfl, hplace⟩
  | case11 opened p rest hopen ih =>
    obtain ⟨_, ⟨comment, gap, hclose, rfl, hgap⟩, rfl, hplace⟩ := ih h
    refine ⟨_, ⟨']' :: comment, gap, not_infix_cons hclose ?_, rfl, hgap⟩, rfl, hplace⟩
    intro _ tail htail
    refine hopen (tail ++ [']'] ++ gap ++ behind.rest) ?_
    simpa using congrArg (· ++ ([']'] ++ gap ++ behind.rest)) htail
  | case12 opened p c rest hc ih =>
    obtain ⟨_, ⟨comment, gap, hclose, rfl, hgap⟩, rfl, hplace⟩ := ih h
    exact ⟨_, ⟨c :: comment, gap, not_infix_cons hclose fun h => absurd h hc, rfl, hgap⟩, rfl,
      hplace⟩

/-! ### Tokens -/

/-- How a token is written.  A quoted string stands between two equal quotes.  A bracketed string
stands between brackets, the first newline of what is between them left out of its text.  All
other tokens are written as their text. -/
def Token.IsSpelling (t : Token) (s : List Char) : Prop :=
  match t.kind with
  | .string => ∃ quote, (quote = '\x22' ∨ quote = '\x27') ∧ s = [quote] ++ t.text.toList ++ [quote]
  | .longString => ∃ newline, (newline = [] ∨ newline = ['\n'] ∨ newline = ['\r', '\n']) ∧
      (newline = [] → ¬ ['\n'] <+: t.text.toList ∧ ¬ ['\r', '\n'] <+: t.text.toList) ∧
      s = ['[', '['] ++ newline ++ t.text.toList ++ [']', ']']
  | _ => s = t.text.toList

/-- That a token other than the end was read at a place: the characters taken for it, which begin
a text, spell it, and the cursor stands behind them. -/
def TokenRead (p : Position) (cs : List Char) (t : Token) (behind : Cursor) : Prop :=
  t.kind ≠ .eof ∧ t.position = p ∧ ∃ s, s ≠ [] ∧ t.IsSpelling s ∧ cs = s ++ behind.rest ∧
    behind = .before behind.rest (p.afterAll s)

/-- The sorts of tokens that are written as their text. -/
def TokenKind.isPlain : TokenKind → Bool
  | .eof | .string | .longString => false
  | _ => true

/-- The sorts of words and symbols. -/
def TokenKind.isFixed : TokenKind → Bool
  | .eof | .number | .string | .longString => false
  | _ => true

theorem TokenKind.isPlain_of_isFixed {kind : TokenKind} (h : kind.isFixed) : kind.isPlain := by
  cases kind <;> first | rfl | cases h

theorem TokenKind.isFixed_word (word : String) : ((keyword? word).getD .name).isFixed := by
  cases hkeyword : keyword? word with
  | none => rfl
  | some kind =>
    obtain ⟨before, behind, hlist, -⟩ := List.lookup_eq_some_iff.1 hkeyword
    have hall : ∀ entry ∈ keywords, entry.2.isFixed := by decide
    exact hall (word, kind) (by simp [hlist])

theorem TokenKind.isFixed_of_double? {cs : List Char} {kind : TokenKind}
    (h : double? cs = some kind) : kind.isFixed := by
  unfold double? at h
  split at h <;> cases h <;> rfl

theorem TokenKind.isFixed_of_single? {c : Char} {kind : TokenKind} (h : single? c = some kind) :
    kind.isFixed := by
  unfold single? at h
  split at h <;> cases h <;> rfl

section Readers

variable {p : Position} {cs : List Char} {t : Token} {behind : Cursor}

/-- A token that is written as its text was read. -/
theorem tokenRead_of_isPlain {kind : TokenKind} {s rest : List Char} (hkind : kind.isPlain)
    (hs : s ≠ []) (hcs : s ++ rest = cs) :
    TokenRead p cs ⟨kind, String.ofList s, p⟩ (.before rest (p.afterAll s)) := by
  have heof : kind ≠ .eof := by
    rintro rfl
    cases hkind
  refine ⟨heof, rfl, s, hs, ?_, hcs.symm, rfl⟩
  cases kind <;> first | exact String.toList_ofList.symm | cases hkind

/-- Splits the fraction off what follows the first digits of a number. -/
def splitFraction (rest : List Char) : List Char × List Char :=
  match rest with
  | '.' :: '.' :: _ => ([], rest)
  | '.' :: tail => ('.' :: tail.takeWhile Number.isDigit, tail.dropWhile Number.isDigit)
  | _ => ([], rest)

/-- Splits the mark of an exponent off, with its sign. -/
def splitMark (rest : List Char) : List Char × List Char :=
  match rest with
  | 'e' :: '+' :: tail => (['e', '+'], tail)
  | 'e' :: '-' :: tail => (['e', '-'], tail)
  | 'e' :: tail => (['e'], tail)
  | 'E' :: '+' :: tail => (['E', '+'], tail)
  | 'E' :: '-' :: tail => (['E', '-'], tail)
  | 'E' :: tail => (['E'], tail)
  | _ => ([], rest)

/-- Splits the digits of an exponent off behind its mark. -/
def splitExponent (mark rest : List Char) : List Char × List Char :=
  if mark.isEmpty then ([], rest)
  else (rest.takeWhile Number.isDigit, rest.dropWhile Number.isDigit)

/-- The parts of a decimal number that begins a text, one behind the other. -/
def splitDecimal (cs : List Char) : List Char × List Char :=
  let (fraction, rest) := splitFraction (cs.dropWhile Number.isDigit)
  let (mark, rest) := splitMark rest
  let (exponent, rest) := splitExponent mark rest
  (cs.takeWhile Number.isDigit ++ fraction ++ mark ++ exponent, rest)

theorem splitNumber_decimal (hlow : ∀ rest, cs = '0' :: 'x' :: rest → False)
    (hhigh : ∀ rest, cs = '0' :: 'X' :: rest → False) : splitNumber cs = splitDecimal cs := by
  unfold splitNumber
  split
  · exact (hlow _ rfl).elim
  · exact (hhigh _ rfl).elim
  · rfl

theorem splitFraction_append (cs : List Char) :
    (splitFraction cs).1 ++ (splitFraction cs).2 = cs := by
  fun_cases splitFraction cs with
  | case1 | case3 => rfl
  | case2 tail => simp

theorem splitMark_append (cs : List Char) : (splitMark cs).1 ++ (splitMark cs).2 = cs := by
  fun_cases splitMark cs <;> rfl

theorem splitExponent_append (mark cs : List Char) :
    (splitExponent mark cs).1 ++ (splitExponent mark cs).2 = cs := by
  unfold splitExponent
  split
  · rfl
  · exact List.takeWhile_append_dropWhile

/-- The parts of a number, its digits, fraction, mark and exponent, are cut off one by one. -/
theorem splitDecimal_append (cs : List Char) :
    (splitDecimal cs).1 ++ (splitDecimal cs).2 = cs := by
  simp only [splitDecimal, List.append_assoc, splitExponent_append, splitMark_append,
    splitFraction_append, List.takeWhile_append_dropWhile]

theorem splitNumber_append (cs : List Char) : (splitNumber cs).1 ++ (splitNumber cs).2 = cs := by
  unfold splitNumber
  split
  · simp
  · simp
  · exact splitDecimal_append _

theorem lexNumber_token (h : lexNumber p cs = (.token t, behind)) : TokenRead p cs t behind := by
  unfold lexNumber at h
  dsimp only at h
  split at h <;> cases h
  next hparse =>
  refine tokenRead_of_isPlain rfl (fun hnil => ?_) (splitNumber_append cs)
  -- nothing spells no number
  rw [hnil] at hparse
  cases hparse

theorem lexWord_token {c : Char} {rest : List Char} (hc : isLetter c)
    (h : lexWord p (c :: rest) = (.token t, behind)) : TokenRead p (c :: rest) t behind := by
  cases h
  have hkind := TokenKind.isPlain_of_isFixed
    (TokenKind.isFixed_word (String.ofList ((c :: rest).takeWhile isWordCharacter)))
  exact tokenRead_of_isPlain hkind (by simp [isWordCharacter, hc]) List.takeWhile_append_dropWhile

theorem lexSymbol_token {c : Char} {rest : List Char}
    (h : lexSymbol p c rest = (.token t, behind)) : TokenRead p (c :: rest) t behind := by
  unfold lexSymbol at h
  split at h
  · next kind hdouble =>
    cases h
    have hkind := TokenKind.isPlain_of_isFixed (TokenKind.isFixed_of_double? hdouble)
    exact tokenRead_of_isPlain hkind (List.cons_ne_nil _ _)
      (congrArg (c :: ·) (List.take_append_drop 1 rest))
  · split at h <;> cases h
    next kind hsingle =>
    have hkind := TokenKind.isPlain_of_isFixed (TokenKind.isFixed_of_single? hsingle)
    exact tokenRead_of_isPlain hkind (List.cons_ne_nil _ _) rfl

/-- A quoted string is read up to the quote that closes it. -/
theorem lexString_token {quote : Char} {opened : Position} {read : List Char}
    (h : lexString quote opened read p cs = (.token t, behind)) :
    ∃ inner, t = ⟨.string, String.ofList (read.reverse ++ inner), opened⟩ ∧
      cs = inner ++ [quote] ++ behind.rest ∧
      behind = .before behind.rest (p.afterAll (inner ++ [quote])) := by
  fun_induction lexString quote opened read p cs with
  | case1 | case2 | case3 | case5 => simp at h
  | case4 read p e rest _ _ ih =>
    obtain ⟨inner, rfl, rfl, hplace⟩ := ih h
    exact ⟨'\\' :: e :: inner, by simp, rfl, hplace⟩
  | case6 read p rest =>
    cases h
    exact ⟨[], by simp, rfl, rfl⟩
  | case7 read p e rest _ _ _ ih =>
    obtain ⟨inner, rfl, rfl, hplace⟩ := ih h
    exact ⟨e :: inner, by simp, rfl, hplace⟩

theorem splitLong_append {inner rest : List Char} (h : splitLong cs = some (inner, rest)) :
    cs = inner ++ [']', ']'] ++ rest := by
  fun_induction splitLong cs generalizing inner with
  | case1 => cases h
  | case2 rest =>
    cases h
    rfl
  | case3 rest _ ih | case4 e rest _ ih =>
    obtain ⟨⟨tail, behind⟩, htail, hpair⟩ := Option.map_eq_some_iff.1 h
    cases hpair
    rw [ih htail]
    rfl

/-- At most one newline at the beginning is dropped, and one that is there always is. -/
theorem dropFirstNewline_append (cs : List Char) :
    ∃ newline, (newline = [] ∨ newline = ['\n'] ∨ newline = ['\r', '\n']) ∧
      (newline = [] → ¬ ['\n'] <+: dropFirstNewline cs ∧ ¬ ['\r', '\n'] <+: dropFirstNewline cs) ∧
      cs = newline ++ dropFirstNewline cs := by
  fun_cases dropFirstNewline cs with
  | case1 rest => exact ⟨['\n'], by simp⟩
  | case2 rest => exact ⟨['\r', '\n'], by simp⟩
  | case3 _ hnewline hreturn =>
    refine ⟨[], .inl rfl, fun _ => ⟨?_, ?_⟩, rfl⟩
    · rintro ⟨rest, rfl⟩
      exact hnewline rest rfl
    · rintro ⟨rest, rfl⟩
      exact hreturn rest rfl

theorem lexLongString_token {opened : Position}
    (h : lexLongString opened (opened.afterAll ['[', '[']) cs = (.token t, behind)) :
    TokenRead opened ('[' :: '[' :: cs) t behind := by
  unfold lexLongString at h
  split at h
  · cases h
  · next inner rest hsplit =>
    cases h
    obtain ⟨newline, hnewline, hdropped, hinner⟩ := dropFirstNewline_append inner
    refine ⟨by simp, rfl, ['[', '['] ++ inner ++ [']', ']'], by simp, ?_, ?_, ?_⟩
    · refine ⟨newline, hnewline, by simpa using hdropped, ?_⟩
      rw [String.toList_ofList, List.append_assoc _ newline, ← hinner]
    · rw [splitLong_append hsplit]
      simp [Cursor.before]
    · simp only [Position.afterAll_append, Cursor.before]

/-- **A token is spelled by what was taken for it**, unless it is the end, which is found at the
end of the text only. -/
theorem lexAt_token (h : lexAt p cs = (.token t, behind)) :
    t.kind = .eof ∧ cs = [] ∨ TokenRead p cs t behind := by
  unfold lexAt at h
  split at h
  · cases h
    exact .inl ⟨rfl, rfl⟩
  · next c rest =>
    right
    split_ifs at h with hquote hbracket hpoint hdigit hletter
    · obtain ⟨inner, rfl, rfl, hplace⟩ := lexString_token h
      refine ⟨by simp, rfl, [c] ++ inner ++ [c], by simp, ⟨c, by simpa using hquote, by simp⟩,
        by simp, ?_⟩
      simpa [Position.afterAll] using hplace
    · obtain ⟨rfl, hhead⟩ : c = '[' ∧ rest.head? = some '[' := by simpa using hbracket
      obtain ⟨inner, rfl⟩ := List.head?_eq_some_iff.1 hhead
      exact lexLongString_token h
    · exact lexNumber_token h
    · exact lexNumber_token h
    · exact lexWord_token hletter h
    · exact lexSymbol_token h

/-! ### Literals -/

/-- A number is a token only if it spells one. -/
theorem lexNumber_kind (h : lexNumber p cs = (.token t, behind)) :
    t.kind = .number ∧ (Number.parse t.text).isSome := by
  unfold lexNumber at h
  dsimp only at h
  split at h <;> cases h
  next hparse => exact ⟨rfl, by rw [hparse]; rfl⟩

theorem lexLongString_kind {opened : Position}
    (h : lexLongString opened p cs = (.token t, behind)) : t.kind = .longString := by
  unfold lexLongString at h
  split at h <;> cases h
  rfl

theorem lexWord_kind (h : lexWord p cs = (.token t, behind)) : t.kind.isFixed := by
  cases h
  exact TokenKind.isFixed_word _

theorem lexSymbol_kind {c : Char} {rest : List Char}
    (h : lexSymbol p c rest = (.token t, behind)) : t.kind.isFixed := by
  unfold lexSymbol at h
  split at h
  · next kind hdouble =>
    cases h
    exact TokenKind.isFixed_of_double? hdouble
  · split at h <;> cases h
    next kind hsingle => exact TokenKind.isFixed_of_single? hsingle

/-- **The sort of a literal tells what has read it**: a string is read behind its first quote, and
a number as one. -/
theorem lexAt_kind (h : lexAt p cs = (.token t, behind)) :
    (t.kind = .string → ∃ quote rest, (quote = '\x22' ∨ quote = '\x27') ∧ cs = quote :: rest ∧
      lexString quote p [] (p.after quote) rest = (.token t, behind)) ∧
    (t.kind = .number → lexNumber p cs = (.token t, behind)) := by
  have hfixed (hkind : t.kind.isFixed) : t.kind ≠ .string ∧ t.kind ≠ .number := by
    constructor <;> intro h <;> rw [h] at hkind <;> cases hkind
  unfold lexAt at h
  split at h
  · cases h
    exact ⟨fun hkind => (by cases hkind), fun hkind => (by cases hkind)⟩
  · next c rest =>
    split_ifs at h with hquote hbracket hpoint hdigit hletter
    · refine ⟨fun _ => ⟨c, rest, by simpa using hquote, rfl, h⟩, fun hkind => ?_⟩
      obtain ⟨inner, rfl, -⟩ := lexString_token h
      cases hkind
    · have hkind := lexLongString_kind h
      exact ⟨fun hstring => by simp [hkind] at hstring, fun hnumber => by simp [hkind] at hnumber⟩
    · have hkind := (lexNumber_kind h).1
      exact ⟨fun hstring => by simp [hkind] at hstring, fun _ => h⟩
    · have hkind := (lexNumber_kind h).1
      exact ⟨fun hstring => by simp [hkind] at hstring, fun _ => h⟩
    · obtain ⟨hstring, hnumber⟩ := hfixed (lexWord_kind h)
      exact ⟨fun hkind => absurd hkind hstring, fun hkind => absurd hkind hnumber⟩
    · obtain ⟨hstring, hnumber⟩ := hfixed (lexSymbol_kind h)
      exact ⟨fun hkind => absurd hkind hstring, fun hkind => absurd hkind hnumber⟩

end Readers

/-! ### Whole texts -/

/-- A lexer that gives these tokens one after the other, and then the end. -/
inductive Lexer.Yields : Lexer → List Token → Prop
  | done {lexer behind : Lexer} {t : Token} (h : lexer.next = (.token t, behind))
      (hkind : t.kind = .eof) : lexer.Yields []
  | token {lexer behind : Lexer} {t : Token} {tokens : List Token}
      (h : lexer.next = (.token t, behind)) (hkind : t.kind ≠ .eof)
      (rest : behind.Yields tokens) : lexer.Yields (t :: tokens)

/-- A text that stands behind another one and is made of gaps and the spellings of tokens; every
token stands at the place where its spelling begins. -/
inductive Spelled : List Char → List Char → List Token → Prop
  | done {before gap : List Char} (hgap : Blank true gap) : Spelled before gap []
  | token {before gap s rest : List Char} {t : Token} {tokens : List Token}
      (hgap : Blank false gap) (hs : s ≠ []) (hspelling : t.IsSpelling s)
      (hposition : t.position = .behind (before ++ gap))
      (hrest : Spelled (before ++ gap ++ s) rest tokens) :
      Spelled before (gap ++ s ++ rest) (t :: tokens)

/-- A text that is read begins with a gap, and behind it stands the token, or nothing. -/
theorem lex_token {text : List Char} {p : Position} {t : Token} {behind : Cursor}
    (h : (Cursor.before text p).lex = (.token t, behind)) :
    ∃ gap rest, text = gap ++ rest ∧ Blank rest.isEmpty gap ∧
      (t.kind = .eof ∧ rest = [] ∨ TokenRead (p.afterAll gap) rest t behind) := by
  simp only [Cursor.lex, Cursor.before, Bool.false_eq_true, if_false] at h
  split at h
  · cases h
  · next cursor hskip =>
    obtain ⟨gap, hgap, rfl, hplace⟩ := skipGap_blank .between p text hskip
    refine ⟨gap, cursor.rest, rfl, hgap, ?_⟩
    rw [hplace] at h
    exact lexAt_token h

/-- A token that is read stands behind the gap before it. -/
theorem exists_lexAt {cursor : Cursor} {t : Token} (h : cursor.lex.1 = .token t) :
    ∃ p cs behind, lexAt p cs = (.token t, behind) := by
  unfold Cursor.lex at h
  split at h
  · cases h
  split at h
  · cases h
  · next behind _ => exact ⟨behind.position, behind.rest, _, Prod.ext h rfl⟩

/-- Taking a token when none was looked at reads it. -/
theorem lex_of_next {cursor : Cursor} {t : Token} {behind : Lexer}
    (h : Lexer.next ⟨cursor, []⟩ = (.token t, behind)) :
    cursor.lex = (.token t, behind.cursor) ∧ behind.queue = [] := by
  obtain ⟨hanswer, rfl⟩ : cursor.lex.1 = .token t ∧ ⟨cursor.lex.2, []⟩ = behind := Prod.mk.inj h
  exact ⟨Prod.ext hanswer rfl, rfl⟩

/-- A token begins where there is neither white space nor a dash. -/
theorem skipGap_stop {p : Position} {c : Char} {rest : List Char} (hspace : isSpace c = false)
    (hdash : c ≠ '-') : skipGap .between p (c :: rest) = (none, .before (c :: rest) p) := by
  rw [skipGap.eq_def]
  dsimp only
  rw [if_neg (by simp [hspace]), if_neg hdash]

/-- A text that one token takes up. -/
theorem yields_single {source : String} {t : Token} {p : Position}
    (h : (Cursor.ofText source).lex = (.token t, .before [] p)) (hkind : t.kind ≠ .eof) :
    (Lexer.ofText source).Yields [t] := by
  have hnext : (Lexer.ofText source).next = (.token t, ⟨.before [] p, []⟩) := by
    rw [Lexer.next, Lexer.ofText]
    simp only [h]
  exact .token hnext hkind (.done (t := .atEnd p) rfl rfl)

/-- Tokens that are read from the place behind a text spell what follows it. -/
theorem spelled_of_yields_behind {lexer : Lexer} {tokens : List Token} (h : lexer.Yields tokens)
    {before text : List Char}
    (hlexer : lexer = ⟨.before text (Position.start.afterAll before), []⟩) :
    Spelled before text tokens := by
  induction h generalizing before text with
  | done h hkind =>
    subst hlexer
    obtain ⟨gap, rest, rfl, hgap, ⟨-, rfl⟩ | ⟨hne, -⟩⟩ := lex_token (lex_of_next h).1
    · simpa using Spelled.done hgap
    · exact absurd hkind hne
  | @token lexer behind t tokens h hkind _ ih =>
    subst hlexer
    obtain ⟨hlex, hqueue⟩ := lex_of_next h
    obtain ⟨gap, _, rfl, hgap, ⟨heof, -⟩ | ⟨-, hposition, s, hs, hspelling, rfl, hplace⟩⟩ :=
      lex_token hlex
    · exact absurd heof hkind
    rw [← Position.afterAll_append] at hposition
    rw [← Position.afterAll_append, ← Position.afterAll_append, ← List.append_assoc] at hplace
    rw [← List.append_assoc]
    refine .token ?_ hs hspelling (hposition.trans (Position.afterAll_start _)) (ih ?_)
    · -- what follows the gap is not empty, so it is not the last one
      rwa [List.isEmpty_eq_false_iff.2 (by simp [hs])] at hgap
    · cases behind
      cases hqueue
      exact congrArg (Lexer.mk · []) hplace

/-- **Reading a text loses nothing of it.**  A text that gives tokens without an error up to its
end is made of gaps and of the spellings of these tokens, and every token carries the line and the
column of its first character. -/
theorem spelled_of_yields (source : String) (tokens : List Token)
    (h : (Lexer.ofText source).Yields tokens) : Spelled [] source.toList tokens :=
  spelled_of_yields_behind h rfl

/-- The tokens of a text that is read as a whole are those a lexer gives one by one. -/
theorem yields_of_tokensFrom {fuel : Nat} {cursor : Cursor} {tokens : List Token} {last : Token}
    (h : tokensFrom fuel cursor = (tokens ++ [last]).map .ok) (hlast : last.kind = .eof) :
    Lexer.Yields ⟨cursor, []⟩ tokens := by
  induction fuel generalizing cursor tokens with
  | zero => cases tokens <;> cases h
  | succ fuel ih =>
    unfold tokensFrom at h
    split at h
    · next t behind hlex =>
      have hnext : Lexer.next ⟨cursor, []⟩ = (.token t, ⟨behind, []⟩) := by
        simp only [Lexer.next, hlex]
      cases tokens with
      | nil =>
        obtain ⟨hfirst, -⟩ := List.cons.inj h
        cases hfirst
        exact .done hnext hlast
      | cons first tokens =>
        obtain ⟨hfirst, hrest⟩ := List.cons.inj h
        cases hfirst
        split_ifs at hrest with hkind
        · simp at hrest
        · exact .token hnext hkind (ih hrest)
    · cases tokens <;> simp at h
    · cases tokens <;> simp at h

theorem yields_of_tokenize {source : String} {tokens : List Token} (last : Token)
    (h : tokenize source = (tokens ++ [last]).map .ok) (hlast : last.kind = .eof) :
    (Lexer.ofText source).Yields tokens :=
  yields_of_tokensFrom h hlast

/-- A comment with a character of two bytes, brackets over two lines, a comment in brackets and a
quoted string. -/
theorem spelled_of_yields_assignment :
    Spelled [] "--é\nx = [[\na]]--[[]\n]] .. 'é' -- end".toList
      [⟨.name, "x", ⟨2, 1⟩⟩, ⟨.assign, "=", ⟨2, 3⟩⟩, ⟨.longString, "a", ⟨2, 5⟩⟩,
        ⟨.concat, "..", ⟨4, 4⟩⟩, ⟨.string, "é", ⟨4, 7⟩⟩] := by
  refine spelled_of_yields _ _ (yields_of_tokenize (.atEnd ⟨4, 17⟩) ?_ rfl)
  decide +kernel

end ScriptEngine
