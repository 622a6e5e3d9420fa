import ScriptEngine.Proofs.Token.Encoding
import ScriptEngine.Proofs.Token.Spelling

/-!
# Reading bytes

The lexer reads the bytes of a text and cuts the texts of its tokens out of them; a text that is
cut inside of a character ends the program.  This module reads bytes as the lexer does, and shows
that it finds the same tokens and errors at the same places as reading characters does.  The only
thing that bytes add is where a refused escape stops: behind the first byte of the character that
follows the backslash.

## Main definitions

* `OctetCursor` — the bytes that are still to be read.
* `cutAnswer` — the answer that is made of a text that is cut out.
* `OctetCursor.lex` — reads one token.
* `Cursor.EncodedAs` — a cursor in a text and the one in its bytes.

## Main results

* `skipGapOctets_octets` — gaps are skipped alike.
* `readAlike_lexString`, `splitNumber_octets`, `readAlike_lexSymbol` — tokens are read alike.
* `readAlike_lex` — **reading characters is reading bytes.**
-/

namespace ScriptEngine

/-- The bytes of a source text that are still to be read, and the place of the first one. -/
structure OctetCursor where
  rest : List Char
  position : Position
deriving DecidableEq, Repr

namespace OctetCursor

/-- The cursor before the bytes of a text that begins at a place. -/
def before (rest : List Char) (position : Position) : OctetCursor := ⟨octets rest, position⟩

/-- The cursor at the beginning of a text. -/
def ofText (source : String) : OctetCursor := .before source.toList .start

end OctetCursor

/-! ### The reader of bytes -/

/-- The answer that is made of the text of some bytes, which are cut out before others.  A text
cannot be cut inside of a character. -/
def cutAnswer (s rest : List Char) (answer : String → Answer) : Answer :=
  if onBoundary (s ++ rest) && onBoundary rest then answer (Text.ofBytes (s.map Char.toUInt8))
  else .insideCharacter

/-- Skips white space and comments. -/
def skipGapOctets : Gap → Position → List Char → Option SyntaxError × OctetCursor
  | .between, p, [] => (none, ⟨[], p⟩)
  | .between, p, b :: rest =>
    if isSpace b then skipGapOctets .between (p.afterOctet b) rest
    else if b = '-' then
      match rest with
      | '-' :: '[' :: '[' :: rest =>
        skipGapOctets (.long p) (p.afterOctets ['-', '-', '[', '[']) rest
      | '-' :: rest => skipGapOctets .line (p.afterOctets ['-', '-']) rest
      | rest => (none, ⟨'-' :: rest, p⟩)
    else (none, ⟨b :: rest, p⟩)
  | .line, p, [] => (none, ⟨[], p⟩)
  | .line, p, b :: rest =>
    skipGapOctets (if b = '\n' then .between else .line) (p.afterOctet b) rest
  | .long opened, p, [] => (some ⟨.unfinishedComment, opened⟩, ⟨[], p⟩)
  | .long opened, p, b :: rest =>
    if b = ']' then
      match rest with
      | ']' :: rest => skipGapOctets .between (p.afterOctets [']', ']']) rest
      | rest => skipGapOctets (.long opened) (p.afterOctet ']') rest
    else skipGapOctets (.long opened) (p.afterOctet b) rest

/-- Reads the number that bytes at `p` begin with. -/
def lexNumberOctets (p : Position) (bs : List Char) : Answer × OctetCursor :=
  let (spelling, rest) := splitNumber bs
  (cutAnswer spelling rest fun text =>
    match Number.parse text with
    | some _ => .token ⟨.number, text, p⟩
    | none => .error ⟨.malformedNumber text, p⟩,
    ⟨rest, p.afterOctets spelling⟩)

/-- Reads a quoted string behind its opening quote.  The string was opened at `opened`, and
`read` is what has been read of it, last byte first. -/
def lexStringOctets (quote : Char) (opened : Position) (read : List Char) (p : Position) :
    List Char → Answer × OctetCursor
  | [] => (.error ⟨.unfinishedString, opened⟩, ⟨[], p⟩)
  | b :: rest =>
    if b = '\n' then (.error ⟨.unfinishedString, opened⟩, ⟨rest, p.afterOctet b⟩)
    else if b = '\\' then
      match rest with
      | [] => (.error ⟨.invalidEscape, p.afterOctet b⟩, ⟨[], p.afterOctet b⟩)
      | e :: rest =>
        if Escape.isValid e then
          lexStringOctets quote opened (e :: b :: read) ((p.afterOctet b).afterOctet e) rest
        else
          (.error ⟨.invalidEscape, p.afterOctet b⟩, ⟨rest, (p.afterOctet b).afterOctet e⟩)
    else if b = quote then
      (cutAnswer read.reverse (b :: rest) fun text => .token ⟨.string, text, opened⟩,
        ⟨rest, p.afterOctet b⟩)
    else lexStringOctets quote opened (b :: read) (p.afterOctet b) rest

/-- Reads a bracketed string behind its opening brackets. -/
def lexLongStringOctets (opened p : Position) (bs : List Char) : Answer × OctetCursor :=
  match splitLong bs with
  | none => (.error ⟨.unfinishedLongString, opened⟩, ⟨[], p.afterOctets bs⟩)
  | some (inner, rest) =>
    (cutAnswer inner (']' :: ']' :: rest) fun text =>
      .token ⟨.longString, String.ofList (dropFirstNewline text.toList), opened⟩,
      ⟨rest, (p.afterOctets inner).afterOctets [']', ']']⟩)

/-- Reads the word that bytes at `p` begin with. -/
def lexWordOctets (p : Position) (bs : List Char) : Answer × OctetCursor :=
  let spelling := bs.takeWhile isWordCharacter
  let rest := bs.dropWhile isWordCharacter
  (cutAnswer spelling rest fun text => .token (.word text p), ⟨rest, p.afterOctets spelling⟩)

/-- Reads the symbol that bytes at `p` begin with.  An error names the character that the bytes
from `p` on begin with. -/
def lexSymbolOctets (p : Position) (b : Char) (rest : List Char) : Answer × OctetCursor :=
  match TokenKind.double? (b :: rest.take 1) with
  | some kind =>
    (cutAnswer (b :: rest.take 1) (rest.drop 1) fun text => .token ⟨kind, text, p⟩,
      ⟨rest.drop 1, p.afterOctets (b :: rest.take 1)⟩)
  | none =>
    match TokenKind.single? b with
    | some kind =>
      (cutAnswer [b] rest fun text => .token ⟨kind, text, p⟩, ⟨rest, p.afterOctet b⟩)
    | none =>
      (cutAnswer (b :: rest) [] fun text =>
        .error ⟨.unexpectedCharacter (text.toList.headD '?'), p⟩, ⟨b :: rest, p⟩)

/-- Reads the token that bytes at `p` begin with. -/
def lexOctetsAt (p : Position) : List Char → Answer × OctetCursor
  | [] => (.token (.atEnd p), ⟨[], p⟩)
  | b :: rest =>
    if b = '\x22' || b = '\x27' then lexStringOctets b p [] (p.afterOctet b) rest
    else if b = '[' && rest.head? = some '[' then
      lexLongStringOctets p (p.afterOctets ['[', '[']) rest.tail
    else if b = '.' && rest.head?.any Number.isDigit then lexNumberOctets p (b :: rest)
    else if Number.isDigit b then lexNumberOctets p (b :: rest)
    else if isLetter b then lexWordOctets p (b :: rest)
    else lexSymbolOctets p b rest

namespace OctetCursor

/-- Where the next token starts, or the error that stands before it. -/
def gap (cursor : OctetCursor) : Option SyntaxError × OctetCursor :=
  skipGapOctets .between cursor.position cursor.rest

/-- Reads one token. -/
def lex (cursor : OctetCursor) : Answer × OctetCursor :=
  match cursor.gap with
  | (some e, behind) => (.error e, behind)
  | (none, behind) => lexOctetsAt behind.position behind.rest

end OctetCursor

/-! ### Tests on bytes -/

theorem passesAscii_isSpace : PassesAscii isSpace := by
  intro c hc
  simp only [isSpace, Bool.or_eq_true, decide_eq_true_eq] at hc
  rcases hc with (((rfl | rfl) | rfl) | rfl) | rfl <;> decide

theorem passesAscii_isDigit : PassesAscii Number.isDigit := by
  intro c hc
  simp only [Number.isDigit, Bool.and_eq_true, decide_eq_true_eq] at hc
  omega

theorem passesAscii_isHexDigit : PassesAscii Number.isHexDigit := by
  intro c hc
  simp only [Number.isHexDigit, Number.isDigit, Bool.or_eq_true, Bool.and_eq_true,
    decide_eq_true_eq] at hc
  omega

theorem passesAscii_isLetter : PassesAscii isLetter := by
  intro c hc
  simp only [isLetter, Bool.or_eq_true, Bool.and_eq_true, decide_eq_true_eq] at hc
  rcases hc with (hc | hc) | rfl
  · omega
  · omega
  · decide

theorem passesAscii_isWordCharacter : PassesAscii isWordCharacter := by
  intro c hc
  rcases Bool.or_eq_true_iff.1 hc with hletter | hdigit
  · exact passesAscii_isLetter c hletter
  · exact passesAscii_isDigit c hdigit

theorem passesAscii_isValid : PassesAscii Escape.isValid := by
  intro c hc
  simp only [Escape.isValid, Bool.or_eq_true, decide_eq_true_eq] at hc
  rcases hc with ((((((((rfl | rfl) | rfl) | rfl) | rfl) | rfl) | rfl) | rfl) | rfl) | rfl
  all_goals decide

variable {p : Position} {c : Char} {cs bs rest : List Char}

theorem ne_of_le {a b : Char} (hb : 0x80 ≤ b.toNat) (ha : a.toNat < 0x80) : b ≠ a := by
  rintro rfl
  omega

theorem le_of_mem_octets_singleton (h : 0x80 ≤ c.toNat) : ∀ b ∈ octets [c], 0x80 ≤ b.toNat := by
  obtain ⟨lead, tail, hoctets, hlead, -, htail⟩ := octets_cons_of_le h []
  rw [hoctets, octets_nil, List.append_nil, List.forall_mem_cons]
  refine ⟨by omega, fun b hb => ?_⟩
  have hcontinues := htail b hb
  simp only [isContinuation, Bool.and_eq_true, decide_eq_true_eq] at hcontinues
  exact hcontinues.1

theorem octets_cons_eq_append (c : Char) (cs : List Char) :
    octets (c :: cs) = octets [c] ++ octets cs :=
  octets_append [c] cs

/-- Bytes do not begin with a byte below 128 that the text does not begin with. -/
theorem octets_ne_cons (hc : c.toNat < 0x80) (h : ∀ cs', cs = c :: cs' → False) :
    ∀ bs, octets cs = c :: bs → False := by
  intro bs hbs
  obtain ⟨cs', hcs, -⟩ := exists_of_octets_eq_cons hc hbs
  exact h cs' hcs

/-! ### Gaps -/

section Gaps

variable {b : Char} {opened : Position}

theorem skipGapOctets_space (hb : isSpace b) :
    skipGapOctets .between p (b :: bs) = skipGapOctets .between (p.afterOctet b) bs := by
  rw [skipGapOctets.eq_def]
  exact if_pos hb

theorem skipGapOctets_stop (hspace : ¬ isSpace b) (hdash : b ≠ '-') :
    skipGapOctets .between p (b :: bs) = (none, ⟨b :: bs, p⟩) := by
  rw [skipGapOctets.eq_def]
  exact (if_neg hspace).trans (if_neg hdash)

theorem skipGapOctets_dash (h : ∀ rest, bs = '-' :: rest → False) :
    skipGapOctets .between p ('-' :: bs) = (none, ⟨'-' :: bs, p⟩) := by
  rw [skipGapOctets.eq_def]
  dsimp only
  rw [if_neg (by decide), if_pos rfl]
  split
  · next rest => exact (h _ rfl).elim
  · next rest => exact (h _ rfl).elim
  · rfl

theorem skipGapOctets_dashes (h : ∀ rest, bs = '[' :: '[' :: rest → False) :
    skipGapOctets .between p ('-' :: '-' :: bs) =
      skipGapOctets .line (p.afterOctets ['-', '-']) bs := by
  rw [skipGapOctets.eq_def]
  dsimp only
  rw [if_neg (by decide), if_pos rfl]
  split
  · next rest hrest => exact (h _ (List.cons.inj hrest).2).elim
  · next rest _ hrest => rw [(List.cons.inj hrest).2]
  · next hne => exact (hne _ rfl).elim

theorem skipGapOctets_bracket (h : ∀ rest, bs = ']' :: rest → False) :
    skipGapOctets (.long opened) p (']' :: bs) =
      skipGapOctets (.long opened) (p.afterOctet ']') bs := by
  rw [skipGapOctets.eq_def]
  dsimp only
  rw [if_pos rfl]
  split
  · next rest => exact (h _ rfl).elim
  · rfl

theorem skipGapOctets_inside (hb : b ≠ ']') :
    skipGapOctets (.long opened) p (b :: bs) =
      skipGapOctets (.long opened) (p.afterOctet b) bs := by
  rw [skipGapOctets.eq_def]
  exact if_neg hb

/-- Bytes from 128 on do not end a comment. -/
theorem skipGapOctets_line_append (h : ∀ b ∈ bs, 0x80 ≤ b.toNat) :
    skipGapOctets .line p (bs ++ rest) = skipGapOctets .line (p.afterOctets bs) rest := by
  induction bs generalizing p with
  | nil => rfl
  | cons b bs ih =>
    obtain ⟨hb, hbs⟩ := List.forall_mem_cons.1 h
    rw [List.cons_append, skipGapOctets, if_neg (ne_of_le hb (by decide)), ih hbs]
    rfl

theorem skipGapOctets_long_append (h : ∀ b ∈ bs, 0x80 ≤ b.toNat) :
    skipGapOctets (.long opened) p (bs ++ rest) =
      skipGapOctets (.long opened) (p.afterOctets bs) rest := by
  induction bs generalizing p with
  | nil => rfl
  | cons b bs ih =>
    obtain ⟨hb, hbs⟩ := List.forall_mem_cons.1 h
    rw [List.cons_append, skipGapOctets_inside (ne_of_le hb (by decide)), ih hbs]
    rfl

/-- **Gaps are skipped alike** in a text and in its bytes, and end before a character. -/
theorem skipGapOctets_octets (g : Gap) (p : Position) (cs : List Char) :
    ∃ error behind p', skipGap g p cs = (error, .before behind p') ∧
      skipGapOctets g p (octets cs) = (error, .before behind p') := by
  have hdash (cs : List Char) : octets ('-' :: cs) = '-' :: octets cs :=
    octets_cons_of_lt (by decide)
  have hopen (cs : List Char) : octets ('[' :: cs) = '[' :: octets cs :=
    octets_cons_of_lt (by decide)
  have hclose (cs : List Char) : octets (']' :: cs) = ']' :: octets cs :=
    octets_cons_of_lt (by decide)
  -- a character below 128 is one byte, and the bytes of any other one are passed over together
  fun_induction skipGap g p cs with
  | case1 p => exact ⟨_, _, _, rfl, rfl⟩
  | case2 p c rest hc ih =>
    have hlt : c.toNat < 0x80 := passesAscii_isSpace c hc
    rw [octets_cons_of_lt hlt, skipGapOctets_space hc, Position.afterOctet_of_lt hlt]
    exact ih
  | case3 p rest _ ih =>
    rw [hdash, hdash, hopen, hopen]
    exact ih
  | case4 p rest hrest _ ih =>
    have hnot (bs : List Char) (h : octets rest = '[' :: '[' :: bs) : False := by
      obtain ⟨rest', rfl, h'⟩ := exists_of_octets_eq_cons (by decide) h
      obtain ⟨rest'', rfl, -⟩ := exists_of_octets_eq_cons (by decide) h'.symm
      exact hrest _ rfl
    rw [hdash, hdash, skipGapOctets_dashes hnot]
    exact ih
  | case5 p rest hopening hrest _ =>
    rw [hdash, skipGapOctets_dash (octets_ne_cons (by decide) hrest), ← hdash]
    exact ⟨_, _, _, rfl, rfl⟩
  | case6 p c rest hspace hne =>
    refine ⟨_, _, _, rfl, ?_⟩
    -- the byte that begins a longer character is neither white space nor a dash
    rcases Nat.lt_or_ge c.toNat 0x80 with hlt | hle
    · rw [octets_cons_of_lt hlt, skipGapOctets_stop hspace hne, ← octets_cons_of_lt hlt]
      rfl
    · obtain ⟨lead, tail, hoctets, hlead, -⟩ := octets_cons_of_le hle rest
      have hfail : ¬ isSpace lead :=
        Bool.eq_false_iff.1 (passesAscii_isSpace.eq_false (by omega))
      rw [hoctets, skipGapOctets_stop hfail (ne_of_le (by omega) (by decide)), ← hoctets]
      rfl
  | case7 p => exact ⟨_, _, _, rfl, rfl⟩
  | case8 p c rest ih =>
    rcases Nat.lt_or_ge c.toNat 0x80 with hlt | hle
    · rw [octets_cons_of_lt hlt, skipGapOctets, Position.afterOctet_of_lt hlt]
      exact ih
    · rw [if_neg (ne_of_le hle (by decide))] at ih
      rw [octets_cons_eq_append, skipGapOctets_line_append (le_of_mem_octets_singleton hle),
        Position.afterOctets_octets, if_neg (ne_of_le hle (by decide))]
      exact ih
  | case9 opened p => exact ⟨_, _, _, rfl, rfl⟩
  | case10 opened p rest ih =>
    rw [hclose, hclose]
    exact ih
  | case11 opened p rest hrest ih =>
    rw [hclose, skipGapOctets_bracket (octets_ne_cons (by decide) hrest)]
    exact ih
  | case12 opened p c rest hc ih =>
    rcases Nat.lt_or_ge c.toNat 0x80 with hlt | hle
    · rw [octets_cons_of_lt hlt, skipGapOctets_inside hc, Position.afterOctet_of_lt hlt]
      exact ih
    · rw [octets_cons_eq_append, skipGapOctets_long_append (le_of_mem_octets_singleton hle),
        Position.afterOctets_octets]
      exact ih

end Gaps

/-! ### Tokens -/

/-- That a reader of bytes stands where a cursor does.  If the cursor is torn, the bytes that go
on with the character it stands in come before the rest. -/
structure Cursor.EncodedAs (c : Cursor) (b : OctetCursor) : Prop where
  position : b.position = c.position
  rest : ∃ tail, b.rest = tail ++ octets c.rest ∧ (∀ x ∈ tail, isContinuation x) ∧
    (c.torn = true ↔ tail ≠ [])

/-- That a text and its bytes are read alike. -/
def ReadAlike (read : Answer × Cursor) (readOctets : Answer × OctetCursor) : Prop :=
  readOctets.1 = read.1 ∧ read.2.EncodedAs readOctets.2

theorem encodedAs_before (rest : List Char) (p : Position) :
    (Cursor.before rest p).EncodedAs (.before rest p) where
  position := rfl
  rest := ⟨[], rfl, by simp, by simp [Cursor.before]⟩

theorem readAlike_before {answer : Answer} {b : OctetCursor} (rest : List Char) (p : Position)
    (h : b = .before rest p) : ReadAlike (answer, .before rest p) (answer, b) :=
  ⟨rfl, h ▸ encodedAs_before rest p⟩

theorem Cursor.EncodedAs.onBoundary_iff {c : Cursor} {b : OctetCursor} (h : c.EncodedAs b) :
    onBoundary b.rest ↔ c.torn = false := by
  obtain ⟨tail, hrest, htail, htorn⟩ := h.rest
  rw [hrest, ← Bool.not_eq_true, htorn, not_not]
  cases tail with
  | nil => exact iff_of_true (onBoundary_octets c.rest) rfl
  | cons b tail =>
    have hb : isContinuation b := htail b List.mem_cons_self
    exact iff_of_false (by simp [onBoundary, hb]) (List.cons_ne_nil b tail)

/-- What lies between characters is cut out as it is. -/
theorem cutAnswer_octets (s rest : List Char) (answer : String → Answer) :
    cutAnswer (octets s) (octets rest) answer = answer (String.ofList s) := by
  rw [cutAnswer, ← octets_append, onBoundary_octets, onBoundary_octets, Bool.and_self,
    if_pos rfl, ofBytes_octets]

section Strings

variable {quote b e : Char} {opened : Position} {read : List Char}

theorem lexStringOctets_escape_end :
    lexStringOctets quote opened read p ['\\'] =
      (.error ⟨.invalidEscape, p.afterOctet '\\'⟩, ⟨[], p.afterOctet '\\'⟩) := by
  rw [lexStringOctets.eq_def]
  rfl

theorem lexStringOctets_escape (he : Escape.isValid e) :
    lexStringOctets quote opened read p ('\\' :: e :: bs) =
      lexStringOctets quote opened (e :: '\\' :: read) ((p.afterOctet '\\').afterOctet e) bs := by
  rw [lexStringOctets.eq_def]
  exact if_pos he

theorem lexStringOctets_refused (he : ¬ Escape.isValid e) :
    lexStringOctets quote opened read p ('\\' :: e :: bs) =
      (.error ⟨.invalidEscape, p.afterOctet '\\'⟩,
        ⟨bs, (p.afterOctet '\\').afterOctet e⟩) := by
  rw [lexStringOctets.eq_def]
  exact if_neg he

theorem lexStringOctets_other (hnewline : b ≠ '\n') (hescape : b ≠ '\\') (hquote : b ≠ quote) :
    lexStringOctets quote opened read p (b :: bs) =
      lexStringOctets quote opened (b :: read) (p.afterOctet b) bs := by
  rw [lexStringOctets.eq_def]
  exact (if_neg hnewline).trans ((if_neg hescape).trans (if_neg hquote))

/-- Bytes from 128 on are taken into a string. -/
theorem lexStringOctets_append (hquote : quote.toNat < 0x80) (h : ∀ b ∈ bs, 0x80 ≤ b.toNat) :
    lexStringOctets quote opened read p (bs ++ rest) =
      lexStringOctets quote opened (bs.reverse ++ read) (p.afterOctets bs) rest := by
  induction bs generalizing read p with
  | nil => rfl
  | cons b bs ih =>
    obtain ⟨hb, hbs⟩ := List.forall_mem_cons.1 h
    rw [List.cons_append, lexStringOctets_other (ne_of_le hb (by decide))
      (ne_of_le hb (by decide)) (ne_of_le hb hquote), ih hbs, List.reverse_cons, List.append_assoc]
    rfl

/-- **Quoted strings are read alike.**  A refused escape takes one byte, so that the reader of
bytes is left inside of the character if that was only the first one. -/
theorem readAlike_lexString {read' : List Char} (hquote : quote.toNat < 0x80)
    (hread : read'.reverse = octets read.reverse) :
    ReadAlike (lexString quote opened read p cs)
      (lexStringOctets quote opened read' p (octets cs)) := by
  have hpush {c : Char} {read read' : List Char} (hc : c.toNat < 0x80)
      (hread : read'.reverse = octets read.reverse) :
      (c :: read').reverse = octets (c :: read).reverse := by
    rw [List.reverse_cons, List.reverse_cons, hread, octets_append, octets_cons_of_lt hc,
      octets_nil]
  have hescape (cs : List Char) : octets ('\\' :: cs) = '\\' :: octets cs :=
    octets_cons_of_lt (by decide)
  fun_induction lexString quote opened read p cs generalizing read' with
  | case1 => exact readAlike_before _ _ rfl
  | case2 read p rest =>
    rw [octets_cons_of_lt (by decide), lexStringOctets.eq_def]
    exact readAlike_before _ _ rfl
  | case3 read p _ =>
    rw [hescape, octets_nil, lexStringOctets_escape_end]
    exact readAlike_before _ _ rfl
  | case4 read p e rest he _ ih =>
    have hlt : e.toNat < 0x80 := passesAscii_isValid e he
    rw [hescape, octets_cons_of_lt hlt, lexStringOctets_escape he, Position.afterOctet_of_lt hlt]
    exact ih (hpush hlt (hpush (by decide) hread))
  | case5 read p e rest he _ =>
    rw [hescape]
    rcases Nat.lt_or_ge e.toNat 0x80 with hlt | hle
    · rw [octets_cons_of_lt hlt, lexStringOctets_refused he, Position.afterOctet_of_lt hlt]
      refine ⟨rfl, rfl, [], rfl, by simp, ?_⟩
      simp [hlt]
    · -- only the byte that begins the character is taken
      obtain ⟨lead, tail, hoctets, hlead, htail, hcontinues⟩ := octets_cons_of_le hle rest
      have hfail : ¬ Escape.isValid lead :=
        Bool.eq_false_iff.1 (passesAscii_isValid.eq_false (by omega))
      rw [hoctets, lexStringOctets_refused hfail, Position.afterOctet_of_lead hlead hle]
      refine ⟨rfl, rfl, tail, rfl, hcontinues, ?_⟩
      simp [hle, htail]
  | case6 read p rest hnewline hescaped =>
    rw [octets_cons_of_lt hquote, lexStringOctets.eq_def]
    dsimp only
    rw [if_neg hnewline, if_neg hescaped, if_pos rfl, hread, ← octets_cons_of_lt hquote,
      cutAnswer_octets, Position.afterOctet_of_lt hquote]
    exact readAlike_before _ _ rfl
  | case7 read p c rest hnewline hescaped hother ih =>
    rcases Nat.lt_or_ge c.toNat 0x80 with hlt | hle
    · rw [octets_cons_of_lt hlt, lexStringOctets_other hnewline hescaped hother,
        Position.afterOctet_of_lt hlt]
      exact ih (hpush hlt hread)
    · rw [octets_cons_eq_append,
        lexStringOctets_append hquote (le_of_mem_octets_singleton hle), Position.afterOctets_octets]
      refine ih ?_
      rw [List.reverse_append, List.reverse_reverse, hread, List.reverse_cons, octets_append]

end Strings

section LongStrings

variable {b : Char} {opened : Position}

theorem splitLong_bracket (h : ∀ rest, bs = ']' :: rest → False) :
    splitLong (']' :: bs) = (splitLong bs).map (Prod.map (']' :: ·) id) := by
  rw [splitLong.eq_def]
  dsimp only
  rw [if_pos rfl]
  split
  · next rest => exact (h _ rfl).elim
  · rfl

theorem splitLong_other (hb : b ≠ ']') :
    splitLong (b :: bs) = (splitLong bs).map (Prod.map (b :: ·) id) := by
  rw [splitLong.eq_def]
  exact if_neg hb

/-- Bytes from 128 on close no brackets. -/
theorem splitLong_inside (h : ∀ b ∈ bs, 0x80 ≤ b.toNat) :
    splitLong (bs ++ rest) = (splitLong rest).map (Prod.map (bs ++ ·) id) := by
  induction bs with
  | nil => exact (congrFun Option.map_id _).symm
  | cons b bs ih =>
    obtain ⟨hb, hbs⟩ := List.forall_mem_cons.1 h
    rw [List.cons_append, splitLong_other (ne_of_le hb (by decide)), ih hbs, Option.map_map]
    rfl

theorem splitLong_octets (cs : List Char) :
    splitLong (octets cs) = (splitLong cs).map (Prod.map octets octets) := by
  have hclose (cs : List Char) : octets (']' :: cs) = ']' :: octets cs :=
    octets_cons_of_lt (by decide)
  fun_induction splitLong cs with
  | case1 => rfl
  | case2 rest => rw [hclose, hclose]; rfl
  | case3 rest hrest ih =>
    rw [hclose, splitLong_bracket (octets_ne_cons (by decide) hrest), ih, Option.map_map,
      Option.map_map]
    refine congrArg (Option.map · _) (funext fun parts => ?_)
    exact congrArg (·, _) (hclose parts.1).symm
  | case4 c rest hc ih =>
    rcases Nat.lt_or_ge c.toNat 0x80 with hlt | hle
    · rw [octets_cons_of_lt hlt, splitLong_other hc, ih, Option.map_map, Option.map_map]
      refine congrArg (Option.map · _) (funext fun parts => ?_)
      exact congrArg (·, _) (octets_cons_of_lt hlt).symm
    · rw [octets_cons_eq_append, splitLong_inside (le_of_mem_octets_singleton hle), ih,
        Option.map_map, Option.map_map]
      refine congrArg (Option.map · _) (funext fun parts => ?_)
      exact congrArg (·, _) (octets_cons_eq_append c parts.1).symm

theorem readAlike_lexLongString :
    ReadAlike (lexLongString opened p cs) (lexLongStringOctets opened p (octets cs)) := by
  unfold lexLongString lexLongStringOctets
  rw [splitLong_octets]
  cases splitLong cs with
  | none =>
    refine readAlike_before _ _ ?_
    rw [Position.afterOctets_octets]
    rfl
  | some parts =>
    obtain ⟨inner, rest⟩ := parts
    have hbrackets : ']' :: ']' :: octets rest = octets (']' :: ']' :: rest) := by
      rw [octets_cons_of_lt (by decide), octets_cons_of_lt (by decide)]
    dsimp only [Option.map_some, Prod.map_apply]
    rw [hbrackets, cutAnswer_octets, String.toList_ofList, Position.afterOctets_octets]
    exact readAlike_before _ _ rfl

end LongStrings

section Numbers

theorem splitFraction_octets (cs : List Char) :
    splitFraction (octets cs) = Prod.map id octets (splitFraction cs) := by
  have hpoint (cs : List Char) : octets ('.' :: cs) = '.' :: octets cs :=
    octets_cons_of_lt (by decide)
  fun_cases splitFraction cs with
  | case1 rest => simp [splitFraction, hpoint]
  | case2 tail htail =>
    have hnot := octets_ne_cons (by decide) htail
    simp only [hpoint]
    rw [splitFraction.eq_2 _ hnot, takeWhile_octets passesAscii_isDigit,
      dropWhile_octets passesAscii_isDigit]
    rfl
  | case3 _ _ hcs =>
    have hnot := octets_ne_cons (by decide) hcs
    unfold splitFraction
    split
    · next h => exact (hnot _ h).elim
    · next h => exact (hnot _ h).elim
    · rfl

theorem splitMark_octets (cs : List Char) :
    splitMark (octets cs) = Prod.map id octets (splitMark cs) := by
  have hsmall (cs : List Char) : octets ('e' :: cs) = 'e' :: octets cs :=
    octets_cons_of_lt (by decide)
  have hlarge (cs : List Char) : octets ('E' :: cs) = 'E' :: octets cs :=
    octets_cons_of_lt (by decide)
  have hplus (cs : List Char) : octets ('+' :: cs) = '+' :: octets cs :=
    octets_cons_of_lt (by decide)
  have hminus (cs : List Char) : octets ('-' :: cs) = '-' :: octets cs :=
    octets_cons_of_lt (by decide)
  fun_cases splitMark cs with
  | case1 tail | case2 tail | case4 tail | case5 tail =>
    simp [splitMark, hsmall, hlarge, hplus, hminus]
  | case3 tail hnoplus hnominus | case6 tail hnoplus hnominus =>
    have hnoplus' := octets_ne_cons (by decide) hnoplus
    have hnominus' := octets_ne_cons (by decide) hnominus
    simp [splitMark, hsmall, hlarge]
  | case7 _ _ _ hnosmall _ _ hnolarge =>
    have hnosmall' := octets_ne_cons (by decide) hnosmall
    have hnolarge' := octets_ne_cons (by decide) hnolarge
    unfold splitMark
    split
    case h_7 => rfl
    all_goals first | exact (hnosmall' _ ‹_›).elim | exact (hnolarge' _ ‹_›).elim

theorem splitExponent_octets (mark cs : List Char) :
    splitExponent mark (octets cs) = Prod.map id octets (splitExponent mark cs) := by
  unfold splitExponent
  rw [takeWhile_octets passesAscii_isDigit, dropWhile_octets passesAscii_isDigit]
  split <;> rfl

theorem splitDecimal_octets (cs : List Char) :
    splitDecimal (octets cs) = Prod.map id octets (splitDecimal cs) := by
  unfold splitDecimal
  rw [takeWhile_octets passesAscii_isDigit, dropWhile_octets passesAscii_isDigit,
    splitFraction_octets]
  dsimp only [Prod.map_fst, Prod.map_snd, id]
  rw [splitMark_octets]
  dsimp only [Prod.map_fst, Prod.map_snd, id]
  rw [splitExponent_octets]
  rfl

/-- **Numbers are split off alike.** -/
theorem splitNumber_octets (cs : List Char) :
    splitNumber (octets cs) = Prod.map id octets (splitNumber cs) := by
  have hzero (cs : List Char) : octets ('0' :: cs) = '0' :: octets cs :=
    octets_cons_of_lt (by decide)
  have hx (cs : List Char) : octets ('x' :: cs) = 'x' :: octets cs :=
    octets_cons_of_lt (by decide)
  have hX (cs : List Char) : octets ('X' :: cs) = 'X' :: octets cs :=
    octets_cons_of_lt (by decide)
  by_cases hexadecimal : ∃ c rest, (c = 'x' ∨ c = 'X') ∧ cs = '0' :: c :: rest
  · obtain ⟨c, rest, rfl | rfl, rfl⟩ := hexadecimal
    · rw [hzero, hx, splitNumber, takeWhile_octets passesAscii_isHexDigit,
        dropWhile_octets passesAscii_isHexDigit]
      rfl
    · rw [hzero, hX, splitNumber, takeWhile_octets passesAscii_isHexDigit,
        dropWhile_octets passesAscii_isHexDigit]
      rfl
  · have hnot {c : Char} (hc : c = 'x' ∨ c = 'X') (rest : List Char) (h : cs = '0' :: c :: rest) :
        False := hexadecimal ⟨c, rest, hc, h⟩
    have hnot' {c : Char} (hc : c = 'x' ∨ c = 'X') (bs : List Char)
        (h : octets cs = '0' :: c :: bs) : False := by
      obtain ⟨rest, rfl, hrest⟩ := exists_of_octets_eq_cons (by decide) h
      have hlt : c.toNat < 0x80 := by
        rcases hc with rfl | rfl <;> decide
      obtain ⟨rest', rfl, -⟩ := exists_of_octets_eq_cons hlt hrest.symm
      exact hnot hc rest' rfl
    rw [splitNumber_decimal (hnot (.inl rfl)) (hnot (.inr rfl)),
      splitNumber_decimal (hnot' (.inl rfl)) (hnot' (.inr rfl)), splitDecimal_octets]

/-- The spelling of a number is its own bytes. -/
theorem octets_splitNumber (cs : List Char) : octets (splitNumber cs).1 = (splitNumber cs).1 := by
  have hbytes : (splitNumber cs).1 ++ octets (splitNumber cs).2 = octets cs := by
    rw [← splitNumber_append (octets cs), splitNumber_octets]
    rfl
  have htext : octets (splitNumber cs).1 ++ octets (splitNumber cs).2 = octets cs := by
    rw [← octets_append, splitNumber_append]
  exact List.append_cancel_right (htext.trans hbytes.symm)

theorem readAlike_lexNumber : ReadAlike (lexNumber p cs) (lexNumberOctets p (octets cs)) := by
  unfold lexNumber lexNumberOctets
  rw [splitNumber_octets]
  dsimp only [Prod.map_fst, Prod.map_snd, id]
  rw [← octets_splitNumber, cutAnswer_octets, Position.afterOctets_octets, octets_splitNumber]
  cases Number.parse (String.ofList (splitNumber cs).1) with
  | some value => exact readAlike_before _ _ rfl
  | none => exact readAlike_before _ _ rfl

end Numbers

theorem readAlike_lexWord : ReadAlike (lexWord p cs) (lexWordOctets p (octets cs)) := by
  unfold lexWord lexWordOctets
  dsimp only
  rw [takeWhile_octets passesAscii_isWordCharacter, dropWhile_octets passesAscii_isWordCharacter,
    ← octets_takeWhile passesAscii_isWordCharacter, cutAnswer_octets, Position.afterOctets_octets,
    octets_takeWhile passesAscii_isWordCharacter]
  exact readAlike_before _ _ rfl

section Symbols

variable {b : Char} {kind : TokenKind}

theorem lt_of_double? (h : TokenKind.double? cs = some kind) : ∀ c ∈ cs, c.toNat < 0x80 := by
  unfold TokenKind.double? at h
  split at h
  all_goals cases h
  all_goals simp

theorem lt_of_single? (h : TokenKind.single? c = some kind) : c.toNat < 0x80 := by
  unfold TokenKind.single? at h
  split at h
  all_goals cases h
  all_goals decide

theorem double?_eq_none (h : ∃ c ∈ cs, 0x80 ≤ c.toNat) : TokenKind.double? cs = none := by
  obtain ⟨c, hc, hle⟩ := h
  refine Option.eq_none_iff_forall_ne_some.2 fun kind hkind => ?_
  exact absurd (lt_of_double? hkind c hc) (Nat.not_lt.2 hle)

theorem single?_eq_none (h : 0x80 ≤ c.toNat) : TokenKind.single? c = none :=
  Option.eq_none_iff_forall_ne_some.2 fun _ hkind =>
    absurd (lt_of_single? hkind) (Nat.not_lt.2 h)

/-- Bytes from 128 on begin no symbol. -/
theorem lexSymbolOctets_of_le (hb : 0x80 ≤ b.toNat) :
    lexSymbolOctets p b bs =
      (cutAnswer (b :: bs) [] fun text =>
        .error ⟨.unexpectedCharacter (text.toList.headD '?'), p⟩, ⟨b :: bs, p⟩) := by
  unfold lexSymbolOctets
  rw [double?_eq_none ⟨b, List.mem_cons_self, hb⟩, single?_eq_none hb]

theorem readAlike_unexpected :
    ReadAlike (.error ⟨.unexpectedCharacter c, p⟩, .before (c :: rest) p)
      (cutAnswer (octets (c :: rest)) [] fun text =>
        .error ⟨.unexpectedCharacter (text.toList.headD '?'), p⟩, ⟨octets (c :: rest), p⟩) := by
  rw [← octets_nil, cutAnswer_octets, String.toList_ofList]
  exact readAlike_before _ _ rfl

theorem double?_octets (rest : List Char) :
    TokenKind.double? (c :: (octets rest).take 1) = TokenKind.double? (c :: rest.take 1) := by
  cases rest with
  | nil => rfl
  | cons d rest =>
    rcases Nat.lt_or_ge d.toNat 0x80 with hlt | hle
    · rw [octets_cons_of_lt hlt]
      rfl
    · obtain ⟨lead, tail, hoctets, hlead, -⟩ := octets_cons_of_le hle rest
      have hbytes : TokenKind.double? (c :: (octets (d :: rest)).take 1) = none :=
        double?_eq_none ⟨lead, by simp [hoctets], by omega⟩
      have htext : TokenKind.double? (c :: (d :: rest).take 1) = none :=
        double?_eq_none ⟨d, by simp, hle⟩
      rw [hbytes, htext]

/-- A character below 128 that begins a text is the byte that begins its bytes. -/
theorem take_one_octets (h : ∀ c ∈ rest.take 1, c.toNat < 0x80) :
    (octets rest).take 1 = rest.take 1 ∧ (octets rest).drop 1 = octets (rest.drop 1) := by
  cases rest with
  | nil => exact ⟨rfl, rfl⟩
  | cons d rest =>
    have hd : d.toNat < 0x80 := h d (by simp)
    rw [octets_cons_of_lt hd]
    exact ⟨rfl, rfl⟩

theorem readAlike_lexSymbol (hc : c.toNat < 0x80) :
    ReadAlike (lexSymbol p c rest) (lexSymbolOctets p c (octets rest)) := by
  unfold lexSymbol lexSymbolOctets
  rw [double?_octets]
  cases hdouble : TokenKind.double? (c :: rest.take 1) with
  | some kind =>
    have hascii : ∀ d ∈ c :: rest.take 1, d.toNat < 0x80 := lt_of_double? hdouble
    obtain ⟨htake, hdrop⟩ := take_one_octets (List.forall_mem_cons.1 hascii).2
    dsimp only
    rw [htake, hdrop, ← octets_of_forall_lt hascii, cutAnswer_octets,
      Position.afterOctets_octets, octets_of_forall_lt hascii]
    exact readAlike_before _ _ rfl
  | none =>
    cases hsingle : TokenKind.single? c with
    | some kind =>
      have hspelling : [c] = octets [c] := by rw [octets_cons_of_lt hc, octets_nil]
      dsimp only
      rw [hspelling, cutAnswer_octets, Position.afterOctet_of_lt hc]
      exact readAlike_before _ _ rfl
    | none =>
      dsimp only
      rw [← octets_cons_of_lt hc]
      exact readAlike_unexpected

end Symbols

/-! ### One token -/

theorem head?_octets {a : Char} (ha : a.toNat < 0x80) (cs : List Char) :
    (octets cs).head? = some a ↔ cs.head? = some a := by
  constructor
  · intro h
    obtain ⟨bs, hbs⟩ := List.head?_eq_some_iff.1 h
    obtain ⟨cs', rfl, -⟩ := exists_of_octets_eq_cons ha hbs
    rfl
  · intro h
    obtain ⟨cs', rfl⟩ := List.head?_eq_some_iff.1 h
    rw [octets_cons_of_lt ha]
    rfl

theorem any_head?_octets {f : Char → Bool} (hf : PassesAscii f) (cs : List Char) :
    (octets cs).head?.any f = cs.head?.any f := by
  rw [Bool.eq_iff_iff, Option.any_eq_true, Option.any_eq_true]
  refine exists_congr fun a => and_congr_left fun ha => head?_octets (hf a ha) cs

/-- Bytes from 128 on begin no gap. -/
theorem skipGapOctets_of_le {b : Char} (hb : 0x80 ≤ b.toNat) :
    skipGapOctets .between p (b :: bs) = (none, ⟨b :: bs, p⟩) :=
  skipGapOctets_stop (Bool.eq_false_iff.1 (passesAscii_isSpace.eq_false hb))
    (ne_of_le hb (by decide))

/-- Bytes from 128 on begin no token. -/
theorem lexOctetsAt_of_le {b : Char} (hb : 0x80 ≤ b.toNat) :
    lexOctetsAt p (b :: bs) =
      (cutAnswer (b :: bs) [] fun text =>
        .error ⟨.unexpectedCharacter (text.toList.headD '?'), p⟩, ⟨b :: bs, p⟩) := by
  have hne {a : Char} (ha : a.toNat < 0x80) : b ≠ a := ne_of_le hb ha
  unfold lexOctetsAt
  dsimp only
  rw [if_neg (by simp [hne]), if_neg (by simp [hne]), if_neg (by simp [hne]),
    if_neg (by simp [passesAscii_isDigit.eq_false hb]),
    if_neg (by simp [passesAscii_isLetter.eq_false hb]), lexSymbolOctets_of_le hb]

theorem lexAt_of_le (hc : 0x80 ≤ c.toNat) :
    lexAt p (c :: rest) = (.error ⟨.unexpectedCharacter c, p⟩, .before (c :: rest) p) := by
  have hne {a : Char} (ha : a.toNat < 0x80) : c ≠ a := ne_of_le hc ha
  unfold lexAt
  dsimp only
  rw [if_neg (by simp [hne]), if_neg (by simp [hne]), if_neg (by simp [hne]),
    if_neg (by simp [passesAscii_isDigit.eq_false hc]),
    if_neg (by simp [passesAscii_isLetter.eq_false hc]), lexSymbol,
    double?_eq_none ⟨c, List.mem_cons_self, hc⟩, single?_eq_none hc]

theorem readAlike_lexAt (p : Position) (cs : List Char) :
    ReadAlike (lexAt p cs) (lexOctetsAt p (octets cs)) := by
  cases cs with
  | nil => exact readAlike_before _ _ rfl
  | cons c rest =>
    rcases Nat.lt_or_ge c.toNat 0x80 with hlt | hle
    · have hopen : decide ((octets rest).head? = some '[') = decide (rest.head? = some '[') :=
        decide_eq_decide.2 (head?_octets (by decide) rest)
      rw [octets_cons_of_lt hlt]
      unfold lexAt lexOctetsAt
      dsimp only
      rw [hopen, any_head?_octets passesAscii_isDigit, ← octets_cons_of_lt hlt]
      split_ifs with hquote hbracket hpoint hdigit hletter
      · rw [Position.afterOctet_of_lt hlt]
        exact readAlike_lexString hlt rfl
      · obtain ⟨-, hhead⟩ : c = '[' ∧ rest.head? = some '[' := by simpa using hbracket
        obtain ⟨inner, rfl⟩ := List.head?_eq_some_iff.1 hhead
        rw [octets_cons_of_lt (by decide)]
        exact readAlike_lexLongString
      · exact readAlike_lexNumber
      · exact readAlike_lexNumber
      · exact readAlike_lexWord
      · exact readAlike_lexSymbol hlt
    · obtain ⟨lead, tail, hoctets, hlead, -⟩ := octets_cons_of_le hle rest
      rw [lexAt_of_le hle, hoctets, lexOctetsAt_of_le (by omega), ← hoctets]
      exact readAlike_unexpected

/-- **A token is read alike** in a text and in its bytes.  Inside of a character nothing can be
cut out, and the reader stays there. -/
theorem readAlike_lex {cursor : Cursor} {bytes : OctetCursor} (h : cursor.EncodedAs bytes) :
    ReadAlike cursor.lex bytes.lex := by
  obtain ⟨rest, p, torn⟩ := cursor
  obtain ⟨bs, p'⟩ := bytes
  obtain ⟨rfl : p' = p, tail, rfl : bs = tail ++ octets rest, htail, htorn⟩ := h
  cases tail with
  | nil =>
    obtain rfl : torn = false := by simpa using htorn
    obtain ⟨error, behind, place, htext, hbytes⟩ := skipGapOctets_octets .between p' rest
    have hgap : (OctetCursor.mk (octets rest) p').gap = (error, .before behind place) := hbytes
    rw [List.nil_append, Cursor.lex, OctetCursor.lex, htext, hgap, if_neg Bool.false_ne_true]
    cases error with
    | some e => exact readAlike_before _ _ rfl
    | none => exact readAlike_lexAt place behind
  | cons b tail =>
    obtain rfl : torn = true := by simpa using htorn
    have hb : isContinuation b = true := htail b List.mem_cons_self
    have hle : 0x80 ≤ b.toNat := by
      simp only [isContinuation, Bool.and_eq_true, decide_eq_true_eq] at hb
      exact hb.1
    have hgap : (OctetCursor.mk (b :: tail ++ octets rest) p').gap =
        (none, ⟨b :: tail ++ octets rest, p'⟩) := skipGapOctets_of_le hle
    have hcut (answer : String → Answer) :
        cutAnswer (b :: (tail ++ octets rest)) [] answer = .insideCharacter :=
      if_neg (by simp [onBoundary, hb])
    rw [Cursor.lex, if_pos rfl, OctetCursor.lex, hgap]
    refine ⟨?_, ?_⟩
    · dsimp only
      rw [List.cons_append, lexOctetsAt_of_le hle, hcut]
    · dsimp only
      rw [List.cons_append, lexOctetsAt_of_le hle]
      exact ⟨rfl, b :: tail, rfl, htail, htorn⟩

end ScriptEngine
