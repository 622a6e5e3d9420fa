import ScriptEngine.Proofs.Token.Boundaries

/-!
# Escapes

A quoted string is checked when it is read, one byte after the other, and its escapes are resolved
later, one character after the other.  Both divide the inside of a string in the same way: what the
lexer passes as an escape is what is resolved as one, and the quote that ends a string is the first
one that no escape holds.

## Main definitions

* `Escape.Part`, `Escape.parts` — the inside of a string as it is divided when it is resolved.
* `Escape.Part.isAccepted` — the parts that the lexer lets pass.
* `Escape.escape`, `Escape.literal` — a text as it is written between quotes, and with them.

## Main results

* `Escape.resolveAll_eq` — what is resolved is what the parts stand for, one by one.
* `lexString_append`, `accepted_of_lexString` — **a string is read where its parts are accepted**,
  and up to the first quote that is a part of its own.
* `Escape.unescape_escape` — what is written is resolved to what it was written for.
* `Lexer.exists_lex_of_mem` — the tokens that a lexer answers are those of plain reading.
* `Escape.literal_read_back` — **a string is resolved as it was checked**: a text that is written
  as one is read back, and none that is read holds an escape that was not accepted.
-/

namespace ScriptEngine

namespace Escape

/-! ### Parts -/

/-- What the inside of a string is made of. -/
inductive Part where
  | plain (c : Char)
  /-- A backslash and the character behind it. -/
  | escape (e : Char)
  /-- A backslash at the end. -/
  | backslash
deriving DecidableEq, Repr

namespace Part

/-- The characters of a part. -/
def spelling : Part → List Char
  | plain c => [c]
  | escape e => ['\\', e]
  | backslash => ['\\']

/-- What a part stands for. -/
def meaning : Part → List Char
  | plain c => [c]
  | escape e => [resolve e]
  | backslash => []

/-- The parts that the lexer lets pass in a string that a quote has opened. -/
def isAccepted (quote : Char) : Part → Bool
  | plain c => c ≠ '\n' && c ≠ quote
  | escape e => isValid e
  | backslash => false

end Part

/-- Divides the inside of a string into its parts. -/
def parts : List Char → List Part
  | [] => []
  | c :: rest =>
    if c = '\\' then
      match rest with
      | [] => [.backslash]
      | e :: rest => .escape e :: parts rest
    else .plain c :: parts rest

/-- Nothing is lost when a string is divided. -/
theorem spelling_parts (cs : List Char) : (parts cs).flatMap Part.spelling = cs := by
  fun_induction parts cs with
  | case1 | case2 => rfl
  | case3 e rest ih => exact congrArg ('\\' :: e :: ·) ih
  | case4 c rest _ ih => exact congrArg (c :: ·) ih

/-- **What is resolved is what the parts stand for.** -/
theorem resolveAll_eq (cs : List Char) : resolveAll cs = (parts cs).flatMap Part.meaning := by
  fun_induction parts cs with
  | case1 | case2 => rfl
  | case3 e rest ih => exact congrArg (resolve e :: ·) ih
  | case4 c rest hc ih => rw [resolveAll_cons_of_ne rest hc, ih]; rfl

theorem parts_cons_of_ne {c : Char} (rest : List Char) (hc : c ≠ '\\') :
    parts (c :: rest) = .plain c :: parts rest := by
  cases rest <;> simp [parts, hc]

/-! ### Writing -/

/-- A character as it is written in a string. -/
def protect (quote c : Char) : List Char :=
  if c = '\\' then ['\\', '\\']
  else if c = quote then ['\\', quote]
  else if c = '\n' then ['\\', 'n']
  else [c]

/-- The characters of a text as they are written in a string. -/
def protectAll (quote : Char) (cs : List Char) : List Char := cs.flatMap (protect quote)

/-- A text as it is written in a string. -/
def escape (quote : Char) (text : String) : String := String.ofList (protectAll quote text.toList)

/-- A text as it is written, with its quotes. -/
def literal (quote : Char) (text : String) : String :=
  String.ofList (quote :: (protectAll quote text.toList ++ [quote]))

section Writing

variable {quote c : Char} {cs : List Char}

/-- The characters that open a string, and close it. -/
def IsQuote (c : Char) : Prop := c = '\x22' ∨ c = '\x27'

theorem IsQuote.ne_backslash (h : IsQuote quote) : quote ≠ '\\' := by
  rcases h with rfl | rfl <;> decide

theorem IsQuote.ne_newline (h : IsQuote quote) : quote ≠ '\n' := by
  rcases h with rfl | rfl <;> decide

theorem IsQuote.isValid (h : IsQuote quote) : isValid quote := by
  rcases h with rfl | rfl <;> decide

theorem IsQuote.resolve (h : IsQuote quote) : resolve quote = quote := by
  rcases h with rfl | rfl <;> rfl

/-- A character is written as one part, which is accepted and stands for it. -/
theorem exists_part_protect (hquote : IsQuote quote) (c : Char) (cs : List Char) :
    ∃ part : Part, parts (protect quote c ++ cs) = part :: parts cs ∧ part.isAccepted quote ∧
      part.meaning = [c] := by
  unfold protect
  split_ifs with hbackslash hc hnewline
  · subst hbackslash
    exact ⟨.escape '\\', rfl, rfl, rfl⟩
  · subst hc
    exact ⟨.escape c, rfl, hquote.isValid, congrArg (fun c => [c]) hquote.resolve⟩
  · subst hnewline
    exact ⟨.escape 'n', rfl, rfl, rfl⟩
  · exact ⟨.plain c, parts_cons_of_ne cs hbackslash, by simp [Part.isAccepted, hc, hnewline], rfl⟩

theorem accepted_protectAll (hquote : IsQuote quote) (cs : List Char) :
    ∀ part ∈ parts (protectAll quote cs), part.isAccepted quote := by
  induction cs with
  | nil => exact fun part h => absurd h List.not_mem_nil
  | cons c cs ih =>
    obtain ⟨part, hparts, haccepted, -⟩ := exists_part_protect hquote c (protectAll quote cs)
    have hcons : protectAll quote (c :: cs) = protect quote c ++ protectAll quote cs := rfl
    rw [hcons, hparts, List.forall_mem_cons]
    exact ⟨haccepted, ih⟩

theorem resolveAll_protectAll (hquote : IsQuote quote) (cs : List Char) :
    resolveAll (protectAll quote cs) = cs := by
  rw [resolveAll_eq]
  induction cs with
  | nil => rfl
  | cons c cs ih =>
    obtain ⟨part, hparts, -, hmeaning⟩ := exists_part_protect hquote c (protectAll quote cs)
    have hcons : protectAll quote (c :: cs) = protect quote c ++ protectAll quote cs := rfl
    rw [hcons, hparts, List.flatMap_cons, hmeaning, ih]
    rfl

/-- **What is written is resolved to what it was written for.** -/
theorem unescape_escape (hquote : IsQuote quote) (text : String) :
    unescape (escape quote text) = text := by
  rw [unescape, escape, String.toList_ofList, resolveAll_protectAll hquote, String.ofList_toList]

end Writing

end Escape

open Escape

/-! ### Reading -/

section Reading

variable {quote : Char} {opened p : Position} {read cs inner : List Char} {t : Token}
  {behind : Cursor}

/-- **Accepted parts are read up to the quote behind them.** -/
theorem lexString_append (hquote : IsQuote quote)
    (h : ∀ part ∈ parts inner, part.isAccepted quote) (opened p : Position)
    (read rest : List Char) :
    lexString quote opened read p (inner ++ quote :: rest) =
      (.token ⟨.string, String.ofList (read.reverse ++ inner), opened⟩,
        .before rest (p.afterAll (inner ++ [quote]))) := by
  -- the lexer takes one part at a time, so that the induction is on the parts
  fun_induction parts inner generalizing read p with
  | case1 =>
    rw [List.nil_append, lexString.eq_def]
    simp [hquote.ne_backslash, hquote.ne_newline, Position.afterAll]
  | case2 => exact absurd (h .backslash (List.mem_singleton_self _)) Bool.false_ne_true
  | case3 e inner ih =>
    obtain ⟨hvalid, hinner⟩ := List.forall_mem_cons.1 h
    have hvalid : isValid e = true := hvalid
    rw [List.cons_append, List.cons_append, lexString.eq_def]
    simp [hvalid, ih hinner, Position.afterAll]
  | case4 c inner hc ih =>
    obtain ⟨hplain, hinner⟩ := List.forall_mem_cons.1 h
    obtain ⟨hnewline, hne⟩ : c ≠ '\n' ∧ c ≠ quote := by simpa [Part.isAccepted] using hplain
    rw [List.cons_append, lexString.eq_def]
    simp [hnewline, hc, hne, ih hinner, Position.afterAll]

/-- **What is read as a string consists of accepted parts.** -/
theorem accepted_of_lexString (h : lexString quote opened read p cs = (.token t, behind)) :
    ∃ inner, t.text = String.ofList (read.reverse ++ inner) ∧
      ∀ part ∈ parts inner, part.isAccepted quote := by
  fun_induction lexString quote opened read p cs with
  | case1 | case2 | case3 | case5 => simp at h
  | case4 read p e rest hvalid _ ih =>
    obtain ⟨inner, htext, hinner⟩ := ih h
    exact ⟨'\\' :: e :: inner, by simp [htext], List.forall_mem_cons.2 ⟨hvalid, hinner⟩⟩
  | case6 read p rest =>
    cases h
    exact ⟨[], by simp, fun part h => absurd h List.not_mem_nil⟩
  | case7 read p c rest hnewline hc hne ih =>
    obtain ⟨inner, htext, hinner⟩ := ih h
    refine ⟨c :: inner, by simp [htext], ?_⟩
    rw [parts_cons_of_ne inner hc, List.forall_mem_cons]
    exact ⟨by simp [Part.isAccepted, hnewline, hne], hinner⟩

end Reading

/-! ### Requests -/

namespace Lexer

/-- Every answer that a lexer gives is among those of plain reading. -/
theorem exists_upcoming_of_mem {lexer : Lexer} {requests : List Request}
    {entry : Request × Answer} (h : entry ∈ lexer.transcript requests) :
    ∃ i, entry.2 = lexer.upcoming i := by
  induction requests generalizing lexer with
  | nil => exact absurd h List.not_mem_nil
  | cons request requests ih =>
    rcases List.mem_cons.1 h with rfl | hrest
    · -- a peek answers what is as far ahead, or an error on the way there
      cases request with
      | next => exact ⟨0, rfl⟩
      | peek ahead =>
        rcases peek_cases lexer ahead with ⟨t, lexer', hpeek, hseen, -⟩ | ⟨k, lexer', hpeek, -⟩
        · exact ⟨ahead, (congrArg Prod.fst hpeek).trans hseen.symm⟩
        · exact ⟨k, congrArg Prod.fst hpeek⟩
    · obtain ⟨i, hi⟩ := ih hrest
      cases request with
      | next => exact ⟨i + 1, hi⟩
      | peek ahead =>
        have hask : lexer.ask (.peek ahead) = lexer.peek ahead := rfl
        rcases peek_cases lexer ahead with
          ⟨t, lexer', hpeek, -, -, -, hkept⟩ | ⟨k, lexer', hpeek, -, -, -, -, hkept⟩
        · rw [hask, hpeek] at hi
          exact ⟨i, hi.trans (congrFun hkept i)⟩
        · rw [hask, hpeek] at hi
          exact ⟨besides k i, hi.trans (hkept i)⟩

/-- Plain reading gives what is read behind one read after the other. -/
theorem upcoming_eq (cursor : Cursor) (i : Nat) :
    (Lexer.mk cursor []).upcoming i = (cursor.behind i).lex.1 := by
  induction i generalizing cursor with
  | zero => rfl
  | succ i ih => exact ih cursor.lex.2

/-- Whatever a lexer is asked for, the tokens that it answers have been read. -/
theorem exists_lex_of_mem {source : String} {requests : List Request} {request : Request}
    {t : Token} (h : (request, .token t) ∈ (ofText source).transcript requests) :
    ∃ i, ((Cursor.ofText source).behind i).lex.1 = .token t := by
  obtain ⟨i, hi⟩ := exists_upcoming_of_mem h
  exact ⟨i, (upcoming_eq _ i).symm.trans hi.symm⟩

end Lexer

/-! ### Whole literals -/

namespace Escape

variable {quote : Char} {inner : List Char}

/-- What is read from accepted parts between two quotes. -/
theorem lex_quoted (hquote : IsQuote quote) (h : ∀ part ∈ parts inner, part.isAccepted quote) :
    (Cursor.ofText (String.ofList (quote :: (inner ++ [quote])))).lex =
      (.token ⟨.string, String.ofList inner, .start⟩,
        .before [] ((Position.start.after quote).afterAll (inner ++ [quote]))) := by
  have hskip (rest : List Char) :
      skipGap .between .start (quote :: rest) = (none, .before (quote :: rest) .start) := by
    rcases hquote with rfl | rfl <;> exact skipGap_stop rfl (by decide)
  have hopen (rest : List Char) : lexAt .start (quote :: rest) =
      lexString quote .start [] (Position.start.after quote) rest := by
    rcases hquote with rfl | rfl <;> rfl
  rw [Cursor.ofText, String.toList_ofList, Cursor.lex, Cursor.before, if_neg Bool.false_ne_true]
  dsimp only
  rw [hskip]
  exact (hopen _).trans (lexString_append hquote h _ _ [] [])

/-- A string whose escapes are resolved as they were checked. -/
structure Resolved (text : String) : Prop where
  spelling : (parts text.toList).flatMap Part.spelling = text.toList
  meaning : unescape text = String.ofList ((parts text.toList).flatMap Part.meaning)
  accepted : ∃ quote, IsQuote quote ∧ ∀ part ∈ parts text.toList, part.isAccepted quote

/-- **A string is resolved as it was checked.**  A text that is written between quotes, with its
backslashes, quotes and newlines escaped, is read as one string token, by characters and by bytes,
and the escapes of this token are resolved to the text.  Whatever a lexer is asked for on any
source, also behind errors, the string tokens it answers are resolved part by part, and every part
is a character that ends no string or an escape that the lexer accepts, never a backslash at the
end. -/
theorem literal_read_back :
    (∀ quote text, IsQuote quote →
      (Lexer.ofText (literal quote text)).Yields [⟨.string, escape quote text, .start⟩] ∧
        (OctetCursor.ofText (literal quote text)).lex.1 =
          .token ⟨.string, escape quote text, .start⟩ ∧
        unescape (escape quote text) = text) ∧
    ∀ source requests request t,
      (request, .token t) ∈ (Lexer.ofText source).transcript requests → t.kind = .string →
        Resolved t.text := by
  refine ⟨fun quote text hquote => ?_, fun source requests request t hmem hkind => ?_⟩
  · have hlex := lex_quoted hquote (accepted_protectAll hquote text.toList)
    refine ⟨yields_single hlex (by simp), ?_, unescape_escape hquote text⟩
    have hread := readAlike_lex (encodedAs_before (literal quote text).toList .start)
    exact hread.1.trans (congrArg Prod.fst hlex)
  · obtain ⟨i, hi⟩ := Lexer.exists_lex_of_mem hmem
    obtain ⟨p, cs, behind, hlex⟩ := exists_lexAt hi
    obtain ⟨quote, rest, hquote, rfl, hstring⟩ := (lexAt_kind hlex).1 hkind
    obtain ⟨inner, htext, hinner⟩ := accepted_of_lexString hstring
    refine ⟨spelling_parts _, congrArg String.ofList (resolveAll_eq _), quote, hquote, ?_⟩
    rw [htext, String.toList_ofList]
    exact hinner

/-- A text with an apostrophe, a newline, a backslash and a longer character, and a string with an
escaped newline behind an error. -/
theorem literal_read_back_newline :
    ((Lexer.ofText "\x27it\\\x27s\\n\\\\é\x27").Yields [⟨.string, "it\\\x27s\\n\\\\é", .start⟩] ∧
      unescape "it\\\x27s\\n\\\\é" = "it\x27s\n\\é") ∧
    (.next, .token ⟨.string, "é\\\n", ⟨1, 5⟩⟩) ∈
      (Lexer.ofText "\x22\\q \x22é\\\n\x22").transcript [.next, .next, .next] ∧
    Resolved "é\\\n" := by
  have hmem : (.next, .token ⟨.string, "é\\\n", ⟨1, 5⟩⟩) ∈
      (Lexer.ofText "\x22\\q \x22é\\\n\x22").transcript [.next, .next, .next] := by
    decide +kernel
  obtain ⟨hyields, -, hunescape⟩ := literal_read_back.1 '\x27' "it\x27s\n\\é" (.inr rfl)
  have hliteral : literal '\x27' "it\x27s\n\\é" = "\x27it\\\x27s\\n\\\\é\x27" := by decide +kernel
  have hescape : escape '\x27' "it\x27s\n\\é" = "it\\\x27s\\n\\\\é" := by decide +kernel
  rw [hliteral, hescape] at hyields
  rw [hescape] at hunescape
  exact ⟨⟨hyields, hunescape⟩, hmem, literal_read_back.2 _ _ _ _ hmem rfl⟩

end Escape

end ScriptEngine
