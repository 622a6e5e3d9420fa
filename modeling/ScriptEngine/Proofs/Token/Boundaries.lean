import Mathlib.Logic.Function.Iterate
import ScriptEngine.Proofs.Token.Lookahead
import ScriptEngine.Proofs.Token.Octets

/-!
# Where reading stands

A lexer goes on where its last attempt stopped, also behind an error.  What it has read ends before
a character, with one exception: an escape that is refused takes one byte behind the backslash,
and if a longer character stands there the reader is left inside of it.  From then on no text can
be cut out and every read fails.

## Main definitions

* `RestsIn` — where reading a token comes to rest in a text.
* `Cursor.behind`, `OctetCursor.behind` — where some number of reads ends.
* `Cursor.Within` — a cursor in a text, torn by an escape only.
* `Lexer.Advances` — what a request does to the cursor of a lexer.

## Main results

* `Cursor.restsIn_lex` — every reader stops before a character or behind a refused escape.
* `OctetCursor.encodedAs_behind` — a text and its bytes are read alike, read after read.
* `Lexer.inside_only_after_escape` — **only a refused escape leaves the reader inside of a
  character.**
-/

namespace ScriptEngine

/-- Where reading a token comes to rest in a text.  Only a refused escape leaves the cursor inside
of a character, the one behind the backslash. -/
structure RestsIn (cs : List Char) (read : Answer × Cursor) : Prop where
  reads : read.1 ≠ .insideCharacter
  rest : read.2.rest <:+ cs
  torn : read.2.torn → ∃ e p, 0x80 ≤ e.toNat ∧ '\\' :: e :: read.2.rest <:+ cs ∧
    read.1 = .error ⟨.invalidEscape, p⟩

section Readers

variable {p opened : Position} {c quote : Char} {cs cs' rest read : List Char} {answer : Answer}

theorem restsIn_before (hanswer : answer ≠ .insideCharacter) (hrest : rest <:+ cs) :
    RestsIn cs (answer, .before rest p) where
  reads := hanswer
  rest := hrest
  torn h := by cases h

theorem RestsIn.mono {read : Answer × Cursor} (h : RestsIn cs read) (hcs : cs <:+ cs') :
    RestsIn cs' read where
  reads := h.reads
  rest := h.rest.trans hcs
  torn htorn := by
    obtain ⟨e, p, he, hescape, hread⟩ := h.torn htorn
    exact ⟨e, p, he, hescape.trans hcs, hread⟩

theorem restsIn_lexString : RestsIn cs (lexString quote opened read p cs) := by
  fun_induction lexString quote opened read p cs with
  | case1 => exact restsIn_before (by simp) List.suffix_rfl
  | case2 read p rest => exact restsIn_before (by simp) (List.suffix_cons _ _)
  | case3 read p _ => exact restsIn_before (by simp) (List.suffix_cons _ _)
  | case4 read p e rest _ _ ih =>
    exact ih.mono ((List.suffix_cons _ _).trans (List.suffix_cons _ _))
  | case5 read p e rest _ _ =>
    -- the one exit that may leave a torn cursor
    refine ⟨by simp, (List.suffix_cons _ _).trans (List.suffix_cons _ _), fun htorn => ?_⟩
    exact ⟨e, p.after '\\', by simpa using htorn, List.suffix_rfl, rfl⟩
  | case6 read p rest => exact restsIn_before (by simp) (List.suffix_cons _ _)
  | case7 read p c rest _ _ _ ih => exact ih.mono (List.suffix_cons _ _)

theorem restsIn_lexLongString : RestsIn cs (lexLongString opened p cs) := by
  unfold lexLongString
  split
  · exact restsIn_before (by simp) (List.nil_suffix)
  · next inner rest hsplit =>
    refine restsIn_before (by simp) ?_
    rw [splitLong_append hsplit]
    exact List.suffix_append _ _

theorem restsIn_lexNumber : RestsIn cs (lexNumber p cs) := by
  have hrest : (splitNumber cs).2 <:+ cs := ⟨_, splitNumber_append cs⟩
  unfold lexNumber
  dsimp only
  split
  · exact restsIn_before (by simp) hrest
  · exact restsIn_before (by simp) hrest

theorem restsIn_lexWord : RestsIn cs (lexWord p cs) :=
  restsIn_before (by simp) (List.dropWhile_suffix _)

theorem restsIn_lexSymbol : RestsIn (c :: rest) (lexSymbol p c rest) := by
  unfold lexSymbol
  split
  · exact restsIn_before (by simp) ((List.drop_suffix 1 rest).trans (List.suffix_cons _ _))
  split
  · exact restsIn_before (by simp) (List.suffix_cons _ _)
  · exact restsIn_before (by simp) List.suffix_rfl

theorem restsIn_lexAt : RestsIn cs (lexAt p cs) := by
  unfold lexAt
  split
  · exact restsIn_before (by simp) List.suffix_rfl
  split_ifs
  · exact restsIn_lexString.mono (List.suffix_cons _ _)
  · exact restsIn_lexLongString.mono ((List.tail_suffix _).trans (List.suffix_cons _ _))
  · exact restsIn_lexNumber
  · exact restsIn_lexNumber
  · exact restsIn_lexWord
  · exact restsIn_lexSymbol

theorem skipGap_suffix (g : Gap) (p : Position) (cs : List Char) :
    (skipGap g p cs).2.rest <:+ cs := by
  fun_induction skipGap g p cs with
  | case1 | case5 | case6 | case7 | case9 => exact List.suffix_rfl
  | case2 p c rest hc ih => exact ih.trans (List.suffix_cons c rest)
  | case3 p rest _ ih => exact ih.trans (List.suffix_append ['-', '-', '[', '['] rest)
  | case4 p rest _ _ ih => exact ih.trans (List.suffix_append ['-', '-'] rest)
  | case8 p c rest ih => exact ih.trans (List.suffix_cons c rest)
  | case10 opened p rest ih => exact ih.trans (List.suffix_append [']', ']'] rest)
  | case11 opened p rest _ ih => exact ih.trans (List.suffix_cons ']' rest)
  | case12 opened p c rest _ ih => exact ih.trans (List.suffix_cons c rest)

end Readers

namespace Cursor

variable {cursor : Cursor}

/-- What reading leaves behind a cursor that stands between two characters. -/
theorem restsIn_lex (h : cursor.torn = false) : RestsIn cursor.rest cursor.lex := by
  obtain ⟨error, behind, place, hskip, -⟩ :=
    skipGapOctets_octets .between cursor.position cursor.rest
  have hsuffix : behind <:+ cursor.rest := by
    have hrest := skipGap_suffix .between cursor.position cursor.rest
    rwa [hskip] at hrest
  rw [lex, h, if_neg Bool.false_ne_true, hskip]
  cases error with
  | some e => exact restsIn_before (by simp) hsuffix
  | none => exact restsIn_lexAt.mono hsuffix

/-- A torn cursor stays where it is. -/
theorem lex_of_torn (h : cursor.torn = true) : cursor.lex = (.insideCharacter, cursor) := by
  rw [lex, h, if_pos rfl]

theorem lex_inside_iff : cursor.lex.1 = .insideCharacter ↔ cursor.torn = true := by
  cases htorn : cursor.torn with
  | false => exact iff_of_false (restsIn_lex htorn).reads Bool.false_ne_true
  | true => exact iff_of_true (by rw [lex_of_torn htorn]) rfl

/-- A cursor is torn by a refused escape only. -/
theorem torn_of_lex (h : cursor.lex.2.torn = true) :
    cursor.torn = true ∨ ∃ p, cursor.lex.1 = .error ⟨.invalidEscape, p⟩ := by
  cases htorn : cursor.torn with
  | false =>
    obtain ⟨e, p, -, -, hread⟩ := (restsIn_lex htorn).torn h
    exact .inr ⟨p, hread⟩
  | true => exact .inl rfl

/-- The cursor behind `n` reads of a token. -/
def behind (cursor : Cursor) (n : Nat) : Cursor := (fun c => c.lex.2)^[n] cursor

theorem behind_succ (cursor : Cursor) (n : Nat) :
    cursor.behind (n + 1) = (cursor.behind n).lex.2 :=
  Function.iterate_succ_apply' _ n cursor

theorem behind_add (cursor : Cursor) (m n : Nat) :
    cursor.behind (m + n) = (cursor.behind n).behind m :=
  Function.iterate_add_apply _ m n cursor

/-- A cursor in a text.  If it is torn, it stands in a character behind a backslash. -/
structure Within (text : List Char) (cursor : Cursor) : Prop where
  rest : cursor.rest <:+ text
  torn : cursor.torn → ∃ e, 0x80 ≤ e.toNat ∧ '\\' :: e :: cursor.rest <:+ text

theorem Within.lex {text : List Char} (h : cursor.Within text) : cursor.lex.2.Within text := by
  cases htorn : cursor.torn with
  | false =>
    have hrests := restsIn_lex htorn
    refine ⟨hrests.rest.trans h.rest, fun hbehind => ?_⟩
    obtain ⟨e, p, he, hescape, -⟩ := hrests.torn hbehind
    exact ⟨e, he, hescape.trans h.rest⟩
  | true =>
    rw [lex_of_torn htorn]
    exact h

theorem within_behind (source : String) (n : Nat) :
    ((ofText source).behind n).Within source.toList := by
  induction n with
  | zero => exact ⟨List.suffix_rfl, fun h => by cases h⟩
  | succ n ih =>
    rw [behind_succ]
    exact ih.lex

end Cursor

/-! ### The reader of bytes -/

namespace OctetCursor

/-- The reader of bytes behind `n` reads of a token. -/
def behind (bytes : OctetCursor) (n : Nat) : OctetCursor := (fun b => b.lex.2)^[n] bytes

theorem behind_succ (bytes : OctetCursor) (n : Nat) :
    bytes.behind (n + 1) = (bytes.behind n).lex.2 :=
  Function.iterate_succ_apply' _ n bytes

/-- **A text and its bytes are read alike**, one token after the other. -/
theorem encodedAs_behind (source : String) (n : Nat) :
    ((Cursor.ofText source).behind n).EncodedAs ((ofText source).behind n) := by
  induction n with
  | zero => exact encodedAs_before source.toList .start
  | succ n ih =>
    rw [behind_succ, Cursor.behind_succ]
    exact (readAlike_lex ih).2

/-- Nothing can be cut out exactly where the reader stands inside of a character. -/
theorem lex_inside_iff (source : String) (n : Nat) :
    ((ofText source).behind n).lex.1 = .insideCharacter ↔
      onBoundary ((ofText source).behind n).rest = false := by
  have hencoded := encodedAs_behind source n
  rw [(readAlike_lex hencoded).1, Cursor.lex_inside_iff, ← Bool.not_eq_true,
    hencoded.onBoundary_iff, Bool.not_eq_false]

/-- From between two characters a token starts between two characters. -/
theorem onBoundary_gap {cursor : Cursor} {bytes : OctetCursor} (h : cursor.EncodedAs bytes)
    (htorn : cursor.torn = false) : onBoundary bytes.gap.2.rest := by
  obtain ⟨tail, hrest, -, htail⟩ := h.rest
  obtain rfl : tail = [] := by simpa [htorn] using htail
  obtain ⟨error, behind, place, -, hbytes⟩ :=
    skipGapOctets_octets .between bytes.position cursor.rest
  rw [gap, hrest, List.nil_append, hbytes]
  exact onBoundary_octets behind

end OctetCursor

/-! ### Runs of requests -/

namespace Lexer

variable {lexer lexer' : Lexer} {answer : Answer}

/-- What a request does: some tokens are read; nothing can be cut out only if the cursor was torn
before; and it is torn afterwards only if it was, or by a refused escape. -/
structure Advances (lexer : Lexer) (answer : Option Answer) (lexer' : Lexer) : Prop where
  behind : ∃ n, lexer'.cursor = lexer.cursor.behind n
  inside : answer = some .insideCharacter → lexer.cursor.torn
  torn : lexer'.cursor.torn → lexer.cursor.torn ∨
    ∃ p, answer = some (.error ⟨.invalidEscape, p⟩)

theorem advances_rest {t : Option Token} (h : lexer'.cursor = lexer.cursor) :
    Advances lexer (t.map .token) lexer' where
  behind := ⟨0, h⟩
  inside ht := by cases t <;> cases ht
  torn htorn := .inl (h ▸ htorn)

theorem advances_lex (h : lexer'.cursor = lexer.cursor.lex.2) :
    Advances lexer (some lexer.cursor.lex.1) lexer' where
  behind := ⟨1, h⟩
  inside hanswer := Cursor.lex_inside_iff.1 (Option.some.inj hanswer)
  torn htorn := by
    rw [h] at htorn
    rcases Cursor.torn_of_lex htorn with hbefore | ⟨p, hread⟩
    · exact .inl hbefore
    · exact .inr ⟨p, congrArg some hread⟩

theorem advances_fetch (n : Nat) (lexer : Lexer) :
    Advances lexer (lexer.fetch n).1 (lexer.fetch n).2 := by
  induction n generalizing lexer with
  | zero => exact advances_rest (t := none) rfl
  | succ n ih =>
    have hread : Advances lexer (some lexer.cursor.lex.1) ⟨lexer.cursor.lex.2, lexer.queue⟩ :=
      advances_lex rfl
    rw [fetch]
    split
    · next t cursor hlex =>
      have hrest := ih ⟨cursor, lexer.queue ++ [t]⟩
      -- a token leaves the cursor between two characters
      have htorn : cursor.torn = true → lexer.cursor.torn = true := by
        intro htorn
        rw [hlex] at hread
        rcases hread.torn htorn with hbefore | ⟨p, hp⟩
        · exact hbefore
        · cases hp
      refine ⟨?_, fun hinside => htorn (hrest.inside hinside), fun hbehind => ?_⟩
      · obtain ⟨k, hk⟩ := hrest.behind
        refine ⟨k + 1, hk.trans ?_⟩
        rw [Cursor.behind_add, show cursor = lexer.cursor.lex.2 by rw [hlex]]
        rfl
      · exact (hrest.torn hbehind).imp_left htorn
    · next answer cursor _ hlex =>
      rw [hlex] at hread
      exact hread

theorem advances_ask (lexer : Lexer) (request : Request) :
    Advances lexer (some (lexer.ask request).1) (lexer.ask request).2 := by
  cases request with
  | next =>
    change Advances lexer (some lexer.next.1) lexer.next.2
    rw [next]
    split
    · next t queue hqueue => exact advances_rest (t := some t) rfl
    · exact advances_lex rfl
  | peek ahead =>
    change Advances lexer (some (lexer.peek ahead).1) (lexer.peek ahead).2
    have hfetch := advances_fetch (ahead + 1 - lexer.queue.length) lexer
    rw [peek]
    split
    · next answer lexer' hrun =>
      rw [hrun] at hfetch
      exact hfetch
    · next lexer' hrun =>
      rw [hrun] at hfetch
      refine ⟨hfetch.behind, by simp, fun htorn => ?_⟩
      rcases hfetch.torn htorn with hbefore | ⟨p, hp⟩
      · exact .inl hbefore
      · cases hp

/-- The cursor after a run of requests stands behind some number of reads. -/
theorem exists_behind (lexer : Lexer) (requests : List Request) :
    ∃ n, (lexer.after requests).cursor = lexer.cursor.behind n := by
  induction requests generalizing lexer with
  | nil => exact ⟨0, rfl⟩
  | cons request requests ih =>
    obtain ⟨n, hn⟩ := ih (lexer.ask request).2
    obtain ⟨k, hk⟩ := (advances_ask lexer request).behind
    refine ⟨n + k, ?_⟩
    rw [Cursor.behind_add, ← hk, ← hn]
    rfl

/-- If nothing can be cut out, the cursor was torn at first or an escape was refused before. -/
theorem torn_of_inside {requests : List Request} {request : Request}
    {before behind : List (Request × Answer)}
    (h : lexer.transcript requests = before ++ (request, .insideCharacter) :: behind) :
    lexer.cursor.torn ∨ ∃ entry ∈ before, ∃ p, entry.2 = .error ⟨.invalidEscape, p⟩ := by
  induction requests generalizing lexer before with
  | nil => cases before <;> cases h
  | cons request' requests ih =>
    have hasked := advances_ask lexer request'
    rw [transcript] at h
    cases before with
    | nil =>
      obtain ⟨hentry, -⟩ := List.cons.inj h
      exact .inl (hasked.inside (congrArg (fun entry => some entry.2) hentry))
    | cons entry before =>
      obtain ⟨rfl, hrest⟩ := List.cons.inj h
      rcases ih hrest with htorn | ⟨entry, hentry, p, hp⟩
      · rcases hasked.torn htorn with hbefore | ⟨p, hp⟩
        · exact .inl hbefore
        · exact .inr ⟨_, List.mem_cons_self, p, Option.some.inj hp⟩
      · exact .inr ⟨entry, List.mem_cons_of_mem _ hentry, p, hp⟩

theorem exists_torn_of_mem {requests : List Request} {entry : Request × Answer}
    (h : entry ∈ lexer.transcript requests) (hinside : entry.2 = .insideCharacter) :
    ∃ n, (lexer.cursor.behind n).torn = true := by
  induction requests generalizing lexer with
  | nil => cases h
  | cons request requests ih =>
    have hasked := advances_ask lexer request
    rcases List.mem_cons.1 h with rfl | hrest
    · exact ⟨0, hasked.inside (congrArg some hinside)⟩
    · obtain ⟨n, hn⟩ := ih hrest
      obtain ⟨k, hk⟩ := hasked.behind
      exact ⟨n + k, by rw [Cursor.behind_add, ← hk]; exact hn⟩

/-- Without a backslash before a character from 128 on the cursor is never torn. -/
theorem torn_behind_eq_false {source : String}
    (h : ∀ e, 0x80 ≤ e.toNat → ¬ ['\\', e] <:+: source.toList) (n : Nat) :
    ((Cursor.ofText source).behind n).torn = false := by
  refine Bool.eq_false_iff.2 fun htorn => ?_
  obtain ⟨e, he, hescape⟩ := (Cursor.within_behind source n).torn htorn
  exact h e he ((List.prefix_append ['\\', e] _).isInfix.trans hescape.isInfix)

/-- **Only a refused escape leaves the reader inside of a character.**  After any requests the
cursor is where the reader of bytes stands behind some number of reads, also after errors.  Nothing
can be cut out exactly where that reader is inside of a character, and this is so only after an
escape has been refused.  In a source without a backslash before a character of more than one byte
it never is, every token starts before a character, and every answer is a token or an error. -/
theorem inside_only_after_escape (source : String) (requests : List Request) :
    (∃ n, ((ofText source).after requests).cursor.EncodedAs
      ((OctetCursor.ofText source).behind n)) ∧
    (∀ n, ((OctetCursor.ofText source).behind n).lex.1 = .insideCharacter ↔
      onBoundary ((OctetCursor.ofText source).behind n).rest = false) ∧
    (∀ before request behind,
      (ofText source).transcript requests = before ++ (request, .insideCharacter) :: behind →
      ∃ entry ∈ before, ∃ p, entry.2 = .error ⟨.invalidEscape, p⟩) ∧
    ((∀ e, 0x80 ≤ e.toNat → ¬ ['\\', e] <:+: source.toList) →
      (∀ n, onBoundary ((OctetCursor.ofText source).behind n).rest ∧
        onBoundary ((OctetCursor.ofText source).behind n).gap.2.rest) ∧
      ∀ entry ∈ (ofText source).transcript requests, entry.2 ≠ .insideCharacter) := by
  refine ⟨?_, OctetCursor.lex_inside_iff source, ?_, fun hescape => ⟨fun n => ?_, ?_⟩⟩
  · obtain ⟨n, hn⟩ := exists_behind (ofText source) requests
    exact ⟨n, hn ▸ OctetCursor.encodedAs_behind source n⟩
  · intro before request behind h
    exact (torn_of_inside h).resolve_left Bool.false_ne_true
  · have hencoded := OctetCursor.encodedAs_behind source n
    have htorn := torn_behind_eq_false hescape n
    exact ⟨hencoded.onBoundary_iff.2 htorn, OctetCursor.onBoundary_gap hencoded htorn⟩
  · intro entry hentry hinside
    obtain ⟨n, hn⟩ := exists_torn_of_mem hentry hinside
    exact Bool.eq_false_iff.1 (torn_behind_eq_false hescape n) hn

/-- A text with longer characters in a string and in a comment, none of them escaped. -/
theorem never_inside_of_newline_escape :
    (∀ e, 0x80 ≤ e.toNat → ¬ ['\\', e] <:+: "\x22\\n\u00e9\x22 -- \u00e9".toList) ∧
      ∀ entry ∈ (ofText "\x22\\n\u00e9\x22 -- \u00e9").transcript [.peek 1, .next, .next],
        entry.2 ≠ .insideCharacter := by
  have hescape : ∀ e, 0x80 ≤ e.toNat →
      ¬ ['\\', e] <:+: "\x22\\n\u00e9\x22 -- \u00e9".toList := by
    intro e he h
    obtain rfl : e = 'n' := by simpa [List.infix_cons_iff] using h
    exact absurd he (by decide)
  exact ⟨hescape, ((inside_only_after_escape _ [.peek 1, .next, .next]).2.2.2 hescape).2⟩

/-- A backslash before a longer character: the error is answered, and nothing can be read behind
it. -/
example : (ofText "\x22\\\u00e9").transcript [.next, .next] =
    [(.next, .error ⟨.invalidEscape, ⟨1, 3⟩⟩), (.next, .insideCharacter)] := by
  decide +kernel

end Lexer

end ScriptEngine
