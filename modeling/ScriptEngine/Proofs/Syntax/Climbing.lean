import ScriptEngine.Syntax.Parser
import ScriptEngine.Proofs.Syntax.Precedence

/-!
# Precedence climbing

The parser groups operands by the table of operators.  It reads a sequence of operands to its end
and answers with the expression of the one grouping that respects the table, unless that needs
more levels than there are.

## Main definitions

* `Grouping.levels` — the number of levels that reading a grouping takes.
* `Parser.WithinLevels` — a computation that succeeds exactly if there are enough levels.

## Main results

* `Parser.readsOperand` — a grouping is read operator by operator behind its first operand.
* `Parser.run_expression_of_isSequence` — sequences of operands are parsed by the table.
-/

namespace ScriptEngine

namespace Grouping

/-- The number of operators that are read one after the other behind the first operand. -/
def chain : Grouping → Nat
  | binary lhs _ _ _ _ => lhs.chain + 1
  | _ => 0

/-- The levels that reading a grouping takes.  Each of the operators behind the first operand takes
one more, which its right operand is below. -/
def levels : Grouping → Nat
  | atom .. => 1
  | paren _ inner _ _ _ => 1 + inner.levels
  | unary _ _ inner _ => 1 + inner.levels
  | binary lhs _ _ rhs _ => max lhs.levels (lhs.chain + 2 + rhs.levels)

theorem tokens_length_pos (T : Grouping) : 0 < T.tokens.length := by
  cases T <;> simp only [tokens, List.length_cons, List.length_append] <;> omega

theorem chain_lt_length (T : Grouping) : T.chain < T.tokens.length := by
  induction T with
  | binary lhs t o rhs h ih _ =>
    simp only [chain, tokens, List.length_append, List.length_cons]
    omega
  | _ => exact tokens_length_pos _

/-- Parentheses around a grouping leave its expression as it is, for it is no call. -/
theorem isCall_expr (T : Grouping) : T.expr.isCall = false := by
  induction T with
  | atom t e h =>
    unfold Token.atom? at h
    split at h
    all_goals first
      | cases h; rfl
      | (obtain ⟨x, -, rfl⟩ := Option.map_eq_some_iff.1 h; rfl)
      | cases h
  | paren opened inner closed _ _ ih => exact ih
  | unary | binary => rfl

end Grouping

namespace Parser

/-! ### Computations that need levels -/

/-- That a computation has this result if there are enough levels, and fails for want of them
otherwise. -/
def WithinLevels {α : Type} (fits : Prop) (result answer : Except SyntaxError α) : Prop :=
  (fits → result = answer) ∧ (¬ fits → ∃ position, result = .error ⟨.tooManyLevels, position⟩)

variable {α β : Type} {n level limit : Nat} {t : Token}
  {more tokens : List (Except SyntaxError Token)}

theorem run_bind_of_ok {p : Parser α} {f : α → Parser β} {a : α}
    (hp : p.run tokens = .ok (a, more)) : (p >>= f).run tokens = (f a).run more := by
  rw [StateT.run_bind, hp]
  rfl

theorem WithinLevels.bind {p : Parser α} {f : α → Parser β} {fits fits' : Prop} {a : α}
    {answer : Except SyntaxError (β × List (Except SyntaxError Token))}
    (hp : WithinLevels fits (p.run tokens) (.ok (a, more)))
    (hf : WithinLevels fits' ((f a).run more) answer) :
    WithinLevels (fits ∧ fits') ((p >>= f).run tokens) answer := by
  constructor
  · rintro ⟨hfits, hfits'⟩
    rw [run_bind_of_ok (hp.1 hfits), hf.1 hfits']
  · intro hnot
    by_cases hfits : fits
    · rw [run_bind_of_ok (hp.1 hfits)]
      exact hf.2 fun hfits' => hnot ⟨hfits, hfits'⟩
    · obtain ⟨position, hposition⟩ := hp.2 hfits
      exact ⟨position, by rw [StateT.run_bind, hposition]; rfl⟩

theorem WithinLevels.of_eq (result : Except SyntaxError α) : WithinLevels True result result :=
  ⟨fun _ => rfl, fun h => absurd trivial h⟩

theorem WithinLevels.congr {fits fits' : Prop} {result answer : Except SyntaxError α}
    (h : WithinLevels fits result answer) (hfits : fits ↔ fits') :
    WithinLevels fits' result answer :=
  propext hfits ▸ h

theorem WithinLevels.trans {fits fits' : Prop} {result middle answer : Except SyntaxError α}
    (h : WithinLevels fits result middle) (h' : WithinLevels fits' middle answer) :
    WithinLevels (fits ∧ fits') result answer := by
  constructor
  · rintro ⟨hfits, hfits'⟩
    rw [h.1 hfits, h'.1 hfits']
  · intro hnot
    by_cases hfits : fits
    · rw [h.1 hfits]
      exact h'.2 fun hfits' => hnot ⟨hfits, hfits'⟩
    · exact h.2 hfits

/-- What follows a computation that may want levels and wants none itself. -/
theorem WithinLevels.before {p : Parser α} {f : α → Parser β} {fits : Prop} {a : α}
    {answer : Except SyntaxError (β × List (Except SyntaxError Token))}
    (hp : WithinLevels fits (p.run tokens) (.ok (a, more)))
    (hf : WithinLevels True ((f a).run more) answer) :
    WithinLevels fits ((p >>= f).run tokens) answer :=
  (hp.bind hf).congr (and_iff_left trivial)

theorem run_peek : peek.run (.ok t :: more) = .ok (t, .ok t :: more) := rfl

theorem run_next (ht : t.kind ≠ .eof) : next.run (.ok t :: more) = .ok (t, more) := by
  unfold next
  rw [run_bind_of_ok run_peek, if_neg ht]
  rfl

theorem run_discard {p : Parser α} {a : α} (hp : p.run tokens = .ok (a, more)) :
    (discard p).run tokens = .ok ((), more) := by
  have hmap : discard p = (fun _ => ()) <$> p := rfl
  rw [hmap, StateT.run_map, hp]
  rfl

theorem run_expect {kind : TokenKind} (ht : t.kind = kind) (hkind : kind ≠ .eof) :
    (expect kind).run (.ok t :: more) = .ok (t, more) := by
  unfold expect
  rw [run_bind_of_ok (run_next (ht ▸ hkind)), if_pos ht]
  rfl

theorem run_enter (position : Position) :
    WithinLevels (level + 1 ≤ maxSyntaxLevels) ((enter level position).run more)
      (.ok ((), more)) := by
  unfold enter
  constructor
  · intro h
    rw [if_neg (Nat.not_lt.2 h)]
    rfl
  · intro h
    rw [if_pos (Nat.not_le.1 h)]
    exact ⟨position, rfl⟩

/-! ### Reading operands -/

/-- The tokens that an operand is followed by. -/
def EndsOperand (kind : TokenKind) : Prop :=
  kind.binary?.isSome ∨ kind = .closeParen ∨ kind = .eof

theorem EndsOperand.no_suffix {kind : TokenKind} (h : EndsOperand kind) :
    kind ≠ .colon ∧ opensSuffix kind = false := by
  cases kind <;> simp_all [EndsOperand, TokenKind.binary?, opensSuffix]

theorem run_suffixes (e : Expr) (ht : EndsOperand t.kind) :
    (suffixes (n + 1) level e).run (.ok t :: more) = .ok (e, .ok t :: more) := by
  obtain ⟨hcolon, hsuffix⟩ := ht.no_suffix
  rw [suffixes, run_bind_of_ok run_peek, if_neg hcolon, if_pos (by simp [hsuffix])]
  rfl

/-- Operators are read until one follows that does not bind tighter than the limit. -/
theorem run_operators_of_closed (e : Expr) (ht : Grouping.Closed limit [t]) :
    (operators (n + 1) level limit e).run (.ok t :: more) = .ok (e, .ok t :: more) := by
  rw [operators, run_bind_of_ok run_peek]
  cases ho : t.kind.binary? with
  | none => rfl
  | some o =>
    dsimp only
    rw [if_pos (ht t rfl o ho)]
    rfl

/-- A name is read as a variable, and any other token that is an expression alone as a literal. -/
theorem literalOf_of_atom? {e : Expr} (h : t.atom? = some e) :
    t.kind = .name ∧ e = .var t.position t.text ∨
      t.kind ≠ .eof ∧ ∃ value, literalOf t = pure (some value) ∧ e = .literal t.position value := by
  unfold Token.atom? at h
  unfold literalOf
  split at h
  case h_2 hkind =>
    obtain ⟨x, hx, rfl⟩ := Option.map_eq_some_iff.1 h
    exact .inr ⟨by simp [hkind], .number x, by rw [hkind]; simp [hx], rfl⟩
  all_goals cases h
  case h_1 hkind => exact .inl ⟨hkind, rfl⟩
  all_goals next hkind => exact .inr ⟨by simp [hkind], _, by rw [hkind], rfl⟩

theorem run_simple_of_atom? {e : Expr} {t' : Token} (h : t.atom? = some e)
    (ht' : EndsOperand t'.kind) :
    (simple (n + 2) level).run (.ok t :: .ok t' :: more) = .ok (e, .ok t' :: more) := by
  rw [simple, run_bind_of_ok run_peek]
  obtain ⟨hname, rfl⟩ | ⟨heof, value, hvalue, rfl⟩ := literalOf_of_atom? h
  · have hnone : (literalOf t).run (.ok t :: .ok t' :: more) =
        .ok (none, .ok t :: .ok t' :: more) := by
      simp [literalOf, hname]
      rfl
    have hprimary : (primary (n + 1) level).run (.ok t :: .ok t' :: more) =
        .ok (.var t.position t.text, .ok t' :: more) := by
      rw [primary, run_bind_of_ok (run_next (by simp [hname]))]
      simp only [hname]
      rfl
    rw [run_bind_of_ok hnone]
    simp only [hname]
    rw [run_bind_of_ok hprimary, run_suffixes _ ht']
  · have hsome : (literalOf t).run (.ok t :: .ok t' :: more) =
        .ok (some value, .ok t :: .ok t' :: more) := by
      rw [hvalue]
      rfl
    rw [run_bind_of_ok hsome]
    dsimp only
    rw [run_bind_of_ok (run_discard (run_next heof))]
    rfl

/-- That reading an operand brings the parser, over the operators behind the first operand, to
what follows. -/
def ReadsOperand (T : Grouping) : Prop :=
  ∀ (n level limit : Nat) (t : Token) (more : List (Except SyntaxError Token)),
    Grouping.Stands limit T [t] → EndsOperand t.kind → 4 * T.tokens.length ≤ n →
    WithinLevels (level + T.levels ≤ maxSyntaxLevels)
      ((operand (n + 1) level limit).run (T.tokens.map .ok ++ .ok t :: more))
      ((operators (n - T.chain) (level + 1 + T.chain) limit T.expr).run (.ok t :: more))

/-- If no operator that binds tighter follows, the operand is complete. -/
theorem ReadsOperand.of_closed {T : Grouping} (h : ReadsOperand T)
    (hT : Grouping.Stands limit T [t]) (ht : EndsOperand t.kind)
    (hclosed : Grouping.Closed limit [t]) (hn : 4 * T.tokens.length ≤ n) :
    WithinLevels (level + T.levels ≤ maxSyntaxLevels)
      ((operand (n + 1) level limit).run (T.tokens.map .ok ++ .ok t :: more))
      (.ok (T.expr, .ok t :: more)) := by
  have hrun := h n level limit t more hT ht hn
  have hchain := T.chain_lt_length
  obtain ⟨k, hk⟩ : ∃ k, n - T.chain = k + 1 := ⟨n - T.chain - 1, by omega⟩
  rwa [hk, run_operators_of_closed _ hclosed] at hrun

theorem run_operand_of_simple {fits : Prop} {e : Expr} (hunary : t.kind.unary? = none)
    (hsimple : WithinLevels fits ((simple n (level + 1)).run (.ok t :: tokens)) (.ok (e, more))) :
    WithinLevels (level + 1 ≤ maxSyntaxLevels ∧ fits)
      ((operand (n + 1) level limit).run (.ok t :: tokens))
      ((operators n (level + 1) limit e).run more) := by
  rw [operand, run_bind_of_ok run_peek]
  refine (run_enter t.position).bind ?_
  simp only [hunary]
  exact hsimple.before (.of_eq _)

theorem run_simple_of_paren {inner : Grouping} {opened closed : Token}
    (hinner : ReadsOperand inner) (hopened : opened.kind = .openParen)
    (hclosed : closed.kind = .closeParen) (ht : EndsOperand t.kind)
    (hstands : Grouping.Stands 0 inner [closed]) (hend : Grouping.Closed 0 [closed])
    (hn : 4 * inner.tokens.length ≤ n) :
    WithinLevels (level + inner.levels ≤ maxSyntaxLevels)
      ((simple (n + 4) level).run
        (.ok opened :: (inner.tokens.map .ok ++ .ok closed :: .ok t :: more)))
      (.ok (inner.expr, .ok t :: more)) := by
  have hnone : ∀ tokens,
      (literalOf opened).run (.ok opened :: tokens) = .ok (none, .ok opened :: tokens) := by
    intro tokens
    simp [literalOf, hopened]
    rfl
  have hprimary : WithinLevels (level + inner.levels ≤ maxSyntaxLevels)
      ((primary (n + 3) level).run
        (.ok opened :: (inner.tokens.map .ok ++ .ok closed :: .ok t :: more)))
      (.ok (inner.expr, .ok t :: more)) := by
    rw [primary, run_bind_of_ok (run_next (by simp [hopened]))]
    simp only [hopened, expression]
    refine (hinner.of_closed hstands (.inr (.inl hclosed)) hend hn).before ?_
    rw [run_bind_of_ok (run_discard (run_expect hclosed (by decide))), grouped,
      if_neg (by simp [inner.isCall_expr])]
    exact .of_eq _
  rw [simple, run_bind_of_ok run_peek, run_bind_of_ok (hnone _)]
  simp only [hopened]
  refine hprimary.before ?_
  rw [run_suffixes _ ht]
  exact .of_eq _

/-- One operator and its right operand are read, which takes a level. -/
theorem run_operators_of_operator {rhs : Grouping} {tok : Token} {o : BinaryOperator} (e : Expr)
    (h : tok.kind.binary? = some o) (hlimit : limit < o.priority.1) (hrhs : ReadsOperand rhs)
    (hstands : Grouping.Stands o.priority.2 rhs [t]) (ht : EndsOperand t.kind)
    (hclosed : Grouping.Closed o.priority.2 [t]) (hn : 4 * rhs.tokens.length ≤ n) :
    WithinLevels (level + 1 ≤ maxSyntaxLevels ∧ level + 1 + rhs.levels ≤ maxSyntaxLevels)
      ((operators (n + 2) level limit e).run (.ok tok :: (rhs.tokens.map .ok ++ .ok t :: more)))
      ((operators (n + 1) (level + 1) limit (.binary tok.position o e rhs.expr)).run
        (.ok t :: more)) := by
  have hkind : tok.kind ≠ .eof := by
    intro heof
    rw [heof] at h
    cases h
  rw [operators, run_bind_of_ok run_peek]
  simp only [h, if_neg (Nat.not_le.2 hlimit)]
  rw [run_bind_of_ok (run_discard (run_next hkind))]
  exact (run_enter tok.position).bind ((hrhs.of_closed hstands ht hclosed hn).before (.of_eq _))

/-- **Every grouping is read by the operators behind its first operand**, one after the other. -/
theorem readsOperand (T : Grouping) : ReadsOperand T := by
  induction T with
  | atom tok e h =>
    intro n level limit t more hT ht hn
    obtain ⟨k, rfl⟩ : ∃ k, n = k + 2 := ⟨n - 2, by simp [Grouping.tokens] at hn; omega⟩
    have hsimple : WithinLevels True ((simple (k + 2) (level + 1)).run (.ok tok :: .ok t :: more))
        (.ok (e, .ok t :: more)) := by
      rw [run_simple_of_atom? h ht]
      exact .of_eq _
    exact (run_operand_of_simple (Token.kind_of_atom? h).1 hsimple).congr (and_iff_left trivial)
  | paren opened inner closed hopened hclosed ih =>
    intro n level limit t more hT ht hn
    simp only [Grouping.tokens, List.length_cons, List.length_append, List.length_nil] at hn
    obtain ⟨k, rfl⟩ : ∃ k, n = k + 4 := ⟨n - 4, by omega⟩
    have hunary : opened.kind.unary? = none := by rw [hopened]; rfl
    have hsimple : WithinLevels (level + 1 + inner.levels ≤ maxSyntaxLevels)
        ((simple (k + 4) (level + 1)).run
          (.ok opened :: (inner.tokens.map .ok ++ .ok closed :: .ok t :: more)))
        (.ok (inner.expr, .ok t :: more)) :=
      run_simple_of_paren ih hopened hclosed ht hT.paren.1.head hT.paren.2 (by omega)
    have hlevels : level + 1 ≤ maxSyntaxLevels ∧ level + 1 + inner.levels ≤ maxSyntaxLevels ↔
        level + (Grouping.paren opened inner closed hopened hclosed).levels ≤ maxSyntaxLevels := by
      simp only [Grouping.levels]
      omega
    have htokens : (Grouping.paren opened inner closed hopened hclosed).tokens.map Except.ok ++
        .ok t :: more = .ok opened :: (inner.tokens.map .ok ++ .ok closed :: .ok t :: more) := by
      simp [Grouping.tokens]
    rw [htokens]
    exact (run_operand_of_simple hunary hsimple).congr hlevels
  | unary tok o inner h ih =>
    intro n level limit t more hT ht hn
    simp only [Grouping.tokens, List.length_cons] at hn
    obtain ⟨k, rfl⟩ : ∃ k, n = k + 1 := ⟨n - 1, by omega⟩
    have hkind : tok.kind ≠ .eof := by
      intro heof
      rw [heof] at h
      cases h
    have hlevels : level + 1 ≤ maxSyntaxLevels ∧ level + 1 + inner.levels ≤ maxSyntaxLevels ↔
        level + (Grouping.unary tok o inner h).levels ≤ maxSyntaxLevels := by
      simp only [Grouping.levels]
      omega
    refine WithinLevels.congr ?_ hlevels
    rw [operand, Grouping.tokens, List.map_cons, List.cons_append, run_bind_of_ok run_peek]
    refine (run_enter tok.position).bind ?_
    simp only [h]
    rw [run_bind_of_ok (run_discard (run_next hkind))]
    exact (ih.of_closed hT.unary.1 ht hT.unary.2 (by omega)).before (.of_eq _)
  | binary lhs tok o rhs h ihl ihr =>
    intro n level limit t more hT ht hn
    have hchain := lhs.chain_lt_length
    simp only [Grouping.tokens, List.length_cons, List.length_append] at hn
    obtain ⟨k, hk⟩ : ∃ k, n - lhs.chain = k + 2 := ⟨n - lhs.chain - 2, by omega⟩
    have hlhs := ihl n level limit tok (rhs.tokens.map .ok ++ .ok t :: more) hT.left.head
      (.inl (by simp [h])) (by omega)
    rw [hk] at hlhs
    have hlevels : level + lhs.levels ≤ maxSyntaxLevels ∧
        (level + 1 + lhs.chain + 1 ≤ maxSyntaxLevels ∧
          level + 1 + lhs.chain + 1 + rhs.levels ≤ maxSyntaxLevels) ↔
        level + (Grouping.binary lhs tok o rhs h).levels ≤ maxSyntaxLevels := by
      simp only [Grouping.levels]
      omega
    have hrest : n - (Grouping.binary lhs tok o rhs h).chain = k + 1 := by
      simp only [Grouping.chain]
      omega
    have htokens : (Grouping.binary lhs tok o rhs h).tokens.map Except.ok ++ .ok t :: more =
        lhs.tokens.map .ok ++ .ok tok :: (rhs.tokens.map .ok ++ .ok t :: more) := by
      simp [Grouping.tokens]
    rw [hrest, htokens]
    refine (hlhs.trans ?_).congr hlevels
    exact run_operators_of_operator lhs.expr h hT.opens.1 ihr hT.right.1 ht hT.right.2 (by omega)

/-- **Sequences of operands are parsed by the table.**  For every sequence that the end of the text
follows there is exactly one grouping that respects the table, and an expression is read as what
this grouping stands for, up to the end and not further; if there are not enough levels for it,
reading fails for that reason. -/
theorem run_expression_of_isSequence {tokens : List Token} (h : IsSequence tokens) {last : Token}
    (hlast : last.kind = .eof) (behind : List (Except SyntaxError Token)) (level n : Nat)
    (hn : 4 * tokens.length + 2 ≤ n) :
    ∃ T : Grouping, (T.tokens = tokens ∧ T.Respects) ∧
      (∀ T' : Grouping, T'.tokens = tokens → T'.Respects → T' = T) ∧
      WithinLevels (level + T.levels ≤ maxSyntaxLevels)
        ((expression n level).run (tokens.map .ok ++ .ok last :: behind))
        (.ok (T.expr, .ok last :: behind)) := by
  obtain ⟨T, rfl, hT⟩ := h.exists_respecting
  refine ⟨T, ⟨rfl, hT⟩, fun T' htokens hT' => Grouping.eq_of_tokens hT' hT htokens, ?_⟩
  have hnone : last.kind.binary? = none := by rw [hlast]; rfl
  obtain ⟨k, rfl⟩ : ∃ k, n = k + 2 := ⟨n - 2, by omega⟩
  rw [expression]
  exact (readsOperand T).of_closed (hT.stands (.of_none hnone)) (.inr (.inr hlast))
    (Grouping.Closed.of_none hnone) (by omega)

/-- A power between two operators in front of operands, and a product behind it. -/
theorem run_expression_of_isSequence_power :
    (expression 100 0).run ([⟨.minus, "-", ⟨1, 1⟩⟩, ⟨.name, "a", ⟨1, 2⟩⟩, ⟨.caret, "^", ⟨1, 3⟩⟩,
        ⟨.minus, "-", ⟨1, 4⟩⟩, ⟨.name, "b", ⟨1, 5⟩⟩, ⟨.star, "*", ⟨1, 6⟩⟩,
        ⟨.name, "c", ⟨1, 7⟩⟩].map .ok ++ [.ok (.atEnd ⟨1, 8⟩)]) =
      .ok (.binary ⟨1, 6⟩ (.strict (.arith .multiply))
        (.unary ⟨1, 1⟩ .negate (.binary ⟨1, 3⟩ (.strict (.arith .exponent)) (.var ⟨1, 2⟩ "a")
          (.unary ⟨1, 4⟩ .negate (.var ⟨1, 5⟩ "b"))))
        (.var ⟨1, 7⟩ "c"), [.ok (.atEnd ⟨1, 8⟩)]) := by
  have hsequence : IsSequence [⟨.minus, "-", ⟨1, 1⟩⟩, ⟨.name, "a", ⟨1, 2⟩⟩,
      ⟨.caret, "^", ⟨1, 3⟩⟩, ⟨.minus, "-", ⟨1, 4⟩⟩, ⟨.name, "b", ⟨1, 5⟩⟩,
      ⟨.star, "*", ⟨1, 6⟩⟩, ⟨.name, "c", ⟨1, 7⟩⟩] :=
    .operator (.unary rfl (.atom rfl)) rfl
      (.operator (.unary rfl (.atom rfl)) rfl (.operand (.atom rfl)))
  obtain ⟨T, -, hunique, hread⟩ :=
    run_expression_of_isSequence hsequence (rfl : (Token.atEnd ⟨1, 8⟩).kind = .eof) [] 0 100
      (by decide)
  let grouping : Grouping :=
    .binary (.unary ⟨.minus, "-", ⟨1, 1⟩⟩ .negate (.binary (.atom ⟨.name, "a", ⟨1, 2⟩⟩ _ rfl)
      ⟨.caret, "^", ⟨1, 3⟩⟩ (.strict (.arith .exponent))
      (.unary ⟨.minus, "-", ⟨1, 4⟩⟩ .negate (.atom ⟨.name, "b", ⟨1, 5⟩⟩ _ rfl) rfl) rfl) rfl)
      ⟨.star, "*", ⟨1, 6⟩⟩ (.strict (.arith .multiply)) (.atom ⟨.name, "c", ⟨1, 7⟩⟩ _ rfl) rfl
  have hgrouping : grouping.Respects := by
    refine ⟨?_, trivial, ⟨?_, trivial, trivial, trivial, trivial, trivial⟩, trivial⟩ <;>
      show _ < _ <;> decide
  obtain rfl := hunique grouping rfl hgrouping
  exact hread.1 (by decide)

end Parser

end ScriptEngine
