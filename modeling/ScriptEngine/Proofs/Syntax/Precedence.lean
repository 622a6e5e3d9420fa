import Mathlib.Logic.ExistsUnique
import ScriptEngine.Syntax.Operator
import ScriptEngine.Token.Escape
import ScriptEngine.Number.Numeral

/-!
# Precedence of operators

A sequence of operands with operators between them can be grouped in many ways.  One of them is
right: the one that respects the table of how tightly operators bind.  It always exists, and there
is no other.

## Main definitions

* `BinaryOperator.tightness`, `BinaryOperator.groupsRight` — the table of operators.
* `IsSequence`, `IsOperand` — tokens that form operands with operators between them.
* `Grouping` — a way to group such tokens, and `Grouping.expr` — the expression it stands for.
* `Grouping.Respects` — a grouping as the table wants it.

## Main results

* `givesWay_iff` — the two numbers with which operators bind tell what the table says.
* `Grouping.eq_of_tokens` — two groupings of the same tokens that respect the table are equal.
* `IsSequence.exists_respecting` — every sequence has a grouping that respects the table.
-/

namespace ScriptEngine

/-! ### The table -/

/-- How tightly an operator between two operands binds: the number of its line in the table. -/
def BinaryOperator.tightness : BinaryOperator → Nat
  | .or => 1
  | .and => 2
  | .strict (.compare _) => 3
  | .strict (.arith .bitOr) => 4
  | .strict (.arith .bitXor) => 5
  | .strict (.arith .bitAnd) => 6
  | .strict (.arith .shiftLeft) | .strict (.arith .shiftRight) => 7
  | .strict .concat => 8
  | .strict (.arith .add) | .strict (.arith .subtract) => 9
  | .strict (.arith .multiply) | .strict (.arith .divide) => 10
  | .strict (.arith .floorDivide) | .strict (.arith .modulo) => 10
  | .strict (.arith .exponent) => 12

/-- How tightly an operator in front of its operand binds. -/
def UnaryOperator.tightness : Nat := 11

/-- The operators that group to the right. -/
def BinaryOperator.groupsRight : BinaryOperator → Bool
  | .strict .concat | .strict (.arith .exponent) => true
  | _ => false

/-- Whether the operand between two operators belongs to the second one: if that binds tighter, or
if both stand on one line of the table and group to the right. -/
def BinaryOperator.GivesWay (o o' : BinaryOperator) : Prop :=
  o.tightness < o'.tightness ∨ o.tightness = o'.tightness ∧ o.groupsRight

section Numbers

variable (o o' : BinaryOperator)

/-- How the two numbers of an operator follow from its line: lines behind the eighth are counted
one further, and an operator that groups to the right binds tighter to its left by one. -/
theorem BinaryOperator.priority_eq :
    o.priority.2 = o.tightness + (if 8 < o.tightness then 1 else 0) ∧
      o.priority.1 = o.priority.2 + (if o.groupsRight then 1 else 0) ∧
      (o.groupsRight ↔ o.tightness = 8 ∨ o.tightness = 12) ∧
      0 < o.tightness ∧ o.tightness ≤ 12 ∧ o.tightness ≠ 11 := by
  rcases o with ((_ | _ | _ | _ | _ | _ | _ | _ | _ | _ | _ | _) | _ | _) | _ | _ <;>
    simp [tightness, priority, groupsRight]

/-- An operator binds to its right at most as tightly as to its left, and no operator stands
between the power and the operators in front of an operand. -/
theorem BinaryOperator.priority_bounds :
    o.priority.2 ≤ o.priority.1 ∧ o.priority.1 ≤ o.priority.2 + 1 ∧ o.priority.2 ≤ 13 ∧
      0 < o.priority.1 ∧ o.priority.1 ≠ 13 := by
  have h := o.priority_eq
  grind

/-- **The two numbers of an operator tell what the table says** of two operators and the operand
between them. -/
theorem givesWay_iff : o.GivesWay o' ↔ o.priority.2 < o'.priority.1 := by
  have h := o.priority_eq
  have h' := o'.priority_eq
  unfold BinaryOperator.GivesWay
  grind

theorem tightness_lt_unary :
    o.tightness < UnaryOperator.tightness ↔ o.priority.1 ≤ UnaryOperator.priority := by
  have h := o.priority_eq
  unfold UnaryOperator.tightness UnaryOperator.priority
  grind

theorem unary_lt_tightness :
    UnaryOperator.tightness < o.tightness ↔ UnaryOperator.priority < o.priority.1 := by
  have h := o.priority_eq
  unfold UnaryOperator.tightness UnaryOperator.priority
  grind

end Numbers

/-! ### Sequences and groupings -/

/-- The expression that a token alone is: a name or a literal. -/
def Token.atom? (t : Token) : Option Expr :=
  match t.kind with
  | .name => some (.var t.position t.text)
  | .number => (Number.parse t.text).map fun x => .literal t.position (.number x)
  | .string => some (.literal t.position (.string (Escape.unescape t.text)))
  | .longString => some (.literal t.position (.string t.text))
  | .nilWord => some (.literal t.position .nil)
  | .trueWord => some (.literal t.position (.boolean true))
  | .falseWord => some (.literal t.position (.boolean false))
  | _ => none

/-- A token that is an expression alone is neither an operator nor a parenthesis. -/
theorem Token.kind_of_atom? {t : Token} {e : Expr} (h : t.atom? = some e) :
    t.kind.unary? = none ∧ t.kind ≠ .openParen := by
  unfold Token.atom? at h
  split at h
  all_goals first | cases h; done | (next hkind => rw [hkind]; decide)

mutual

/-- An operand: any number of operators in front of a name, a literal, or a sequence in
parentheses. -/
inductive IsOperand : List Token → Prop
  | atom {t : Token} {e : Expr} (h : t.atom? = some e) : IsOperand [t]
  | paren {opened closed : Token} {inner : List Token} (hopened : opened.kind = .openParen)
      (hclosed : closed.kind = .closeParen) (hinner : IsSequence inner) :
      IsOperand (opened :: (inner ++ [closed]))
  | unary {t : Token} {o : UnaryOperator} {inner : List Token} (h : t.kind.unary? = some o)
      (hinner : IsOperand inner) : IsOperand (t :: inner)

/-- Operands with operators between them. -/
inductive IsSequence : List Token → Prop
  | operand {tokens : List Token} (h : IsOperand tokens) : IsSequence tokens
  | operator {first rest : List Token} {t : Token} {o : BinaryOperator} (hfirst : IsOperand first)
      (h : t.kind.binary? = some o) (hrest : IsSequence rest) : IsSequence (first ++ t :: rest)

end

/-- A way to group a sequence of tokens. -/
inductive Grouping where
  | atom (t : Token) (e : Expr) (h : t.atom? = some e)
  | paren (opened : Token) (inner : Grouping) (closed : Token)
      (hopened : opened.kind = .openParen) (hclosed : closed.kind = .closeParen)
  | unary (t : Token) (o : UnaryOperator) (inner : Grouping) (h : t.kind.unary? = some o)
  | binary (lhs : Grouping) (t : Token) (o : BinaryOperator) (rhs : Grouping)
      (h : t.kind.binary? = some o)

namespace Grouping

/-- The tokens that are grouped, in their order. -/
def tokens : Grouping → List Token
  | atom t _ _ => [t]
  | paren opened inner closed _ _ => opened :: (inner.tokens ++ [closed])
  | unary t _ inner _ => t :: inner.tokens
  | binary lhs t _ rhs _ => lhs.tokens ++ t :: rhs.tokens

/-- The expression that a grouping stands for.  Parentheses leave no trace in it. -/
def expr : Grouping → Expr
  | atom _ e _ => e
  | paren _ inner _ _ _ => inner.expr
  | unary t o inner _ => .unary t.position o inner.expr
  | binary lhs t o rhs _ => .binary t.position o lhs.expr rhs.expr

/-- Whether a grouping may be the left operand of an operator: its own operator has a claim to the
operand between them, and an operator in front of it binds tighter. -/
def FitsLeft (o : BinaryOperator) : Grouping → Prop
  | binary _ _ o' _ _ => ¬ o'.GivesWay o
  | unary .. => o.tightness < UnaryOperator.tightness
  | _ => True

/-- Whether a grouping may be the right operand of an operator.  Operators in front of an operand
are no hindrance. -/
def FitsRight (o : BinaryOperator) : Grouping → Prop
  | binary _ _ o' _ _ => o.GivesWay o'
  | _ => True

/-- Whether a grouping may be the operand behind an operator in front of it. -/
def FitsUnary : Grouping → Prop
  | binary _ _ o _ _ => UnaryOperator.tightness < o.tightness
  | _ => True

/-- That every operator of a grouping has the operands that the table gives it. -/
def Respects : Grouping → Prop
  | atom .. => True
  | paren _ inner _ _ _ => inner.Respects
  | unary _ _ inner _ => inner.FitsUnary ∧ inner.Respects
  | binary lhs _ o rhs _ => lhs.FitsLeft o ∧ rhs.FitsRight o ∧ lhs.Respects ∧ rhs.Respects

/-! ### Where groupings begin and end -/

/-- Whether a grouping is complete before an operator: no operator in it would take the last
operand from those that have it. -/
def Stops (next : BinaryOperator) : Grouping → Prop
  | unary _ _ inner _ => next.priority.1 ≤ UnaryOperator.priority ∧ inner.Stops next
  | binary _ _ o rhs _ => next.priority.1 ≤ o.priority.2 ∧ rhs.Stops next
  | _ => True

/-- Whether all operators that follow the first operand of a grouping bind tighter than a limit. -/
def Opens (limit : Nat) : Grouping → Prop
  | binary lhs _ o _ _ => limit < o.priority.1 ∧ lhs.Opens limit
  | _ => True

variable {T T' : Grouping} {limit : Nat}

theorem opens_zero (T : Grouping) : T.Opens 0 := by
  induction T with
  | binary lhs t o rhs h ihl _ => exact ⟨o.priority_bounds.2.2.2.1, ihl⟩
  | _ => trivial

/-- A grouping that may be the left operand of an operator is complete before it. -/
theorem stops_of_fitsLeft {o : BinaryOperator} (hT : T.Respects) (h : T.FitsLeft o) :
    T.Stops o := by
  induction T with
  | atom | paren => trivial
  | unary t u inner _ ih =>
    have hle := (tightness_lt_unary o).1 h
    refine ⟨hle, ih hT.2 ?_⟩
    cases inner with
    | binary l t' o' r _ =>
      have hlt := (unary_lt_tightness o').1 hT.1
      have := o'.priority_bounds
      exact fun hway => by have := (givesWay_iff o' o).1 hway; omega
    | unary => exact h
    | _ => trivial
  | binary lhs t o' rhs _ _ ih =>
    have hle : o.priority.1 ≤ o'.priority.2 := Nat.not_lt.1 fun hlt => h ((givesWay_iff o' o).2 hlt)
    refine ⟨hle, ih hT.2.2.2 ?_⟩
    cases rhs with
    | binary l t' o'' r _ =>
      have hlt := (givesWay_iff o' o'').1 hT.2.1
      have := o''.priority_bounds
      exact fun hway => by have := (givesWay_iff o'' o).1 hway; omega
    | unary =>
      have := o.priority_bounds
      have := o'.priority_bounds
      refine (tightness_lt_unary o).2 ?_
      show _ ≤ 12
      omega
    | _ => trivial

/-- The operators of a grouping bind tighter than a limit if the last one does. -/
theorem opens_of_root (hT : T.Respects)
    (h : ∀ lhs t o rhs h, T = binary lhs t o rhs h → limit < o.priority.1) : T.Opens limit := by
  induction T with
  | binary lhs t o rhs ho ih _ =>
    refine ⟨h _ _ _ _ _ rfl, ih hT.2.2.1 ?_⟩
    rintro l t' o' r ho' rfl
    have hroot := h _ _ _ _ _ rfl
    have hle := Nat.not_lt.1 fun hlt => hT.1 ((givesWay_iff o' o).2 hlt)
    have := o'.priority_bounds
    omega
  | _ => trivial

theorem opens_of_fitsRight {o : BinaryOperator} (hT : T.Respects) (h : T.FitsRight o) :
    T.Opens o.priority.2 := by
  refine opens_of_root hT ?_
  rintro lhs t o' rhs _ rfl
  exact (givesWay_iff o o').1 h

theorem opens_of_fitsUnary (hT : T.Respects) (h : T.FitsUnary) :
    T.Opens UnaryOperator.priority := by
  refine opens_of_root hT ?_
  rintro lhs t o rhs _ rfl
  exact (unary_lt_tightness o).1 h

/-- That no operator binding tighter than a limit comes next. -/
def Closed (limit : Nat) (rest : List Token) : Prop :=
  ∀ t ∈ rest.head?, ∀ o ∈ t.kind.binary?, o.priority.1 ≤ limit

theorem Closed.nil : Closed limit [] := fun _ ht => nomatch ht

theorem Closed.of_none {t : Token} {rest : List Token} (h : t.kind.binary? = none) :
    Closed limit (t :: rest) := by
  intro t ht o ho
  cases ht
  rw [h] at ho
  cases ho

/-- That a grouping is read where operators have to bind tighter than a limit, and that it is
complete before what follows it. -/
structure Stands (limit : Nat) (T : Grouping) (rest : List Token) : Prop where
  respects : T.Respects
  opens : T.Opens limit
  stops : ∀ t ∈ rest.head?, ∀ o ∈ t.kind.binary?, T.Stops o

/-- What respects the table stands where any operator is welcome and none follows. -/
theorem Respects.stands {rest : List Token} (hT : T.Respects) (hrest : Closed 0 rest) :
    Stands 0 T rest :=
  ⟨hT, T.opens_zero, fun t ht o ho =>
    absurd (hrest t ht o ho) (Nat.not_le.2 o.priority_bounds.2.2.2.1)⟩

namespace Stands

/-- Only the next token matters. -/
theorem head {t : Token} {rest : List Token} (h : Stands limit T (t :: rest)) :
    Stands limit T [t] :=
  ⟨h.respects, h.opens, h.stops⟩

variable {inner lhs rhs : Grouping} {t opened closed : Token} {rest : List Token}

theorem paren {hopened : opened.kind = .openParen} {hclosed : closed.kind = .closeParen}
    (h : Stands limit (.paren opened inner closed hopened hclosed) rest) :
    Stands 0 inner (closed :: rest) ∧ Closed 0 (closed :: rest) := by
  have hnone : closed.kind.binary? = none := by rw [hclosed]; rfl
  have hinner : inner.Respects := h.respects
  exact ⟨hinner.stands (.of_none hnone), .of_none hnone⟩

theorem unary {o : UnaryOperator} {ho : t.kind.unary? = some o}
    (h : Stands limit (.unary t o inner ho) rest) :
    Stands UnaryOperator.priority inner rest ∧ Closed UnaryOperator.priority rest :=
  ⟨⟨h.respects.2, opens_of_fitsUnary h.respects.2 h.respects.1,
    fun t ht o ho => (h.stops t ht o ho).2⟩, fun t ht o ho => (h.stops t ht o ho).1⟩

theorem left {o : BinaryOperator} {ho : t.kind.binary? = some o}
    (h : Stands limit (.binary lhs t o rhs ho) rest) :
    Stands limit lhs (t :: (rhs.tokens ++ rest)) := by
  refine ⟨h.respects.2.2.1, h.opens.2, fun next hnext o' ho' => ?_⟩
  cases hnext
  obtain rfl : o = o' := Option.some.inj (ho.symm.trans ho')
  exact stops_of_fitsLeft h.respects.2.2.1 h.respects.1

theorem right {o : BinaryOperator} {ho : t.kind.binary? = some o}
    (h : Stands limit (.binary lhs t o rhs ho) rest) :
    Stands o.priority.2 rhs rest ∧ Closed o.priority.2 rest :=
  ⟨⟨h.respects.2.2.2, opens_of_fitsRight h.respects.2.2.2 h.respects.2.1,
    fun t ht o ho => (h.stops t ht o ho).2⟩, fun t ht o ho => (h.stops t ht o ho).1⟩

end Stands

/-! ### There is at most one grouping -/

/-- That a grouping is what another one begins with: from its first operand alone up to the
whole. -/
inductive Begins (T : Grouping) : Grouping → Prop
  | refl : T.Begins T
  | binary {lhs rhs : Grouping} {t : Token} {o : BinaryOperator} (hlhs : T.Begins lhs)
      (h : t.kind.binary? = some o) : T.Begins (binary lhs t o rhs h)

namespace Begins

/-- What a grouping begins with stands before the rest of it. -/
theorem stands (h : T.Begins T') {rest : List Token} (hT' : Stands limit T' rest) :
    ∃ more, T'.tokens = T.tokens ++ more ∧ Stands limit T (more ++ rest) := by
  induction h generalizing rest with
  | refl => exact ⟨[], by simp, hT'⟩
  | @binary lhs rhs t o _ h ih =>
    obtain ⟨more, hmore, hstands⟩ := ih hT'.left
    exact ⟨more ++ t :: rhs.tokens, by simp [tokens, hmore], by simpa using hstands⟩

/-- What a grouping begins with is the whole of it, or there is an operator behind it. -/
theorem eq_or_operator (h : T.Begins T') : T = T' ∨
    ∃ (t : Token) (o : BinaryOperator) (rhs : Grouping) (ho : t.kind.binary? = some o),
      (Grouping.binary T t o rhs ho).Begins T' := by
  induction h with
  | refl => exact .inl rfl
  | @binary lhs rhs t o _ h ih =>
    obtain rfl | ⟨t', o', rhs', ho', hbegins⟩ := ih
    · exact .inr ⟨t, o, rhs, h, .refl⟩
    · exact .inr ⟨t', o', rhs', ho', .binary hbegins h⟩

/-- A grouping that another one begins with is all of it if no further operator follows. -/
theorem eq_of_closed (h : T.Begins T') {rest rest' : List Token} (hT' : Stands limit T' rest')
    (heq : T.tokens ++ rest = T'.tokens ++ rest') (hclosed : Closed limit rest) : T = T' := by
  obtain rfl | ⟨t, o, rhs, htoken, hbegins⟩ := h.eq_or_operator
  · rfl
  · obtain ⟨more, hmore, hstands⟩ := hbegins.stands hT'
    have hrest : rest = t :: (rhs.tokens ++ more ++ rest') := by
      rw [hmore] at heq
      simpa [tokens] using heq
    have hle := hclosed t (by simp [hrest]) o htoken
    exact absurd hstands.opens.1 (Nat.not_lt.2 hle)

end Begins

/-- The first operand of a grouping, behind which there is the rest of it. -/
theorem exists_first (T : Grouping) :
    ∃ first : Grouping, first.Begins T ∧ ∀ lhs t o rhs h, first ≠ binary lhs t o rhs h := by
  induction T with
  | binary lhs t o rhs h ih _ =>
    obtain ⟨first, hfirst, hne⟩ := ih
    exact ⟨first, .binary hfirst h, hne⟩
  | _ => exact ⟨_, .refl, fun _ _ _ _ _ => by simp⟩

/-- Of two groupings of the same tokens, both complete before what follows them, the second one
begins with the first one if nothing follows it that would belong to it. -/
theorem begins_of_tokens {rest rest' : List Token} (hT : Stands limit T rest)
    (hT' : Stands limit T' rest') (hclosed : Closed limit rest')
    (heq : T.tokens ++ rest = T'.tokens ++ rest') : T.Begins T' := by
  induction T generalizing T' limit rest rest' with
  | atom t e h =>
    -- here and in the next two cases the first token tells what the first operand is
    obtain ⟨first, hfirst, hne⟩ := exists_first T'
    obtain ⟨more, hmore, -⟩ := hfirst.stands hT'
    obtain ⟨hunary, hparen⟩ := Token.kind_of_atom? h
    rw [hmore] at heq
    cases first with
    | atom t' e' h' =>
      obtain ⟨rfl, -⟩ := List.cons.inj heq
      obtain rfl : e = e' := Option.some.inj (h.symm.trans h')
      exact hfirst
    | paren _ _ _ hopened _ =>
      obtain ⟨rfl, -⟩ := List.cons.inj heq
      exact absurd hopened hparen
    | unary _ _ _ h' =>
      obtain ⟨rfl, -⟩ := List.cons.inj heq
      rw [hunary] at h'
      cases h'
    | binary => exact absurd rfl (hne _ _ _ _ _)
  | paren opened inner closed hopened hclosed ih =>
    obtain ⟨first, hfirst, hne⟩ := exists_first T'
    obtain ⟨more, hmore, hstands⟩ := hfirst.stands hT'
    rw [hmore] at heq
    cases first with
    | atom t' e' h' =>
      obtain ⟨rfl, -⟩ := List.cons.inj heq
      exact absurd hopened (Token.kind_of_atom? h').2
    | paren opened' inner' closed' hopened' hclosed' =>
      obtain ⟨rfl, htail⟩ := List.cons.inj heq
      have hinner : inner.tokens ++ closed :: rest =
          inner'.tokens ++ closed' :: (more ++ rest') := by
        simpa using htail
      have hbegins := ih hT.paren.1 hstands.paren.1 hstands.paren.2 hinner
      obtain rfl := hbegins.eq_of_closed hstands.paren.1 hinner hT.paren.2
      obtain ⟨rfl, -⟩ := List.cons.inj (List.append_cancel_left hinner)
      exact hfirst
    | unary _ _ _ h' =>
      obtain ⟨rfl, -⟩ := List.cons.inj heq
      rw [hopened] at h'
      cases h'
    | binary => exact absurd rfl (hne _ _ _ _ _)
  | unary t o inner h ih =>
    obtain ⟨first, hfirst, hne⟩ := exists_first T'
    obtain ⟨more, hmore, hstands⟩ := hfirst.stands hT'
    rw [hmore] at heq
    cases first with
    | atom t' e' h' =>
      obtain ⟨rfl, -⟩ := List.cons.inj heq
      rw [(Token.kind_of_atom? h').1] at h
      cases h
    | paren _ _ _ hopened _ =>
      obtain ⟨rfl, -⟩ := List.cons.inj heq
      rw [hopened] at h
      cases h
    | unary t' o' inner' h' =>
      obtain ⟨rfl, htail⟩ := List.cons.inj heq
      obtain rfl : o = o' := Option.some.inj (h.symm.trans h')
      have hinner : inner.tokens ++ rest = inner'.tokens ++ (more ++ rest') := by
        simpa using htail
      have hbegins := ih hT.unary.1 hstands.unary.1 hstands.unary.2 hinner
      obtain rfl := hbegins.eq_of_closed hstands.unary.1 hinner hT.unary.2
      exact hfirst
    | binary => exact absurd rfl (hne _ _ _ _ _)
  | binary lhs t o rhs h ihl ihr =>
    have htokens : lhs.tokens ++ t :: (rhs.tokens ++ rest) = T'.tokens ++ rest' := by
      simpa [tokens] using heq
    obtain rfl | ⟨t', o', rhs', h', hnode⟩ := (ihl hT.left hT' hclosed htokens).eq_or_operator
    · -- the operator would follow the second grouping
      have hrest := (List.append_cancel_left htokens).symm
      have hle := hclosed t (by simp [hrest]) o h
      exact absurd hT.opens.1 (Nat.not_lt.2 hle)
    · obtain ⟨more, hmore, hstands⟩ := hnode.stands hT'
      have hsplit : t :: (rhs.tokens ++ rest) = t' :: (rhs'.tokens ++ (more ++ rest')) := by
        rw [hmore] at htokens
        simpa [tokens] using htokens
      obtain ⟨rfl, hrhs⟩ := List.cons.inj hsplit
      obtain rfl : o = o' := Option.some.inj (h.symm.trans h')
      have hbegins := ihr hT.right.1 hstands.right.1 hstands.right.2 hrhs
      obtain rfl := hbegins.eq_of_closed hstands.right.1 hrhs hT.right.2
      exact hnode

/-- **There is at most one way to group tokens by the table.** -/
theorem eq_of_tokens (hT : T.Respects) (hT' : T'.Respects) (h : T.tokens = T'.tokens) : T = T' := by
  have hstands := hT.stands .nil
  have hstands' := hT'.stands .nil
  have heq : T.tokens ++ [] = T'.tokens ++ [] := by rw [h]
  exact (begins_of_tokens hstands hstands' .nil heq).eq_of_closed hstands' heq .nil

/-! ### There is a grouping -/

/-- The groupings of a single operand. -/
def IsBare : Grouping → Prop
  | unary _ _ inner _ => inner.IsBare
  | binary .. => False
  | _ => True

theorem IsBare.fitsUnary (h : T.IsBare) : T.FitsUnary := by
  cases T with
  | binary => exact h.elim
  | _ => trivial

section Prepend

variable {o : BinaryOperator} {t : Token} (h : t.kind.binary? = some o) {first rest : Grouping}

include h

/-- An operator and all of its right operand behind a single operand.  An operator in front of that
operand takes the result if the one behind binds tighter. -/
theorem exists_attach (hbare : first.IsBare) (hfirst : first.Respects) (hrest : rest.Respects)
    (hfits : rest.FitsRight o) :
    ∃ T : Grouping, T.tokens = first.tokens ++ t :: rest.tokens ∧ T.Respects ∧
      (UnaryOperator.tightness < o.tightness → T.FitsUnary) ∧
      ∀ o' : BinaryOperator, ¬ o.GivesWay o' → T.FitsLeft o' := by
  induction first with
  | atom | paren =>
    exact ⟨binary _ t o rest h, rfl, ⟨trivial, hfits, hfirst, hrest⟩, id, fun _ => id⟩
  | unary t' u inner h' ih =>
    by_cases hloose : o.tightness < UnaryOperator.tightness
    · exact ⟨binary _ t o rest h, rfl, ⟨hloose, hfits, hfirst, hrest⟩, id, fun _ => id⟩
    · obtain ⟨T, htokens, hT, hunary, -⟩ := ih hbare hfirst.2
      have htight : UnaryOperator.tightness < o.tightness := by
        rw [unary_lt_tightness]
        rw [tightness_lt_unary] at hloose
        omega
      refine ⟨unary t' u T h', by simp [tokens, htokens], ⟨hunary htight, hT⟩, fun _ => trivial,
        fun o' hway => (tightness_lt_unary o').2 ?_⟩
      rw [givesWay_iff] at hway
      have hbounds := o.priority_bounds
      have hbounds' := o'.priority_bounds
      show _ ≤ 12
      omega
  | binary => exact hbare.elim

/-- An operand and an operator before a grouping.  The operator goes down to the operand that it has
a claim to. -/
theorem exists_prepend (hbare : first.IsBare) (hfirst : first.Respects) (hrest : rest.Respects) :
    ∃ T : Grouping, T.tokens = first.tokens ++ t :: rest.tokens ∧ T.Respects ∧
      ∀ o' : BinaryOperator, ¬ o.GivesWay o' → rest.FitsLeft o' → T.FitsLeft o' := by
  induction rest with
  | binary lhs t' o' rhs h' ih _ =>
    by_cases hway : o.GivesWay o'
    · obtain ⟨T, htokens, hT, -, hleft⟩ := exists_attach h hbare hfirst hrest hway
      exact ⟨T, htokens, hT, fun o'' hway' _ => hleft o'' hway'⟩
    · obtain ⟨T, htokens, hT, hleft⟩ := ih hrest.2.2.1
      exact ⟨binary T t' o' rhs h', by simp [tokens, htokens],
        ⟨hleft o' hway hrest.1, hrest.2.1, hT, hrest.2.2.2⟩, fun _ _ => id⟩
  | _ =>
    obtain ⟨T, htokens, hT, -, hleft⟩ := exists_attach h hbare hfirst hrest trivial
    exact ⟨T, htokens, hT, fun o'' hway' _ => hleft o'' hway'⟩

end Prepend

end Grouping

mutual

theorem IsOperand.exists_respecting : ∀ {tokens : List Token}, IsOperand tokens →
    ∃ T : Grouping, T.tokens = tokens ∧ T.Respects ∧ T.IsBare
  | _, .atom h => ⟨.atom _ _ h, rfl, trivial, trivial⟩
  | _, .paren hopened hclosed hinner =>
    have ⟨T, htokens, hT⟩ := hinner.exists_respecting
    ⟨.paren _ T _ hopened hclosed, by rw [← htokens]; rfl, hT, trivial⟩
  | _, .unary h hinner =>
    have ⟨T, htokens, hT, hbare⟩ := hinner.exists_respecting
    ⟨.unary _ _ T h, by rw [← htokens]; rfl, ⟨hbare.fitsUnary, hT⟩, hbare⟩

/-- **Every sequence of operands can be grouped by the table.** -/
theorem IsSequence.exists_respecting : ∀ {tokens : List Token}, IsSequence tokens →
    ∃ T : Grouping, T.tokens = tokens ∧ T.Respects
  | _, .operand h =>
    have ⟨T, htokens, hT, _⟩ := h.exists_respecting
    ⟨T, htokens, hT⟩
  | _, .operator hfirst h hrest =>
    have ⟨_, hfirstTokens, hfirst, hbare⟩ := hfirst.exists_respecting
    have ⟨_, hrestTokens, hrest⟩ := hrest.exists_respecting
    have ⟨T, htokens, hT, _⟩ := Grouping.exists_prepend h hbare hfirst hrest
    ⟨T, by rw [htokens, hfirstTokens, hrestTokens], hT⟩

end

end ScriptEngine
