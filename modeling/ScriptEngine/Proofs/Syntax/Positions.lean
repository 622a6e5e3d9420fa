import ScriptEngine.Proofs.Syntax.Standing

/-!
# Tokens of nodes

All places in the tree of a text are places of its tokens.  Each node is at the place of a token of
its own: a literal at that of the token that denotes it, an operator or a statement at that of the
operator or of the word that it begins with.  Calls, indices and assignments have no such token, and
are at the place of their first part.

## Main definitions

* `Token.Denotes` — which literals a token stands for.
* `Node.Marked` — a node is at the places of its own tokens.
* `Node.Signed` — all nodes of a tree are.
* `Parser.Takes` — what holds of the answers of a computation, if something holds of the tokens.
* `Parser.Placing` — where the answers of the parts of the grammar stand.
* `IsTokenPlace` — the places of the tokens of a text.

## Main results

* `signed_of_parse` — all nodes in the tree of a text are at the places of their own tokens.
* `stands_of_parse` — all places in the tree of a text are places of tokens.
-/

namespace ScriptEngine

open Node

/-! ### Tokens of nodes -/

/-- A token stands for a literal.  As a field, a name stands for a string. -/
inductive Token.Denotes (t : Token) : Literal → Prop
  | number {x : Float} (hkind : t.kind = .number) (h : Number.parse t.text = some x) :
      t.Denotes (.number x)
  | string (hkind : t.kind = .string) : t.Denotes (.string (Escape.unescape t.text))
  | longString (hkind : t.kind = .longString) : t.Denotes (.string t.text)
  | field (hkind : t.kind = .name) : t.Denotes (.string t.text)
  | nil (hkind : t.kind = .nilWord) : t.Denotes .nil
  | yes (hkind : t.kind = .trueWord) : t.Denotes (.boolean true)
  | no (hkind : t.kind = .falseWord) : t.Denotes (.boolean false)

section

variable (T : Token → Prop)

/-- One of the tokens `T` is of a kind and at a place. -/
def IsToken (kind : TokenKind) (p : Position) : Prop := ∃ t, T t ∧ t.kind = kind ∧ t.position = p

/-- A name is one of the tokens `T`. -/
def Identifier.Marked (name : Identifier) : Prop :=
  ∃ t, T t ∧ t.kind = .name ∧ t.text = name.name ∧ t.position = name.position

/-- A node is at the places of its own ones of the tokens `T`.  The number of an entry that is
written without a key has no token. -/
def Node.Marked : Node → Prop
  | chunk _ => True
  | stat (.expression _) => True
  | stat (.assignment p true _ _) => IsToken T .localWord p
  | stat (.assignment p false targets _) => targets.head?.map Expr.position = some p
  | stat (.declaration names) => ∀ name ∈ names, name.Marked T
  | stat (.localFunction name _) => name.Marked T
  | stat (.conditional p _ _) => IsToken T .ifWord p
  | stat (.whileLoop p _ _) => IsToken T .whileWord p
  | stat (.numericFor counter _ _ _ _) => counter.Marked T
  | stat (.genericFor p names _ _) => IsToken T .forWord p ∧ ∀ name ∈ names, name.Marked T
  | stat (.repeatLoop p _ _) => IsToken T .repeatWord p
  | stat (.block _) => True
  | stat (.result p _) => IsToken T .returnWord p
  | stat (.leave p) => IsToken T .breakWord p
  | expr (.literal p value) => ∃ t, T t ∧ t.position = p ∧
      (t.Denotes value ∨ ∃ index : Nat, value = .number (Number.ofNat index))
  | expr (.var p name) => Identifier.Marked T ⟨name, p⟩
  | expr (.function p parameters _) =>
      IsToken T .functionWord p ∧ ∀ name ∈ parameters, name.Marked T
  | expr (.table p _) => IsToken T .openBrace p
  | expr (.call p callee _) => p = callee.position
  | expr (.index p target _) => p = target.position ∨ IsToken T .dot p
  | expr (.group p _) => IsToken T .openParen p
  | expr (.binary p operator _ _) => ∃ t, T t ∧ t.kind.binary? = some operator ∧ t.position = p
  | expr (.unary p operator _) => ∃ t, T t ∧ t.kind.unary? = some operator ∧ t.position = p

/-- All nodes of a tree are at the places of their own tokens. -/
def Node.Signed (n : Node) : Prop := n.All (Node.Marked T)

end

section

variable {T : Token → Prop}

/-- The key of a field is the name of the field. -/
theorem Identifier.Marked.signed_field {field : Identifier} (h : field.Marked T) :
    (expr (.literal field.position (.string field.name))).Signed T := by
  obtain ⟨t, ht, hkind, htext, hposition⟩ := h
  exact all_literal.2 ⟨t, ht, hposition, .inl (htext ▸ .field hkind)⟩

theorem Token.Denotes.ne_eof {t : Token} {value : Literal} (h : t.Denotes value) :
    t.kind ≠ .eof := by
  cases h <;> simp [*]

/-- An expression is at the place of a token. -/
theorem Expr.exists_token : ∀ e : Expr, (expr e).Signed T →
    ∃ t, T t ∧ t.position = e.position
  | .literal _ _, h => by
    obtain ⟨t, ht, hposition, -⟩ := h.self
    exact ⟨t, ht, hposition⟩
  | .var _ _, h => by
    obtain ⟨t, ht, -, -, hposition⟩ := h.self
    exact ⟨t, ht, hposition⟩
  | .function _ _ _, h => by
    obtain ⟨⟨t, ht, -, hposition⟩, -⟩ := h.self
    exact ⟨t, ht, hposition⟩
  | .table _ _, h => by
    obtain ⟨t, ht, -, hposition⟩ := h.self
    exact ⟨t, ht, hposition⟩
  | .call _ callee _, h => by
    obtain ⟨hself, hcallee, -⟩ := all_call.1 h
    obtain rfl := hself
    exact callee.exists_token hcallee
  | .index _ target _, h => by
    obtain ⟨hself, htarget, -⟩ := all_index.1 h
    rcases hself with rfl | ⟨t, ht, -, hposition⟩
    · exact target.exists_token htarget
    · exact ⟨t, ht, hposition⟩
  | .group _ _, h => by
    obtain ⟨t, ht, -, hposition⟩ := h.self
    exact ⟨t, ht, hposition⟩
  | .binary _ _ _ _, h => by
    obtain ⟨t, ht, -, hposition⟩ := h.self
    exact ⟨t, ht, hposition⟩
  | .unary _ _ _, h => by
    obtain ⟨t, ht, -, hposition⟩ := h.self
    exact ⟨t, ht, hposition⟩

theorem IsToken.exists_token {kind : TokenKind} {p q : Position} (h : IsToken T kind p)
    (hq : q = p) : ∃ t, T t ∧ t.position = q := by
  obtain ⟨t, ht, -, hposition⟩ := h
  exact ⟨t, ht, hposition.trans hq.symm⟩

theorem Identifier.Marked.exists_token {names : List Identifier}
    (h : ∀ name ∈ names, name.Marked T) {p : Position}
    (hp : p ∈ names.map Identifier.position) : ∃ t, T t ∧ t.position = p := by
  obtain ⟨name, hname, rfl⟩ := List.mem_map.1 hp
  obtain ⟨t, ht, -, -, hposition⟩ := h name hname
  exact ⟨t, ht, hposition⟩

/-- The places of a node are places of tokens. -/
theorem Node.exists_token {n : Node} {p : Position} (h : n.Signed T) (hp : p ∈ n.places) :
    ∃ t, T t ∧ t.position = p := by
  have hself := h.self
  cases n with
  | chunk body => cases hp
  | expr e =>
    cases e with
    | function position parameters body =>
      rcases List.mem_cons.1 hp with rfl | hp
      · exact hself.1.exists_token rfl
      · exact Identifier.Marked.exists_token hself.2 hp
    | _ =>
      obtain rfl := List.mem_singleton.1 hp
      exact Expr.exists_token _ h
  | stat s =>
    cases s with
    | expression e => cases hp
    | block body => cases hp
    | declaration names => exact Identifier.Marked.exists_token hself hp
    | localFunction name function =>
      exact Identifier.Marked.exists_token (List.forall_mem_singleton.2 hself) hp
    | numericFor counter start stop step body =>
      exact Identifier.Marked.exists_token (List.forall_mem_singleton.2 hself) hp
    | genericFor position names iterators body =>
      rcases List.mem_cons.1 hp with rfl | hp
      · exact hself.1.exists_token rfl
      · exact Identifier.Marked.exists_token hself.2 hp
    | assignment position isLocal targets values =>
      obtain rfl := List.mem_singleton.1 hp
      cases isLocal with
      | true => exact hself.exists_token rfl
      | false =>
        obtain ⟨first, hfirst, rfl⟩ := Option.map_eq_some_iff.1 hself
        exact first.exists_token ((all_assignment.1 h).2.1 first (List.mem_of_mem_head? hfirst))
    | _ => exact hself.exists_token (List.mem_singleton.1 hp)

end

namespace Parser

/-! ### Reading tokens -/

/-- The tokens that are left are such tokens, the end of the text apart. -/
def TokensAre (T : Token → Prop) (tokens : List (Except SyntaxError Token)) : Prop :=
  ∀ t, .ok t ∈ tokens → t.kind ≠ .eof → T t

/-- If the tokens are such tokens, then so are those that are left by `p`, and every answer of it
is as `post` says. -/
def Takes (T : Token → Prop) {α : Type} (p : Parser α) (post : α → Prop) : Prop :=
  ∀ tokens a rest, TokensAre T tokens → p tokens = .ok (a, rest) → post a ∧ TokensAre T rest

namespace Takes

variable {T : Token → Prop} {α β : Type} {p : Parser α} {f : α → Parser β} {post : α → Prop}
  {goal : β → Prop}

theorem pure {a : α} (h : post a) : Takes T (Pure.pure a) post := by
  intro tokens b rest htokens hb
  cases hb
  exact ⟨h, htokens⟩

theorem fail {cause : SyntaxCause} {position : Position} :
    Takes T (Parser.fail cause position) post := by
  intro tokens a rest _ h
  cases h

theorem bind (hp : Takes T p post) (hf : ∀ a, post a → Takes T (f a) goal) :
    Takes T (p >>= f) goal := by
  intro tokens b rest htokens hb
  have hrun : (p >>= f) tokens = (p tokens >>= fun x => f x.1 x.2) := rfl
  rw [hrun] at hb
  cases ha : p tokens with
  | error e =>
    rw [ha] at hb
    cases hb
  | ok x =>
    rw [ha] at hb
    obtain ⟨hpost, hleft⟩ := hp tokens x.1 x.2 htokens ha
    exact hf x.1 hpost x.2 b rest hleft hb

theorem map {g : α → β} (hp : Takes T p post) (hg : ∀ a, post a → goal (g a)) :
    Takes T (g <$> p) goal :=
  bind hp fun a ha => pure (hg a ha)

/-- What is read may be of no concern. -/
theorem skip {g : PUnit → Parser β} (hp : Takes T p post) (hg : ∀ u, Takes T (g u) goal) :
    Takes T (discard p >>= g) goal := by
  have hdiscard : Takes T (discard p) fun _ => True := map hp fun _ _ => trivial
  exact hdiscard.bind fun u _ => hg u

theorem ite {c : Prop} [Decidable c] {q : Parser α} (hp : Takes T p post) (hq : Takes T q post) :
    Takes T (if c then p else q) post := by
  split <;> assumption

theorem imp {post' : α → Prop} (hp : Takes T p post) (h : ∀ a, post a → post' a) :
    Takes T p post' := by
  intro tokens a rest htokens ha
  obtain ⟨hpost, hrest⟩ := hp tokens a rest htokens ha
  exact ⟨h a hpost, hrest⟩

end Takes

variable {T : Token → Prop}

/-- The first of some tokens is such a token, unless the text ends there. -/
theorem TokensAre.firstOf {tokens : List (Except SyntaxError Token)} (h : TokensAre T tokens)
    {t : Token} (ht : firstOf tokens = .ok t) (hkind : t.kind ≠ .eof) : T t := by
  cases tokens with
  | nil =>
    cases ht
    exact absurd rfl hkind
  | cons first rest =>
    obtain rfl : first = .ok t := ht
    exact h t List.mem_cons_self hkind

theorem TokensAre.drop {tokens : List (Except SyntaxError Token)} (h : TokensAre T tokens)
    (n : Nat) : TokensAre T (tokens.drop n) := fun t ht => h t (List.mem_of_mem_drop ht)

theorem peek_eq (tokens : List (Except SyntaxError Token)) :
    peek tokens = (firstOf tokens >>= fun t => .ok (t, tokens)) := rfl

/-- A token that can be looked at. -/
theorem of_peek {tokens rest : List (Except SyntaxError Token)} {t : Token}
    (h : peek tokens = .ok (t, rest)) : firstOf tokens = .ok t ∧ rest = tokens := by
  rw [peek_eq] at h
  cases hfirst : firstOf tokens with
  | error e =>
    rw [hfirst] at h
    cases h
  | ok first =>
    rw [hfirst] at h
    cases h
    exact ⟨rfl, rfl⟩

theorem takes_peek : Takes T peek fun t => t.kind ≠ .eof → T t := by
  intro tokens t rest htokens ht
  obtain ⟨hfirst, rfl⟩ := of_peek ht
  exact ⟨htokens.firstOf hfirst, htokens⟩

theorem takes_peekSecond : Takes T peekSecond fun _ => True := by
  refine .bind takes_peek fun _ _ => ?_
  intro tokens t rest htokens ht
  have hsecond : (do firstOf ((← get).drop 1) : Parser Token) tokens =
      (firstOf (tokens.drop 1) >>= fun t => .ok (t, tokens)) := rfl
  rw [hsecond] at ht
  cases hfirst : firstOf (tokens.drop 1) with
  | error e =>
    rw [hfirst] at ht
    cases ht
  | ok first =>
    rw [hfirst] at ht
    cases ht
    exact ⟨trivial, htokens⟩

theorem takes_next : Takes T next fun t => t.kind ≠ .eof → T t := by
  have hdrop : Takes T (modify (·.drop 1) : Parser PUnit) fun _ => True := by
    intro tokens u rest htokens hu
    cases hu
    exact ⟨trivial, htokens.drop 1⟩
  refine .bind takes_peek fun t ht => ?_
  split
  · exact .pure ht
  · exact .bind hdrop fun _ _ => .pure ht

/-- The token that is taken is the one that could be looked at. -/
theorem of_next {tokens rest : List (Except SyntaxError Token)} {t : Token}
    (h : next tokens = .ok (t, rest)) : firstOf tokens = .ok t := by
  have hnext : next tokens = (peek tokens >>= fun x => (do
      unless x.1.kind = .eof do modify (·.drop 1)
      pure x.1 : Parser Token) x.2) := rfl
  rw [hnext] at h
  cases hpeek : peek tokens with
  | error e =>
    rw [hpeek] at h
    cases h
  | ok x =>
    obtain ⟨hfirst, -⟩ : firstOf tokens = .ok x.1 ∧ x.2 = tokens := of_peek hpeek
    rw [hpeek] at h
    change (do
      unless x.1.kind = .eof do modify (·.drop 1)
      pure x.1 : Parser Token) x.2 = _ at h
    split at h
    · cases h
      exact hfirst
    · cases h
      exact hfirst

theorem takes_check (kind : TokenKind) (hkind : kind ≠ .eof) :
    Takes T (check kind) fun answer => ∀ t ∈ answer, T t ∧ t.kind = kind := by
  intro tokens answer rest htokens h
  have hcheck : check kind tokens = (peek tokens >>= fun x =>
      (if x.1.kind = kind then some <$> next else pure none : Parser (Option Token)) x.2) := rfl
  rw [hcheck] at h
  cases hpeek : peek tokens with
  | error e =>
    rw [hpeek] at h
    cases h
  | ok x =>
    obtain ⟨hfirst, hsame⟩ : firstOf tokens = .ok x.1 ∧ x.2 = tokens := of_peek hpeek
    rw [hpeek] at h
    change (if x.1.kind = kind then some <$> next else pure none : Parser (Option Token)) x.2 =
      _ at h
    rw [hsame] at h
    split at h
    · next hx =>
      change (next tokens >>= fun y => .ok (some y.1, y.2)) = _ at h
      cases hnext : next tokens with
      | error e =>
        rw [hnext] at h
        cases h
      | ok y =>
        rw [hnext] at h
        cases h
        obtain ⟨hplace, hrest⟩ := takes_next tokens y.1 y.2 htokens hnext
        have hsame : y.1 = x.1 := Except.ok.inj ((of_next hnext).symm.trans hfirst)
        refine ⟨fun t ht => ?_, hrest⟩
        obtain rfl := Option.some.inj ht
        have hx' : y.1.kind = kind := hsame ▸ hx
        exact ⟨hplace fun heof => hkind (hx'.symm.trans heof), hx'⟩
    · cases h
      exact ⟨by simp, htokens⟩

theorem takes_expect (kind : TokenKind) (hkind : kind ≠ .eof) :
    Takes T (expect kind) fun t => T t ∧ t.kind = kind := by
  refine .bind takes_next fun t ht => ?_
  split
  · next heq => exact .pure ⟨ht fun heof => hkind (heq.symm.trans heof), heq⟩
  · exact .fail

/-- The word or the bracket that a part of the grammar begins with. -/
theorem takes_opening (kind : TokenKind) (hkind : kind ≠ .eof) :
    Takes T (expect kind) fun t => IsToken T kind t.position :=
  (takes_expect kind hkind).imp fun t ht => ⟨t, ht.1, ht.2, rfl⟩

theorem takes_expectEnd : Takes T expectEnd fun _ => True :=
  .bind takes_peek fun _ _ => .ite (takes_next.map fun _ _ => trivial) .fail

theorem takes_expectName : Takes T expectName fun name => name.Marked T :=
  .bind (takes_expect .name (by decide)) fun t ht => .pure ⟨t, ht.1, ht.2, rfl, rfl⟩

theorem takes_enter (level : Nat) (position : Position) :
    Takes T (enter level position) fun _ => True := .ite .fail (.pure trivial)

theorem takes_exhausted {α : Type} {post : α → Prop} : Takes T exhausted post :=
  .bind takes_peek fun _ _ => .fail

theorem takes_moreNames (n : Nat) :
    Takes T (moreNames n) fun names => ∀ name ∈ names, name.Marked T := by
  induction n with
  | zero => exact takes_exhausted
  | succ n ih =>
    rw [moreNames]
    refine .bind (takes_check .comma (by decide)) fun comma _ => ?_
    split
    · exact .pure (List.forall_mem_nil _)
    · exact .bind takes_expectName fun name hname => .bind ih fun names hnames =>
        .pure (List.forall_mem_cons.2 ⟨hname, hnames⟩)

theorem takes_literalOf (t : Token) :
    Takes T (literalOf t) fun answer => ∀ value ∈ answer, t.Denotes value := by
  unfold literalOf
  split
  · next hkind =>
    split
    · next h => exact .pure (by simpa using .number hkind h)
    · exact .fail
  · next hkind => exact .pure (by simpa using .string hkind)
  · next hkind => exact .pure (by simpa using .longString hkind)
  · next hkind => exact .pure (by simpa using .nil hkind)
  · next hkind => exact .pure (by simpa using .yes hkind)
  · next hkind => exact .pure (by simpa using .no hkind)
  · exact .pure (by simp)

theorem takes_checkTargets (targets : List Expr) :
    Takes T (checkTargets targets) fun _ => True := by
  induction targets with
  | nil => exact .pure trivial
  | cons target rest ih => exact .ite ih .fail

theorem takes_functionTarget (n : Nat) (target : Expr) (h : (expr target).Signed T) :
    Takes T (functionTarget target n) fun e => (expr e).Signed T := by
  induction n generalizing target with
  | zero => exact takes_exhausted
  | succ n ih =>
    rw [functionTarget]
    refine .bind (takes_check .dot (by decide)) fun dot hdot => ?_
    split
    · exact .pure h
    · next dot =>
      refine .bind takes_expectName fun field hfield => ih _ ?_
      obtain ⟨hdot, hkind⟩ := hdot dot rfl
      exact all_index.2 ⟨.inr ⟨dot, hdot, hkind, rfl⟩, h, hfield.signed_field⟩

theorem signed_grouped {position : Position} {inner : Expr}
    (hposition : IsToken T .openParen position) (h : (expr inner).Signed T) :
    (expr (grouped position inner)).Signed T := by
  rw [grouped]
  split
  · exact all_group.2 ⟨hposition, h⟩
  · exact h

theorem ne_eof_of_unary {kind : TokenKind} {operator : UnaryOperator}
    (h : kind.unary? = some operator) : kind ≠ .eof := by
  rintro rfl
  cases h

theorem ne_eof_of_binary {kind : TokenKind} {operator : BinaryOperator}
    (h : kind.binary? = some operator) : kind ≠ .eof := by
  rintro rfl
  cases h

/-! ### The grammar -/

/-- Where the answers of the parts of the grammar stand when the depth of recursion is bounded by
`n`. -/
structure Placing (T : Token → Prop) (n : Nat) : Prop where
  block : ∀ level inLoop, Takes T (block n level inLoop) fun body => (Node.chunk body).Signed T
  statements : ∀ level inLoop,
    Takes T (statements n level inLoop) fun body => (Node.chunk body).Signed T
  statement : ∀ level inLoop, Takes T (statement n level inLoop) fun s => (stat s).Signed T
  conditional : ∀ level inLoop, Takes T (conditional n level inLoop) fun s => (stat s).Signed T
  elseIfs : ∀ level inLoop, Takes T (elseIfs n level inLoop) fun branches =>
    ∀ branch ∈ branches, (expr branch.1).Signed T ∧ (Node.chunk branch.2).Signed T
  elseBranch : ∀ level inLoop, Takes T (elseBranch n level inLoop) fun otherwise =>
    ∀ body ∈ otherwise, (Node.chunk body).Signed T
  forLoop : ∀ level, Takes T (forLoop n level) fun s => (stat s).Signed T
  forStep : ∀ level, Takes T (forStep n level) fun step => ∀ e ∈ step, (expr e).Signed T
  functionStatement : ∀ level, Takes T (functionStatement n level) fun s => (stat s).Signed T
  localStatement : ∀ level, Takes T (localStatement n level) fun s => (stat s).Signed T
  expressionStatement : ∀ level, Takes T (expressionStatement n level) fun s => (stat s).Signed T
  functionBody : ∀ level position, IsToken T .functionWord position →
    Takes T (functionBody n level position) fun e => (expr e).Signed T
  expressions : ∀ level, Takes T (expressions n level) fun es => ∀ e ∈ es, (expr e).Signed T
  moreExpressions : ∀ level,
    Takes T (moreExpressions n level) fun es => ∀ e ∈ es, (expr e).Signed T
  expression : ∀ level, Takes T (expression n level) fun e => (expr e).Signed T
  operand : ∀ level limit, Takes T (operand n level limit) fun e => (expr e).Signed T
  operators : ∀ level limit lhs, (expr lhs).Signed T →
    Takes T (operators n level limit lhs) fun e => (expr e).Signed T
  simple : ∀ level, Takes T (simple n level) fun e => (expr e).Signed T
  primary : ∀ level, Takes T (primary n level) fun e => (expr e).Signed T
  suffixes : ∀ level e, (expr e).Signed T →
    Takes T (suffixes n level e) fun e => (expr e).Signed T
  tableConstructor : ∀ level, Takes T (tableConstructor n level) fun e => (expr e).Signed T
  tableEntries : ∀ level index, Takes T (tableEntries n level index) fun entries =>
    ∀ entry ∈ entries, (expr entry.1).Signed T ∧ (expr entry.2).Signed T
  moreEntries : ∀ level index entry, (expr entry.1).Signed T → (expr entry.2).Signed T →
    Takes T (moreEntries n level index entry) fun entries =>
      ∀ entry ∈ entries, (expr entry.1).Signed T ∧ (expr entry.2).Signed T

theorem placing_zero : Placing T 0 := by
  constructor <;> intros <;>
    simp only [block, statements, statement, conditional, elseIfs, elseBranch, forLoop, forStep,
      functionStatement, localStatement, expressionStatement, functionBody, expressions,
      moreExpressions, expression, operand, operators, simple, primary, suffixes,
      tableConstructor, tableEntries, moreEntries] <;>
    exact takes_exhausted

section Step

variable {n : Nat} (g : Placing T n)
include g

/-- The values of a return and the arguments of a call may be left out. -/
theorem takes_optional {β : Type} {c : Prop} [Decidable c] {level : Nat} {f : List Expr → Parser β}
    {goal : β → Prop} (hf : ∀ es, (∀ e ∈ es, (expr e).Signed T) → Takes T (f es) goal) :
    Takes T (if c then pure [] >>= f else expressions n level >>= f) goal :=
  .ite (hf [] (List.forall_mem_nil _)) (.bind (g.expressions level) hf)

theorem takes_statement (level : Nat) (inLoop : Bool) :
    Takes T (statement (n + 1) level inLoop) fun s => (stat s).Signed T := by
  rw [statement]
  refine .bind takes_peek fun t _ => ?_
  split
  · exact g.conditional level inLoop
  · refine .bind (takes_opening .whileWord (by decide)) fun opened hopened => ?_
    refine .bind (g.expression level) fun condition hcondition => ?_
    refine .skip (takes_expect .doWord (by decide)) fun _ => .bind (g.block level true)
      fun body hbody => ?_
    exact .bind takes_expectEnd fun _ _ => .pure (all_whileLoop.2 ⟨hopened, hcondition, hbody⟩)
  · refine .skip (takes_expect .doWord (by decide)) fun _ => .bind (g.block level inLoop)
      fun body hbody => ?_
    exact .bind takes_expectEnd fun _ _ => .pure (all_block.2 ⟨trivial, hbody⟩)
  · exact g.forLoop level
  · refine .bind (takes_opening .repeatWord (by decide)) fun opened hopened => ?_
    refine .bind (g.block level true) fun body hbody => .skip (takes_expect .untilWord (by decide))
      fun _ => .bind (g.expression level) fun condition hcondition => ?_
    exact .pure (all_repeatLoop.2 ⟨hopened, hbody, hcondition⟩)
  · exact g.functionStatement level
  · exact g.localStatement level
  · refine .bind (takes_opening .returnWord (by decide)) fun opened hopened => .bind takes_peek
      fun following _ => ?_
    extract_lets rest
    exact takes_optional g fun values hvalues => .skip (takes_check .semicolon (by decide))
      fun _ => .pure (all_result.2 ⟨hopened, hvalues⟩)
  · refine .bind (takes_opening .breakWord (by decide)) fun opened hopened => ?_
    split
    · exact .pure (all_leave.2 hopened)
    · exact .fail
  · exact g.expressionStatement level

theorem takes_conditional (level : Nat) (inLoop : Bool) :
    Takes T (conditional (n + 1) level inLoop) fun s => (stat s).Signed T := by
  rw [conditional]
  refine .bind (takes_opening .ifWord (by decide)) fun opened hopened => ?_
  refine .bind (g.expression level) fun condition hcondition => ?_
  refine .skip (takes_expect .thenWord (by decide)) fun _ => .bind (g.block level inLoop)
    fun body hbody => ?_
  refine .bind (g.elseIfs level inLoop) fun branches hbranches => ?_
  refine .bind (g.elseBranch level inLoop) fun otherwise hotherwise => ?_
  refine .bind takes_expectEnd fun _ _ => .pure (all_conditional.2 ⟨hopened, ?_, hotherwise⟩)
  exact List.forall_mem_cons.2 ⟨⟨hcondition, hbody⟩, hbranches⟩

theorem takes_elseIfs (level : Nat) (inLoop : Bool) :
    Takes T (elseIfs (n + 1) level inLoop) fun branches =>
      ∀ branch ∈ branches, (expr branch.1).Signed T ∧ (Node.chunk branch.2).Signed T := by
  rw [elseIfs]
  refine .bind (takes_check .elseIfWord (by decide)) fun word _ => ?_
  split
  · exact .pure (List.forall_mem_nil _)
  · refine .bind (g.expression level) fun condition hcondition => ?_
    refine .skip (takes_expect .thenWord (by decide)) fun _ => .bind (g.block level inLoop)
      fun body hbody => .bind (g.elseIfs level inLoop) fun branches hbranches => ?_
    exact .pure (List.forall_mem_cons.2 ⟨⟨hcondition, hbody⟩, hbranches⟩)

theorem takes_forLoop (level : Nat) :
    Takes T (forLoop (n + 1) level) fun s => (stat s).Signed T := by
  rw [forLoop]
  refine .bind (takes_opening .forWord (by decide)) fun opened hopened => ?_
  refine .bind takes_expectName fun first hfirst => ?_
  refine .bind (takes_check .assign (by decide)) fun sign _ => ?_
  split
  · refine .bind (g.expression level) fun start hstart => ?_
    refine .skip (takes_expect .comma (by decide)) fun _ => .bind (g.expression level)
      fun stop hstop => .bind (g.forStep level) fun step hstep => ?_
    refine .skip (takes_expect .doWord (by decide)) fun _ => .bind (g.block level true)
      fun body hbody => .bind takes_expectEnd fun _ _ => ?_
    exact .pure (all_numericFor.2 ⟨hfirst, hstart, hstop, hbody, hstep⟩)
  · refine .bind (takes_moreNames n) fun names hnames => ?_
    refine .skip (takes_expect .inWord (by decide)) fun _ => .bind (g.expressions level)
      fun iterators hiterators => .skip (takes_expect .doWord (by decide)) fun _ => ?_
    refine .bind (g.block level true) fun body hbody => .bind takes_expectEnd fun _ _ => ?_
    exact .pure (all_genericFor.2
      ⟨⟨hopened, List.forall_mem_cons.2 ⟨hfirst, hnames⟩⟩, hbody, hiterators⟩)

theorem takes_functionStatement (level : Nat) :
    Takes T (functionStatement (n + 1) level) fun s => (stat s).Signed T := by
  rw [functionStatement]
  refine .bind (takes_opening .functionWord (by decide)) fun opened hopened => ?_
  refine .bind takes_expectName fun name hname => ?_
  refine .bind (takes_functionTarget n _ (all_var.2 hname)) fun target htarget => ?_
  refine .bind (takes_check .colon (by decide)) fun colon _ => ?_
  split
  · exact .fail
  · refine .bind (g.functionBody level _ hopened) fun function hfunction => .pure ?_
    exact all_assignment.2
      ⟨rfl, List.forall_mem_singleton.2 htarget, List.forall_mem_singleton.2 hfunction⟩

theorem takes_localStatement (level : Nat) :
    Takes T (localStatement (n + 1) level) fun s => (stat s).Signed T := by
  rw [localStatement]
  refine .bind (takes_opening .localWord (by decide)) fun opened hopened => ?_
  refine .bind (takes_check .functionWord (by decide)) fun word hword => ?_
  split
  · refine .bind takes_expectName fun name hname => ?_
    obtain ⟨hword, hkind⟩ := hword _ rfl
    refine .bind (g.functionBody level _ ⟨_, hword, hkind, rfl⟩) fun function hfunction => ?_
    exact .pure (all_localFunction.2 ⟨hname, hfunction⟩)
  · refine .bind takes_expectName fun first hfirst => .bind (takes_moreNames n)
      fun names hnames => .bind (takes_check .assign (by decide)) fun sign _ => ?_
    have hall : ∀ name ∈ first :: names, name.Marked T := List.forall_mem_cons.2 ⟨hfirst, hnames⟩
    split
    · exact .pure (all_declaration.2 hall)
    · refine .bind (g.expressions level) fun values hvalues => .pure ?_
      refine all_assignment.2 ⟨hopened, List.forall_mem_map.2 fun name hname => ?_, hvalues⟩
      exact all_var.2 (hall name hname)

theorem takes_expressionStatement (level : Nat) :
    Takes T (expressionStatement (n + 1) level) fun s => (stat s).Signed T := by
  rw [expressionStatement]
  refine .bind (g.expression level) fun first hfirst => .bind takes_peek fun following _ =>
    .ite ?_ ?_
  · refine .bind (g.moreExpressions level) fun targets htargets => ?_
    refine .skip (takes_expect .assign (by decide)) fun _ => ?_
    refine .bind (takes_checkTargets _) fun _ _ => ?_
    refine .bind (g.expressions level) fun values hvalues => .pure ?_
    exact all_assignment.2
      ⟨rfl, List.forall_mem_cons.2 ⟨hfirst, htargets⟩, hvalues⟩
  · exact .pure (all_expression.2 ⟨trivial, hfirst⟩)

theorem takes_functionBody (level : Nat) {position : Position}
    (hposition : IsToken T .functionWord position) :
    Takes T (functionBody (n + 1) level position) fun e => (expr e).Signed T := by
  rw [functionBody]
  refine .skip (takes_expect .openParen (by decide)) fun _ => .bind takes_peek fun following _ => ?_
  extract_lets rest
  have hrest : ∀ parameters : List Identifier, (∀ name ∈ parameters, name.Marked T) →
      Takes T (rest parameters) fun e => (expr e).Signed T := fun parameters hparameters =>
    .skip (takes_expect .closeParen (by decide)) fun _ =>
      .bind (g.block level false) fun body hbody => .bind takes_expectEnd fun _ _ =>
        .pure (all_function.2 ⟨⟨hposition, hparameters⟩, hbody⟩)
  refine .ite (hrest [] (List.forall_mem_nil _)) ?_
  exact .bind takes_expectName fun first hfirst => .bind (takes_moreNames n) fun names hnames =>
    hrest _ (List.forall_mem_cons.2 ⟨hfirst, hnames⟩)

theorem takes_expressions (level : Nat) :
    Takes T (expressions (n + 1) level) fun es => ∀ e ∈ es, (expr e).Signed T := by
  rw [expressions]
  exact .bind (g.expression level) fun first hfirst => .bind (g.moreExpressions level)
    fun rest hrest => .pure (List.forall_mem_cons.2 ⟨hfirst, hrest⟩)

theorem takes_moreExpressions (level : Nat) :
    Takes T (moreExpressions (n + 1) level) fun es => ∀ e ∈ es, (expr e).Signed T := by
  rw [moreExpressions]
  refine .bind (takes_check .comma (by decide)) fun comma _ => ?_
  split
  · exact .pure (List.forall_mem_nil _)
  · exact .bind (g.expression level) fun first hfirst => .bind (g.moreExpressions level)
      fun rest hrest => .pure (List.forall_mem_cons.2 ⟨hfirst, hrest⟩)

theorem takes_operand (level limit : Nat) :
    Takes T (operand (n + 1) level limit) fun e => (expr e).Signed T := by
  rw [operand]
  refine .bind takes_peek fun t ht => .bind (takes_enter _ _) fun _ _ => ?_
  split
  · next operator hoperator =>
    refine .skip takes_next fun _ => .bind (g.operand _ _) fun inner hinner => ?_
    exact g.operators _ _ _ (all_unary.2
      ⟨⟨t, ht (ne_eof_of_unary hoperator), hoperator, rfl⟩, hinner⟩)
  · exact .bind (g.simple _) fun first hfirst => g.operators _ _ _ hfirst

theorem takes_operators (level limit : Nat) {lhs : Expr} (h : (expr lhs).Signed T) :
    Takes T (operators (n + 1) level limit lhs) fun e => (expr e).Signed T := by
  rw [operators]
  refine .bind takes_peek fun t ht => ?_
  split
  · exact .pure h
  · next operator hoperator =>
    refine .ite (.pure h) (.skip takes_next fun _ => .bind (takes_enter _ _) fun _ _ => ?_)
    refine .bind (g.operand _ _) fun rhs hrhs => ?_
    exact g.operators _ _ _ (all_binary.2
      ⟨⟨t, ht (ne_eof_of_binary hoperator), hoperator, rfl⟩, h, hrhs⟩)

theorem takes_simple (level : Nat) :
    Takes T (simple (n + 1) level) fun e => (expr e).Signed T := by
  rw [simple]
  refine .bind takes_peek fun t ht => .bind (takes_literalOf t) fun value hvalue => ?_
  split
  · next value =>
    have hdenotes := hvalue value rfl
    exact .skip takes_next fun _ =>
      .pure (all_literal.2 ⟨t, ht hdenotes.ne_eof, rfl, .inl hdenotes⟩)
  · split
    · next hkind =>
      exact .skip takes_next fun _ =>
        g.functionBody level _ ⟨t, ht (by simp [hkind]), hkind, rfl⟩
    · exact g.tableConstructor level
    · exact .bind (g.primary level) fun first hfirst => g.suffixes level first hfirst

theorem takes_primary (level : Nat) :
    Takes T (primary (n + 1) level) fun e => (expr e).Signed T := by
  rw [primary]
  refine .bind takes_next fun t ht => ?_
  split
  · next hkind => exact .pure (all_var.2 ⟨t, ht (by simp [hkind]), hkind, rfl, rfl⟩)
  · next hkind =>
    refine .bind (g.expression level) fun inner hinner => ?_
    exact .skip (takes_expect .closeParen (by decide)) fun _ =>
      .pure (signed_grouped ⟨t, ht (by simp [hkind]), hkind, rfl⟩ hinner)
  · exact .fail

theorem takes_suffixes (level : Nat) {e : Expr} (h : (expr e).Signed T) :
    Takes T (suffixes (n + 1) level e) fun e => (expr e).Signed T := by
  rw [suffixes]
  refine .bind takes_peek fun t _ =>
    .ite .fail (.ite (.pure h) (.bind (takes_enter _ _) fun _ _ => ?_))
  split
  · exact .skip takes_next fun _ => .bind takes_expectName fun field hfield =>
      g.suffixes _ _ (all_index.2 ⟨.inl rfl, h, hfield.signed_field⟩)
  · refine .skip takes_next fun _ => .bind (g.expression _) fun key hkey => ?_
    exact .skip (takes_expect .closeSquare (by decide)) fun _ =>
      g.suffixes _ _ (all_index.2 ⟨.inl rfl, h, hkey⟩)
  · refine .skip takes_next fun _ => .bind takes_peek fun following _ => ?_
    extract_lets rest
    exact takes_optional g fun arguments harguments => .skip (takes_expect .closeParen (by decide))
      fun _ => g.suffixes _ _ (all_call.2 ⟨rfl, h, harguments⟩)
  · refine .bind (g.simple _) fun argument hargument => ?_
    exact g.suffixes _ _ (all_call.2 ⟨rfl, h, List.forall_mem_singleton.2 hargument⟩)

theorem takes_tableEntries (level index : Nat) :
    Takes T (tableEntries (n + 1) level index) fun entries =>
      ∀ entry ∈ entries, (expr entry.1).Signed T ∧ (expr entry.2).Signed T := by
  rw [tableEntries]
  refine .bind takes_peek fun first hfirst => .ite (.pure (List.forall_mem_nil _)) ?_
  refine .bind takes_peekSecond fun second _ => .ite ?_ ?_
  · refine .skip takes_next fun _ => .bind (g.expression level) fun key hkey => ?_
    refine .skip (takes_expect .closeSquare (by decide)) fun _ => ?_
    refine .skip (takes_expect .assign (by decide)) fun _ => ?_
    refine .bind (g.expression level) fun value hvalue => ?_
    exact g.moreEntries level index _ hkey hvalue
  · split
    · next hkind =>
      -- A name in front of `=` is the key as it stands, a string has to be unescaped.
      have hdenotes : first.Denotes (.string
          (if first.kind = .string then Escape.unescape first.text else first.text)) := by
        split
        · next hstring => exact .string hstring
        · next hstring =>
          simp only [hstring, decide_false, Bool.or_false, Bool.and_eq_true,
            decide_eq_true_eq] at hkind
          exact .field hkind.2
      refine .skip takes_next fun _ => .skip takes_next fun _ => .bind (g.expression level)
        fun value hvalue => ?_
      exact g.moreEntries level index _
        (all_literal.2 ⟨first, hfirst hdenotes.ne_eof, rfl, .inl hdenotes⟩) hvalue
    · refine .bind (g.expression level) fun value hvalue => ?_
      -- The number of an entry without a key is put at the place of its value.
      obtain ⟨t, ht, hposition⟩ := value.exists_token hvalue
      exact g.moreEntries level _ _ (all_literal.2 ⟨t, ht, hposition, .inr ⟨index, rfl⟩⟩) hvalue

theorem takes_moreEntries (level index : Nat) {entry : Expr × Expr} (hkey : (expr entry.1).Signed T)
    (hvalue : (expr entry.2).Signed T) :
    Takes T (moreEntries (n + 1) level index entry) fun entries =>
      ∀ entry ∈ entries, (expr entry.1).Signed T ∧ (expr entry.2).Signed T := by
  have hmore : Takes T (do let rest ← tableEntries n level index; Pure.pure (entry :: rest))
      fun entries => ∀ entry ∈ entries, (expr entry.1).Signed T ∧ (expr entry.2).Signed T :=
    .bind (g.tableEntries level index) fun rest hrest =>
      .pure (List.forall_mem_cons.2 ⟨⟨hkey, hvalue⟩, hrest⟩)
  rw [moreEntries]
  refine .bind (takes_check .comma (by decide)) fun comma _ => ?_
  split
  · exact hmore
  · refine .bind (takes_check .semicolon (by decide)) fun semicolon _ => ?_
    split
    · exact hmore
    · exact .pure (List.forall_mem_singleton.2 ⟨hkey, hvalue⟩)

/-- One step of the recursion keeps what holds of the answers. -/
theorem Placing.succ : Placing T (n + 1) where
  block level inLoop := by
    rw [Parser.block]
    exact .bind takes_peek fun _ _ => .bind (takes_enter _ _) fun _ _ => g.statements _ _
  statements level inLoop := by
    rw [Parser.statements]
    refine .bind takes_peek fun t _ => .ite (.pure (all_chunk.2 ⟨trivial, List.forall_mem_nil _⟩))
      (.ite (.skip takes_next fun _ => g.statements _ _) ?_)
    refine .bind (g.statement level inLoop) fun first hfirst => ?_
    refine .bind (g.statements level inLoop) fun rest hrest => .pure ?_
    exact all_chunk.2 ⟨trivial, List.forall_mem_cons.2 ⟨hfirst, (all_chunk.1 hrest).2⟩⟩
  statement := takes_statement g
  conditional := takes_conditional g
  elseIfs := takes_elseIfs g
  elseBranch level inLoop := by
    rw [Parser.elseBranch]
    refine .bind (takes_check .elseWord (by decide)) fun word _ => ?_
    split
    · exact .pure (by simp)
    · exact (g.block level inLoop).map fun body hbody => by simpa using hbody
  forLoop := takes_forLoop g
  forStep level := by
    rw [Parser.forStep]
    refine .bind (takes_check .comma (by decide)) fun comma _ => ?_
    split
    · exact .pure (by simp)
    · exact (g.expression level).map fun step hstep => by simpa using hstep
  functionStatement := takes_functionStatement g
  localStatement := takes_localStatement g
  expressionStatement := takes_expressionStatement g
  functionBody level _ := takes_functionBody g level
  expressions := takes_expressions g
  moreExpressions := takes_moreExpressions g
  expression level := by
    rw [Parser.expression]
    exact g.operand level 0
  operand := takes_operand g
  operators level limit _ := takes_operators g level limit
  simple := takes_simple g
  primary := takes_primary g
  suffixes level _ := takes_suffixes g level
  tableConstructor level := by
    rw [Parser.tableConstructor]
    refine .bind (takes_opening .openBrace (by decide)) fun opened hopened => ?_
    refine .bind (g.tableEntries level 1) fun entries hentries => ?_
    exact .skip (takes_expect .closeBrace (by decide)) fun _ =>
      .pure (all_table.2 ⟨hopened, hentries⟩)
  tableEntries := takes_tableEntries g
  moreEntries level index _ := takes_moreEntries g level index

end Step

theorem placing (T : Token → Prop) (n : Nat) : Placing T n := by
  induction n with
  | zero => exact placing_zero
  | succ n ih => exact ih.succ

end Parser

/-! ### Texts -/

/-- The tokens of a text, its end apart. -/
def Token.OfText (source : String) (t : Token) : Prop := .ok t ∈ tokenize source ∧ t.kind ≠ .eof

/-- The places of the tokens of a text. -/
def IsTokenPlace (source : String) (p : Position) : Prop :=
  ∃ t, .ok t ∈ tokenize source ∧ t.kind ≠ .eof ∧ t.position = p

/-- **All nodes in the tree of a text are at the places of their own tokens.** -/
theorem signed_of_parse {source : String} {chunk : Chunk} (h : parse source = .ok chunk) :
    (Node.chunk chunk).Signed (Token.OfText source) := by
  have htokens : Parser.TokensAre (Token.OfText source) (tokenize source) :=
    fun t ht hkind => ⟨ht, hkind⟩
  have htakes : Parser.Takes (Token.OfText source) (Parser.chunk (Parser.fuelFor (tokenize source)))
      fun body => (Node.chunk body).Signed (Token.OfText source) := by
    rw [Parser.chunk]
    refine .bind ((Parser.placing _ _).block 0 false) fun body hbody => ?_
    exact .bind Parser.takes_next fun t _ => .ite (.pure hbody) .fail
  have hrun : (Parser.chunk (Parser.fuelFor (tokenize source))).run' (tokenize source)
      = .ok chunk := h
  rw [StateT.run'] at hrun
  cases hchunk : Parser.chunk (Parser.fuelFor (tokenize source)) (tokenize source) with
  | error e =>
    rw [hchunk] at hrun
    cases hrun
  | ok answer =>
    rw [hchunk] at hrun
    cases hrun
    exact (htakes _ _ _ htokens hchunk).1

/-- **All places in the tree of a text are places of its tokens.** -/
theorem stands_of_parse {source : String} {chunk : Chunk} (h : parse source = .ok chunk) :
    (Node.chunk chunk).Stands (IsTokenPlace source) := by
  intro n hn p hp
  obtain ⟨t, ⟨ht, hkind⟩, hposition⟩ :=
    Node.exists_token ((signed_of_parse h).of_within hn) hp
  exact ⟨t, ht, hkind, hposition⟩

end ScriptEngine
