import ScriptEngine.Proofs.Courses.Expressions
import ScriptEngine.Syntax.Folding

/-!
# Folding preserves what expressions come to

An expression and what it is folded to have the same course: the operators are those that a running
program uses, operands that are folded away have no effect, and what fails stays.  With this the
code of both ends in the same way.

An `and` or an `or` may be folded to its second operand.  If that is a call and the last argument of
a call, it passes on all of its results then, and only one before; such arguments are left out here.

## Main definitions

* `Expr.Foldable` — expressions without function literals and without such arguments.
* `Expr.Occurs` — an expression occurs in another one, some operands being left out.
* `Constants.Skip` — the operands that a literal in front of them makes superfluous.

## Main results

* `Setting.exprCourse_fold` — **an expression and what it is folded to have the same course.**
* `Expr.Occurs.fold` — what is not folded to a literal is still there, unless it is skipped.
* `Setting.settles_fold` — the code of both ends alike, and what fails is not folded away.
-/

namespace ScriptEngine

/-! ### Operators on literals -/

theorem Value.toValue_of_toLiteral? {v : Value} {l : Literal} (h : v.toLiteral? = some l) :
    l.toValue = v := by
  cases v <;> cases h <;> rfl

namespace Store

/-- Values that can be written down are equal or not whatever tables there are. -/
theorem equal_literals (s s' : Store) (a b : Literal) :
    s.equal a.toValue b.toValue = s'.equal a.toValue b.toValue := by
  cases a <;> cases b <;> rfl

theorem binary_literals (s s' : Store) (operator : StrictOperator) (a b : Literal) :
    s.binary operator a.toValue b.toValue = s'.binary operator a.toValue b.toValue := by
  cases operator with
  | compare operator => cases operator <;> simp only [binary, compare, equal_literals s s']
  | _ => rfl

theorem unary_literal (s s' : Store) (operator : UnaryOperator) (a : Literal) :
    s.unary operator a.toValue = s'.unary operator a.toValue := by
  cases operator with
  | length => cases a <;> rfl
  | _ => rfl

end Store

/-! ### Expressions that are folded -/

namespace Expr

theorem eq_literal {e : Expr} {a : Literal} (h : e.literal? = some a) :
    ∃ position, e = .literal position a := by
  cases e with
  | literal position value =>
    cases h
    exact ⟨position, rfl⟩
  | _ => cases h

/-- Operators that may have the value of their second operand without an operation on it. -/
def isShortcut : Expr → Bool
  | .binary _ .and _ _ => true
  | .binary _ .or _ _ => true
  | _ => false

end Expr

/-- Whether the last of some expressions may be folded to its second operand. -/
def endsInShortcut (es : List Expr) : Bool := es.getLast?.any Expr.isShortcut

mutual

/-- An expression without function literals, in which no call has an `and` or an `or` as its last
argument. -/
def Expr.Foldable : Expr → Prop
  | .literal _ _ => True
  | .var _ _ => True
  | .function _ _ _ => False
  | .table _ entries => EntriesFoldable entries
  | .call _ callee arguments =>
    callee.Foldable ∧ AllFoldable arguments ∧ endsInShortcut arguments = false
  | .index _ table key => table.Foldable ∧ key.Foldable
  | .group _ inner => inner.Foldable
  | .binary _ _ lhs rhs => lhs.Foldable ∧ rhs.Foldable
  | .unary _ _ operand => operand.Foldable

@[inherit_doc Expr.Foldable]
def AllFoldable : List Expr → Prop
  | [] => True
  | e :: rest => e.Foldable ∧ AllFoldable rest

@[inherit_doc Expr.Foldable]
def EntriesFoldable : List (Expr × Expr) → Prop
  | [] => True
  | (key, value) :: rest => key.Foldable ∧ value.Foldable ∧ EntriesFoldable rest

end

/-- An operator with two operands is folded to an operator, to a literal, or to its second
operand. -/
theorem isCall_foldBinary {position : Position} {operator : StrictOperator} {lhs rhs : Expr} :
    (foldBinary position (.strict operator) lhs rhs).isCall = false := by
  unfold foldBinary
  split
  · rfl
  · simp only
    split
    · rfl
    · split
      · rfl
      · split <;> rfl

theorem isCall_foldUnary {position : Position} {operator : UnaryOperator} {operand : Expr} :
    (foldUnary position operator operand).isCall = false := by
  unfold foldUnary
  split
  · rfl
  · split
    · rfl
    · split <;> rfl

/-- Calls stay calls, and only an `and` or an `or` may become one. -/
theorem Expr.isCall_fold {constants : Constants} {e : Expr} (h : e.isShortcut = false) :
    (e.fold constants).isCall = e.isCall := by
  cases e with
  | var position name =>
    rw [Expr.fold]
    cases constants.find? name <;> rfl
  | binary position operator lhs rhs =>
    cases operator with
    | strict operator =>
      rw [Expr.fold, isCall_foldBinary]
      rfl
    | _ => cases h
  | unary position operator operand =>
    rw [Expr.fold, isCall_foldUnary]
    rfl
  | _ => rfl

theorem endsInCall_foldAll {constants : Constants} {es : List Expr}
    (h : endsInShortcut es = false) : endsInCall (foldAll constants es) = endsInCall es := by
  induction es with
  | nil => rfl
  | cons e rest ih =>
    cases rest with
    | nil => exact Expr.isCall_fold (by simpa [endsInShortcut] using h)
    | cons f rest =>
      have hrest : endsInShortcut (f :: rest) = false := by
        rwa [endsInShortcut, List.getLast?_cons_cons] at h
      rw [foldAll, endsInCall_cons (.inl (by simp [foldAll])),
        endsInCall_cons (.inl (List.cons_ne_nil f rest)), ih hrest]

theorem consFold_of_cons (constants : Constants) {e : Expr} {rest : List Expr}
    (hcons : rest ≠ [] ∨ e.isCall = false) (hends : endsInShortcut (e :: rest) = false) :
    (foldAll constants rest ≠ [] ∨ (e.fold constants).isCall = false) ∧
      endsInShortcut rest = false := by
  cases rest with
  | nil =>
    rcases hcons with hcons | hcall
    · exact absurd rfl hcons
    · exact ⟨.inr ((Expr.isCall_fold (by simpa [endsInShortcut] using hends)).trans hcall), rfl⟩
  | cons f rest =>
    rw [endsInShortcut, List.getLast?_cons_cons] at hends
    exact ⟨.inl (List.cons_ne_nil _ _), hends⟩

/-! ### What is not folded away -/

/-- An expression occurs in another one, other than in the second operands that an operator skips
behind some first ones. -/
inductive Expr.Occurs (skip : BinaryOperator → Expr → Prop) (d : Expr) : Expr → Prop
  | here : Occurs skip d d
  | entryKey {position : Position} {entries : List (Expr × Expr)} {entry : Expr × Expr}
      (hentry : entry ∈ entries) (h : Occurs skip d entry.1) :
      Occurs skip d (.table position entries)
  | entryValue {position : Position} {entries : List (Expr × Expr)} {entry : Expr × Expr}
      (hentry : entry ∈ entries) (h : Occurs skip d entry.2) :
      Occurs skip d (.table position entries)
  | callee {position : Position} {callee : Expr} {arguments : List Expr}
      (h : Occurs skip d callee) : Occurs skip d (.call position callee arguments)
  | argument {position : Position} {callee e : Expr} {arguments : List Expr} (he : e ∈ arguments)
      (h : Occurs skip d e) : Occurs skip d (.call position callee arguments)
  | indexed {position : Position} {table key : Expr} (h : Occurs skip d table) :
      Occurs skip d (.index position table key)
  | key {position : Position} {table key : Expr} (h : Occurs skip d key) :
      Occurs skip d (.index position table key)
  | group {position : Position} {inner : Expr} (h : Occurs skip d inner) :
      Occurs skip d (.group position inner)
  | lhs {position : Position} {operator : BinaryOperator} {lhs rhs : Expr} (h : Occurs skip d lhs) :
      Occurs skip d (.binary position operator lhs rhs)
  | rhs {position : Position} {operator : BinaryOperator} {lhs rhs : Expr}
      (hskip : ¬ skip operator lhs) (h : Occurs skip d rhs) :
      Occurs skip d (.binary position operator lhs rhs)
  | operand {position : Position} {operator : UnaryOperator} {operand : Expr}
      (h : Occurs skip d operand) : Occurs skip d (.unary position operator operand)

/-- An `and` or an `or` does not evaluate its second operand because the first one is folded to a
literal that decides. -/
def Constants.Skip (constants : Constants) (operator : BinaryOperator) (lhs : Expr) : Prop :=
  ∃ a, (lhs.fold constants).literal? = some a ∧
    (operator = .and ∧ a.toValue.isTruthy = false ∨ operator = .or ∧ a.toValue.isTruthy = true)

/-- Nothing is skipped. -/
def Expr.OccursIn (d e : Expr) : Prop := d.Occurs (fun _ _ => False) e

theorem mem_foldAll {constants : Constants} {e : Expr} {es : List Expr} (h : e ∈ es) :
    e.fold constants ∈ foldAll constants es := by
  induction es with
  | nil => cases h
  | cons f rest ih =>
    rw [foldAll, List.mem_cons]
    rcases List.mem_cons.1 h with rfl | h
    · exact .inl rfl
    · exact .inr (ih h)

theorem mem_foldEntries {constants : Constants} {entry : Expr × Expr} {es : List (Expr × Expr)}
    (h : entry ∈ es) :
    (entry.1.fold constants, entry.2.fold constants) ∈ foldEntries constants es := by
  induction es with
  | nil => cases h
  | cons f rest ih =>
    rw [foldEntries, List.mem_cons]
    rcases List.mem_cons.1 h with rfl | h
    · exact .inl rfl
    · exact .inr (ih h)

namespace Expr

variable {constants : Constants} {d e : Expr} {skip : BinaryOperator → Expr → Prop}

/-- Nothing but itself occurs in a literal. -/
theorem Occurs.literal {a : Literal} (h : d.Occurs skip e) (he : e.literal? = some a) :
    d.literal? = some a := by
  obtain ⟨p, rfl⟩ := eq_literal he
  cases h
  rfl

/-- **What is not folded to a literal is still there**, unless it is skipped. -/
theorem Occurs.fold (h : d.Occurs constants.Skip e) (hd : (d.fold constants).literal? = none) :
    (d.fold constants).OccursIn (e.fold constants) := by
  have hnot {e : Expr} {a : Literal} (h : (d.fold constants).OccursIn e)
      (he : e.literal? = some a) : False := by
    rw [Occurs.literal h he] at hd
    cases hd
  induction h with
  | here => exact .here
  | entryKey hentry _ ih =>
    rw [Expr.fold]
    exact .entryKey (mem_foldEntries hentry) ih
  | entryValue hentry _ ih =>
    rw [Expr.fold]
    exact .entryValue (mem_foldEntries hentry) ih
  | callee _ ih =>
    rw [Expr.fold]
    exact .callee ih
  | argument he _ ih =>
    rw [Expr.fold]
    exact .argument (mem_foldAll he) ih
  | indexed _ ih =>
    rw [Expr.fold]
    exact .indexed ih
  | key _ ih =>
    rw [Expr.fold]
    exact .key ih
  | group _ ih =>
    rw [Expr.fold]
    exact .group ih
  | lhs _ ih =>
    rw [Expr.fold, foldBinary]
    split
    · exact .lhs ih
    · next a ha => exact (hnot ih ha).elim
  | @rhs position operator lhs rhs hskip _ ih =>
    rw [Expr.fold, foldBinary]
    split
    · exact .rhs id ih
    · next a ha =>
      cases operator with
      | and =>
        have htruthy : a.toValue.isTruthy = true :=
          Bool.eq_true_of_not_eq_false fun hfalse => hskip ⟨a, ha, .inl ⟨rfl, hfalse⟩⟩
        simp only [if_pos htruthy]
        exact ih
      | or =>
        have htruthy : ¬ a.toValue.isTruthy = true :=
          fun htrue => hskip ⟨a, ha, .inr ⟨rfl, htrue⟩⟩
        simp only [if_neg htruthy]
        exact ih
      | strict operator =>
        simp only
        split
        · exact .rhs id ih
        · next b hb => exact (hnot ih hb).elim
  | operand _ ih =>
    rw [Expr.fold, foldUnary]
    split
    · exact .operand ih
    · next a ha => exact (hnot ih ha).elim

theorem foldable_of_mem {es : List Expr} (h : AllFoldable es) (he : e ∈ es) : e.Foldable := by
  induction es with
  | nil => cases he
  | cons f rest ih =>
    rcases List.mem_cons.1 he with rfl | he
    · exact h.1
    · exact ih h.2 he

theorem foldable_of_mem_entries {entry : Expr × Expr} {es : List (Expr × Expr)}
    (h : EntriesFoldable es) (hentry : entry ∈ es) : entry.1.Foldable ∧ entry.2.Foldable := by
  induction es with
  | nil => cases hentry
  | cons f rest ih =>
    rcases List.mem_cons.1 hentry with rfl | hentry
    · exact ⟨h.1, h.2.1⟩
    · exact ih h.2.2 hentry

/-- What occurs in an expression that can be folded can be folded. -/
theorem Occurs.foldable (h : d.Occurs skip e) (he : e.Foldable) : d.Foldable := by
  induction h with
  | here => exact he
  | entryKey hentry _ ih => exact ih (foldable_of_mem_entries he hentry).1
  | entryValue hentry _ ih => exact ih (foldable_of_mem_entries he hentry).2
  | callee _ ih => exact ih he.1
  | argument hmem _ ih => exact ih (foldable_of_mem he.2.1 hmem)
  | indexed _ ih => exact ih he.1
  | key _ ih => exact ih he.2
  | group _ ih => exact ih he
  | lhs _ ih => exact ih he.1
  | rhs _ _ ih => exact ih he.2
  | operand _ ih => exact ih he

end Expr

/-! ### Courses of what is folded -/

namespace Setting

variable {setting : Setting} {talk : Talk} {fuel : Nat} {places places' : List Nat}
  {constants : Constants} {position : Position} {next : Nat} {m : Machine}

/-- An operator on literals that can be folded has a value in every store. -/
theorem operator_eq_pure {r : Store → Except Cause Value} {v : Value} (h : ∀ s, r s = .ok v) :
    Course.operator position r = pure v := by
  funext s
  exact Course.eval_of_ok (by rw [h s]; rfl)

/-- **Folding an operator between two operands** does not change what it comes to. -/
theorem exprCourse_foldBinary {operator : BinaryOperator} {lhs rhs : Expr} :
    setting.exprCourse fuel places constants next m (foldBinary position operator lhs rhs) =
      setting.exprCourse fuel places constants next m (.binary position operator lhs rhs) := by
  unfold foldBinary
  split
  · rfl
  · next a hlhs =>
    obtain ⟨p, rfl⟩ := Expr.eq_literal hlhs
    cases operator with
    | and =>
      simp only [exprCourse, Course.pure_bind]
      cases a.toValue.isTruthy
      · simp only [Bool.false_eq_true, if_false, exprCourse]
      · simp only [if_true]
    | or =>
      simp only [exprCourse, Course.pure_bind]
      cases a.toValue.isTruthy
      · simp only [Bool.false_eq_true, if_false]
      · simp only [if_true, exprCourse]
    | strict operator =>
      simp only
      split
      · rfl
      · next b hrhs =>
        obtain ⟨q, rfl⟩ := Expr.eq_literal hrhs
        split
        · rfl
        · next v hv =>
          split
          · rfl
          · next value hvalue =>
            simp only [exprCourse, Course.pure_bind]
            rw [Value.toValue_of_toLiteral? hvalue]
            exact (operator_eq_pure fun s =>
              (Store.binary_literals s .empty operator a b).trans hv).symm

theorem exprCourse_foldUnary {operator : UnaryOperator} {operand : Expr} :
    setting.exprCourse fuel places constants next m (foldUnary position operator operand) =
      setting.exprCourse fuel places constants next m (.unary position operator operand) := by
  unfold foldUnary
  split
  · rfl
  · next a hoperand =>
    obtain ⟨p, rfl⟩ := Expr.eq_literal hoperand
    split
    · rfl
    · next v hv =>
      split
      · rfl
      · next value hvalue =>
        simp only [exprCourse, Course.pure_bind]
        rw [Value.toValue_of_toLiteral? hvalue]
        exact (operator_eq_pure fun s =>
          (Store.unary_literal s .empty operator a).trans hv).symm

/-- A call and what it is folded to. -/
theorem callCourse_fold {callee : Expr} {arguments : List Expr} {want : Option Nat}
    {next' : Nat} (hends : endsInShortcut arguments = false)
    (harguments : ∀ (next next' : Nat) (m : Machine),
      setting.valuesCourse fuel places constants next m arguments =
        setting.valuesCourse fuel places' [] next' m (foldAll constants arguments))
    (hcallee : ∀ (next next' : Nat) (m : Machine),
      setting.exprCourse fuel places constants next m callee =
        setting.exprCourse fuel places' [] next' m (callee.fold constants)) :
    setting.callCourse fuel position m (endsInCall arguments) want
        (fun m => setting.valuesCourse fuel places constants next m arguments)
        (fun m => setting.exprCourse fuel places constants
          (next + (valuesFunctions arguments).length) m callee) =
      setting.callCourse fuel position m (endsInCall (foldAll constants arguments)) want
        (fun m => setting.valuesCourse fuel places' [] next' m (foldAll constants arguments))
        (fun m => setting.exprCourse fuel places' []
          (next' + (valuesFunctions (foldAll constants arguments)).length) m
          (callee.fold constants)) := by
  rw [endsInCall_foldAll hends, funext fun m => harguments next next' m,
    funext fun m => hcallee (next + (valuesFunctions arguments).length)
      (next' + (valuesFunctions (foldAll constants arguments)).length) m]

mutual

/-- **An expression and what it is folded to have the same course**, wherever their functions would
be. -/
theorem exprCourse_fold : ∀ (e : Expr), e.Foldable → ∀ (next next' : Nat) (m : Machine),
    setting.exprCourse fuel places constants next m e =
      setting.exprCourse fuel places' [] next' m (e.fold constants)
  | .literal _ _, _, next, next', m => by simp only [Expr.fold, exprCourse]
  | .var _ name, _, next, next', m => by
    rw [Expr.fold, exprCourse]
    cases constants.find? name with
    | none => simp only [exprCourse, Constants.find?]
    | some value => simp only [exprCourse]
  | .function _ _ _, h, _, _, _ => h.elim
  | .table position entries, h, next, next', m => by
    simp only [Expr.fold, exprCourse]
    refine congrArg (bind _) (funext fun ref => ?_)
    rw [entriesCourse_fold entries h next next']
  | .call position callee arguments, ⟨hcallee, harguments, hends⟩, next, next', m => by
    simp only [Expr.fold, exprCourse]
    rw [callCourse_fold hends (valuesCourse_fold arguments harguments hends)
      (exprCourse_fold callee hcallee)]
  | .index position table key, ⟨htable, hkey⟩, next, next', m => by
    simp only [Expr.fold, exprCourse]
    rw [exprCourse_fold key hkey next next']
    refine congrArg (bind _) (funext fun k => ?_)
    rw [exprCourse_fold table htable]
  | .group _ inner, h, next, next', m => by
    simp only [Expr.fold, exprCourse]
    exact exprCourse_fold inner h next next' m
  | .binary position .and lhs rhs, ⟨hlhs, hrhs⟩, next, next', m => by
    rw [Expr.fold, exprCourse_foldBinary]
    simp only [exprCourse]
    rw [exprCourse_fold lhs hlhs, exprCourse_fold rhs hrhs next next']
  | .binary position .or lhs rhs, ⟨hlhs, hrhs⟩, next, next', m => by
    rw [Expr.fold, exprCourse_foldBinary]
    simp only [exprCourse]
    rw [exprCourse_fold lhs hlhs, exprCourse_fold rhs hrhs next next']
  | .binary position (.strict operator) lhs rhs, ⟨hlhs, hrhs⟩, next, next', m => by
    rw [Expr.fold, exprCourse_foldBinary]
    simp only [exprCourse]
    rw [exprCourse_fold rhs hrhs next next']
    refine congrArg (bind _) (funext fun right => ?_)
    rw [exprCourse_fold lhs hlhs]
  | .unary position operator operand, h, next, next', m => by
    rw [Expr.fold, exprCourse_foldUnary]
    simp only [exprCourse]
    rw [exprCourse_fold operand h next next']

theorem valuesCourse_fold : ∀ (es : List Expr), AllFoldable es → endsInShortcut es = false →
    ∀ (next next' : Nat) (m : Machine),
      setting.valuesCourse fuel places constants next m es =
        setting.valuesCourse fuel places' [] next' m (foldAll constants es)
  | [], _, _, _, _, _ => by simp only [foldAll, valuesCourse]
  | e :: rest, ⟨he, hrest⟩, hends, next, next', m => by
    by_cases hcons : rest ≠ [] ∨ e.isCall = false
    · obtain ⟨hcons', hends'⟩ := consFold_of_cons constants hcons hends
      rw [foldAll, valuesCourse_cons hcons, valuesCourse_cons hcons',
        exprCourse_fold e he next next']
      refine congrArg (bind _) (funext fun first => ?_)
      rw [valuesCourse_fold rest hrest hends']
    · obtain ⟨hnil, hcall⟩ := not_or.1 hcons
      obtain rfl := not_not.1 hnil
      cases e with
      | call position callee arguments =>
        obtain ⟨hcallee, harguments, hends⟩ := he
        simp only [foldAll, Expr.fold, valuesCourse]
        rw [callCourse_fold hends (valuesCourse_fold arguments harguments hends)
          (exprCourse_fold callee hcallee)]
      | _ => exact absurd rfl hcall

theorem entriesCourse_fold : ∀ (es : List (Expr × Expr)), EntriesFoldable es →
    ∀ (next next' : Nat) (m : Machine),
      setting.entriesCourse fuel places constants next m es =
        setting.entriesCourse fuel places' [] next' m (foldEntries constants es)
  | [], _, _, _, _ => by simp only [foldEntries, entriesCourse]
  | (key, value) :: rest, ⟨hkey, hvalue, hrest⟩, next, next', m => by
    simp only [foldEntries, entriesCourse]
    rw [entriesCourse_fold rest hrest next next']
    refine congrArg (bind _) (funext fun others => ?_)
    rw [exprCourse_fold value hvalue]
    refine congrArg (bind _) (funext fun v => ?_)
    rw [exprCourse_fold key hkey]

end

/-! ### Code that is folded -/

section

variable {exit exit' : Option Nat} {next' ip ip' : Nat} {s s' : Store} {e : Expr} {i : Interrupt}

variable (honest : Honest setting.natives talk) (hp : setting.program.Verifying)
include honest hp

/-- The code of an expression comes to what its course says. -/
theorem settles_course (h : setting.program.Holds places exit ip (e.code .value next).1)
    (hregular : setting.Regular fuel constants ⟨ip, ip + (e.code .value next).1.length, m.frames⟩
      ⟨{ m with ip := ip }, s⟩) :
    setting.Settles (setting.callFrom fuel) ⟨ip, ip + (e.code .value next).1.length, m.frames⟩
      ⟨{ m with ip := ip }, s⟩ .value m (ip + (e.code .value next).1.length)
      (setting.exprCourse fuel places constants next m e s) := fun ending =>
  (stacks_expr honest hp e m s h rfl hregular ending).trans
    (exists_congr fun r => and_congr_right fun _ => by cases r <;> rfl)

/-- **Folding preserves the value of an expression, and its effects.**  In a state in which the
names that stand for literals have their values, and keep them, the code of an expression leaves one
value or fails, and so does the code of what it is folded to, with the same value or error and the
same store.  A part whose evaluation fails is not folded to a literal, and is not left out unless it
is skipped. -/
theorem settles_fold (hfoldable : e.Foldable)
    (h : setting.program.Holds places exit ip (e.code .value next).1)
    (h' : setting.program.Holds places' exit' ip' ((e.fold constants).code .value next').1)
    (hregular : setting.Regular fuel constants ⟨ip, ip + (e.code .value next).1.length, m.frames⟩
      ⟨{ m with ip := ip }, s⟩)
    (hsteady : setting.Steady (setting.callFrom fuel) false
      ⟨ip', ip' + ((e.fold constants).code .value next').1.length, m.frames⟩
      ⟨{ m with ip := ip' }, s⟩) :
    setting.Settles (setting.callFrom fuel) ⟨ip, ip + (e.code .value next).1.length, m.frames⟩
        ⟨{ m with ip := ip }, s⟩ .value m (ip + (e.code .value next).1.length)
        (setting.Yields (setting.callFrom fuel) m ip (e.code .value next).1 s) ∧
      setting.Settles (setting.callFrom fuel)
        ⟨ip', ip' + ((e.fold constants).code .value next').1.length, m.frames⟩
        ⟨{ m with ip := ip' }, s⟩ .value m (ip' + ((e.fold constants).code .value next').1.length)
        (setting.Yields (setting.callFrom fuel) m ip (e.code .value next).1 s) ∧
      ∀ d : Expr, d.Occurs constants.Skip e →
        ∀ {places : List Nat} {exit : Option Nat} {next ip : Nat} {m : Machine} {s s' : Store}
          {i : Interrupt},
          setting.program.Holds places exit ip (d.code .value next).1 →
          setting.Regular fuel constants ⟨ip, ip + (d.code .value next).1.length, m.frames⟩
            ⟨{ m with ip := ip }, s⟩ →
          setting.Yields (setting.callFrom fuel) m ip (d.code .value next).1 s (.error i s') →
          (d.fold constants).literal? = none ∧ (d.fold constants).OccursIn (e.fold constants) := by
  have hsettles := settles_course honest hp h hregular
  have hyields : setting.Yields (setting.callFrom fuel) m ip (e.code .value next).1 s =
      setting.exprCourse fuel places constants next m e s :=
    funext fun r => propext hsettles.yields_iff
  rw [hyields]
  refine ⟨hsettles, ?_, fun d hd => ?_⟩
  · rw [exprCourse_fold e hfoldable next next' m]
    exact settles_course honest hp h' hsteady.regular
  · intro places exit next ip m s s' i h hregular hfails
    have hsame : setting.exprCourse fuel places constants next m d =
        setting.exprCourse fuel [] [] 0 m (d.fold constants) :=
      exprCourse_fold d (hd.foldable hfoldable) next 0 m
    rw [(settles_course honest hp h hregular).yields_iff, hsame] at hfails
    have hliteral : (d.fold constants).literal? = none := by
      cases hfold : (d.fold constants).literal? with
      | none => rfl
      | some a =>
        obtain ⟨p, hp⟩ := Expr.eq_literal hfold
        rw [hp, exprCourse, Course.pure_iff] at hfails
        cases hfails
    exact ⟨hliteral, hd.fold hliteral⟩

end

/-- The code of `not debug`, and behind it the code of what it is folded to if `debug` stands for
`true`. -/
def notDebug : Setting :=
  ⟨⟨#[.named .load "debug" ⟨1, 5⟩, .plain (.unary .not) ⟨1, 1⟩,
    .withValue .push (.boolean false) ⟨1, 5⟩], 0⟩, .standard, ⟨0⟩, Library.run Host.function⟩

/-- Where `debug` is `true`, the code of `not debug` and that of `false` have the same value. -/
theorem notDebug_folded :
    notDebug.Finishes (notDebug.callFrom 0) false ⟨2, 3, []⟩
      ⟨⟨2, [], [⟨0⟩], [], [], [], 0⟩, Store.empty.setGlobal "debug" (.boolean true)⟩
      (.outside ⟨⟨3, [.boolean false], [⟨0⟩], [], [], [], 0⟩,
        Store.empty.setGlobal "debug" (.boolean true)⟩) := by
  obtain ⟨talk, honest⟩ := honest_run
  have hverifying : notDebug.program.Verifying := by
    intro op hop hcode entry captured hpushed
    simp only [notDebug, List.mem_cons, List.not_mem_nil, or_false] at hop
    rcases hop with rfl | rfl | rfl <;> cases hpushed
  have hknown (ip : Nat) : State.Known notDebug.program.enters
      ⟨⟨ip, [], [⟨0⟩], [], [], [], 0⟩, Store.empty.setGlobal "debug" (.boolean true)⟩ :=
    ⟨nofun, Store.known_empty.setGlobal "debug" trivial⟩
  have hroom {m : Machine} (h : m.stack.length ≤ 1) : m.HasRoom :=
    Nat.lt_of_le_of_lt h (by decide)
  have hsteady : notDebug.Steady (notDebug.callFrom 0) false ⟨2, 3, []⟩
      ⟨⟨2, [], [⟨0⟩], [], [], [], 0⟩, Store.empty.setGlobal "debug" (.boolean true)⟩ := by
    refine ⟨hknown 2, fun st' h => ?_⟩
    rcases h.cases_step rfl with rfl | h
    · exact hroom (Nat.zero_le 1)
    rw [h.eq_of_not_inside fun hin => absurd (hin.2 rfl).2 (by decide)]
    exact hroom (Nat.le_refl 1)
  have hresolve (ip : Nat) (stack : List Value) :
      Constants.Resolve [("debug", some (.boolean true))]
      ⟨⟨ip, stack, [⟨0⟩], [], [], [], 0⟩, Store.empty.setGlobal "debug" (.boolean true)⟩ := by
    intro name value hfind
    rw [Constants.find?] at hfind
    split at hfind
    · next hname =>
      subst hname
      cases hfind
      rfl
    · cases hfind
  have hregular : notDebug.Regular 0 [("debug", some (.boolean true))] ⟨0, 2, []⟩
      ⟨⟨0, [], [⟨0⟩], [], [], [], 0⟩, Store.empty.setGlobal "debug" (.boolean true)⟩ := by
    have hall {st' : State} (h : notDebug.Traverses (notDebug.callFrom 0) false ⟨0, 2, []⟩
        ⟨⟨0, [], [⟨0⟩], [], [], [], 0⟩, Store.empty.setGlobal "debug" (.boolean true)⟩ st') :
        st'.machine.stack.length ≤ 1 ∧
          Constants.Resolve [("debug", some (.boolean true))] st' := by
      rcases h.cases_step rfl with rfl | h
      · exact ⟨Nat.zero_le 1, hresolve _ _⟩
      rcases h.cases_step rfl with rfl | h
      · exact ⟨Nat.le_refl 1, hresolve _ _⟩
      rw [h.eq_of_not_inside fun hin => absurd (hin.2 rfl).2 (by decide)]
      exact ⟨Nat.le_refl 1, hresolve _ _⟩
    exact ⟨⟨hknown 0, fun st' h => hroom (hall h).1⟩, fun st' h _ => (hall h).2⟩
  have hmain := (settles_fold (e := .unary ⟨1, 1⟩ .not (.var ⟨1, 5⟩ "debug"))
    (m := ⟨0, [], [⟨0⟩], [], [], [], 0⟩) honest hverifying trivial
    (show notDebug.program.Holds [] none 0 ((Expr.unary _ _ _).code .value 0).1 from
      ⟨rfl, rfl, trivial⟩)
    (show notDebug.program.Holds [] none 2
        ((Expr.fold [("debug", some (.boolean true))] (.unary _ _ _)).code .value 0).1 from
      ⟨rfl, trivial⟩) hregular hsteady).2.1
  refine (hmain _).2 ⟨.ok (.boolean false) _, ?_, rfl⟩
  refine .next ((Piece.inside_iff rfl).2 ⟨by decide, by decide⟩) rfl ?_
  refine .next ((Piece.inside_iff rfl).2 ⟨by decide, by decide⟩) rfl ?_
  exact .outside fun hin => absurd (hin.2 rfl).2 (by decide)

end Setting

end ScriptEngine
