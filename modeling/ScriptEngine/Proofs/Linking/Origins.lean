import ScriptEngine.Proofs.Compilation.Placement
import ScriptEngine.Proofs.Syntax.Standing

/-!
# What instructions stem from

An instruction carries a place of the node that it was generated for, and does what instructions of
such a node do.  Only the scope of a block has no place of its own, and the instructions that open
and close it cannot fail.

## Main definitions

* `Node.own` — what the instructions of a node do, those of its parts apart, and at which of its
  places they are.
* `Op.Stems` — an instruction opens or closes a scope, or is one of those of a node.
* `Gen.Emits` — so are all instructions that are generated, and those of the functions met.

## Main results

* `mem_places_of_mem_own` — the instructions of a node are at its places.
* `emits_chunkCode` — the instructions of statements stem from their nodes.
* `Program.stems_extend` — so do the instructions that a text adds to a program.
-/

namespace ScriptEngine

open Node

/-! ### The instructions of single nodes -/

/-- Instructions that do something at one place. -/
@[simp] def placedAt (p : Position) (codes : List OpCode) : List (OpCode × Position) :=
  codes.map (·, p)

/-- Instructions that declare variables and give them values. -/
@[simp] def declaring (names : List Identifier) : List (OpCode × Position) :=
  names.flatMap fun name => placedAt name.position [.makeLocal, .store]

/-- What the instructions of an expression do, those of its parts apart.  Variables and indices can
be assigned to as well. -/
@[simp] def Expr.ownCodes : Expr → List OpCode
  | .literal _ _ => [.push]
  | .var _ _ => [.load, .makeLocal, .store]
  | .function _ _ _ => [.push, .argumentCount, .ret]
  | .table _ _ => [.newTable, .storeIndex]
  | .call _ _ _ => [.assignPush, .assignCount, .swap, .push, .call]
  | .index _ _ _ => [.loadIndex, .swap, .storeIndex]
  | .group _ _ => []
  | .binary _ (.strict operator) _ _ => [.binary operator]
  | .binary _ _ _ _ => [.dup]
  | .unary _ operator _ => [.unary operator]

/-- What is done with the value of any expression: it is tested or dropped. -/
@[simp] def valueCodes : List OpCode := [.jumpIf, .jumpIfNot, .pop]

/-- What the instructions of a node do, those of its parts apart, and at which of its places they
are.  Those that open and close scopes are left out.  The place where a loop is left gets a jump. -/
@[simp] def Node.own : Node → List (OpCode × Position)
  | chunk _ => []
  | stat (.expression _) => []
  | stat (.assignment p _ _ _) => placedAt p [.assignPush, .assignSet]
  | stat (.declaration names) => declaring names
  | stat (.localFunction name _) => declaring [name]
  | stat (.conditional p _ _) => placedAt p [.jump]
  | stat (.whileLoop p _ _) => placedAt p [.jump]
  | stat (.numericFor counter _ _ _ _) =>
      placedAt counter.position [.dup, .binary (.compare .notEquals), .jumpIfNot, .push,
        .binary (.arith .add), .jump, .pop] ++ declaring [counter]
  | stat (.genericFor p names _ _) =>
      placedAt p [.assignPush, .assignSet, .iterNext, .iterJumpIfDone, .iterUpdateState, .jump,
        .pop] ++ declaring names
  | stat (.repeatLoop _ _ _) => []
  | stat (.block _) => []
  | stat (.result p _) => placedAt p [.assignPush, .ret]
  | stat (.leave p) => placedAt p [.leave, .jump]
  | expr (.function p parameters body) =>
      placedAt p ((Expr.function p parameters body).ownCodes ++ valueCodes) ++ declaring parameters
  | expr e => placedAt e.position (e.ownCodes ++ valueCodes)

section

variable {o : OpCode × Position} {p : Position} {codes : List OpCode} {names : List Identifier}

theorem snd_of_mem_placedAt (h : o ∈ placedAt p codes) : o.2 = p := by
  obtain ⟨code, -, rfl⟩ := List.mem_map.1 h
  rfl

theorem snd_of_mem_declaring (h : o ∈ declaring names) : o.2 ∈ names.map Identifier.position := by
  obtain ⟨name, hname, ho⟩ := List.mem_flatMap.1 h
  rw [snd_of_mem_placedAt ho]
  exact List.mem_map_of_mem hname

/-- The instructions at a place and those that declare variables. -/
theorem snd_of_mem_append (h : o ∈ placedAt p codes ++ declaring names) :
    o.2 ∈ p :: names.map Identifier.position := by
  rcases List.mem_append.1 h with h | h
  · exact List.mem_cons.2 (.inl (snd_of_mem_placedAt h))
  · exact .tail _ (snd_of_mem_declaring h)

/-- **The instructions of a node are at its places.** -/
theorem mem_places_of_mem_own {n : Node} (h : o ∈ n.own) : o.2 ∈ n.places := by
  cases n with
  | chunk body => cases h
  | expr e =>
    cases e with
    | function position parameters body => exact snd_of_mem_append h
    | _ => exact List.mem_singleton.2 (snd_of_mem_placedAt h)
  | stat s =>
    cases s with
    | expression e => cases h
    | repeatLoop position body condition => cases h
    | block body => cases h
    | declaration names => exact snd_of_mem_declaring h
    | localFunction name function => exact snd_of_mem_declaring h
    | numericFor counter start stop step body =>
      rcases List.mem_append.1 h with h | h
      · exact List.mem_singleton.2 (snd_of_mem_placedAt h)
      · exact snd_of_mem_declaring h
    | genericFor position names iterators body => exact snd_of_mem_append h
    | _ => exact List.mem_singleton.2 (snd_of_mem_placedAt h)

/-- The value of any expression can be tested and dropped. -/
theorem mem_own_of_mem_valueCodes {code : OpCode} {e : Expr} (h : code ∈ valueCodes) :
    (code, e.position) ∈ (expr e).own := by
  have hmem (codes : List OpCode) :
      (code, e.position) ∈ placedAt e.position (codes ++ valueCodes) :=
    List.mem_map_of_mem (List.mem_append_right _ h)
  cases e with
  | function position parameters body => exact List.mem_append_left _ (hmem _)
  | _ => exact hmem _

/-- Only where a loop is left is there an instruction that a jump takes the place of. -/
theorem jump_mem_own_of_leave {n : Node} (h : (.leave, p) ∈ n.own) : (.jump, p) ∈ n.own := by
  cases n with
  | chunk body => cases h
  | expr e =>
    cases e with
    | binary position operator lhs rhs => cases operator <;> simp at h
    | _ => simp at h
  | stat s =>
    cases s with
    | leave position => simpa using h
    | _ => simp at h

end

/-! ### Parts of code -/

/-- An instruction opens or closes a scope, or is one of those of a node that there is. -/
def Op.Stems (M : Node → Prop) (op : Op) : Prop :=
  op.code = .startBlock ∨ op.code = .endBlock ∨ ∃ n, M n ∧ (op.code, op.position) ∈ n.own

variable {M : Node → Prop} {n : Node}

theorem Op.stems_of {code : OpCode} {operand : Operand} {position : Position} (hn : M n)
    (h : (code, position) ∈ n.own) : Op.Stems M ⟨code, operand, position⟩ := .inr (.inr ⟨n, hn, h⟩)

/-- All instructions of a piece of code stem from nodes that there are. -/
def AllStem (M : Node → Prop) (code : Code) : Prop := ∀ op ∈ code, op.Stems M

section Parts

variable {code rest : Code} {position : Position} {opCode : OpCode} {operand : Operand}

theorem AllStem.nil : AllStem M [] := List.forall_mem_nil _

theorem AllStem.cons (hn : M n) (h : (opCode, position) ∈ n.own) (hrest : AllStem M rest) :
    AllStem M (⟨opCode, operand, position⟩ :: rest) :=
  List.forall_mem_cons.2 ⟨Op.stems_of hn h, hrest⟩

theorem AllStem.append (hcode : AllStem M code) (hrest : AllStem M rest) :
    AllStem M (code ++ rest) :=
  List.forall_mem_append.2 ⟨hcode, hrest⟩

theorem AllStem.single (hn : M n) (h : (opCode, position) ∈ n.own) :
    AllStem M [⟨opCode, operand, position⟩] := .cons hn h .nil

theorem AllStem.ite {c : Prop} [Decidable c] (hcode : AllStem M code) (hrest : AllStem M rest) :
    AllStem M (if c then code else rest) := by
  split
  · exact hcode
  · exact hrest

theorem AllStem.finish {e : Expr} (hcode : AllStem M code) (he : M (expr e)) (target : Target) :
    AllStem M (target.finish e.position code) := by
  cases target with
  | value => exact hcode
  | jumpWhen truth distance =>
    cases truth <;> exact hcode.append (.single he (mem_own_of_mem_valueCodes (by simp)))

theorem AllStem.resolveBreaks (short : Nat) (h : AllStem M code) :
    AllStem M (resolveBreaks short code) := by
  induction code with
  | nil => exact .nil
  | cons op rest ih =>
    obtain ⟨hop, hrest⟩ := List.forall_mem_cons.1 h
    refine List.forall_mem_cons.2 ⟨?_, ih hrest⟩
    split
    · next hleave =>
      -- The instruction that a jump takes the place of does not open or close a scope.
      rcases hop with hcode | hcode | ⟨n, hn, hown⟩
      · cases hcode.symm.trans hleave
      · cases hcode.symm.trans hleave
      · rw [hleave] at hown
        exact Op.stems_of hn (jump_mem_own_of_leave hown)
    · exact hop

/-- The place of a scope is of no concern. -/
theorem AllStem.inScope (position : Position) (h : AllStem M code) :
    AllStem M (inScope position code) :=
  List.forall_mem_cons.2 ⟨.inl rfl, h.append (List.forall_mem_singleton.2 (.inr (.inl rfl)))⟩

theorem allStem_bindLocal {name : Identifier} (hn : M n) (h : declaring [name] ⊆ n.own) :
    AllStem M (bindLocal name.name name.position) :=
  .cons hn (h (by simp)) (.single hn (h (by simp)))

theorem allStem_bindLocals {names : List Identifier} (hn : M n) (h : declaring names ⊆ n.own) :
    AllStem M (bindLocals names) := by
  refine List.forall_mem_flatMap.2 fun name hname => allStem_bindLocal hn fun o ho => h ?_
  obtain ⟨name', hname', ho⟩ := List.mem_flatMap.1 ho
  obtain rfl := List.mem_singleton.1 hname'
  exact List.mem_flatMap_of_mem (List.mem_reverse.1 hname) ho

theorem allStem_callCode {callee : Expr} {arguments : List Expr} {values function : Code}
    {want : Option Nat} (hself : M (expr (.call position callee arguments)))
    (hvalues : AllStem M values) (hfunction : AllStem M function) :
    AllStem M (callCode position arguments values function want) := by
  have hcall : AllStem M [callOp want position] := by
    cases want <;> exact .single hself (by simp [Expr.position])
  cases hends : endsInCall arguments with
  | true =>
    rw [callCode_of_endsInCall hends]
    refine .append (.append (.append (.append (.cons hself ?_ hvalues) (.single hself ?_))
      hfunction) (.single hself ?_)) hcall <;> simp [Expr.position]
  | false =>
    rw [callCode_of_not_endsInCall hends]
    refine .append (.append (hvalues.append hfunction) (.single hself ?_)) hcall
    simp [Expr.position]

theorem allStem_countingLoop {counter : Identifier} {e f : Expr} {g : Option Expr} {loop : Chunk}
    {start stop step body : Code} (hself : M (stat (.numericFor counter e f g loop)))
    (hstart : AllStem M start) (hstop : AllStem M stop) (hstep : AllStem M step)
    (hbody : AllStem M body) :
    AllStem M (countingLoop counter.position counter.name start stop step body) := by
  have hone (c : OpCode) (hc : c ∈ [OpCode.dup, .binary (.compare .notEquals), .jumpIfNot, .push,
      .binary (.arith .add), .jump, .pop]) :
      (c, counter.position) ∈ (stat (.numericFor counter e f g loop)).own :=
    List.mem_append_left _ (List.mem_map_of_mem hc)
  have hpass : AllStem M (inScope counter.position
      (.plain .dup counter.position :: bindLocal counter.name counter.position ++ body)) := by
    refine .inScope _ (.append (.cons hself (hone _ (by simp)) ?_) hbody)
    exact allStem_bindLocal hself (List.subset_append_right _ _)
  refine hstart.append (.resolveBreaks 1 (.append ?_ (.cons hself (hone _ (by simp))
    (.single hself (hone _ (by simp))))))
  refine .append (.append (.append (.append (.cons hself (hone _ (by simp)) hstop) ?_) hpass)
    hstep) (.single hself (hone _ (by simp)))
  exact .cons hself (hone _ (by simp)) (.single hself (hone _ (by simp)))

theorem allStem_iteratorLoop {names : List Identifier} {es : List Expr} {loop : Chunk}
    {iterators body : Code} (hself : M (stat (.genericFor position names es loop)))
    (hiterators : AllStem M iterators) (hbody : AllStem M body) :
    AllStem M (iteratorLoop position names iterators body) := by
  have hone (c : OpCode) (hc : c ∈ [OpCode.assignPush, .assignSet, .iterNext, .iterJumpIfDone,
      .iterUpdateState, .jump, .pop]) :
      (c, position) ∈ (stat (.genericFor position names es loop)).own :=
    List.mem_append_left _ (List.mem_map_of_mem hc)
  have hpass : AllStem M (inScope position (bindLocals names ++ body)) :=
    .inScope _ (.append (allStem_bindLocals hself (List.subset_append_right _ _)) hbody)
  have hround : AllStem M [.plain .assignPush position, .plain .iterNext position,
      .jumping .iterJumpIfDone ((inScope position (bindLocals names ++ body)).length + 3 : Nat)
        position, .counted .assignSet names.length position,
      .counted .iterUpdateState names.length position] :=
    .cons hself (hone _ (by simp)) (.cons hself (hone _ (by simp)) (.cons hself (hone _ (by simp))
      (.cons hself (hone _ (by simp)) (.single hself (hone _ (by simp))))))
  refine .append (.append (.cons hself (hone _ (by simp)) hiterators)
    (.single hself (hone _ (by simp)))) (.resolveBreaks 1 (.append (hround.append hpass) ?_))
  exact .cons hself (hone _ (by simp)) (.single hself (hone _ (by simp)))

theorem allStem_leaveCode (scopes : Option Nat) (hself : M (stat (.leave position))) :
    AllStem M (leaveCode scopes position) := by
  refine .append (fun op hop => ?_) (.single hself (by simp))
  rw [List.eq_of_mem_replicate hop]
  exact .inr (.inl rfl)

end Parts

/-! ### Generated code -/

namespace Gen

variable {α β : Type} {post : α → Prop} {after : β → Prop}

/-- What is generated is as `post` says, and the instructions of the functions that are met stem
from nodes that there are. -/
def Emits (M : Node → Prop) (post : α → Prop) (x : Gen α) : Prop :=
  ∀ next, post (x next).1 ∧ ∀ body ∈ (x next).2, AllStem M body

theorem Emits.pure {a : α} (h : post a) : Emits M post (Pure.pure a) :=
  fun _ => ⟨h, List.forall_mem_nil _⟩

theorem Emits.bind {x : Gen α} {f : α → Gen β} (hx : Emits M post x)
    (hf : ∀ a, post a → Emits M after (f a)) : Emits M after (x >>= f) := by
  intro next
  obtain ⟨hpost, hfirst⟩ := hx next
  obtain ⟨hafter, hsecond⟩ := hf _ hpost (next + (x next).2.length)
  exact ⟨hafter, List.forall_mem_append.2 ⟨hfirst, hsecond⟩⟩

theorem Emits.function {body : Gen Code} (h : Emits M (AllStem M) body) :
    Emits M (fun _ => True) (Gen.function body) := by
  intro next
  obtain ⟨hbody, hinner⟩ := h (next + 1)
  exact ⟨trivial, List.forall_mem_cons.2 ⟨hbody, hinner⟩⟩

end Gen

open Gen

/-! ### The code of syntax -/

/-- The code of two operands, the right one being generated first. -/
theorem emits_operands {left right : Target → Gen Code} {combine : Code → Code → Code}
    (hleft : ∀ target, Emits M (AllStem M) (left target))
    (hright : ∀ target, Emits M (AllStem M) (right target)) (onRight : Target)
    (onLeft : Code → Target)
    (h : ∀ l r, AllStem M l → AllStem M r → AllStem M (combine l r)) :
    Emits M (AllStem M) (do
      let r ← right onRight
      let l ← left (onLeft r)
      pure (combine l r)) :=
  .bind (hright onRight) fun r hr => .bind (hleft (onLeft r)) fun l hl => .pure (h l r hl hr)

mutual

theorem Expr.emits_code : ∀ (e : Expr) (target : Target), (expr e).All M →
    Emits M (AllStem M) (e.code target)
  | .literal position value, target, h => by
    have hself := h.self
    rw [Expr.code]
    exact .pure (.finish (.single hself (by simp [Expr.position])) hself target)
  | .var position name, target, h => by
    have hself := h.self
    rw [Expr.code]
    exact .pure (.finish (.single hself (by simp [Expr.position])) hself target)
  | .function position parameters body, target, h => by
    obtain ⟨hself, hbody⟩ := all_function.1 h
    rw [Expr.code]
    refine .bind (.function ?_) fun number _ =>
      .pure (.finish (.single hself (by simp)) hself target)
    refine .bind (emits_chunkCode body none false hbody.statements) fun inner hinner => .pure ?_
    refine .append (.append (.cons hself (by simp) ?_) hinner) (.single hself (by simp))
    exact allStem_bindLocals hself (List.subset_append_right _ _)
  | .table position entries, target, h => by
    obtain ⟨hself, hentries⟩ := all_table.1 h
    rw [Expr.code]
    refine .bind (emits_entriesCode entries hentries) fun pairs hpairs => .pure ?_
    refine .finish (.append (.cons hself ?_ hpairs) (.ite .nil (.single hself ?_))) hself target
    · simp [Expr.position]
    · simp [Expr.position]
  | .call position callee arguments, target, h => by
    obtain ⟨hself, hcallee, harguments⟩ := all_call.1 h
    rw [Expr.code]
    refine .bind (emits_valuesCode arguments harguments) fun values hvalues => ?_
    refine .bind (callee.emits_code .value hcallee) fun function hfunction => .pure ?_
    exact .finish (allStem_callCode hself hvalues hfunction) hself target
  | .index position table key, target, h => by
    obtain ⟨hself, htable, hkey⟩ := all_index.1 h
    rw [Expr.code]
    refine .bind (key.emits_code .value hkey) fun key hkey => ?_
    refine .bind (table.emits_code .value htable) fun table htable => .pure ?_
    refine .finish ((hkey.append htable).append (.single hself ?_)) hself target
    simp [Expr.position]
  | .group position inner, target, h => by
    obtain ⟨hself, hinner⟩ := all_group.1 h
    rw [Expr.code]
    exact .bind (inner.emits_code .value hinner) fun code hcode =>
      .pure (.finish hcode hself target)
  | .binary position (.strict operator) lhs rhs, target, h => by
    obtain ⟨hself, hlhs, hrhs⟩ := all_binary.1 h
    rw [Expr.code]
    refine emits_operands (fun target => lhs.emits_code target hlhs)
      (fun target => rhs.emits_code target hrhs) _ _ fun l r hl hr =>
        .finish ((hr.append hl).append (.single hself ?_)) hself target
    simp [Expr.position]
  | .binary position .and lhs rhs, target, h => by
    obtain ⟨hself, hlhs, hrhs⟩ := all_binary.1 h
    have hleft := fun target => lhs.emits_code target hlhs
    have hright := fun target => rhs.emits_code target hrhs
    cases target with
    | value =>
      rw [Expr.code]
      refine emits_operands hleft hright _ _ fun l r hl hr => .append (hl.append ?_) hr
      refine .cons hself ?_ (.cons hself ?_ (.single hself ?_)) <;> simp [Expr.position]
    | jumpWhen truth distance =>
      -- The operands do the jumping, and the operator has no instruction.
      cases truth <;> rw [Expr.code] <;>
        exact emits_operands hleft hright _ _ fun l r hl hr => hl.append hr
  | .binary position .or lhs rhs, target, h => by
    obtain ⟨hself, hlhs, hrhs⟩ := all_binary.1 h
    have hleft := fun target => lhs.emits_code target hlhs
    have hright := fun target => rhs.emits_code target hrhs
    cases target with
    | value =>
      rw [Expr.code]
      refine emits_operands hleft hright _ _ fun l r hl hr => .append (hl.append ?_) hr
      refine .cons hself ?_ (.cons hself ?_ (.single hself ?_)) <;> simp [Expr.position]
    | jumpWhen truth distance =>
      cases truth <;> rw [Expr.code] <;>
        exact emits_operands hleft hright _ _ fun l r hl hr => hl.append hr
  | .unary position operator operand, target, h => by
    obtain ⟨hself, hoperand⟩ := all_unary.1 h
    have hstrict : Emits M (AllStem M) (do
        let code ← operand.code .value
        pure (target.finish position (code ++ [.plain (.unary operator) position]))) := by
      refine .bind (operand.emits_code .value hoperand) fun code hcode =>
        .pure (.finish (hcode.append (.single hself ?_)) hself target)
      simp [Expr.position]
    cases operator with
    | not =>
      cases target with
      | value => exact hstrict
      | jumpWhen truth distance =>
        rw [Expr.code]
        exact operand.emits_code _ hoperand
    | _ => exact hstrict

theorem emits_valuesCode : ∀ (es : List Expr), (∀ e ∈ es, (expr e).All M) →
    Emits M (AllStem M) (valuesCode es)
  | [], _ => by
    rw [valuesCode]
    exact .pure .nil
  | [e], h => by
    have he := List.forall_mem_singleton.1 h
    cases e with
    | call position callee arguments =>
      obtain ⟨hself, hcallee, harguments⟩ := all_call.1 he
      rw [valuesCode]
      refine .bind (emits_valuesCode arguments harguments) fun values hvalues => ?_
      exact .bind (callee.emits_code .value hcallee) fun function hfunction =>
        .pure (allStem_callCode hself hvalues hfunction)
    | _ =>
      simp only [valuesCode]
      exact .bind (Expr.emits_code _ .value he) fun first hfirst =>
        .bind (.pure AllStem.nil) fun others hothers => .pure (hfirst.append hothers)
  | e :: f :: rest, h => by
    obtain ⟨he, hrest⟩ := List.forall_mem_cons.1 h
    rw [valuesCode_cons (by simp)]
    exact .bind (e.emits_code .value he) fun first hfirst =>
      .bind (emits_valuesCode (f :: rest) hrest) fun others hothers =>
        .pure (hfirst.append hothers)

theorem emits_entriesCode : ∀ (es : List (Expr × Expr)),
    (∀ e ∈ es, (expr e.1).All M ∧ (expr e.2).All M) → Emits M (AllStem M) (entriesCode es)
  | [], _ => by
    rw [entriesCode]
    exact .pure .nil
  | (key, value) :: rest, h => by
    obtain ⟨⟨hkey, hvalue⟩, hrest⟩ := List.forall_mem_cons.1 h
    rw [entriesCode]
    refine .bind (emits_entriesCode rest hrest) fun others hothers => ?_
    refine .bind (value.emits_code .value hvalue) fun value hvalue => ?_
    exact .bind (key.emits_code .value hkey) fun key hkey =>
      .pure ((hothers.append hvalue).append hkey)

theorem emits_storesCode (isLocal : Bool) : ∀ (es : List Expr), (∀ e ∈ es, (expr e).All M) →
    Emits M (AllStem M) (storesCode isLocal es)
  | [], _ => by
    rw [storesCode]
    exact .pure .nil
  | e :: rest, h => by
    obtain ⟨he, hrest⟩ := List.forall_mem_cons.1 h
    have hothers := emits_storesCode isLocal rest hrest
    cases e with
    | index position table key =>
      obtain ⟨hself, htable, hkey⟩ := all_index.1 he
      rw [storesCode]
      refine .bind hothers fun others hothers => .bind (table.emits_code .value htable)
        fun table htable => .bind (key.emits_code .value hkey) fun key hkey => .pure ?_
      refine .append (.append (.append (hothers.append htable) (.single hself ?_)) hkey)
        (.cons hself ?_ (.single hself ?_)) <;> simp [Expr.position]
    | var position name =>
      have hself := he.self
      rw [storesCode]
      refine .bind hothers fun others hothers => .pure (.append (hothers.append
        (.ite (.single hself ?_) .nil)) (.single hself ?_)) <;> simp [Expr.position]
    | _ =>
      -- Nothing else is a target in the tree of a text, and its value would be dropped.
      simp only [storesCode]
      exact .bind hothers fun others hothers =>
        .pure (hothers.append (.single he.self (mem_own_of_mem_valueCodes (by simp))))

theorem emits_branchesCode {scopes : Option Nat} {position : Position} {last : Gen Code}
    {whole : Node} (hwhole : M whole) (hjump : (.jump, position) ∈ whole.own)
    (hlast : Emits M (AllStem M) last) :
    ∀ (branches : List (Expr × List Stat)),
      (∀ branch ∈ branches, (expr branch.1).All M ∧ (Node.chunk branch.2).All M) →
      Emits M (AllStem M) (branchesCode scopes position last branches)
  | [], _ => by
    rw [branchesCode]
    exact hlast
  | (condition, body) :: rest, h => by
    obtain ⟨⟨hcondition, hbody⟩, hrest⟩ := List.forall_mem_cons.1 h
    rw [branchesCode]
    refine .bind (emits_branchesCode hwhole hjump hlast rest hrest) fun others hothers => ?_
    refine .bind (emits_chunkCode body _ false hbody.statements) fun inner hinner => ?_
    refine .bind (condition.emits_code _ hcondition) fun test htest => .pure ?_
    refine .append (htest.append ((hinner.inScope _).append (.ite .nil ?_))) hothers
    exact .single hwhole hjump

theorem Stat.emits_code : ∀ (s : Stat) (scopes : Option Nat) (keep : Bool), (stat s).All M →
    Emits M (AllStem M) (s.code scopes keep)
  | .expression e, scopes, keep, h => by
    have he := (all_expression.1 h).2
    cases e with
    | call position callee arguments =>
      obtain ⟨hself, hcallee, harguments⟩ := all_call.1 he
      rw [Stat.code]
      exact .bind (emits_valuesCode arguments harguments) fun values hvalues =>
        .bind (callee.emits_code .value hcallee) fun function hfunction =>
          .pure (allStem_callCode hself hvalues hfunction)
    | _ =>
      simp only [Stat.code]
      exact .bind (Expr.emits_code _ .value he) fun code hcode =>
        .pure (.ite hcode (hcode.append (.single he.self (mem_own_of_mem_valueCodes (by simp)))))
  | .assignment position isLocal targets values, scopes, keep, h => by
    obtain ⟨hself, htargets, hvalues⟩ := all_assignment.1 h
    rw [Stat.code]
    refine .bind (emits_valuesCode values hvalues) fun right hright => ?_
    refine .bind (emits_storesCode isLocal targets htargets) fun stores hstores => .pure ?_
    exact .append (.ite hright (.append (.cons hself (by simp) hright) (.single hself (by simp))))
      hstores
  | .declaration names, scopes, keep, h => by
    rw [Stat.code]
    refine .pure (List.forall_mem_map.2 fun name hname => Op.stems_of h.self ?_)
    exact List.mem_flatMap_of_mem hname List.mem_cons_self
  | .localFunction name function, scopes, keep, h => by
    obtain ⟨hself, hfunction⟩ := all_localFunction.1 h
    rw [Stat.code]
    exact .bind (function.emits_code .value hfunction) fun code hcode =>
      .pure (.append (.cons hself (by simp) hcode) (.single hself (by simp)))
  | .conditional position branches none, scopes, keep, h => by
    obtain ⟨hself, hbranches, -⟩ := all_conditional.1 h
    rw [Stat.code]
    exact emits_branchesCode hself (by simp) (.pure .nil) branches hbranches
  | .conditional position branches (some body), scopes, keep, h => by
    obtain ⟨hself, hbranches, hotherwise⟩ := all_conditional.1 h
    rw [Stat.code]
    refine emits_branchesCode hself (by simp) ?_ branches hbranches
    exact .bind (emits_chunkCode body _ false (hotherwise body rfl).statements) fun inner hinner =>
      .pure (hinner.inScope _)
  | .whileLoop position condition body, scopes, keep, h => by
    obtain ⟨hself, hcondition, hbody⟩ := all_whileLoop.1 h
    rw [Stat.code]
    refine .bind (emits_chunkCode body _ false hbody.statements) fun inner hinner => ?_
    refine .bind (condition.emits_code _ hcondition) fun test htest => .pure ?_
    exact .resolveBreaks 0 ((htest.append (hinner.inScope _)).append (.single hself (by simp)))
  | .numericFor counter start stop none body, scopes, keep, h => by
    obtain ⟨hself, hstart, hstop, hbody, -⟩ := all_numericFor.1 h
    rw [Stat.code]
    refine .bind (emits_chunkCode body _ false hbody.statements) fun inner hinner => ?_
    refine .bind (stop.emits_code .value hstop) fun stop hstop => ?_
    refine .bind (start.emits_code .value hstart) fun start hstart => .pure ?_
    exact allStem_countingLoop hself hstart hstop (.single hself (by simp)) hinner
  | .numericFor counter start stop (some step) body, scopes, keep, h => by
    obtain ⟨hself, hstart, hstop, hbody, hstep⟩ := all_numericFor.1 h
    rw [Stat.code]
    refine .bind (emits_chunkCode body _ false hbody.statements) fun inner hinner => ?_
    refine .bind (step.emits_code .value (hstep step rfl)) fun step hstep => ?_
    refine .bind (stop.emits_code .value hstop) fun stop hstop => ?_
    refine .bind (start.emits_code .value hstart) fun start hstart => .pure ?_
    exact allStem_countingLoop hself hstart hstop hstep hinner
  | .genericFor position names iterators body, scopes, keep, h => by
    obtain ⟨hself, hbody, hiterators⟩ := all_genericFor.1 h
    rw [Stat.code]
    refine .bind (emits_chunkCode body _ false hbody.statements) fun inner hinner => ?_
    exact .bind (emits_valuesCode iterators hiterators) fun iterators hiterators =>
      .pure (allStem_iteratorLoop hself hiterators hinner)
  | .repeatLoop position body condition, scopes, keep, h => by
    obtain ⟨-, hbody, hcondition⟩ := all_repeatLoop.1 h
    rw [Stat.code]
    refine .bind (emits_chunkCode body _ false hbody.statements) fun inner hinner => ?_
    refine .bind (condition.emits_code .value hcondition) fun test htest => .pure ?_
    -- The jump back tests the value of the condition, at the place of the condition.
    exact .resolveBreaks 0 (.append ((hinner.append htest).inScope _)
      (.single hcondition.self (mem_own_of_mem_valueCodes (by simp))))
  | .block body, scopes, keep, h => by
    rw [Stat.code]
    exact .bind (emits_chunkCode body _ false (all_block.1 h).2.statements) fun inner hinner =>
      .pure (hinner.inScope _)
  | .result position values, scopes, keep, h => by
    obtain ⟨hself, hvalues⟩ := all_result.1 h
    rw [Stat.code]
    exact .bind (emits_valuesCode values hvalues) fun code hcode =>
      .pure (.ite (.append (.cons hself (by simp) hcode) (.single hself (by simp)))
        (hcode.append (.single hself (by simp))))
  | .leave position, scopes, keep, h => by
    rw [Stat.code]
    exact .pure (allStem_leaveCode scopes h.self)

theorem emits_chunkCode : ∀ (body : List Stat) (scopes : Option Nat) (keep : Bool),
    (∀ s ∈ body, (stat s).All M) → Emits M (AllStem M) (chunkCode scopes keep body)
  | [], scopes, keep, _ => by
    rw [chunkCode]
    exact .pure .nil
  | s :: rest, scopes, keep, h => by
    obtain ⟨hs, hrest⟩ := List.forall_mem_cons.1 h
    rw [chunkCode]
    exact .bind (s.emits_code scopes _ hs) fun first hfirst =>
      .bind (emits_chunkCode rest scopes keep hrest) fun others hothers =>
        .pure (hfirst.append hothers)

end

/-! ### Programs -/

theorem Op.position_link (places : List Nat) (op : Op) :
    (op.link places).position = op.position := by
  unfold Op.link
  split
  · split <;> rfl
  · rfl

/-- **The instructions that a text adds to a program stem from its nodes.** -/
theorem Program.stems_extend {p : Program} {chunk : Chunk} (hp : AllStem M p.code.toList)
    (hchunk : (Node.chunk chunk).All M) : AllStem M (p.extend chunk).1.code.toList := by
  obtain ⟨hmain, hbodies⟩ := emits_chunkCode chunk none true hchunk.statements 0
  have hadded :
      AllStem M ((chunkCode none true chunk 0).2.flatten ++ (chunkCode none true chunk 0).1) :=
    .append (fun op hop => by
      obtain ⟨body, hbody, hop⟩ := List.mem_flatten.1 hop
      exact hbodies body hbody op hop) hmain
  rw [extend, Array.toList_appendList]
  refine .append hp (List.forall_mem_map.2 fun op hop => ?_)
  rw [Op.Stems, Op.code_link, Op.position_link]
  exact hadded op hop

end ScriptEngine
