import ScriptEngine.Proofs.Transparency.Library
import ScriptEngine.Proofs.Transparency.Stores

/-!
# Native functions in both programs

The functions of the standard library do in the folded program what they do in the plain one, as
long as they do not write where functions begin.  The one that calls back into the engine, to
compare values, does so if the calls do.

## Main definitions

* `discreet` — native functions that run out of fuel where they would tell where functions begin.
* `Twins.Answers` — calls back into the engine do the same in both programs.

## Main results

* `Twins.Mirrors.native` — native functions do the same in both programs.
-/

namespace ScriptEngine

/-- Native functions that run out of fuel where they would tell where functions begin. -/
def discreet (natives : Builtin → NativeBody) : Builtin → NativeBody := fun b call args =>
  if b.tells args then throw (.interrupt .outOfFuel) else natives b call args

/-! ### Computations of native functions as evaluations -/

namespace Eval

variable {α β : Type} {position : Position}

/-- What a native function does that is called at a place. -/
def native (position : Position) (x : Action α) : Eval α :=
  EStateM.adaptExcept (fun e => .interrupted (e.located position)) x

/-- What a call back into the engine does. -/
def answer (x : EStateM Interrupt Store α) : Eval α := EStateM.adaptExcept .interrupted x

theorem native_bind (x : Action α) (f : α → Action β) :
    native position (x >>= f) = native position x >>= fun a => native position (f a) := by
  funext s
  change EStateM.adaptExcept _ (EStateM.bind x f) s = EStateM.bind (native position x) _ s
  rw [EStateM.adaptExcept, EStateM.bind, EStateM.bind, native, EStateM.adaptExcept]
  cases x s <;> rfl

theorem native_lift (r : Except Cause α) :
    native position (Library.lift r) = located position r := by
  cases r <;> rfl

theorem native_callBack (call : Reentry) (callee : Value) (args : List Value) :
    native position (EStateM.adaptExcept .interrupt (call callee args)) =
      answer (call callee args) := by
  funext s
  rw [native, answer, EStateM.adaptExcept, EStateM.adaptExcept, EStateM.adaptExcept]
  cases call callee args s <;> rfl

end Eval

theorem evalNative_eq (w : World) (position : Position) (depth : Nat) (f : Native)
    (arguments : List Value) :
    evalNative w position depth f arguments =
      Eval.native position (w.natives f.body (w.call position depth) arguments) := by
  funext s
  rw [evalNative, Eval.native, EStateM.adaptExcept]
  cases w.natives f.body (w.call position depth) arguments s <;> rfl

namespace Twins

variable {t : Twins} {blocks : Blocks} {s s' : Store} {position : Position} {args : Arguments}
  {call call' : Reentry}

/-- Calls back into the engine do in the folded program what they do in the plain one. -/
def Answers (t : Twins) (call call' : Reentry) : Prop :=
  ∀ {blocks : Blocks} {s s' : Store} {callee : Value} {args : List Value}, t.At blocks s s' →
    t.KnownValue blocks s callee → t.KnownValues blocks s args →
    t.Mirrors (List.map (Value.moved t.place)) t.KnownValues none blocks s
      (Eval.answer (call callee args) s)
      (Eval.answer (call' (callee.moved t.place) (args.map (Value.moved t.place))) s')

/-- A table whose functions both programs have. -/
def KnownTable (t : Twins) (blocks : Blocks) (s : Store) (u : Table) : Prop :=
  u.Known (t.Closures blocks s.scopes.size)

namespace Mirrors

section

variable {α β : Type} {move : α → α} {after : β → β} {post : Blocks → Store → α → Prop}
  {goal : Blocks → Store → β → Prop}

theorem native_bind {x x' : Action α} {f f' : α → Action β}
    (hx : t.Mirrors move post none blocks s (Eval.native position x s) (Eval.native position x' s'))
    (hf : ∀ a blocks₁ s₁ s₁', t.Leads none blocks s blocks₁ s₁ s₁' → post blocks₁ s₁ a →
      t.Mirrors after goal none blocks₁ s₁ (Eval.native position (f a) s₁)
        (Eval.native position (f' (move a)) s₁')) :
    t.Mirrors after goal none blocks s (Eval.native position (x >>= f) s)
      (Eval.native position (x' >>= f') s') := by
  rw [Eval.native_bind, Eval.native_bind]
  exact hx.bind hf

theorem native_pure {a a' : α} (h : t.At blocks s s') (ha : a' = move a) (hpost : post blocks s a) :
    t.Mirrors move post none blocks s (Eval.native position (Pure.pure a) s)
      (Eval.native position (Pure.pure a') s') := .pure h ha hpost

/-- What is behind a failure does not matter. -/
theorem native_throw_bind {c : Cause} {f f' : β → Action α} (h : t.At blocks s s') :
    t.Mirrors move post none blocks s
      (Eval.native position ((throw (.cause c) : Action β) >>= f) s)
      (Eval.native position ((throw (.cause c) : Action β) >>= f') s') := ⟨blocks, s', rfl, .refl h⟩

/-- A choice that is made alike. -/
theorem native_ite {c : Prop} [Decidable c] {x x' y y' : Action α}
    (hx : c → t.Mirrors move post none blocks s (Eval.native position x s)
      (Eval.native position x' s'))
    (hy : ¬ c → t.Mirrors move post none blocks s (Eval.native position y s)
      (Eval.native position y' s')) :
    t.Mirrors move post none blocks s (Eval.native position (if c then x else y) s)
      (Eval.native position (if c then x' else y') s') := by
  by_cases hc : c
  · rw [if_pos hc, if_pos hc]
    exact hx hc
  · rw [if_neg hc, if_neg hc]
    exact hy hc

/-- Operations that need no store. -/
theorem native_lift {r r' : Except Cause α} (h : t.At blocks s s') (hr : r' = r.map move)
    (hpost : Harmless (post blocks s) r) :
    t.Mirrors move post none blocks s (Eval.native position (Library.lift r) s)
      (Eval.native position (Library.lift r') s') := by
  rw [Eval.native_lift, Eval.native_lift]
  refine .located h hr fun a ha => ?_
  rwa [ha] at hpost

/-- An argument, or another result without functions. -/
theorem native_same {r r' : Except Cause α} (h : t.At blocks s s') (hr : r' = r) :
    t.Mirrors id NothingKnown none blocks s (Eval.native position (Library.lift r) s)
      (Eval.native position (Library.lift r') s') := by
  rw [Eval.native_lift, Eval.native_lift]
  refine .located h ?_ fun _ _ => trivial
  subst hr
  cases r' <;> rfl

/-- Something is read off both stores. -/
theorem native_read {f f' : Store → α} (h : t.At blocks s s') (hf : f' s' = move (f s))
    (hpost : post blocks s (f s)) :
    t.Mirrors move post none blocks s (Eval.native position (fun s => .ok (f s) s) s)
      (Eval.native position (fun s => .ok (f' s) s) s') := by
  change t.Mirrors _ _ _ _ _ (.ok (f s) s) (.ok (f' s') s')
  rw [hf]
  exact ⟨blocks, s', rfl, .refl h, hpost⟩

end

/-! ### Tables -/

theorem native_border (h : t.At blocks s s') (ref : TableRef) :
    t.Mirrors id NothingKnown none blocks s (Eval.native position (Library.border ref) s)
      (Eval.native position (Library.border ref) s') := by
  refine .native_read h ?_ trivial
  rw [Store.table_moved h.alike.tables, Table.border_moved]
  rfl

theorem native_contents (h : t.At blocks s s') (ref : TableRef) :
    t.Mirrors (Table.moved t.place) t.KnownTable none blocks s
      (Eval.native position (Library.contents ref) s)
      (Eval.native position (Library.contents ref) s') :=
  .native_read h (Store.table_moved h.alike.tables ref) (h.known.table ref)

theorem native_valueAt (h : t.At blocks s s') (ref : TableRef) (i : Int) :
    t.Mirrors (Value.moved t.place) t.KnownValue none blocks s
      (Eval.native position (Library.valueAt ref i) s)
      (Eval.native position (Library.valueAt ref i) s') := by
  refine .native_read h ?_ ((h.known.table ref).atInteger i)
  rw [Store.table_moved h.alike.tables, Table.atInteger_moved]

theorem native_changeTable (h : t.At blocks s s') (ref : TableRef) {f f' : Table → Table}
    (hf : ∀ u, f' (u.moved t.place) = (f u).moved t.place)
    (hknown : ∀ u, t.KnownTable blocks s u → t.KnownTable blocks s (f u)) :
    t.Mirrors id NothingKnown none blocks s (Eval.native position (Library.changeTable ref f) s)
      (Eval.native position (Library.changeTable ref f') s') :=
  ⟨blocks, _, rfl, (h.modifyTable ref hf hknown).leads rfl, trivial⟩

/-! ### Functions on tables -/

theorem native_insert (h : t.At blocks s s') (hargs : t.KnownValues blocks s args) :
    t.Mirrors (List.map (Value.moved t.place)) t.KnownValues none blocks s
      (Eval.native position (Library.insert args) s)
      (Eval.native position (Library.insert (args.map (Value.moved t.place))) s') := by
  simp only [Library.insert, Arguments.table_moved, Arguments.integer_moved, Arguments.value_moved,
    List.length_map]
  refine (native_same h rfl).native_bind fun ref _ _ _ hleads _ => ?_
  refine (native_border hleads.arrived ref).native_bind fun length blocks₁ s₁ s₁' hleads' _ => ?_
  have hknown := hargs.leads (hleads.trans hleads')
  split
  · refine (native_changeTable hleads'.arrived ref (fun u => ?_) fun u hu => ?_).native_bind
      fun _ _ _ _ hleads'' _ => .native_pure hleads''.arrived rfl .nil
    · exact (Table.set_moved u _ _).symm
    · exact hu.set _ (hknown.value 1)
  · refine (native_same hleads'.arrived rfl).native_bind fun place _ _ _ hleads'' _ => ?_
    have hknown' := hknown.leads hleads''
    refine .native_ite (fun _ => .native_throw_bind hleads''.arrived) fun _ => ?_
    refine (native_changeTable hleads''.arrived ref (fun u => ?_) fun u hu => ?_).native_bind
      fun _ _ _ _ hlast _ => .native_pure hlast.arrived rfl .nil
    · exact Table.insertAt_moved u _ _
    · exact hu.insertAt _ (hknown'.value 2)
  · exact .native_throw_bind hleads'.arrived

theorem native_remove (h : t.At blocks s s') :
    t.Mirrors (List.map (Value.moved t.place)) t.KnownValues none blocks s
      (Eval.native position (Library.remove args) s)
      (Eval.native position (Library.remove (args.map (Value.moved t.place))) s') := by
  simp only [Library.remove, Arguments.table_moved, Arguments.integerOr_moved]
  refine (native_same h rfl).native_bind fun ref _ _ _ hleads _ => ?_
  refine (native_border hleads.arrived ref).native_bind fun length _ _ _ hleads' _ => ?_
  refine (native_same hleads'.arrived rfl).native_bind fun index _ _ _ hleads'' _ => ?_
  refine .native_ite (fun _ => .native_pure hleads''.arrived rfl (.singleton trivial)) fun _ => ?_
  refine .native_ite (fun _ => .native_throw_bind hleads''.arrived) fun _ => ?_
  refine (native_valueAt hleads''.arrived ref index).native_bind fun v _ _ _ hleads₁ hv => ?_
  refine (native_changeTable hleads₁.arrived ref (fun u => ?_) fun u hu => ?_).native_bind
    fun _ _ _ _ hlast _ => .native_pure hlast.arrived rfl (.singleton (hv.leads hlast))
  · exact Table.removeAt_moved u _
  · exact hu.removeAt _

theorem native_join (h : t.At blocks s s') :
    t.Mirrors (List.map (Value.moved t.place)) t.KnownValues none blocks s
      (Eval.native position (Library.join args) s)
      (Eval.native position (Library.join (args.map (Value.moved t.place))) s') := by
  simp only [Library.join, Arguments.table_moved, Arguments.integerOr_moved,
    Arguments.stringOrEmpty_moved]
  refine (native_same h rfl).native_bind fun ref _ _ _ hleads _ => ?_
  refine (native_same hleads.arrived rfl).native_bind fun separator _ _ _ hleads _ => ?_
  refine (native_same hleads.arrived rfl).native_bind fun start _ _ _ hleads _ => ?_
  refine (native_border hleads.arrived ref).native_bind fun length _ _ _ hleads _ => ?_
  refine (native_same hleads.arrived rfl).native_bind fun stop _ _ _ hleads _ => ?_
  refine (native_contents hleads.arrived ref).native_bind fun u _ _ _ hleads _ => ?_
  refine (native_same hleads.arrived (Table.textsFrom_moved u _ _ _)).native_bind
    fun texts _ _ _ hleads _ => ?_
  exact .native_pure hleads.arrived rfl (.singleton trivial)

theorem native_unpack (h : t.At blocks s s') :
    t.Mirrors (List.map (Value.moved t.place)) t.KnownValues none blocks s
      (Eval.native position (Library.unpack args) s)
      (Eval.native position (Library.unpack (args.map (Value.moved t.place))) s') := by
  simp only [Library.unpack, Arguments.table_moved, Arguments.integerOr_moved]
  refine (native_same h rfl).native_bind fun ref _ _ _ hleads _ => ?_
  refine (native_same hleads.arrived rfl).native_bind fun start _ _ _ hleads _ => ?_
  refine (native_border hleads.arrived ref).native_bind fun length _ _ _ hleads _ => ?_
  refine (native_same hleads.arrived rfl).native_bind fun stop _ _ _ hleads _ => ?_
  refine .native_ite (fun _ => .native_throw_bind hleads.arrived) fun _ => ?_
  refine (native_contents hleads.arrived ref).native_bind fun u _ _ _ hleads hu => ?_
  exact .native_pure hleads.arrived (Table.valuesFrom_moved u _ _) (hu.valuesFrom _ _)

theorem native_pack (h : t.At blocks s s') (hargs : t.KnownValues blocks s args) :
    t.Mirrors (List.map (Value.moved t.place)) t.KnownValues none blocks s
      (Eval.native position (Library.pack args) s)
      (Eval.native position (Library.pack (args.map (Value.moved t.place))) s') := by
  have hknown : t.KnownTable blocks s
      ((Table.ofValues args).set (.text "n") (.number (Number.ofNat args.length))) :=
    (Table.known_ofValues hargs).set _ trivial
  obtain ⟨href, hat⟩ := h.newTable hknown
  rw [Table.set_moved, ← Table.ofValues_moved] at href hat
  change t.Mirrors _ _ _ _ _ (.ok _ _) (.ok _ _)
  refine ⟨blocks, _, ?_, hat.leads rfl, .singleton trivial⟩
  rw [List.length_map]
  exact congrArg (fun ref => EStateM.Result.ok [Value.table ref] _) href

/-! ### Sorting -/

/-- A comparison, by the order of values or by a comparator. -/
theorem native_sortsBefore (hcall : t.Answers call call') {comparator v w : Value}
    (h : t.At blocks s s') (hcomparator : t.KnownValue blocks s comparator)
    (hv : t.KnownValue blocks s v) (hw : t.KnownValue blocks s w) :
    t.Mirrors id NothingKnown none blocks s
      (Eval.native position (Library.sortsBefore call comparator v w) s)
      (Eval.native position (Library.sortsBefore call' (comparator.moved t.place)
        (v.moved t.place) (w.moved t.place)) s') := by
  simp only [Library.sortsBefore, Value.isNil_moved, Value.lessThan_moved]
  refine .native_ite (fun _ => .native_same h rfl) fun _ => ?_
  have hanswer : t.Mirrors (List.map (Value.moved t.place)) t.KnownValues none blocks s
      (Eval.native position (EStateM.adaptExcept .interrupt (call comparator [v, w])) s)
      (Eval.native position (EStateM.adaptExcept .interrupt
        (call' (comparator.moved t.place) [v.moved t.place, w.moved t.place])) s') := by
    rw [Eval.native_callBack, Eval.native_callBack]
    exact hcall h hcomparator (.cons hv (.singleton hw))
  refine hanswer.native_bind fun results _ _ _ hleads _ => .native_pure hleads.arrived ?_ trivial
  rw [headD_map_moved, Value.isTruthy_moved]
  rfl

theorem native_sink (hcall : t.Answers call call') {comparator v : Value} (sorted : List Value)
    (h : t.At blocks s s') (hcomparator : t.KnownValue blocks s comparator)
    (hv : t.KnownValue blocks s v) (hsorted : t.KnownValues blocks s sorted) :
    t.Mirrors (List.map (Value.moved t.place)) t.KnownValues none blocks s
      (Eval.native position (Library.sink (Library.sortsBefore call comparator) v sorted) s)
      (Eval.native position (Library.sink (Library.sortsBefore call' (comparator.moved t.place))
        (v.moved t.place) (sorted.map (Value.moved t.place))) s') := by
  induction sorted generalizing blocks s s' with
  | nil => exact .native_pure h rfl (.singleton hv)
  | cons last rest ih =>
    obtain ⟨hlast, hrest⟩ := List.forall_mem_cons.1 hsorted
    rw [List.map_cons, Library.sink, Library.sink]
    refine (native_sortsBefore hcall h hcomparator hv hlast).native_bind
      fun sinks _ _ _ hleads _ => ?_
    refine .native_ite (fun _ => ?_) fun _ => ?_
    · refine (ih hleads.arrived (hcomparator.leads hleads) (hv.leads hleads)
        (KnownValues.leads hrest hleads)).native_bind fun sunk _ _ _ hleads' hsunk => ?_
      exact .native_pure hleads'.arrived rfl
        (.cons ((KnownValue.leads hlast hleads).leads hleads') hsunk)
    · exact .native_pure hleads.arrived rfl (.cons (hv.leads hleads) (hsorted.leads hleads))

theorem native_sortOnto (hcall : t.Answers call call') {comparator : Value} (vs sorted : List Value)
    (h : t.At blocks s s') (hcomparator : t.KnownValue blocks s comparator)
    (hvs : t.KnownValues blocks s vs) (hsorted : t.KnownValues blocks s sorted) :
    t.Mirrors (List.map (Value.moved t.place)) t.KnownValues none blocks s
      (Eval.native position (Library.sortOnto (Library.sortsBefore call comparator) sorted vs) s)
      (Eval.native position (Library.sortOnto (Library.sortsBefore call' (comparator.moved t.place))
        (sorted.map (Value.moved t.place)) (vs.map (Value.moved t.place))) s') := by
  induction vs generalizing blocks s s' sorted with
  | nil => exact .native_pure h rfl hsorted
  | cons v rest ih =>
    obtain ⟨hv, hrest⟩ := List.forall_mem_cons.1 hvs
    rw [List.map_cons, Library.sortOnto, Library.sortOnto]
    refine (native_sink hcall sorted h hcomparator hv hsorted).native_bind
      fun sunk _ _ _ hleads hsunk => ?_
    exact ih sunk hleads.arrived (hcomparator.leads hleads) (KnownValues.leads hrest hleads) hsunk

theorem native_sort (hcall : t.Answers call call') (h : t.At blocks s s')
    (hargs : t.KnownValues blocks s args) :
    t.Mirrors (List.map (Value.moved t.place)) t.KnownValues none blocks s
      (Eval.native position (Library.sort call args) s)
      (Eval.native position (Library.sort call' (args.map (Value.moved t.place))) s') := by
  simp only [Library.sort, Library.sortWith, Arguments.table_moved, Arguments.value_moved]
  refine (native_same h rfl).native_bind fun ref _ _ _ hleads _ => ?_
  have hcomparator := (hargs.leads hleads).value 1
  refine (native_contents hleads.arrived ref).native_bind fun u _ _ _ hleads' hu => ?_
  have hsequence : AllKnown _ u.sequence := hu.valuesFrom _ _
  have hsort : t.Mirrors (List.map (Value.moved t.place)) t.KnownValues none _ _
      (Eval.native position _ _) (Eval.native position _ _) :=
    native_sortOnto hcall u.sequence [] hleads'.arrived (KnownValue.leads hcomparator hleads')
      hsequence .nil
  rw [← Table.sequence_moved] at hsort
  refine (hsort.native_bind fun sorted _ _ _ hleads'' hsorted => ?_ :
    t.Mirrors (List.map (Value.moved t.place)) t.KnownValues _ _ _ _ _).native_bind
      fun sorted _ _ _ hleads'' hsorted => ?_
  · refine .native_pure hleads''.arrived List.map_reverse.symm (hsorted.of_subset ?_)
    exact List.reverse_subset.2 fun _ => id
  · refine (native_changeTable hleads''.arrived ref (fun u => ?_) fun u hu => ?_).native_bind
      fun _ _ _ _ hlast _ => .native_pure hlast.arrived rfl .nil
    · exact Table.setSequence_moved u 1 sorted
    · exact hu.setSequence 1 hsorted

/-! ### Functions that are globals -/

theorem native_newNative (h : t.At blocks s s') (f : BaseFunction) :
    t.Mirrors (Value.moved t.place) t.KnownValue none blocks s
      (Eval.native position (Library.newNative f) s)
      (Eval.native position (Library.newNative f) s') := by
  have hat : t.At blocks (s.newNative f.name (.base f)).2 (s'.newNative f.name (.base f)).2 :=
    ⟨⟨h.alike.globals, h.alike.tables, congrArg (· + 1) h.alike.natives, h.alike.shown,
      h.alike.size, h.alike.kept, h.alike.gone, h.alike.binds⟩, h.known.newNative f.name (.base f)⟩
  have hvalue : (s'.newNative f.name (.base f)).1 = (s.newNative f.name (.base f)).1 :=
    congrArg (fun n => Value.native ⟨n, f.name, .base f⟩) h.alike.natives
  change t.Mirrors _ _ _ _ _ (.ok _ _) (.ok _ _)
  exact ⟨blocks, _, congrArg (fun v => EStateM.Result.ok v _) hvalue, hat.leads rfl, trivial⟩

theorem native_print (h : t.At blocks s s') (htells : Builtin.tells args (.base .print) = false) :
    t.Mirrors (List.map (Value.moved t.place)) t.KnownValues none blocks s
      (Eval.native position (Library.print args) s)
      (Eval.native position (Library.print (args.map (Value.moved t.place))) s') := by
  -- No argument is a function, so that both programs print the same.
  rw [map_moved_of_any htells]
  have hshown (s : Store) (text : String) :
      (s.emit (.printed text)).shown = s.shown ++ [.printed text] := by
    simp [Store.shown, Store.emit, Event.isShown]
  refine ⟨blocks, _, rfl, At.leads ⟨⟨h.alike.globals, h.alike.tables, h.alike.natives, ?_,
    h.alike.size, h.alike.kept, h.alike.gone, h.alike.binds⟩, h.known.emit _⟩ rfl, .nil⟩
  rw [hshown, hshown, h.alike.shown]

/-- The entry behind a key that is given. -/
theorem native_entryBehind (h : t.At blocks s s') (ref : TableRef) (key : Option Key) :
    t.Mirrors (List.map (Value.moved t.place)) t.KnownValues none blocks s
      (Eval.native position (do
        match ← Library.lift ((← Library.contents ref).next key) with
        | some (key, v) => Pure.pure [key.toValue, v]
        | none => Pure.pure [.nil]) s)
      (Eval.native position (do
        match ← Library.lift ((← Library.contents ref).next key) with
        | some (key, v) => Pure.pure [key.toValue, v]
        | none => Pure.pure [.nil]) s') := by
  refine (native_contents h ref).native_bind fun u blocks₁ s₁ s₁' hleads hu => ?_
  have hentry : t.Mirrors (Option.map fun e : Key × Value => (e.1, e.2.moved t.place))
      (fun blocks₂ s₂ e => ∀ entry ∈ e, t.KnownValue blocks₂ s₂ entry.2) none blocks₁ s₁
      (Eval.native position (Library.lift (u.next key)) s₁)
      (Eval.native position (Library.lift ((u.moved t.place).next key)) s₁') :=
    .native_lift hleads.arrived (Table.next_moved u key) (u.harmless_next hu key)
  refine hentry.native_bind fun e _ _ _ hleads' he => ?_
  cases e with
  | none => exact .native_pure hleads'.arrived rfl (.singleton trivial)
  | some e =>
    obtain ⟨key, v⟩ := e
    have hkey : (key.toValue.moved t.place = key.toValue) := by cases key <;> rfl
    refine .native_pure hleads'.arrived ?_ (.cons ?_ (.singleton (he _ rfl)))
    · rw [List.map_cons, hkey]
      rfl
    · cases key <;> trivial

theorem native_next (h : t.At blocks s s') :
    t.Mirrors (List.map (Value.moved t.place)) t.KnownValues none blocks s
      (Eval.native position (Library.next args) s)
      (Eval.native position (Library.next (args.map (Value.moved t.place))) s') := by
  simp only [Library.next, Arguments.table_moved, Arguments.value_moved, Value.isNil_moved,
    Key.ofValue_moved]
  refine (native_same h rfl).native_bind fun ref _ _ _ hleads _ => ?_
  refine .native_ite (fun _ => native_entryBehind hleads.arrived ref none) fun _ => ?_
  cases Key.ofValue (args.value 1) with
  | error c => exact .native_throw_bind hleads.arrived
  | ok key => exact native_entryBehind hleads.arrived ref (some key)

/-- The functions that are globals. -/
theorem native_base (h : t.At blocks s s') (hargs : t.KnownValues blocks s args)
    (f : BaseFunction) (htells : Builtin.tells args (.base f) = false) :
    t.Mirrors (List.map (Value.moved t.place)) t.KnownValues none blocks s
      (Eval.native position (Library.base f args) s)
      (Eval.native position (Library.base f (args.map (Value.moved t.place))) s') := by
  have hsame {r r' : Except Cause (List Value)} (hr : r' = r)
      (hharmless : ∀ {E : Functions}, Harmless (AllKnown E) r) :
      t.Mirrors (List.map (Value.moved t.place)) t.KnownValues none blocks s
        (Eval.native position (Library.lift r) s) (Eval.native position (Library.lift r') s') :=
    .native_lift h (by rw [hr, map_moved_of_harmless hharmless]) hharmless
  cases f with
  | print => exact native_print h htells
  | type => exact hsame Library.type_moved (harmless_any.bind fun _ _ => known_string _)
  | tostring =>
    exact hsame (Library.tostring_moved htells) (harmless_any.bind fun _ _ => known_string _)
  | tonumber => exact hsame Library.tonumber_moved Library.harmless_tonumber
  | pairs =>
    simp only [Library.base, Library.pairs, Arguments.table_moved]
    refine (native_same h rfl).native_bind fun ref _ _ _ hleads _ => ?_
    refine (native_newNative hleads.arrived .next).native_bind fun v _ _ _ hleads hv => ?_
    exact .native_pure hleads.arrived rfl (.cons hv (.cons trivial (.singleton trivial)))
  | next => exact native_next h
  | ipairs =>
    simp only [Library.base, Library.ipairs, Arguments.table_moved]
    refine (native_same h rfl).native_bind fun ref _ _ _ hleads _ => ?_
    refine (native_newNative hleads.arrived .ipairsStep).native_bind fun v _ _ _ hleads hv => ?_
    exact .native_pure hleads.arrived rfl (.cons hv (.cons trivial (.singleton trivial)))
  | ipairsStep =>
    simp only [Library.base, Library.ipairsStep, Arguments.table_moved, Arguments.number_moved]
    refine (native_same h rfl).native_bind fun ref _ _ _ hleads _ => ?_
    refine (native_same hleads.arrived rfl).native_bind fun index _ _ _ hleads _ => ?_
    refine (native_contents hleads.arrived ref).native_bind fun u _ _ _ hleads hu => ?_
    simp only [Table.get_moved, Value.isNil_moved]
    refine .native_ite (fun _ => .native_pure hleads.arrived rfl (.singleton trivial)) fun _ => ?_
    exact .native_pure hleads.arrived rfl (.cons trivial (.singleton (hu.get _)))
  | select => exact .native_lift h Library.select_moved (Library.harmless_select hargs)
  | assert => exact .native_lift h (Library.assert_moved htells) (Library.harmless_assert hargs)
  | error =>
    have htext : ((args.value 0).moved t.place).text = (args.value 0).text :=
      Value.text_moved htells
    simp only [Library.base, Library.error, Arguments.value_moved, htext]
    exact hsame rfl rfl

/-- **Native functions do in the folded program what they do in the plain one**, if calls back into
the engine do. -/
theorem native (hcall : t.Answers call call') (hosts : String → NativeBody) (b : Builtin)
    (h : t.At blocks s s') (hargs : t.KnownValues blocks s args) :
    t.Mirrors (List.map (Value.moved t.place)) t.KnownValues none blocks s
      (Eval.native position (discreet (Library.run hosts) b call args) s)
      (Eval.native position
        (discreet (Library.run hosts) b call' (args.map (Value.moved t.place))) s') := by
  cases htells : b.tells args with
  | true =>
    -- The plain program runs out of fuel, and nothing is said of the folded one.
    rw [discreet, if_pos htells]
    trivial
  | false =>
    have htells' : b.tells (args.map (Value.moved t.place)) = false := by
      rw [Builtin.tells_moved, htells]
    rw [discreet, discreet, if_neg (by simp [htells]), if_neg (by simp [htells'])]
    cases b with
    | base f => exact native_base h hargs f htells
    | string f =>
      exact .native_lift h (Library.string_moved f htells) (Library.harmless_stringFunction f)
    | math f => exact .native_lift h (Library.math_moved f) (Library.harmless_math f)
    | host key => cases htells
    | table f =>
      cases f with
      | insert => exact native_insert h hargs
      | remove => exact native_remove h
      | concat => exact native_join h
      | pack => exact native_pack h hargs
      | unpack => exact native_unpack h
      | sort => exact native_sort hcall h hargs

end Mirrors

end Twins

end ScriptEngine
