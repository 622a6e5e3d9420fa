import ScriptEngine.Machine.Basic
import ScriptEngine.Library.Tables

/-!
# Known functions

A script function is a value that says where its code begins and which scopes it
closed over.  The machine trusts it in both.  It may, if no part of the engine makes
functions up: all that values and stores hold are functions that are known.

## Main definitions

* `Cause.isCheck`, `Failure.isCheck` — failed checks of the machine.
* `Value.Known`, `Table.Known`, `Store.Known` — all functions are known.
* `Harmless` — results of operators, whose failures are not checks of the machine.
* `Tame` — computations on a store that make up no functions and leave the scopes
  alone.

## Main results

* `harmless_binary`, `harmless_unary` — operators make up no functions.
* `Tame.bind`, `Tame.lift` — computations one after another, and results of
  operators.
-/

namespace ScriptEngine

/-! ### Failed checks -/

/-- Whether a cause is a failed check of the machine. -/
def Cause.isCheck : Cause → Bool
  | .machine _ => true
  | _ => false

/-- Whether a failure is a failed check of the machine. -/
def Failure.isCheck : Failure → Bool
  | .cause c => c.isCheck
  | .interrupt _ => false

/-! ### Values and stores -/

/-- Script functions, by where their code begins and what they closed over. -/
abbrev Functions := Nat → List ScopeRef → Prop

/-- Some functions are among others. -/
def Functions.Among (E E' : Functions) : Prop :=
  ∀ entry captured, E entry captured → E' entry captured

theorem Functions.Among.refl (E : Functions) : E.Among E := fun _ _ => id

theorem Functions.Among.trans {E E' E'' : Functions} (h : E.Among E') (h' : E'.Among E'') :
    E.Among E'' := fun entry captured he => h' entry captured (h entry captured he)

variable {E : Functions}

/-- A value is known unless it is a function that is not. -/
def Value.Known (E : Functions) : Value → Prop
  | .function entry captured => E entry captured
  | _ => True

/-- Values that are all known. -/
def AllKnown (E : Functions) (vs : List Value) : Prop := ∀ v ∈ vs, v.Known E

/-- A table whose values are known. -/
def Table.Known (E : Functions) (t : Table) : Prop := ∀ e ∈ t.entries, e.2.Known E

/-- Variables whose values are known. -/
def Bindings.Known (E : Functions) (b : Bindings) : Prop := ∀ e ∈ b, e.2.Known E

/-- A store whose values are known. -/
structure Store.Known (E : Functions) (s : Store) : Prop where
  globals : s.globals.Known E
  tables : ∀ t ∈ s.tables, t.Known E
  scopes : ∀ b ∈ s.scopes, b.Known E

theorem Value.Known.mono {E' : Functions} (hE : E.Among E') {v : Value} (h : v.Known E) :
    v.Known E' := by
  cases v with
  | function entry captured => exact hE entry captured h
  | _ => trivial

theorem AllKnown.mono {E' : Functions} (hE : E.Among E') {vs : List Value} (h : AllKnown E vs) :
    AllKnown E' vs := fun v hv => (h v hv).mono hE

theorem Store.Known.mono {E' : Functions} (hE : E.Among E') {s : Store} (h : s.Known E) :
    s.Known E' where
  globals e he := (h.globals e he).mono hE
  tables t ht e he := (h.tables t ht e he).mono hE
  scopes b hb e he := (h.scopes b hb e he).mono hE

theorem AllKnown.cons {v : Value} {vs : List Value} (hv : v.Known E) (hvs : AllKnown E vs) :
    AllKnown E (v :: vs) := List.forall_mem_cons.2 ⟨hv, hvs⟩

theorem AllKnown.append {vs ws : List Value} (hvs : AllKnown E vs) (hws : AllKnown E ws) :
    AllKnown E (vs ++ ws) := List.forall_mem_append.2 ⟨hvs, hws⟩

theorem AllKnown.of_subset {vs ws : List Value} (h : AllKnown E vs) (hsub : ws ⊆ vs) :
    AllKnown E ws := fun v hv => h v (hsub hv)

theorem AllKnown.nil : AllKnown E [] := nofun

theorem AllKnown.singleton {v : Value} (h : v.Known E) : AllKnown E [v] := .cons h .nil

theorem AllKnown.headD {vs : List Value} (h : AllKnown E vs) : (vs.headD .nil).Known E := by
  cases vs with
  | nil => trivial
  | cons v vs => exact h v List.mem_cons_self

theorem AllKnown.getD {vs : List Value} (h : AllKnown E vs) (i : Nat) :
    (vs.getD i .nil).Known E := by
  rw [List.getD_eq_getElem?_getD]
  cases hget : vs[i]? with
  | none => trivial
  | some v => exact h v (List.mem_of_getElem? hget)

theorem AllKnown.adjust {vs : List Value} (h : AllKnown E vs) (n : Nat) :
    AllKnown E (adjust n vs) := by
  refine .append (h.of_subset (List.take_subset n vs)) fun v hv => ?_
  rw [List.eq_of_mem_replicate hv]
  trivial

theorem AllKnown.adjustTo {vs : List Value} (h : AllKnown E vs) (want : Option Nat) :
    AllKnown E (adjustTo want vs) := by
  cases want with
  | none => exact h
  | some n => exact h.adjust n

/-! ### Tables -/

namespace Table

theorem known_empty : empty.Known E := nofun

theorem Known.get? {t : Table} (h : t.Known E) {k : Key} {v : Value} (hv : t.get? k = some v) :
    v.Known E := by
  obtain ⟨e, he, -, rfl⟩ := get?_eq_some_iff.1 hv
  exact h e (Array.mem_toList_iff.1 he)

theorem Known.get {t : Table} (h : t.Known E) (k : Key) : (t.get k).Known E := by
  rw [Table.get]
  cases hv : t.get? k with
  | none => trivial
  | some v => exact h.get? hv

theorem Known.insert {t : Table} (h : t.Known E) (k : Key) {v : Value} (hv : v.Known E) :
    (t.insert k v).Known E := by
  obtain ⟨entries, places, inv⟩ := t
  intro e he
  simp only [Table.insert] at he
  split at he
  · obtain ⟨i, hi⟩ := Array.mem_iff_getElem?.1 he
    rw [Array.getElem?_modify] at hi
    split at hi
    · obtain ⟨e', -, rfl⟩ := Option.map_eq_some_iff.1 hi
      exact hv
    · exact h e (Array.mem_of_getElem? hi)
  · rcases Array.mem_push.1 he with he | rfl
    · exact h e he
    · exact hv

theorem Known.erase {t : Table} (h : t.Known E) (k : Key) : (t.erase k).Known E := by
  obtain ⟨entries, places, inv⟩ := t
  intro e he
  simp only [Table.erase] at he
  split at he
  · exact h e he
  · next i _ =>
    have hmem : e ∈ entries.eraseIdxIfInBounds i := he
    rw [Array.eraseIdxIfInBounds_eq] at hmem
    split at hmem
    · exact h e (Array.mem_of_mem_eraseIdx hmem)
    · exact h e hmem

theorem Known.set {t : Table} (h : t.Known E) (k : Key) {v : Value} (hv : v.Known E) :
    (t.set k v).Known E := by
  unfold Table.set
  split
  · exact h.erase k
  · exact h.insert k hv

theorem known_ofEntries {entries : List (Key × Value)} (h : ∀ e ∈ entries, e.2.Known E) :
    (ofEntries entries).Known E := by
  have hfold (t : Table) (ht : t.Known E) :
      (entries.foldl (fun t e => t.set e.1 e.2) t).Known E := by
    induction entries generalizing t with
    | nil => exact ht
    | cons e rest ih =>
      obtain ⟨he, hrest⟩ := List.forall_mem_cons.1 h
      exact ih hrest _ (ht.set e.1 he)
  exact hfold empty known_empty

end Table

/-! ### Changes of a store -/

namespace Bindings

theorem Known.get? {b : Bindings} (h : b.Known E) {name : String} {v : Value}
    (hv : b.get? name = some v) : v.Known E := by
  induction b with
  | nil => cases hv
  | cons e rest ih =>
    obtain ⟨he, hrest⟩ := List.forall_mem_cons.1 h
    rw [Bindings.get?] at hv
    split at hv
    · cases hv
      exact he
    · exact ih hrest hv

theorem Known.getD {b : Bindings} (h : b.Known E) (name : String) :
    ((b.get? name).getD .nil).Known E := by
  cases hv : b.get? name with
  | none => trivial
  | some v => exact h.get? hv

theorem Known.declare {b : Bindings} (h : b.Known E) (name : String) {v : Value}
    (hv : v.Known E) : (b.declare name v).Known E := by
  induction b with
  | nil => exact List.forall_mem_singleton.2 hv
  | cons e rest ih =>
    obtain ⟨he, hrest⟩ := List.forall_mem_cons.1 h
    rw [Bindings.declare]
    split
    · exact List.forall_mem_cons.2 ⟨hv, hrest⟩
    · exact List.forall_mem_cons.2 ⟨he, ih hrest⟩

end Bindings

namespace Store

variable {s : Store}

theorem known_empty : empty.Known E := ⟨nofun, nofun, nofun⟩

theorem Known.table (h : s.Known E) (ref : TableRef) : (s.table ref).Known E := by
  rw [Store.table]
  cases ht : s.tables[ref.index]? with
  | none => exact Table.known_empty
  | some t => exact h.tables t (Array.mem_of_getElem? ht)

theorem Known.scope (h : s.Known E) (ref : ScopeRef) : (s.scope ref).Known E := by
  rw [Store.scope]
  cases hb : s.scopes[ref.index]? with
  | none => exact nofun
  | some b => exact h.scopes b (Array.mem_of_getElem? hb)

theorem Known.modifyTable (h : s.Known E) (ref : TableRef) {f : Table → Table}
    (hf : ∀ t, t.Known E → (f t).Known E) : (s.modifyTable ref f).Known E where
  globals := h.globals
  tables t ht := by
    obtain ⟨i, hi⟩ := Array.mem_iff_getElem?.1 ht
    simp only [Store.modifyTable, Array.getElem?_modify] at hi
    split at hi
    · obtain ⟨t', ht', rfl⟩ := Option.map_eq_some_iff.1 hi
      exact hf t' (h.tables t' (Array.mem_of_getElem? ht'))
    · exact h.tables t (Array.mem_of_getElem? hi)
  scopes := h.scopes

theorem Known.newTable (h : s.Known E) {t : Table} (ht : t.Known E) :
    (s.newTable t).2.Known E where
  globals := h.globals
  tables t' ht' := by
    rcases Array.mem_push.1 ht' with ht' | rfl
    · exact h.tables t' ht'
    · exact ht
  scopes := h.scopes

theorem Known.newScope (h : s.Known E) : s.newScope.2.Known E where
  globals := h.globals
  tables := h.tables
  scopes b hb := by
    rcases Array.mem_push.1 hb with hb | rfl
    · exact h.scopes b hb
    · exact nofun

theorem Known.declare (h : s.Known E) (ref : ScopeRef) (name : String) {v : Value}
    (hv : v.Known E) : (s.declare ref name v).Known E where
  globals := h.globals
  tables := h.tables
  scopes b hb := by
    obtain ⟨i, hi⟩ := Array.mem_iff_getElem?.1 hb
    simp only [Store.declare, Array.getElem?_modify] at hi
    split at hi
    · obtain ⟨b', hb', rfl⟩ := Option.map_eq_some_iff.1 hi
      exact (h.scopes b' (Array.mem_of_getElem? hb')).declare name hv
    · exact h.scopes b (Array.mem_of_getElem? hi)

theorem Known.setGlobal (h : s.Known E) (name : String) {v : Value} (hv : v.Known E) :
    (s.setGlobal name v).Known E where
  globals := h.globals.declare name hv
  tables := h.tables
  scopes := h.scopes

theorem Known.removeGlobal (h : s.Known E) (name : String) : (s.removeGlobal name).Known E where
  globals e he := h.globals e (List.mem_filter.1 he).1
  tables := h.tables
  scopes := h.scopes

theorem Known.emit (h : s.Known E) (event : Event) : (s.emit event).Known E :=
  ⟨h.globals, h.tables, h.scopes⟩

theorem Known.newNative (h : s.Known E) (name : String) (body : Builtin) :
    (s.newNative name body).2.Known E :=
  ⟨h.globals, h.tables, h.scopes⟩

end Store

/-! ### Results of operators -/

/-- A result is of a kind, or there is none for another cause than a failed check of
the machine. -/
def Harmless {α : Type} (post : α → Prop) : Except Cause α → Prop
  | .ok a => post a
  | .error c => c.isCheck = false

namespace Harmless

variable {α β : Type} {post : α → Prop} {after : β → Prop}

theorem bind {x : Except Cause α} {f : α → Except Cause β} (hx : Harmless post x)
    (hf : ∀ a, post a → Harmless after (f a)) : Harmless after (x >>= f) := by
  cases x with
  | ok a => exact hf a hx
  | error c => exact hx

theorem ite {c : Prop} [Decidable c] {x y : Except Cause α} (hx : Harmless post x)
    (hy : Harmless post y) : Harmless post (if c then x else y) := by
  split
  · exact hx
  · exact hy

theorem imp {post' : α → Prop} {x : Except Cause α} (hx : Harmless post x)
    (h : ∀ a, post a → post' a) : Harmless post' x := by
  cases x with
  | ok a => exact h a hx
  | error c => exact hx

end Harmless

theorem harmless_toInteger (v : Value) : Harmless (fun _ => True) v.toInteger := by
  unfold Value.toInteger
  split
  · rfl
  · split
    · rfl
    · trivial

theorem harmless_toOperand (v : Value) : Harmless (fun _ => True) v.toOperand := by
  unfold Value.toOperand
  split
  · rfl
  · trivial

theorem harmless_toPiece (v : Value) : Harmless (fun _ => True) v.toPiece := by
  unfold Value.toPiece
  split
  · trivial
  · trivial
  · rfl

theorem harmless_lessThan (lhs rhs : Value) : Harmless (fun _ => True) (lhs.lessThan rhs) := by
  unfold Value.lessThan
  split
  · trivial
  · trivial
  · rfl

theorem harmless_lessEquals (lhs rhs : Value) :
    Harmless (fun _ => True) (lhs.lessEquals rhs) := by
  unfold Value.lessEquals
  split
  · trivial
  · trivial
  · rfl

theorem harmless_key (v : Value) : Harmless (fun _ => True) (Key.ofValue v) := by
  unfold Key.ofValue
  split
  · split
    · rfl
    · trivial
  · trivial
  · rfl

theorem harmless_arith (operator : Arith) (lhs rhs : Value) :
    Harmless (Value.Known E) (Value.arith operator lhs rhs) := by
  refine .ite ?_ ?_
  · exact (harmless_toInteger lhs).bind fun _ _ => (harmless_toInteger rhs).bind fun _ _ => trivial
  · exact (harmless_toOperand lhs).bind fun _ _ => (harmless_toOperand rhs).bind fun _ _ => trivial

theorem harmless_compare (s : Store) (operator : Comparison) (lhs rhs : Value) :
    Harmless (fun _ => True) (s.compare operator lhs rhs) := by
  cases operator with
  | equals => trivial
  | notEquals => trivial
  | lessThan => exact harmless_lessThan lhs rhs
  | lessEquals => exact harmless_lessEquals lhs rhs
  | greaterThan => exact harmless_lessThan rhs lhs
  | greaterEquals => exact harmless_lessEquals rhs lhs

/-- **Operators make up no functions**, and do not fail with checks of the machine. -/
theorem harmless_binary (s : Store) (operator : StrictOperator) (lhs rhs : Value) :
    Harmless (Value.Known E) (s.binary operator lhs rhs) := by
  cases operator with
  | arith operator => exact harmless_arith operator lhs rhs
  | concat =>
    exact (harmless_toPiece lhs).bind fun _ _ => (harmless_toPiece rhs).bind fun _ _ => trivial
  | compare operator =>
    have hcompare := harmless_compare s operator lhs rhs
    simp only [Store.binary]
    cases hresult : s.compare operator lhs rhs with
    | ok b => trivial
    | error c =>
      rw [hresult] at hcompare
      exact hcompare

theorem harmless_unary (s : Store) (operator : UnaryOperator) (v : Value) :
    Harmless (Value.Known E) (s.unary operator v) := by
  cases operator with
  | not => trivial
  | negate => exact (harmless_toOperand v).bind fun _ _ => trivial
  | length => cases v <;> trivial
  | bitNot => exact (harmless_toInteger v).bind fun _ _ => trivial

/-! ### Computations on a store -/

/-- A computation on a store whose values are known leaves such a store with the same
scopes, has a result of a kind, and does not fail with a check of the machine. -/
def Tame (E : Functions) {α : Type} (post : α → Prop) (x : Action α) : Prop :=
  ∀ s, s.Known E →
    match x s with
    | .ok a s' => post a ∧ s'.Known E ∧ s'.scopes = s.scopes
    | .error e s' => e.isCheck = false ∧ s'.Known E ∧ s'.scopes = s.scopes

namespace Tame

variable {α β : Type} {post : α → Prop} {after : β → Prop}

theorem pure {a : α} (h : post a) : Tame E post (Pure.pure a) := fun _ hs => ⟨h, hs, rfl⟩

theorem throw {c : Cause} (h : c.isCheck = false) :
    Tame E post (MonadExcept.throw (Failure.cause c)) := fun _ hs => ⟨h, hs, rfl⟩

theorem bind {x : Action α} {f : α → Action β} (hx : Tame E post x)
    (hf : ∀ a, post a → Tame E after (f a)) : Tame E after (x >>= f) := by
  intro s hs
  have hresult := hx s hs
  have hrun : (x >>= f) s = EStateM.bind x f s := rfl
  rw [hrun, EStateM.bind]
  cases hfirst : x s with
  | ok a s' =>
    rw [hfirst] at hresult
    obtain ⟨ha, hs', hscopes⟩ := hresult
    have hrest := hf a ha s' hs'
    rw [hscopes] at hrest
    exact hrest
  | error e s' =>
    rw [hfirst] at hresult
    exact hresult

theorem map {x : Action α} {h : α → β} (hx : Tame E post x) (hpost : ∀ a, post a → after (h a)) :
    Tame E after (h <$> x) := by
  rw [map_eq_pure_bind]
  exact hx.bind fun a ha => .pure (hpost a ha)

/-- What is behind a failure does not matter. -/
theorem throw_bind {c : Cause} {f : α → Action β} (h : c.isCheck = false) :
    Tame E after (MonadExcept.throw (Failure.cause c) >>= f) := fun _ hs => ⟨h, hs, rfl⟩

theorem ite {c : Prop} [Decidable c] {x y : Action α} (hx : Tame E post x) (hy : Tame E post y) :
    Tame E post (if c then x else y) := by
  split
  · exact hx
  · exact hy

theorem lift {r : Except Cause α} (h : Harmless post r) : Tame E post (Library.lift r) := by
  cases r with
  | ok a => exact .pure h
  | error c => exact .throw h

/-- A result that is read off the store. -/
theorem of_read {f : Store → α} (h : ∀ s, s.Known E → post (f s)) :
    Tame E post (fun s => .ok (f s) s) := fun s hs => ⟨h s hs, hs, rfl⟩

/-- A change of the store. -/
theorem of_change {a : α} {f : Store → Store} (ha : post a) (h : ∀ s, s.Known E → (f s).Known E)
    (hscopes : ∀ s, (f s).scopes = s.scopes) : Tame E post (fun s => .ok a (f s)) :=
  fun s hs => ⟨ha, h s hs, hscopes s⟩

end Tame

end ScriptEngine
