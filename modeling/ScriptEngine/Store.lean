import ScriptEngine.Table
import ScriptEngine.Text.Layout
import ScriptEngine.Text.Quoted

/-!
# Stores

Everything that the parts of a running program share: the global variables, the
tables and scopes that values refer to, and the record of what the program has
put out.

## Main definitions

* `Bindings` — the variables of a scope.
* `Event` — what a program puts out.
* `Store` — globals, tables, scopes and output.
* `Store.equal` — equality of values; tables are equal if they have equal
  entries.
* `Store.inspect` — a value as shown to people who look at a machine.
-/

namespace ScriptEngine

/-! ### Variables -/

/-- Variables and their values, in the order of their declaration. -/
abbrev Bindings := List (String × Value)

namespace Bindings

/-- The value of a variable that is there. -/
def get? : Bindings → String → Option Value
  | [], _ => none
  | (m, v) :: rest, n => if m = n then some v else get? rest n

/-- Whether a variable is there. -/
def contains (b : Bindings) (n : String) : Bool := (b.get? n).isSome

/-- Gives a variable a value, whether it was there or not. -/
def declare : Bindings → String → Value → Bindings
  | [], n, v => [(n, v)]
  | (m, w) :: rest, n, v => if m = n then (n, v) :: rest else (m, w) :: declare rest n v

/-- Removes a variable. -/
def erase (b : Bindings) (n : String) : Bindings := b.filter fun e => e.1 != n

@[simp] theorem get?_declare (b : Bindings) (n m : String) (v : Value) :
    (b.declare n v).get? m = if n = m then some v else b.get? m := by
  induction b with
  | nil => simp [declare, get?]
  | cons e rest ih =>
    obtain ⟨k, w⟩ := e
    by_cases hk : k = n
    · subst hk
      by_cases hm : k = m <;> simp [declare, get?, hm]
    · by_cases hm : k = m
      · subst hm
        simp [declare, get?, hk, Ne.symm hk]
      · simp [declare, get?, hk, hm, ih]

@[simp] theorem get?_erase (b : Bindings) (n m : String) :
    (b.erase n).get? m = if n = m then none else b.get? m := by
  induction b with
  | nil => simp [erase, get?]
  | cons e rest ih =>
    obtain ⟨k, w⟩ := e
    unfold erase at ih ⊢
    by_cases hk : k = n
    · subst hk
      by_cases hm : k = m
      · subst hm
        simpa [get?] using ih
      · simp [get?, ih, hm]
    · by_cases hm : k = m
      · subst hm
        simp [get?, hk, Ne.symm hk]
      · simp [get?, hk, hm, ih]

end Bindings

/-! ### Output -/

/-- How much a record of the engine's doings is about details. -/
inductive LogLevel where
  | debug
  | trace
deriving DecidableEq, Repr

/-- What a program and its engine put out. -/
inductive Event where
  | printed (text : String)
  | emitted (text : String)
  | logged (level : LogLevel) (text : String)
deriving DecidableEq, Repr

/-! ### Stores -/

/-- What the parts of a running program share. -/
structure Store where
  globals : Bindings
  tables : Array Table
  scopes : Array Bindings
  /-- How many native functions have been made. -/
  natives : Nat
  /-- What has been put out so far. -/
  output : Array Event

namespace Store

/-- The store in which there is nothing. -/
def empty : Store := ⟨[], #[], #[], 0, #[]⟩

instance : Inhabited Store := ⟨empty⟩

/-- The contents of a table. -/
def table (s : Store) (ref : TableRef) : Table := (s.tables[ref.index]?).getD .empty

/-- Changes a table. -/
def modifyTable (s : Store) (ref : TableRef) (f : Table → Table) : Store :=
  { s with tables := s.tables.modify ref.index f }

/-- Makes a table with some contents. -/
def newTable (s : Store) (t : Table) : TableRef × Store :=
  (⟨s.tables.size⟩, { s with tables := s.tables.push t })

/-- The variables of a scope. -/
def scope (s : Store) (ref : ScopeRef) : Bindings := (s.scopes[ref.index]?).getD []

/-- Makes a scope without variables. -/
def newScope (s : Store) : ScopeRef × Store :=
  (⟨s.scopes.size⟩, { s with scopes := s.scopes.push [] })

/-- Declares a variable in a scope, or changes it if it is there. -/
def declare (s : Store) (ref : ScopeRef) (name : String) (v : Value) : Store :=
  { s with scopes := s.scopes.modify ref.index (·.declare name v) }

/-- Changes a variable of a scope, if it is there. -/
def assignIn (s : Store) (ref : ScopeRef) (name : String) (v : Value) : Bool × Store :=
  if (s.scope ref).contains name then (true, s.declare ref name v) else (false, s)

/-- Gives a global variable a value, which may be `nil`. -/
def setGlobal (s : Store) (name : String) (v : Value) : Store :=
  { s with globals := s.globals.declare name v }

/-- Removes a global variable. -/
def removeGlobal (s : Store) (name : String) : Store :=
  { s with globals := s.globals.erase name }

/-- Makes a native function. -/
def newNative (s : Store) (name : String) (body : Builtin) : Value × Store :=
  (.native ⟨s.natives, name, body⟩, { s with natives := s.natives + 1 })

/-- Puts something out. -/
def emit (s : Store) (event : Event) : Store :=
  { s with output := s.output.push event }

/-! ### Equality -/

/-- Equality of values, given that of tables. -/
def equalWith (tablesEqual : TableRef → TableRef → Bool) : Value → Value → Bool
  | .nil, .nil => true
  | .boolean a, .boolean b => a == b
  | .number a, .number b => a == b
  | .string a, .string b => a == b
  | .table a, .table b => tablesEqual a b
  | .function a _, .function b _ => a == b
  | .native a, .native b => a.identity == b.identity
  | _, _ => false

/-- Equality of tables: the same table, or equal values under the same keys.  A
pair that is being compared further out, one of `opened`, is taken for equal.
The recursion goes at most `fuel` tables deep. -/
def equalTables (s : Store) : Nat → List (TableRef × TableRef) → TableRef → TableRef → Bool
  | 0, _, _, _ => true
  | fuel + 1, opened, a, b =>
    a == b || opened.contains (a, b) ||
      ((s.table a).size == (s.table b).size &&
        (s.table a).entries.all fun e =>
          match (s.table b).get? e.1 with
          | none => false
          | some w => equalWith (s.equalTables fuel ((a, b) :: opened)) e.2 w)

/-- Equality of values.  No more pairs of tables can be open at one time than
there are. -/
def equal (s : Store) (a b : Value) : Bool :=
  equalWith (s.equalTables (s.tables.size * s.tables.size + 1) []) a b

/-! ### Inspection -/

/-- A value as shown to people who look at a machine: strings in quotes, tables
with their size. -/
def inspect (s : Store) : Value → String
  | .string text => Text.quote text
  | .table ref =>
    (Value.table ref).text ++ " (" ++ (s.table ref).size.repr ++ " entries)"
  | v => v.text

/-- The names of the variables of a scope, in braces. -/
def inspectScope (s : Store) (ref : ScopeRef) : String :=
  "\x7b" ++ Text.joinWith ", " ((s.scope ref).map fun e => Text.quote e.1) ++ "\x7d"

end Store

end ScriptEngine
