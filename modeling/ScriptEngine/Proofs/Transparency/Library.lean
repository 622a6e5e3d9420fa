import ScriptEngine.Proofs.Safety.Natives
import ScriptEngine.Proofs.Transparency.Moving

/-!
# Library functions on functions that begin elsewhere

The standard library passes functions on, but it does not look at where they begin, except to write
them.  What it makes of arguments and of tables in which functions have been moved is what it makes
of the others, moved.

## Main definitions

* `Builtin.tells` — a call that may write where a function begins, or that leaves the library.

## Main results

* `Library.string_moved`, `Library.math_moved` — functions that need no store.
* `Table.insertAt_moved`, `Table.setSequence_moved` — what functions do to tables.
-/

namespace ScriptEngine

variable {place : Nat → Nat} {args : Arguments}

/-! ### Calls that tell where functions begin -/

/-- Whether a value is a script function. -/
def Value.isScript : Value → Bool
  | .function _ _ => true
  | _ => false

/-- Whether a call may write where a function begins.  Functions of a host may do anything. -/
def Builtin.tells (args : Arguments) : Builtin → Bool
  | .base .print => List.any args Value.isScript
  | .base .tostring => (args.value 0).isScript
  | .base .error => (args.value 0).isScript
  | .base .assert => (args.value 1).isScript
  | .string .format => List.any args Value.isScript
  | .host _ => true
  | _ => false

namespace Value

/-- A value that is no script function stays where it is. -/
theorem moved_of_isScript {v : Value} (h : v.isScript = false) : v.moved place = v := by
  cases v with
  | function entry captured => cases h
  | _ => rfl

@[simp] theorem isScript_moved (v : Value) : (v.moved place).isScript = v.isScript := by
  cases v <;> rfl

/-- What is written of a value that is no script function. -/
theorem text_moved {v : Value} (h : v.isScript = false) : (v.moved place).text = v.text := by
  rw [moved_of_isScript h]

end Value

/-- Values among which there is no script function stay where they are. -/
theorem map_moved_of_any {vs : List Value} (h : vs.any Value.isScript = false) :
    vs.map (Value.moved place) = vs := by
  refine (List.map_congr_left fun v hv => ?_).trans (List.map_id vs)
  exact Value.moved_of_isScript (by simpa using List.any_eq_false.1 h v hv)

/-- A result without functions stays what it is. -/
theorem map_moved_of_harmless {r : Except Cause (List Value)}
    (h : Harmless (AllKnown fun _ _ => False) r) : r.map (List.map (Value.moved place)) = r := by
  cases r with
  | error c => rfl
  | ok vs =>
    refine congrArg Except.ok ((List.map_congr_left fun v hv => ?_).trans (List.map_id vs))
    exact Value.moved_of_known (h v hv)

/-! ### Arguments -/

namespace Arguments

variable {index : Nat} {function : String}

@[simp] theorem value_moved :
    Arguments.value (args.map (Value.moved place)) index = (args.value index).moved place := by
  rw [value, value, List.getD_eq_getElem?_getD, List.getD_eq_getElem?_getD, List.getElem?_map]
  cases args[index]? <;> rfl

@[simp] theorem complain_moved {α : Type} {what : Kind} :
    (Arguments.complain (args.map (Value.moved place)) index function what : Except Cause α) =
      args.complain index function what := by
  rw [complain, complain, List.getElem?_map, Option.map_map]
  congr 4
  funext v
  exact Value.kind_moved v

@[simp] theorem number_moved :
    Arguments.number (args.map (Value.moved place)) index function =
      args.number index function := by
  rw [number, number, complain_moved, List.getElem?_map]
  cases args[index]? <;> simp

@[simp] theorem integer_moved :
    Arguments.integer (args.map (Value.moved place)) index function =
      args.integer index function := by
  rw [integer, integer, number_moved]

@[simp] theorem integerOr_moved {otherwise : Int} :
    Arguments.integerOr (args.map (Value.moved place)) index function otherwise =
      args.integerOr index function otherwise := by
  rw [integerOr, integerOr, value_moved, Value.isNil_moved, integer_moved]

@[simp] theorem string_moved :
    Arguments.string (args.map (Value.moved place)) index function =
      args.string index function := by
  rw [string, string, complain_moved, List.getElem?_map]
  rcases args[index]? with _ | v
  · rfl
  · cases v <;> rfl

@[simp] theorem stringOrEmpty_moved :
    Arguments.stringOrEmpty (args.map (Value.moved place)) index function =
      args.stringOrEmpty index function := by
  rw [stringOrEmpty, stringOrEmpty, value_moved, Value.isNil_moved, string_moved]

@[simp] theorem table_moved :
    Arguments.table (args.map (Value.moved place)) index function = args.table index function := by
  rw [table, table, complain_moved, List.getElem?_map]
  rcases args[index]? with _ | v
  · rfl
  · cases v <;> rfl

@[simp] theorem any_moved :
    Arguments.any (args.map (Value.moved place)) index function =
      (args.any index function).map (Value.moved place) := by
  rw [any, any, List.getElem?_map]
  cases args[index]? <;> rfl

end Arguments

/-- Moving functions changes nothing about what a call tells. -/
theorem Builtin.tells_moved (b : Builtin) :
    b.tells (args.map (Value.moved place)) = b.tells args := by
  have hany : List.any (args.map (Value.moved place)) Value.isScript =
      List.any args Value.isScript := by
    simp only [List.any_map, Function.comp_def, Value.isScript_moved]
  rcases b with f | f | f | f | key
  · cases f <;> simp only [tells, hany, Arguments.value_moved, Value.isScript_moved]
  · cases f <;> simp only [tells, hany]
  · rfl
  · rfl
  · rfl

/-! ### Functions that need no store -/

namespace Library

theorem byteArguments_moved (n index : Nat) :
    byteArguments (args.map (Value.moved place)) n index = byteArguments args n index := by
  induction n generalizing index with
  | zero => rfl
  | succ n ih => simp only [byteArguments, Arguments.integer_moved, ih]

theorem combine_moved (name : String) (f : Float → Float → Float) (n index : Nat) (x : Float) :
    combine name f (args.map (Value.moved place)) n index x = combine name f args n index x := by
  induction n generalizing index x with
  | zero => rfl
  | succ n ih => simp only [combine, Arguments.number_moved, ih]

/-- **The functions on strings**, but for formatting. -/
theorem string_moved (f : StringFunction) (h : Builtin.tells args (.string f) = false) :
    string f (args.map (Value.moved place)) =
      (string f args).map (List.map (Value.moved place)) := by
  rw [map_moved_of_harmless (harmless_stringFunction f)]
  cases f with
  | format => rw [map_moved_of_any h]
  | _ =>
    simp only [string, len, upper, lower, rep, sub, reverse, byte, char, Arguments.string_moved,
      Arguments.integer_moved, Arguments.integerOr_moved, Arguments.stringOrEmpty_moved,
      byteArguments_moved, List.length_map]

/-- **The functions on numbers.** -/
theorem math_moved (f : MathFunction) :
    math f (args.map (Value.moved place)) = (math f args).map (List.map (Value.moved place)) := by
  rw [map_moved_of_harmless (harmless_math f)]
  cases f with
  | tointeger =>
    rw [math, math, tointeger, tointeger, Arguments.value_moved]
    cases args.value 0 <;> rfl
  | type =>
    rw [math, math, numberType, numberType, Arguments.any_moved]
    cases args.any 0 "type" with
    | error c => rfl
    | ok v => cases v <;> rfl
  | _ =>
    simp only [math, onNumber, logarithm, fmod, combineAll, combine_moved, Arguments.number_moved,
      Arguments.value_moved, Value.isNil_moved, List.length_map]

theorem type_moved : type (args.map (Value.moved place)) = type args := by
  rw [type, type, Arguments.any_moved]
  cases args.any 0 "type" with
  | error c => rfl
  | ok v => simp only [Except.map, bind, Except.bind, Value.kind_moved]

theorem tonumber_moved : tonumber (args.map (Value.moved place)) = tonumber args := by
  simp only [tonumber, Arguments.any_moved, Arguments.value_moved, Value.isNil_moved,
    Arguments.integer_moved, Arguments.string_moved]
  cases args.any 0 "tonumber" with
  | error c => rfl
  | ok v => simp only [Except.map, bind, Except.bind, Value.toNumber?_moved]

theorem select_moved :
    select (args.map (Value.moved place)) = (select args).map (List.map (Value.moved place)) := by
  have hcount : (args.value 0).moved place = .string "#" ↔ args.value 0 = .string "#" := by
    cases args.value 0 <;> simp [Value.moved]
  simp only [select, Arguments.value_moved, Arguments.integer_moved, List.length_map, hcount,
    ← List.map_drop]
  split
  · rfl
  · cases args.integer 0 "select" with
    | error c => rfl
    | ok n =>
      simp only [bind, Except.bind]
      by_cases hindex : (if n < 0 then ((args.drop 1).length : Int) + n else n - 1) < 0
      · rw [if_pos hindex, if_pos hindex]
        rfl
      · rw [if_neg hindex, if_neg hindex]
        rfl

theorem assert_moved (h : Builtin.tells args (.base .assert) = false) :
    assert (args.map (Value.moved place)) = (assert args).map (List.map (Value.moved place)) := by
  simp only [assert, Arguments.value_moved, Value.isTruthy_moved, Value.isNil_moved,
    Value.text_moved h]
  split
  · rfl
  · split <;> rfl

theorem tostring_moved (h : Builtin.tells args (.base .tostring) = false) :
    tostring (args.map (Value.moved place)) = tostring args := by
  rw [tostring, tostring, Arguments.any_moved, Arguments.any]
  have hvalue : (args.value 0).isScript = false := h
  rw [Arguments.value, List.getD_eq_getElem?_getD] at hvalue
  cases hget : args[0]? with
  | none => rfl
  | some v =>
    rw [hget] at hvalue
    have htext : (v.moved place).text = v.text := Value.text_moved hvalue
    simp only [Except.map, bind, Except.bind, htext]

end Library

/-! ### Functions on tables -/

namespace Table

@[simp] theorem atInteger_moved (t : Table) (i : Int) :
    (t.moved place).atInteger i = (t.atInteger i).moved place := get_moved t _

theorem moveUp_moved (t : Table) (position count : Nat) :
    (t.moved place).moveUp position count = (t.moveUp position count).moved place := by
  induction count generalizing t with
  | zero => rfl
  | succ count ih => simp only [moveUp, get_moved, ← set_moved, ih]

theorem insertAt_moved (t : Table) (position : Nat) (v : Value) :
    (t.moved place).insertAt position (v.moved place) = (t.insertAt position v).moved place := by
  simp only [insertAt, border_moved, moveUp_moved, ← set_moved]

theorem moveDown_moved (t : Table) (position count : Nat) :
    (t.moved place).moveDown position count = (t.moveDown position count).moved place := by
  induction count generalizing t position with
  | zero => rfl
  | succ count ih => simp only [moveDown, get_moved, ← set_moved, ih]

theorem removeAt_moved (t : Table) (position : Nat) :
    (t.moved place).removeAt position = (t.removeAt position).moved place := by
  simp only [removeAt, border_moved, moveDown_moved]
  split
  · rw [set_moved, Value.moved_nil]
  · rfl

theorem valuesFrom_moved (t : Table) (start : Int) (count : Nat) :
    (t.moved place).valuesFrom start count =
      (t.valuesFrom start count).map (Value.moved place) := by
  simp only [valuesFrom, atInteger_moved, List.map_map, Function.comp_def]

theorem textsFrom_moved (t : Table) (read : List String) (start : Int) (count : Nat) :
    (t.moved place).textsFrom read start count = t.textsFrom read start count := by
  induction count generalizing read start with
  | zero => rfl
  | succ count ih =>
    rw [textsFrom, textsFrom, atInteger_moved]
    cases t.atInteger start with
    | string s => exact ih _ _
    | number x => exact ih _ _
    | _ => rfl

theorem sequence_moved (t : Table) :
    (t.moved place).sequence = t.sequence.map (Value.moved place) := by
  rw [sequence, sequence, border_moved, valuesFrom_moved]

theorem setSequence_moved (t : Table) (position : Nat) (vs : List Value) :
    (t.moved place).setSequence position (vs.map (Value.moved place)) =
      (t.setSequence position vs).moved place := by
  induction vs generalizing t position with
  | nil => rfl
  | cons v rest ih =>
    rw [List.map_cons, setSequence, setSequence, ← set_moved]
    exact ih _ _

theorem ofEntries_moved (entries : List (Key × Value)) :
    ofEntries (entries.map fun e => (e.1, e.2.moved place)) = (ofEntries entries).moved place := by
  have hfold (t : Table) :
      (entries.map fun e => (e.1, e.2.moved place)).foldl (fun t e => t.set e.1 e.2)
        (t.moved place) = (entries.foldl (fun t e => t.set e.1 e.2) t).moved place := by
    induction entries generalizing t with
    | nil => rfl
    | cons e rest ih =>
      simp only [List.map_cons, List.foldl_cons, ← set_moved]
      exact ih _
  have hempty := hfold empty
  rwa [moved_empty] at hempty

theorem ofValues_moved (vs : List Value) :
    ofValues (vs.map (Value.moved place)) = (ofValues vs).moved place := by
  rw [ofValues, ofValues, ← ofEntries_moved, List.zipIdx_map]
  simp only [List.map_map]
  rfl

theorem next_moved (t : Table) (k : Option Key) :
    (t.moved place).next k =
      (t.next k).map (Option.map fun e => (e.1, e.2.moved place)) := by
  cases k with
  | none => simp only [next, entries_moved, Array.getElem?_map, Except.map]
  | some k =>
    simp only [next, place?_moved]
    cases t.place? k with
    | none => rfl
    | some i => simp only [entries_moved, Array.getElem?_map, Except.map]

end Table

end ScriptEngine
