import ScriptEngine.Library.Arguments
import ScriptEngine.Machine.Basic

/-!
# The table library

Functions on the values of a table under the keys `1`, `2`, … up to its border.

## Main definitions

* `Table.insertAt`, `Table.removeAt` — moving values up and down by one key.
* `Library.sortWith` — stable insertion sort by any comparison.
* `Library.table` — the functions of the library.
-/

namespace ScriptEngine

namespace Table

/-- The value of an integer key. -/
def atInteger (t : Table) (i : Int) : Value := t.get (.ofInt i)

/-- Moves the values under the keys from `position` on, `count` of them, up by
one key, the last one first. -/
def moveUp (t : Table) (position : Nat) : Nat → Table
  | 0 => t
  | count + 1 =>
    moveUp (t.set (.ofNat (position + count + 1)) (t.get (.ofNat (position + count))))
      position count

/-- Puts a value at a position up to one behind the border, the values from there
on moving up. -/
def insertAt (t : Table) (position : Nat) (v : Value) : Table :=
  (t.moveUp position (t.border + 1 - position)).set (.ofNat position) v

/-- Moves the values behind `position`, `count` of them, down by one key, the
first one first. -/
def moveDown (t : Table) (position : Nat) : Nat → Table
  | 0 => t
  | count + 1 =>
    moveDown (t.set (.ofNat position) (t.get (.ofNat (position + 1)))) (position + 1) count

/-- Takes the value at a position out, those behind it moving down. -/
def removeAt (t : Table) (position : Nat) : Table :=
  let moved := t.moveDown position (t.border - position)
  if position ≤ t.border then moved.set (.ofNat t.border) .nil else moved

/-- The values under the keys from `start` on, `count` of them. -/
def valuesFrom (t : Table) (start : Int) (count : Nat) : List Value :=
  (List.range count).map fun (i : Nat) => t.atInteger (start + i)

/-- The written forms of the values under the keys from `start` on, `count` of
them, behind those that have been `read`, which are given last one first. -/
def textsFrom (t : Table) (read : List String) (start : Int) : Nat → Except Cause (List String)
  | 0 => .ok read.reverse
  | count + 1 =>
    match t.atInteger start with
    | .string s => textsFrom t (s :: read) (start + 1) count
    | .number x => textsFrom t (Number.text x :: read) (start + 1) count
    | v => .error (.unjoinable start v.kind)

/-- The values up to the border. -/
def sequence (t : Table) : List Value := t.valuesFrom 1 t.border

/-- Puts values under the keys from `position` on. -/
def setSequence (t : Table) (position : Nat) : List Value → Table
  | [] => t
  | v :: rest => setSequence (t.set (.ofNat position) v) (position + 1) rest

end Table

namespace Library

/-- The result of an operation that needs no store, or its failure. -/
def lift {α : Type} : Except Cause α → Action α
  | .ok a => pure a
  | .error c => throw (.cause c)

/-- The contents of a table. -/
def contents (ref : TableRef) : Action Table := fun s => .ok (s.table ref) s

/-- Changes a table. -/
def changeTable (ref : TableRef) (f : Table → Table) : Action Unit := fun s =>
  .ok () (s.modifyTable ref f)

/-- The border of a table. -/
def border (ref : TableRef) : Action Nat := fun s => .ok (s.table ref).border s

/-- The value of an integer key of a table. -/
def valueAt (ref : TableRef) (i : Int) : Action Value := fun s => .ok ((s.table ref).atInteger i) s

/-- Puts a value into a table, at its end or at a position. -/
def insert (args : Arguments) : Action (List Value) := do
  let ref ← lift (args.table 0 "insert")
  let length ← border ref
  match args.length with
  | 2 => changeTable ref fun t => t.set (.ofNat (length + 1)) (args.value 1)
  | 3 => do
    let position ← lift (args.integer 1 "insert")
    if position < 1 ∨ length + 1 < position then
      throw (.cause (.argument 2 "insert" .positionOutOfBounds))
    changeTable ref fun t => t.insertAt position.toNat (args.value 2)
  | _ => throw (.cause (.argumentCount "insert"))
  pure []

/-- Takes a value out of a table, from its end or from a position. -/
def remove (args : Arguments) : Action (List Value) := do
  let ref ← lift (args.table 0 "remove")
  let length ← border ref
  let position ← lift (args.integerOr 1 "remove" length)
  if length = 0 ∧ position = 0 then pure [.nil]
  else do
    if position < 1 ∨ length + 1 < position then
      throw (.cause (.argument 2 "remove" .positionOutOfBounds))
    let removed ← valueAt ref position
    changeTable ref fun t => t.removeAt position.toNat
    pure [removed]

/-- The values of a table between two keys as one text. -/
def join (args : Arguments) : Action (List Value) := do
  let ref ← lift (args.table 0 "concat")
  let separator ← lift (args.stringOrEmpty 1 "concat")
  let start ← lift (args.integerOr 2 "concat" 1)
  let stop ← lift (args.integerOr 3 "concat" (← border ref))
  let texts ← lift ((← contents ref).textsFrom [] start (stop + 1 - start).toNat)
  pure [.string (Text.joinWith separator texts)]

/-- Makes a table of the arguments, with their number under the key `n`. -/
def pack (args : Arguments) : Action (List Value) := fun s =>
  let t := (Table.ofValues args).set (.text "n") (.number (Number.ofNat args.length))
  let (ref, s) := s.newTable t
  .ok [.table ref] s

/-- The most values that are unpacked. -/
def maxUnpacked : Int := 1000000

/-- The values of a table between two keys. -/
def unpack (args : Arguments) : Action (List Value) := do
  let ref ← lift (args.table 0 "unpack")
  let start ← lift (args.integerOr 1 "unpack" 1)
  let stop ← lift (args.integerOr 2 "unpack" (← border ref))
  if maxUnpacked < stop - start + 1 then throw (.cause .tooManyResults)
  let t ← contents ref
  pure (t.valuesFrom start (stop + 1 - start).toNat)

/-- Whether a value is to come before another: by a comparison function, or by
the order of values. -/
def sortsBefore (reenter : Reentry) (comparator lhs rhs : Value) : Action Bool :=
  if comparator.isNil then lift (lhs.lessThan rhs)
  else do
    let results ← EStateM.adaptExcept .interrupt (reenter comparator [lhs, rhs])
    pure (results.headD .nil).isTruthy

/-- Puts a value into a list that is sorted with the last value first, as far
back as it comes before others. -/
def sink (before : Value → Value → Action Bool) (v : Value) : List Value → Action (List Value)
  | [] => pure [v]
  | last :: rest => do
    if ← before v last then do
      let sunk ← sink before v rest
      pure (last :: sunk)
    else pure (v :: last :: rest)

/-- Sorts values into a list that is sorted with the last value first. -/
def sortOnto (before : Value → Value → Action Bool) (sorted : List Value) :
    List Value → Action (List Value)
  | [] => pure sorted
  | v :: rest => do
    let sorted ← sink before v sorted
    sortOnto before sorted rest

/-- Sorts values by insertion.  Values that are not ordered stay as they are. -/
def sortWith (before : Value → Value → Action Bool) (values : List Value) :
    Action (List Value) := do
  let sorted ← sortOnto before [] values
  pure sorted.reverse

/-- Sorts the values of a table up to its border. -/
def sort (reenter : Reentry) (args : Arguments) : Action (List Value) := do
  let ref ← lift (args.table 0 "sort")
  let values := (← contents ref).sequence
  let sorted ← sortWith (sortsBefore reenter (args.value 1)) values
  changeTable ref fun t => t.setSequence 1 sorted
  pure []

/-- The functions of the table `table`. -/
def table (f : TableFunction) (reenter : Reentry) (args : Arguments) : Action (List Value) :=
  match f with
  | .insert => insert args
  | .remove => remove args
  | .concat => join args
  | .pack => pack args
  | .unpack => unpack args
  | .sort => sort reenter args

end Library

end ScriptEngine
