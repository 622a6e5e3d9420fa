import ScriptEngine.Text.Layout
import ScriptEngine.Value.Basic

/-!
# Machine code

The instructions of the machine, and programs made of them.

## Main definitions

* `OpCode` — what an instruction does.
* `Operand`, `Op` — an instruction with its operand and its place.
* `Program` — a list of instructions, with the first one of the text that was
  compiled last.
* `Op.text`, `Program.listing` — their written forms.
-/

namespace ScriptEngine

/-- What an instruction does.  Jumps are relative to the instruction behind
them. -/
inductive OpCode where
  /-- Pushes the value of a variable. -/
  | load
  /-- Pops a value into a variable. -/
  | store
  /-- Pushes the operand.  A function closes over the scopes that are open. -/
  | push
  /-- Pops a number of values, one if there is no operand. -/
  | pop
  /-- Pushes the topmost value again. -/
  | dup
  /-- Exchanges the two topmost values. -/
  | swap
  /-- Pushes a table without entries. -/
  | newTable
  /-- Pops a table and a key, and pushes the value. -/
  | loadIndex
  /-- Pops a number of keys and values, and stores them in the table below. -/
  | storeIndex
  /-- Pops the left and the right operand, and pushes the result. -/
  | binary (operator : StrictOperator)
  /-- Pops the operand and pushes the result. -/
  | unary (operator : UnaryOperator)
  /-- Opens a scope. -/
  | startBlock
  /-- Closes the innermost scope. -/
  | endBlock
  /-- Declares a variable in the innermost scope. -/
  | makeLocal
  /-- Pops the number of arguments and the callee.  The operand is the number of
  results that are wanted; all are if there is none. -/
  | call
  /-- Returns a number of values, or all above the last mark if there is no
  operand. -/
  | ret
  /-- Brings the arguments to a number. -/
  | argumentCount
  | jump
  /-- Pops a value and jumps if it counts as true. -/
  | jumpIf
  /-- Pops a value and jumps unless it counts as true. -/
  | jumpIfNot
  /-- Marks the height of the stack. -/
  | assignPush
  /-- Brings the values above the last mark to a number, and drops the mark. -/
  | assignSet
  /-- Pushes the number of values above the last mark, and drops the mark. -/
  | assignCount
  /-- Calls an iterator with its state and its control value. -/
  | iterNext
  /-- Leaves the loop if the iterator's first result is `nil`. -/
  | iterJumpIfDone
  /-- Replaces the control value by the iterator's first result. -/
  | iterUpdateState
  /-- Leaves a loop.  The code of the loop has a jump in its place. -/
  | leave
deriving DecidableEq, Repr

/-- The operand of an instruction. -/
inductive Operand where
  | none
  | value (v : Value)
  | count (n : Nat)
  | offset (d : Int)
deriving DecidableEq, Repr

/-- An instruction, and the place of the syntax it stems from. -/
structure Op where
  code : OpCode
  operand : Operand
  position : Position
deriving DecidableEq, Repr

/-- A piece of code. -/
abbrev Code := List Op

/-- Instructions, and which of them the last compiled text begins with. -/
structure Program where
  code : Array Op
  start : Nat

namespace Program

/-- The program without instructions. -/
def empty : Program := ⟨#[], 0⟩

/-- The number of instructions. -/
def size (p : Program) : Nat := p.code.size

end Program

/-! ### Names -/

/-- The name of an operator in listings. -/
def StrictOperator.mnemonic : StrictOperator → String
  | arith .add => "ADD"
  | arith .subtract => "SUBTRACT"
  | arith .multiply => "MULTIPLY"
  | arith .divide => "DIVIDE"
  | arith .floorDivide => "FLOOR_DIVIDE"
  | arith .modulo => "MODULO"
  | arith .exponent => "EXPONENT"
  | arith .bitAnd => "BIT_AND"
  | arith .bitOr => "BIT_OR"
  | arith .bitXor => "BIT_XOR"
  | arith .shiftLeft => "SHIFT_LEFT"
  | arith .shiftRight => "SHIFT_RIGHT"
  | concat => "CONCAT"
  | compare .equals => "EQUALS"
  | compare .notEquals => "NOT_EQUALS"
  | compare .lessThan => "LESS_THAN"
  | compare .lessEquals => "LESS_EQUALS"
  | compare .greaterThan => "GREATER_THAN"
  | compare .greaterEquals => "GREATER_EQUALS"

@[inherit_doc StrictOperator.mnemonic]
def UnaryOperator.mnemonic : UnaryOperator → String
  | not => "NOT"
  | negate => "NEGATE"
  | length => "LENGTH"
  | bitNot => "BIT_NOT"

namespace OpCode

/-- The name of an instruction in listings. -/
def mnemonic : OpCode → String
  | load => "LOAD"
  | store => "STORE"
  | push => "PUSH"
  | pop => "POP"
  | dup => "DUP"
  | swap => "SWAP"
  | newTable => "NEW_TABLE"
  | loadIndex => "LOAD_INDEX"
  | storeIndex => "STORE_INDEX"
  | binary operator => operator.mnemonic
  | unary operator => operator.mnemonic
  | startBlock => "START_BLOCK"
  | endBlock => "END_BLOCK"
  | makeLocal => "MAKE_LOCAL"
  | call => "CALL"
  | ret => "RETURN"
  | argumentCount => "ARGUMENT_COUNT"
  | jump => "JUMP"
  | jumpIf => "JUMP_IF"
  | jumpIfNot => "JUMP_IF_NOT"
  | assignPush => "ASSIGN_PUSH"
  | assignSet => "ASSIGN_SET"
  | assignCount => "ASSIGN_COUNT"
  | iterNext => "ITER_NEXT"
  | iterJumpIfDone => "ITER_JUMP_IF_DONE"
  | iterUpdateState => "ITER_UPDATE_STATE"
  | leave => "BREAK"

/-- All instructions. -/
def all : List OpCode :=
  [load, store, push, pop, dup, swap, newTable, loadIndex, storeIndex,
    binary (.arith .add), binary (.arith .subtract), binary (.arith .multiply),
    binary (.arith .divide), binary (.arith .floorDivide), binary (.arith .modulo),
    binary (.arith .exponent), binary .concat, binary (.arith .bitAnd), binary (.arith .bitOr),
    binary (.arith .bitXor), binary (.arith .shiftLeft), binary (.arith .shiftRight),
    binary (.compare .equals), binary (.compare .notEquals), binary (.compare .lessThan),
    binary (.compare .lessEquals), binary (.compare .greaterThan),
    binary (.compare .greaterEquals), unary .not, unary .negate, unary .length, unary .bitNot,
    startBlock, endBlock, makeLocal, call, ret, argumentCount, jump, jumpIf, jumpIfNot,
    assignPush, assignSet, assignCount, iterNext, iterJumpIfDone, iterUpdateState, leave]

/-- The instruction of a name. -/
def ofMnemonic? (name : String) : Option OpCode := all.find? (·.mnemonic == name)

end OpCode

/-! ### Operands -/

namespace Op

/-- An instruction without an operand. -/
def plain (code : OpCode) (position : Position) : Op := ⟨code, .none, position⟩

/-- An instruction on a value. -/
def withValue (code : OpCode) (v : Value) (position : Position) : Op :=
  ⟨code, .value v, position⟩

/-- An instruction on a variable. -/
def named (code : OpCode) (name : String) (position : Position) : Op :=
  ⟨code, .value (.string name), position⟩

/-- An instruction with a count. -/
def counted (code : OpCode) (n : Nat) (position : Position) : Op := ⟨code, .count n, position⟩

/-- An instruction with an offset. -/
def jumping (code : OpCode) (d : Int) (position : Position) : Op := ⟨code, .offset d, position⟩

/-- The name of a variable, empty if the operand is none. -/
def name (op : Op) : String :=
  match op.operand with
  | .value (.string name) => name
  | _ => ""

/-- The count of an instruction that has one. -/
def count? (op : Op) : Option Nat :=
  match op.operand with
  | .value (.number x) => some (Number.toCount x)
  | .count n => some n
  | .offset d => some d.toNat
  | _ => .none

/-- The offset of a jump, zero if there is none. -/
def offset (op : Op) : Int :=
  match op.operand with
  | .value (.number x) => Number.toOffset x
  | .count n => n
  | .offset d => d
  | _ => 0

/-- The value that a push pushes. -/
def pushed (op : Op) : Value :=
  match op.operand with
  | .none => .nil
  | .value v => v
  | .count n => .number (Number.ofNat n)
  | .offset d => .number (Number.ofInt d)

@[simp] theorem count?_counted (code : OpCode) (n : Nat) (p : Position) :
    (counted code n p).count? = some n := rfl

@[simp] theorem count?_plain (code : OpCode) (p : Position) : (plain code p).count? = none := rfl

@[simp] theorem offset_jumping (code : OpCode) (d : Int) (p : Position) :
    (jumping code d p).offset = d := rfl

@[simp] theorem name_named (code : OpCode) (name : String) (p : Position) :
    (named code name p).name = name := rfl

/-! ### Listings -/

/-- The written form of an instruction.  Strings are put in single quotes. -/
def text (op : Op) : String :=
  match op.operand with
  | .none => op.code.mnemonic
  | .value (.string s) => op.code.mnemonic ++ " '" ++ s ++ "'"
  | .value v => op.code.mnemonic ++ " " ++ v.text
  | .count n => op.code.mnemonic ++ " " ++ n.repr
  | .offset d => op.code.mnemonic ++ " " ++ Number.integerText d

/-- The line of an instruction in a listing. -/
def line (op : Op) (index ip : Nat) : String :=
  (if index = ip then "*" else " ") ++ " " ++ Text.padStart 4 index.repr ++ "  "
    ++ Text.padEnd 28 op.text ++ " ; " ++ op.position.text ++ "\n"

end Op

/-- A program line by line, the instruction at `ip` being marked. -/
def Program.listing (p : Program) (ip : Nat) : String :=
  p.code.toList.zipIdx.foldl (fun lines (op, i) => lines ++ op.line i ip) ""

end ScriptEngine
