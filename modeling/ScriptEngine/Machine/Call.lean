import ScriptEngine.Machine.Step

/-!
# Calls into a running engine

A host, or a native function that a program has called, can call any value.  A
script function gets a machine of its own, which runs while the interrupted one
waits; a native function runs in place.

## Main definitions

* `Setting.callFrom` — a call from a place in a program at a depth of calls.

A native function may call natives that call natives, and nothing but the fuel
bounds how deep this goes; calls of script functions are bounded by the maximal
depth of calls.
-/

namespace ScriptEngine.Setting

/-- A machine that is about to call a function: it has the arguments, an empty
scope, and halts when the call ends. -/
def calleeMachine (setting : Setting) (scope : ScopeRef) (depth : Nat) (arguments : List Value) :
    Machine :=
  ⟨setting.program.size, arguments.reverse, [scope], [], [], [], depth + 1⟩

/-- Runs a script function on a machine of its own.  Its results are what is on
the stack in the end. -/
def callFunction (setting : Setting) (call : Position → Nat → Reentry) (position : Position)
    (depth : Nat) (callee : Value) (arguments : List Value) :
    EStateM Interrupt Store (List Value) := fun s =>
  let (scope, s) := s.newScope
  let m := setting.calleeMachine scope depth arguments
  match setting.callValue (call position m.depth) callee arguments.length none ⟨m, s⟩ with
  | .error e ⟨_, s⟩ => .error (e.located position) s
  | .ok _ st =>
    match setting.runSteps call false setting.config.stepLimit st with
    | .error e ⟨_, s⟩ => .error e s
    | .ok halted ⟨m, s⟩ =>
      if halted then .ok m.stack.reverse s
      else .error (.error (.ranTooLong setting.config.stepLimit)) s

/-- A call of a value from a place, with `depth` calls being open.  At most
`fuel` calls are nested in each other. -/
def callFrom (setting : Setting) : Nat → Position → Nat → Reentry
  | 0, _, _, _, _ => throw .outOfFuel
  | fuel + 1, position, depth, callee, arguments =>
    match callee with
    | .native f =>
      EStateM.adaptExcept (Failure.located position)
        (setting.natives f.body (setting.callFrom fuel position depth) arguments)
    | .function _ _ =>
      setting.callFunction (setting.callFrom fuel) position depth callee arguments
    | v => throw (.error (.runtime (.calling v.kind) position))

end ScriptEngine.Setting
