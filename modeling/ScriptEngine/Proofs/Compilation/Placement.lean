import ScriptEngine.Proofs.Evaluation.Functions

/-!
# Code inside of a program

Code is generated piece by piece, with numbers in the place of functions and with
gaps where loops are left.  This module says what a piece looks like inside of
the finished program, and where the pieces of a text are.

## Main definitions

* `Op.settled` — an instruction as it stands in the finished program.
* `Program.Holds` — a piece of code stands at a place of a program.
* `Program.HoldsFunction` — the code of a function stands at a place.

## Main results

* `Program.holds_resolveBreaks` — inside of a loop, the jumps that leave it go to
  its end.
* `Program.holds_extend_main`, `Program.holds_lookup_ofTexts` — a program holds
  the code of the text that was loaded last, and the code of every function that
  its table lists.
-/

namespace ScriptEngine

/-! ### Settled instructions -/

/-- An instruction as it stands at `ip` in the finished program: a loop that ends
at `exit` is left by a jump, and functions have got their place. -/
def Op.settled (places : List Nat) (exit : Option Nat) (ip : Nat) (op : Op) : Op :=
  match exit with
  | none => op.link places
  | some x =>
    if op.code = .leave then .jumping .jump (x - (ip + 1 : Nat)) op.position else op.link places

/-- Whether an instruction stands in the finished program as it was generated. -/
def Op.isFinal (op : Op) : Bool :=
  match op.code, op.operand with
  | .leave, _ => false
  | .push, .value (.function _ _) => false
  | _, _ => true

theorem Op.code_link (places : List Nat) (op : Op) : (op.link places).code = op.code := by
  unfold Op.link
  split
  · split <;> simp_all
  · rfl

theorem Op.link_of_isFinal {op : Op} (places : List Nat) (h : op.isFinal) :
    op.link places = op := by
  unfold Op.link
  split
  · next hcode hoperand => simp [Op.isFinal, hcode, hoperand] at h
  · rfl

theorem Op.settled_of_isFinal {op : Op} (places : List Nat) (exit : Option Nat) (ip : Nat)
    (h : op.isFinal) : op.settled places exit ip = op := by
  have hleave : op.code ≠ .leave := by
    intro hcode
    simp [Op.isFinal, hcode] at h
  cases exit with
  | none => exact op.link_of_isFinal places h
  | some x => rw [Op.settled, if_neg hleave, op.link_of_isFinal places h]

theorem Op.settled_of_ne_leave {op : Op} (h : op.code ≠ .leave) (places : List Nat)
    (exit : Option Nat) (ip : Nat) : op.settled places exit ip = op.link places := by
  cases exit with
  | none => rfl
  | some x => rw [settled, if_neg h]

/-- The instruction that makes a function has the place of its body. -/
theorem Op.settled_function (places : List Nat) (exit : Option Nat) (ip number : Nat)
    (position : Position) :
    (Op.withValue .push (.function number []) position).settled places exit ip =
      .withValue .push (.function ((places[number]?).getD number) []) position := by
  have hlink : (Op.withValue .push (.function number []) position).link places =
      .withValue .push (.function ((places[number]?).getD number) []) position := by
    simp only [Op.link, Op.withValue]
    cases places[number]? <;> rfl
  cases exit with
  | none => exact hlink
  | some x => rw [Op.settled, if_neg (by simp [Op.withValue]), hlink]

/-! ### Pieces of code -/

/-- A piece of code stands at a place of a program, inside of a loop that ends at
`exit` if there is one. -/
def Program.Holds (p : Program) (places : List Nat) (exit : Option Nat) : Nat → Code → Prop
  | _, [] => True
  | ip, op :: rest =>
    p.code[ip]? = some (op.settled places exit ip) ∧ p.Holds places exit (ip + 1) rest

namespace Program

variable {p : Program} {places : List Nat} {exit : Option Nat} {ip : Nat}

@[simp] theorem holds_nil : p.Holds places exit ip [] := trivial

theorem holds_cons {op : Op} {rest : Code} :
    p.Holds places exit ip (op :: rest) ↔
      p.code[ip]? = some (op.settled places exit ip) ∧ p.Holds places exit (ip + 1) rest := Iff.rfl

theorem holds_append {code rest : Code} :
    p.Holds places exit ip (code ++ rest) ↔
      p.Holds places exit ip code ∧ p.Holds places exit (ip + code.length) rest := by
  induction code generalizing ip with
  | nil => simp
  | cons op code ih =>
    rw [List.cons_append, holds_cons, ih, holds_cons, List.length_cons, and_assoc,
      Nat.add_right_comm, Nat.add_assoc]

theorem Holds.left {code rest : Code} (h : p.Holds places exit ip (code ++ rest)) :
    p.Holds places exit ip code := (holds_append.1 h).1

theorem Holds.right {code rest : Code} (h : p.Holds places exit ip (code ++ rest)) :
    p.Holds places exit (ip + code.length) rest := (holds_append.1 h).2

theorem Holds.tail {op : Op} {rest : Code} (h : p.Holds places exit ip (op :: rest)) :
    p.Holds places exit (ip + 1) rest := h.2

/-- The first instruction of a piece of code, if it is in its final form. -/
theorem Holds.head {op : Op} {rest : Code} (h : p.Holds places exit ip (op :: rest))
    (final : op.isFinal) : p.code[ip]? = some op := by
  rw [h.1, op.settled_of_isFinal places exit ip final]

theorem Holds.moved {code : Code} {ip' : Nat} (h : p.Holds places exit ip code) (heq : ip' = ip) :
    p.Holds places exit ip' code := heq ▸ h

/-- The first instruction of a piece of code that stands at a place of two names. -/
theorem Holds.headAt {op : Op} {rest : Code} {ip' : Nat} (h : p.Holds places exit ip (op :: rest))
    (heq : ip' = ip) (final : op.isFinal) : p.code[ip']? = some op :=
  (h.moved heq).head final

/-- The instructions of a piece of code in a program. -/
theorem Holds.getElem? {code : Code} (h : p.Holds places exit ip code) {i : Nat} {op : Op}
    (hop : code[i]? = some op) : p.code[ip + i]? = some (op.settled places exit (ip + i)) := by
  induction code generalizing ip i with
  | nil => cases hop
  | cons first rest ih =>
    cases i with
    | zero =>
      cases hop
      exact h.1
    | succ i =>
      rw [← Nat.add_assoc, Nat.add_right_comm]
      exact ih h.2 hop

/-- Code that leaves no loop does not depend on the loop that it stands in. -/
theorem Holds.of_not_leave {code : Code} {exit' : Option Nat} (h : p.Holds places exit ip code)
    (hcode : ∀ op ∈ code, op.code ≠ .leave) : p.Holds places exit' ip code := by
  induction code generalizing ip with
  | nil => trivial
  | cons op rest ih =>
    obtain ⟨hop, hrest⟩ := List.forall_mem_cons.1 hcode
    refine ⟨?_, ih h.2 hrest⟩
    rw [h.1, Op.settled_of_ne_leave hop, Op.settled_of_ne_leave hop]

/-- **Inside of a loop, the jumps that leave it go to its end**, or `short`
instructions before it. -/
theorem holds_resolveBreaks {short x : Nat} {code : Code}
    (h : p.Holds places exit ip (resolveBreaks short code)) (hx : x + short = ip + code.length) :
    p.Holds places (some x) ip code := by
  induction code generalizing ip with
  | nil => trivial
  | cons op rest ih =>
    obtain ⟨hop, hrest⟩ := h
    refine ⟨?_, ih hrest (by rw [List.length_cons] at hx; omega)⟩
    rw [hop]
    by_cases hleave : op.code = .leave
    · rw [if_pos hleave, Op.settled_of_isFinal places exit ip (by rfl), Op.settled, if_pos hleave]
      rw [List.length_cons] at hx
      have : (rest.length : Int) - short = x - (ip + 1 : Nat) := by omega
      rw [this]
    · rw [if_neg hleave]
      cases exit with
      | none => rw [Op.settled, Op.settled, if_neg hleave]
      | some y => rw [Op.settled, Op.settled, if_neg hleave, if_neg hleave]

@[simp] theorem length_resolveBreaks (short : Nat) (code : Code) :
    (resolveBreaks short code).length = code.length := by
  induction code with
  | nil => rfl
  | cons op rest ih => simp [resolveBreaks, ih]

/-- The loop that the code of a loop leaves is that loop. -/
theorem not_leave_resolveBreaks (short : Nat) (code : Code) :
    ∀ op ∈ resolveBreaks short code, op.code ≠ .leave := by
  induction code with
  | nil => exact List.forall_mem_nil _
  | cons op rest ih =>
    rw [resolveBreaks, List.forall_mem_cons]
    refine ⟨?_, ih⟩
    split
    · exact nofun
    · assumption

/-- Linked instructions hold the code that they were linked from. -/
theorem holds_of_getElem? {code : Code}
    (h : ∀ i, i < code.length → p.code[ip + i]? = (code[i]?).map (Op.link places)) :
    p.Holds places none ip code := by
  induction code generalizing ip with
  | nil => trivial
  | cons op rest ih =>
    refine ⟨by simpa [Op.settled] using h 0 (by simp), ih fun i hi => ?_⟩
    have hnext := h (i + 1) (by simpa using hi)
    rwa [List.getElem?_cons_succ, ← Nat.add_assoc, Nat.add_right_comm] at hnext

/-- A program that goes on holds what it held. -/
theorem Holds.mono {q : Program}
    (hpq : ∀ (i : Nat) (op : Op), p.code[i]? = some op → q.code[i]? = some op) {code : Code}
    (h : p.Holds places exit ip code) : q.Holds places exit ip code := by
  induction code generalizing ip with
  | nil => trivial
  | cons op rest ih => exact ⟨hpq _ _ h.1, ih h.2⟩

/-- Code that leaves a value stands in front of what its target asks for. -/
theorem Holds.of_finish {target : Target} {position : Position} {code : Code}
    (h : p.Holds places exit ip (target.finish position code)) :
    p.Holds places exit ip code := by
  rcases target with _ | ⟨_ | _, distance⟩
  · exact h
  · exact h.left
  · exact h.left

/-- The code of a function stands at a place. -/
def HoldsFunction (p : Program) (entry : Nat) (f : PlacedFunction) : Prop :=
  p.Holds f.places none entry (f.literal.code f.number)

end Program

/-! ### Variables and calls -/

theorem bindLocals_cons (name : Identifier) (rest : List Identifier) :
    bindLocals (name :: rest) = bindLocals rest ++ bindLocal name.name name.position := by
  simp [bindLocals]

/-- The instruction of a call. -/
def callOp (want : Option Nat) (position : Position) : Op :=
  match want with
  | some n => .counted .call n position
  | none => .plain .call position

theorem isFinal_callOp (want : Option Nat) (position : Position) :
    (callOp want position).isFinal := by
  cases want <;> rfl

/-- The code of a call whose last argument is a call. -/
theorem callCode_of_endsInCall {position : Position} {arguments : List Expr} {values callee : Code}
    {want : Option Nat} (h : endsInCall arguments = true) :
    callCode position arguments values callee want =
      .plain .assignPush position :: values ++ [.plain .assignCount position] ++ callee
        ++ [.plain .swap position] ++ [callOp want position] := by
  rw [callCode.eq_def, if_pos h]
  cases want <;> rfl

/-- The code of a call whose number of arguments is known. -/
theorem callCode_of_not_endsInCall {position : Position} {arguments : List Expr}
    {values callee : Code} {want : Option Nat} (h : endsInCall arguments = false) :
    callCode position arguments values callee want =
      values ++ callee ++ [.counted .push arguments.length position] ++ [callOp want position] := by
  rw [callCode.eq_def, if_neg (by rw [h]; exact Bool.false_ne_true)]
  cases want <;> rfl

theorem endsInCall_cons {e : Expr} {rest : List Expr} (h : rest ≠ [] ∨ e.isCall = false) :
    endsInCall (e :: rest) = endsInCall rest := by
  cases rest with
  | nil =>
    rcases h with h | h
    · exact absurd rfl h
    · simpa [endsInCall] using h
  | cons f rest => rw [endsInCall, endsInCall, List.getLast?_cons_cons]

/-! ### The pieces of a text -/

theorem length_placesFrom (start : Nat) (codes : List Code) :
    (placesFrom start codes).length = codes.length := by
  induction codes generalizing start with
  | nil => rfl
  | cons code rest ih => simp [placesFrom, ih]

/-- Each piece of code stands at its place. -/
theorem getElem?_flatten_of_placesFrom {start i place : Nat} {codes : List Code} {code : Code}
    (hplace : (placesFrom start codes)[i]? = some place) (hcode : codes[i]? = some code) :
    start ≤ place ∧ ∀ j, j < code.length → codes.flatten[place - start + j]? = code[j]? := by
  induction codes generalizing start i with
  | nil => simp at hcode
  | cons first rest ih =>
    cases i with
    | zero =>
      simp only [placesFrom, List.getElem?_cons_zero, Option.some.injEq] at hplace hcode
      subst hplace hcode
      refine ⟨Nat.le_refl _, fun j hj => ?_⟩
      rw [List.flatten_cons, List.getElem?_append_left (by omega)]
      simp
    | succ i =>
      simp only [placesFrom, List.getElem?_cons_succ] at hplace hcode
      obtain ⟨hle, hget⟩ := ih hplace hcode
      refine ⟨by omega, fun j hj => ?_⟩
      rw [List.flatten_cons, List.getElem?_append_right (by omega), ← hget j hj]
      congr 1
      omega

namespace Program

/-- The bodies of the functions of a text. -/
theorem bodies_eq (chunk : Chunk) :
    (chunkCode none true chunk 0).2 = functionCodes 0 (chunkFunctions chunk) :=
  bodies_chunkCode none true chunk 0

/-- What a text adds to a program, the functions first. -/
def added (size : Nat) (chunk : Chunk) : Code :=
  (functionCodes 0 (chunkFunctions chunk)).flatten ++ (chunkCode none true chunk 0).1
    |>.map (Op.link (chunkPlaces size chunk))

theorem code_extend (p : Program) (chunk : Chunk) :
    (p.extend chunk).1.code.toList = p.code.toList ++ added p.size chunk := by
  simp only [extend, added, chunkPlaces, bodies_eq, Array.toList_appendList]

theorem start_extend (p : Program) (chunk : Chunk) :
    (p.extend chunk).1.start =
      p.size + (functionCodes 0 (chunkFunctions chunk)).flatten.length := by
  simp only [extend, bodies_eq]

theorem size_extend (p : Program) (chunk : Chunk) :
    (p.extend chunk).1.size =
      (p.extend chunk).1.start + (chunkCode none true chunk 0).1.length := by
  rw [size, ← Array.length_toList, code_extend, start_extend, added]
  rw [List.length_append, List.length_map, List.length_append, Array.length_toList, size,
    Nat.add_assoc]

theorem getElem?_extend_of_some (p : Program) (chunk : Chunk) {i : Nat} {op : Op}
    (h : p.code[i]? = some op) : (p.extend chunk).1.code[i]? = some op := by
  have hi : i < p.code.size := (Array.getElem?_eq_some_iff.1 h).1
  rw [← Array.getElem?_toList, code_extend, List.getElem?_append_left hi, Array.getElem?_toList, h]

theorem getElem?_extend_add (p : Program) (chunk : Chunk) (i : Nat) :
    (p.extend chunk).1.code[p.size + i]? = (added p.size chunk)[i]? := by
  rw [← Array.getElem?_toList, code_extend, size, ← Array.length_toList,
    List.getElem?_append_right (Nat.le_add_right _ _), Nat.add_sub_cancel_left]

/-- The program holds the code of the text that was loaded last. -/
theorem holds_extend_main (p : Program) (chunk : Chunk) :
    (p.extend chunk).1.Holds (chunkPlaces p.size chunk) none (p.extend chunk).1.start
      (chunkCode none true chunk 0).1 := by
  refine holds_of_getElem? fun i _ => ?_
  rw [start_extend, Nat.add_assoc, getElem?_extend_add, added, List.getElem?_map,
    List.getElem?_append_right (by omega), Nat.add_sub_cancel_left]

/-- The program holds the functions of the text that was loaded last. -/
theorem holds_extend_function (p : Program) (chunk : Chunk) {number place : Nat}
    {f : FunctionLiteral} (hplace : (chunkPlaces p.size chunk)[number]? = some place)
    (hf : (chunkFunctions chunk)[number]? = some f) :
    (p.extend chunk).1.HoldsFunction place ⟨f, number, chunkPlaces p.size chunk⟩ := by
  have hcode : (functionCodes 0 (chunkFunctions chunk))[number]? = some (f.code number) := by
    rw [getElem?_functionCodes, hf, Nat.zero_add]
    rfl
  obtain ⟨hle, hget⟩ := getElem?_flatten_of_placesFrom hplace hcode
  refine holds_of_getElem? fun i hi => ?_
  have hin := hget i hi
  have hlt : place - p.size + i < (functionCodes 0 (chunkFunctions chunk)).flatten.length := by
    rw [List.getElem?_eq_getElem hi] at hin
    exact (List.getElem?_eq_some_iff.1 hin).1
  have hshift : place + i = p.size + (place - p.size + i) := by omega
  rw [hshift, getElem?_extend_add, added, List.getElem?_map, List.getElem?_append_left hlt, hin]

/-- A text that is loaded later leaves the functions where they are. -/
theorem HoldsFunction.extend {p : Program} {entry : Nat} {f : PlacedFunction}
    (h : p.HoldsFunction entry f) (chunk : Chunk) : (p.extend chunk).1.HoldsFunction entry f :=
  Holds.mono (fun _ _ => getElem?_extend_of_some p chunk) h

/-- **The program of some texts holds every function that its table lists.** -/
theorem holds_lookup_ofTexts {texts : List Chunk} {entry : Nat} {f : PlacedFunction}
    (h : (entry, f) ∈ FunctionTable.ofTexts texts) :
    (Program.ofTexts texts).HoldsFunction entry f := by
  induction texts with
  | nil => cases h
  | cons chunk earlier ih =>
    rw [FunctionTable.ofTexts, List.mem_append] at h
    rcases h with hnew | hold
    · obtain ⟨number, hnumber⟩ := List.mem_iff_getElem?.1 hnew
      rw [FunctionTable.ofChunk, List.getElem?_zip_eq_some, List.getElem?_map,
        Option.map_eq_some_iff] at hnumber
      obtain ⟨hplace, ⟨g, i⟩, hzip, rfl⟩ := hnumber
      rw [List.getElem?_zipIdx, Option.map_eq_some_iff] at hzip
      obtain ⟨g', hg, heq⟩ := hzip
      obtain ⟨rfl, rfl⟩ := Prod.mk.inj heq
      rw [Nat.zero_add]
      exact holds_extend_function _ chunk hplace hg
    · exact (ih hold).extend chunk

end Program

end ScriptEngine
