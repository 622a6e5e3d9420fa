import ScriptEngine.Proofs.Compilation.Loops
import ScriptEngine.Proofs.Pieces.Bodies

/-!
# Rounds of loops over iterators

A loop over an iterator keeps the iterator, its state and a control value on the stack.  A round of
the loop marks the place where the results of the iterator will be.  If there are any, they are
brought to the number of the variables, the first one becomes the control value, and a pass is begun
in a new scope, in which the variables have the results.

## Main definitions

* `passBindings` — the variables of a pass with their values.
* `LoopSite.RoundsAt` — where the instructions of a loop over an iterator stand.

## Main results

* `get?_passBindings` — each variable of a pass has the value of its number.
* `Setting.traverses_done` — a loop whose iterator is at its end gives back the machine that has
  come to it.
* `Setting.traverses_pass` — results of the iterator are taken by the variables of a pass.
-/

namespace ScriptEngine

/-! ### The variables of a pass -/

/-- A store in which one more scope has been made, with some variables. -/
def Store.opened (s : Store) (b : Bindings) : Store := { s with scopes := s.scopes.push b }

/-- Variables with their values, in the order in which a loop declares them. -/
def passBindings (names : List Identifier) (values : List Value) : Bindings :=
  ((names.map Identifier.name).zip values).reverse

theorem Store.declare_opened (s : Store) (b : Bindings) (name : String) (v : Value) :
    (s.opened b).declare s.newScope.1 name v = s.opened (b.declare name v) := by
  have hmodify : (s.scopes.push b).modify s.scopes.size (·.declare name v) =
      s.scopes.push (b.declare name v) := by
    refine Array.ext_getElem? fun i => ?_
    rw [Array.getElem?_modify, Array.getElem?_push, Array.getElem?_push]
    by_cases hi : s.scopes.size = i
    · rw [if_pos hi, if_pos hi.symm, if_pos hi.symm, Option.map_some]
    · rw [if_neg hi, if_neg (Ne.symm hi), if_neg (Ne.symm hi)]
  simp only [Store.declare, Store.opened, Store.newScope, hmodify]

theorem Store.scope_opened (s : Store) (b : Bindings) : (s.opened b).scope s.newScope.1 = b := by
  simp only [Store.scope, Store.opened, Store.newScope, Array.getElem?_push_size, Option.getD_some]

/-- A variable is declared behind those that have other names. -/
theorem Bindings.declare_append {b c : Bindings} {name : String} (v : Value)
    (h : ∀ e ∈ b, e.1 ≠ name) : declare (b ++ c) name v = b ++ declare c name v := by
  induction b with
  | nil => rfl
  | cons e rest ih =>
    obtain ⟨hne, hrest⟩ := List.forall_mem_cons.1 h
    rw [List.cons_append, declare, if_neg hne, ih hrest, List.cons_append]

theorem passBindings_cons (name : Identifier) (rest : List Identifier) (values : List Value) :
    passBindings (name :: rest) (adjust (name :: rest).length values) =
      passBindings rest (adjust rest.length values.tail) ++ [(name.name, values.headD .nil)] := by
  rw [passBindings, List.length_cons, adjust_succ, List.map_cons, List.zip_cons_cons,
    List.reverse_cons]
  rfl

theorem ne_of_mem_passBindings {names : List Identifier} {values : List Value} {name : String}
    (h : name ∉ names.map Identifier.name) : ∀ e ∈ passBindings names values, e.1 ≠ name := by
  rintro e he rfl
  exact h (List.of_mem_zip (List.mem_reverse.1 he)).1

theorem Bindings.get?_append (b c : Bindings) (name : String) :
    get? (b ++ c) name = (get? b name).or (get? c name) := by
  induction b with
  | nil => rfl
  | cons e rest ih =>
    obtain ⟨key, v⟩ := e
    rw [List.cons_append, get?, get?]
    by_cases hkey : key = name
    · rw [if_pos hkey, if_pos hkey, Option.some_or]
    · rw [if_neg hkey, if_neg hkey, ih]

theorem Bindings.get?_of_forall_ne {b : Bindings} {name : String} (h : ∀ e ∈ b, e.1 ≠ name) :
    get? b name = none := by
  induction b with
  | nil => rfl
  | cons e rest ih =>
    obtain ⟨hne, hrest⟩ := List.forall_mem_cons.1 h
    rw [get?, if_neg hne, ih hrest]

/-- **Each variable of a pass has the value of its number**, or `nil` if there is none. -/
theorem get?_passBindings {names : List Identifier} (hnames : (names.map Identifier.name).Nodup)
    (values : List Value) {i : Nat} {name : Identifier} (hname : names[i]? = some name) :
    (passBindings names (adjust names.length values)).get? name.name =
      some (values.getD i .nil) := by
  induction names generalizing values i with
  | nil => cases hname
  | cons first rest ih =>
    rw [List.map_cons, List.nodup_cons] at hnames
    rw [passBindings_cons, Bindings.get?_append]
    cases i with
    | zero =>
      obtain rfl : first = name := Option.some.inj hname
      rw [Bindings.get?_of_forall_ne (ne_of_mem_passBindings hnames.1)]
      cases values <;> simp [Bindings.get?]
    | succ i =>
      rw [ih hnames.2 values.tail hname, Option.some_or]
      cases values <;> rfl

/-! ### The code of a loop -/

/-- Where the instructions of a loop over an iterator stand, a round beginning at `x`. -/
structure LoopSite.RoundsAt (p : Program) (places : List Nat) (l : LoopSite) (position : Position)
    (names : List Identifier) (body : List Stat) (x : Nat) : Prop where
  start_le : l.ip ≤ x
  bodyStart : l.bodyStart = x + (bindLocals names).length + 6
  bodyStop : l.bodyStart ≤ l.bodyStop body
  exit : l.exit = l.bodyStop body + 2
  stop : l.stop = l.exit + 1
  length : x + (Setting.iteratingRound position names
    (chunkCode (some 1) false body l.next).1).length = l.bodyStop body + 1
  round : p.Holds places (some l.exit) x
    (Setting.iteratingRound position names (chunkCode (some 1) false body l.next).1)
  close : p.code[l.bodyStop body]? = some (.plain .endBlock position)
  exit_lt : l.exit < p.size
  back : p.code[l.bodyStop body + 1]? = some (jumpBack position
    (Setting.iteratingRound position names (chunkCode (some 1) false body l.next).1))
  drop : p.code[l.exit]? = some (.counted .pop 3 position)

/-- The first instructions of a round are inside of the loop. -/
theorem LoopSite.RoundsAt.inside {p : Program} {places : List Nat} {l : LoopSite}
    {position : Position} {names : List Identifier} {body : List Stat} {x n : Nat}
    {frames : List Frame} {m : Machine} (h : l.RoundsAt p places position names body x)
    (hframes : m.frames = frames) (hip : m.ip = x + n) (hn : n < 6) :
    Piece.Inside ⟨l.ip, l.stop, frames⟩ m := by
  obtain ⟨hle, hstart, hend, hexit, hstop, -⟩ := h
  exact (Piece.inside_iff hframes).2 ⟨by dsimp only; omega, by dsimp only; omega⟩

/-- So is the call of the iterator. -/
theorem LoopSite.RoundsAt.partOf_call {p : Program} {places : List Nat} {l : LoopSite}
    {position : Position} {names : List Identifier} {body : List Stat} {x : Nat}
    {frames : List Frame} (h : l.RoundsAt p places position names body x) :
    Piece.PartOf ⟨x + 1, x + 2, frames⟩ ⟨l.ip, l.stop, frames⟩ := by
  obtain ⟨hle, hstart, hend, hexit, hstop, -⟩ := h
  exact Piece.partOf_of_le (by omega) (by omega)

/-- So is a pass. -/
theorem LoopSite.RoundsAt.partOf_pass {p : Program} {places : List Nat} {l : LoopSite}
    {position : Position} {names : List Identifier} {body : List Stat} {x : Nat}
    {frames : List Frame} (h : l.RoundsAt p places position names body x) :
    Piece.PartOf ⟨l.bodyStart, l.bodyStop body + 1, frames⟩ ⟨l.ip, l.stop, frames⟩ := by
  obtain ⟨hle, hstart, hend, hexit, hstop, -⟩ := h
  exact Piece.partOf_of_le (by omega) (by omega)

theorem LoopSite.Stands.roundsAt {p : Program} {places : List Nat} {l : LoopSite}
    {position : Position} {names : List Identifier} {es : List Expr} {body : List Stat}
    (h : l.Stands p places) (hloop : l.loop = .genericFor position names es body) :
    l.RoundsAt p places position names body
      (l.ip + (valuesCode es (l.next + (chunkFunctions body).length)).1.length + 2) := by
  -- The loop is its head, what it does again and again, the jump back and the last instruction.
  generalize hbody : (chunkCode (some 1) false body l.next).1 = inner
  generalize hround : Setting.iteratingRound position names inner = round
  have hlength : round.length = (bindLocals names).length + inner.length + 7 := by
    simp only [← hround, Setting.iteratingRound, inScope, List.length_append, List.length_cons,
      List.length_nil]
    omega
  have hcode : l.code =
      (.plain .assignPush position :: (valuesCode es (l.next + (chunkFunctions body).length)).1 ++
        [.counted .assignSet 3 position]) ++
      resolveBreaks 1 (round ++ [jumpBack position round, .counted .pop 3 position]) := by
    simp only [LoopSite.code, hloop, Stat.code, Gen.fst_bind, Gen.fst_pure, bodies_chunkCode,
      length_functionCodes, iteratorLoop, hbody, ← hround, Setting.iteratingRound]
  have hstart : l.bodyStart =
      l.ip + (valuesCode es (l.next + (chunkFunctions body).length)).1.length + 2 +
        (bindLocals names).length + 6 := by
    simp only [LoopSite.bodyStart, hloop, Stat.ahead]
    omega
  have hholds := h.holds
  rw [hcode] at hholds
  generalize (valuesCode es (l.next + (chunkFunctions body).length)).1 = iterators
    at hcode hstart hholds ⊢
  have hstop : l.stop = l.ip + iterators.length + 2 + round.length + 2 := by
    simp only [LoopSite.stop, hcode, List.length_append, List.length_cons, List.length_nil,
      Program.length_resolveBreaks]
    omega
  have hexit : l.exit = l.stop - 1 := by
    rw [LoopSite.exit, hloop]
    rfl
  have hend : l.bodyStop body = l.bodyStart + inner.length := by
    rw [LoopSite.bodyStop, hbody]
  have hparts : p.Holds places (some l.exit) (l.ip + iterators.length + 2)
      (round ++ [jumpBack position round, .counted .pop 3 position]) := by
    refine (Program.holds_resolveBreaks hholds.right ?_).moved ?_
    · simp only [List.length_append, List.length_cons, List.length_nil]
      omega
    · simp only [List.length_append, List.length_cons, List.length_nil]
      omega
  refine ⟨by omega, hstart, Nat.le_add_right _ _, by omega, by omega, ?_, ?_, ?_, ?_, ?_, ?_⟩
  · rw [hbody, hround]
    omega
  · rw [hbody, hround]
    exact hparts.left
  · have hpass := hparts.left
    rw [← hround, Setting.iteratingRound] at hpass
    refine hpass.right.right.headAt ?_ rfl
    simp only [List.length_append, List.length_cons, List.length_nil]
    omega
  · exact Nat.lt_of_lt_of_le (by omega) h.stop_le_size
  · rw [hbody, hround]
    exact hparts.right.headAt (by omega) rfl
  · exact hparts.right.tail.headAt (by omega) rfl

namespace Setting

variable {setting : Setting} {call : Position → Nat → Reentry} {places : List Nat} {l : LoopSite}
  {position : Position} {names : List Identifier} {body : List Stat} {x start stop ip : Nat}
  {m : Machine} {s : Store} {iterator state : Value} {results : List Value}

/-- The variables of a pass stand for what the iterator has answered. -/
theorem lookup_opened (hnames : (names.map Identifier.name).Nodup) (results : List Value)
    (s : Store) {i : Nat} {name : Identifier} (hname : names[i]? = some name) :
    Exec.lookup { m with scopes := s.newScope.1 :: m.scopes }
      (s.opened (passBindings names (adjust names.length results))) name.name =
      results.getD i .nil := by
  have hget := get?_passBindings hnames results hname
  have hfound : (passBindings names (adjust names.length results)).contains name.name = true := by
    rw [Bindings.contains, hget, Option.isSome_some]
  simp only [Exec.lookup, Exec.reach, List.cons_append, Exec.findScope, Store.scope_opened, hfound,
    if_true, hget, Option.getD_some]

/-! ### The instructions of a round -/

/-- A variable is declared in a new scope for the value on top of the stack. -/
theorem traverses_bindLocal {exit : Option Nat} {name : String} {v : Value} {σ : List Value}
    {b : Bindings} (h : setting.program.Holds places exit ip (bindLocal name position))
    (hstart : start ≤ ip) (hstop : ip + 2 ≤ stop) (hname : ∀ e ∈ b, e.1 ≠ name) :
    setting.Traverses call false ⟨start, stop, m.frames⟩
      ⟨{ m with ip := ip, stack := v :: σ, scopes := s.newScope.1 :: m.scopes }, s.opened b⟩
      ⟨{ m with ip := ip + 2, stack := σ, scopes := s.newScope.1 :: m.scopes },
        s.opened (b ++ [(name, v)])⟩ := by
  have hdeclare : (s.opened b).declare s.newScope.1 name .nil = s.opened (b ++ [(name, .nil)]) := by
    have hb := Bindings.declare_append (c := []) .nil hname
    rw [List.append_nil] at hb
    rw [Store.declare_opened, hb]
    rfl
  have hassign : Exec.assign { m with ip := ip + 2, stack := σ, scopes := s.newScope.1 :: m.scopes }
      name v (s.opened (b ++ [(name, .nil)])) = s.opened (b ++ [(name, v)]) := by
    have hfound : ((s.opened (b ++ [(name, .nil)])).scope s.newScope.1).contains name = true := by
      rw [Store.scope_opened, Bindings.contains, Bindings.get?_append,
        Bindings.get?_of_forall_ne hname]
      simp [Bindings.get?]
    simp only [Exec.assign, Exec.reach, List.cons_append, Exec.findScope, hfound, if_true,
      Store.declare_opened, Bindings.declare_append v hname]
    simp [Bindings.declare]
  have hfirst : setting.step call false
      ⟨{ m with ip := ip, stack := v :: σ, scopes := s.newScope.1 :: m.scopes }, s.opened b⟩ =
      .ok () ⟨{ m with ip := ip + 1, stack := v :: σ, scopes := s.newScope.1 :: m.scopes },
        s.opened (b ++ [(name, .nil)])⟩ := by
    rw [← hdeclare]
    exact step_of_execute (m := { m with
      ip := ip
      stack := v :: σ
      scopes := s.newScope.1 :: m.scopes }) (h.head rfl) rfl
  have hsecond : setting.step call false
      ⟨{ m with ip := ip + 1, stack := v :: σ, scopes := s.newScope.1 :: m.scopes },
        s.opened (b ++ [(name, .nil)])⟩ =
      .ok () ⟨{ m with ip := ip + 2, stack := σ, scopes := s.newScope.1 :: m.scopes },
        s.opened (b ++ [(name, v)])⟩ := by
    rw [← hassign]
    exact step_of_execute (m := { m with
      ip := ip + 1
      stack := v :: σ
      scopes := s.newScope.1 :: m.scopes }) (h.tail.head rfl) rfl
  exact .head ⟨(Piece.inside_iff rfl).2 ⟨hstart, by dsimp only; omega⟩, hfirst⟩
    (.single ⟨(Piece.inside_iff rfl).2 ⟨by dsimp only; omega, by dsimp only; omega⟩, hsecond⟩)

/-- **The variables of a pass are declared in its scope** for the values on top of the stack. -/
theorem traverses_bindLocals {exit : Option Nat} {σ : List Value}
    (h : setting.program.Holds places exit ip (bindLocals names)) (hstart : start ≤ ip)
    (hstop : ip + (bindLocals names).length ≤ stop)
    (hnames : (names.map Identifier.name).Nodup) (values : List Value) :
    setting.Traverses call false ⟨start, stop, m.frames⟩
      ⟨{ m with
        ip := ip
        stack := (adjust names.length values).reverse ++ σ
        scopes := s.newScope.1 :: m.scopes }, s.newScope.2⟩
      ⟨{ m with
        ip := ip + (bindLocals names).length
        stack := σ
        scopes := s.newScope.1 :: m.scopes },
        s.opened (passBindings names (adjust names.length values))⟩ := by
  induction names generalizing values σ with
  | nil =>
    rw [List.length_nil, adjust_zero]
    exact .refl
  | cons name rest ih =>
    -- The code declares the last variable first.
    rw [bindLocals_cons] at h hstop ⊢
    rw [List.length_append] at hstop ⊢
    have hlast : (bindLocal name.name name.position).length = 2 := rfl
    rw [hlast] at hstop ⊢
    rw [List.map_cons, List.nodup_cons] at hnames
    rw [passBindings_cons, List.length_cons, adjust_succ, List.reverse_cons, List.append_assoc,
      ← Nat.add_assoc]
    exact (ih h.left (by omega) hnames.2 values.tail).trans
      (traverses_bindLocal h.right (by omega) (by omega) (ne_of_mem_passBindings hnames.1))

section

variable (hcode : l.RoundsAt setting.program places position names body x)
include hcode

/-- What a loop keeps on the stack is dropped at its exit. -/
theorem traverses_drop (control : Value) (s : Store) :
    setting.Traverses call false ⟨l.ip, l.stop, m.frames⟩
      ⟨{ m with ip := l.exit, stack := control :: state :: iterator :: m.stack }, s⟩
      ⟨{ m with ip := l.stop }, s⟩ := by
  have hstep : setting.step call false
      ⟨{ m with ip := l.exit, stack := control :: state :: iterator :: m.stack }, s⟩ =
      .ok () ⟨{ m with ip := l.exit + 1 }, s⟩ :=
    step_of_execute (m := { m with
      ip := l.exit
      stack := control :: state :: iterator :: m.stack }) hcode.drop rfl
  obtain ⟨hle, hstart, hend, hexit, hstop, -⟩ := hcode
  rw [hstop]
  exact .single ⟨(Piece.inside_iff rfl).2 ⟨by dsimp only; omega, Nat.lt_succ_self _⟩, hstep⟩

/-- Behind a pass the loop goes on with the next round. -/
theorem traverses_back (stack : List Value) (s : Store) :
    setting.Traverses call false ⟨l.ip, l.stop, m.frames⟩
      ⟨{ m with ip := l.bodyStop body + 1, stack := stack }, s⟩
      ⟨{ m with ip := x, stack := stack }, s⟩ := by
  have hlength := hcode.length
  refine .single ⟨(Piece.inside_iff rfl).2 ?_, ?_⟩
  · obtain ⟨hle, hstart, hend, hexit, hstop, -⟩ := hcode
    exact ⟨by dsimp only; omega, by dsimp only; omega⟩
  · refine step_of_execute (m := { m with ip := l.bodyStop body + 1, stack := stack }) hcode.back ?_
    exact jump_eq (m := { m with ip := l.bodyStop body + 1 + 1, stack := stack })
      (d := -((iteratingRound position names
        (chunkCode (some 1) false body l.next).1).length + 1 : Nat)) (by dsimp only; omega)

/-- The iterator is at its end. -/
theorem traverses_done (control : Value) (hdone : (results.headD .nil).isNil = true) (s : Store) :
    setting.Traverses call false ⟨l.ip, l.stop, m.frames⟩
      ⟨{ m with
        ip := x + 2
        stack := results.reverse ++ control :: state :: iterator :: m.stack
        marks := (m.stack.length + 3) :: m.marks }, s⟩
      ⟨{ m with ip := l.stop }, s⟩ := by
  have hlength := hcode.length
  have hexit := hcode.exit
  have hstep : setting.step call false ⟨{ m with
      ip := x + 2
      stack := results.reverse ++ control :: state :: iterator :: m.stack
      marks := (m.stack.length + 3) :: m.marks }, s⟩ =
      .ok () ⟨{ m with ip := l.exit, stack := control :: state :: iterator :: m.stack }, s⟩ := by
    refine step_of_execute (m := { m with
      ip := x + 2
      stack := results.reverse ++ control :: state :: iterator :: m.stack
      marks := (m.stack.length + 3) :: m.marks }) (hcode.round.left.tail.tail.head rfl)
      (iterJumpIfDone_of_isNil l.exit hdone ?_)
    simp only [iteratingRound, List.length_append, List.length_cons, List.length_nil, Op.jumping,
      Op.offset] at hlength ⊢
    omega
  exact .head ⟨hcode.inside (n := 2) rfl rfl (by decide), hstep⟩ (traverses_drop hcode control s)

/-- The results of the iterator are taken by the variables of a pass. -/
theorem traverses_pass (hnames : (names.map Identifier.name).Nodup) (hne : names ≠ [])
    (control : Value) (hvalue : ¬ (results.headD .nil).isNil = true) (s : Store) :
    setting.Traverses call false ⟨l.ip, l.stop, m.frames⟩
      ⟨{ m with
        ip := x + 2
        stack := results.reverse ++ control :: state :: iterator :: m.stack
        marks := (m.stack.length + 3) :: m.marks }, s⟩
      ⟨{ m with
        ip := l.bodyStart
        stack := results.headD .nil :: state :: iterator :: m.stack
        scopes := s.newScope.1 :: m.scopes },
        s.opened (passBindings names (adjust names.length results))⟩ := by
  have hround := hcode.round
  have hpass : setting.program.Holds places (some l.exit) (x + 5) (inScope position
      (bindLocals names ++ (chunkCode (some 1) false body l.next).1)) := hround.right
  refine .head ⟨hcode.inside (n := 2) rfl rfl (by decide), step_of_execute (m := { m with
    ip := x + 2
    stack := results.reverse ++ control :: state :: iterator :: m.stack
    marks := (m.stack.length + 3) :: m.marks }) (hround.left.tail.tail.head rfl)
    (iterJumpIfDone_of_not_isNil hvalue)⟩ ?_
  refine .head ⟨hcode.inside (n := 3) rfl rfl (by decide), step_of_execute (m := { m with
    ip := x + 3
    stack := results.reverse ++ control :: state :: iterator :: m.stack
    marks := (m.stack.length + 3) :: m.marks }) (hround.left.tail.tail.tail.head rfl)
    (assignSet_reverse_append names.length results)⟩ ?_
  refine .head ⟨hcode.inside (n := 4) rfl rfl (by decide), step_of_execute (m := { m with
    ip := x + 4
    stack := (adjust names.length results).reverse ++ control :: state :: iterator :: m.stack })
    (hround.left.tail.tail.tail.tail.head rfl)
    (iterUpdateState_reverse_append (List.length_pos_iff.2 hne) control)⟩ ?_
  refine .head ⟨hcode.inside (n := 5) rfl rfl (by decide), step_of_execute (m := { m with
    ip := x + 5
    stack := (adjust names.length results).reverse ++
      results.headD .nil :: state :: iterator :: m.stack }) (hpass.left.head rfl) rfl⟩ ?_
  obtain ⟨hle, hstart, hend, hexit, hstop, -⟩ := hcode
  rw [hstart, show x + (bindLocals names).length + 6 = x + 5 + 1 + (bindLocals names).length by
    omega]
  exact traverses_bindLocals hpass.left.tail.left (by omega) (by omega) hnames results

/-- A round begins with the mark of what the iterator will answer. -/
theorem step_round (control : Value) (s : Store) :
    Piece.Inside ⟨l.ip, l.stop, m.frames⟩
        { m with ip := x, stack := control :: state :: iterator :: m.stack } ∧
      setting.step call false
        ⟨{ m with ip := x, stack := control :: state :: iterator :: m.stack }, s⟩ =
        .ok () ⟨{ m with
          ip := x + 1
          stack := control :: state :: iterator :: m.stack
          marks := (m.stack.length + 3) :: m.marks }, s⟩ := by
  refine ⟨hcode.inside (n := 0) rfl rfl (by decide), ?_⟩
  exact step_of_execute (m := { m with
    ip := x
    stack := control :: state :: iterator :: m.stack }) (hcode.round.left.head rfl) rfl

end

end Setting

end ScriptEngine
