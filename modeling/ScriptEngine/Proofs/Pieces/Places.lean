import ScriptEngine.Proofs.Compilation.Statements
import ScriptEngine.Proofs.Linking.Literals
import ScriptEngine.Proofs.Safety.Breaks
import ScriptEngine.Proofs.Scoping.Level
import ScriptEngine.Proofs.Syntax.Promises

/-!
# Where the statements of a text stand

Each list of statements in a text, at whatever depth, has its place in the program that the text
is put behind.  The innermost loop of its function that it stands in has one, too.

## Main definitions

* `LoopSite` — a loop around some statements, its place, and the scopes that are open in it.
* `Part`, `Located` — the lists of statements in a text, and where they are.

## Main results

* `holds_loopBody` — the body of a loop stands in the code of the loop, and leaves it at its exit.
* `Located.stands` — the code of statements stands where they are located.
-/

namespace ScriptEngine

/-! ### Loops -/

/-- The body of a loop. -/
def Stat.loopBody? : Stat → Option (List Stat)
  | .whileLoop _ _ body => some body
  | .numericFor _ _ _ _ body => some body
  | .genericFor _ _ _ body => some body
  | .repeatLoop _ body _ => some body
  | _ => none

/-- How many values a loop keeps on the stack from one pass to the next: its counter, or its
iterator with the state and the control value. -/
def Stat.kept : Stat → Nat
  | .numericFor .. => 1
  | .genericFor .. => 3
  | _ => 0

/-- How many instructions of a loop stand in front of its body. -/
def Stat.ahead (next : Nat) : Stat → Nat
  | .whileLoop position condition body =>
    let block := inScope position (chunkCode (some 1) false body next).1
    (condition.code (.jumpWhen false (block.length + 1))
      (next + (chunkFunctions body).length)).1.length + 1
  | .numericFor counter start stop step body =>
    let next := next + (chunkFunctions body).length + (stepExpr counter step).functions.length
    (start.code .value (next + stop.functions.length)).1.length +
      (stop.code .value next).1.length + 7
  | .genericFor _ names iterators body =>
    (valuesCode iterators (next + (chunkFunctions body).length)).1.length +
      (bindLocals names).length + 8
  | .repeatLoop _ _ _ => 1
  | _ => 0

/-- A loop around some statements, which makes functions from the number `next` on and begins at
`ip`, and how many scopes have been opened since its beginning where the statements are. -/
structure LoopSite where
  loop : Stat
  next : Nat
  ip : Nat
  scopes : Nat

namespace LoopSite

/-- The code of the loop. -/
def code (l : LoopSite) : Code := (l.loop.code none false l.next).1

/-- The instruction behind the loop. -/
def stop (l : LoopSite) : Nat := l.ip + l.code.length

/-- The instruction at which the loop is left: the last one if that drops what the loop keeps, and
the one behind the loop otherwise. -/
def exit (l : LoopSite) : Nat := l.stop - min 1 l.loop.kept

/-- One scope further in. -/
def inner (l : LoopSite) : LoopSite := { l with scopes := l.scopes + 1 }

end LoopSite

/-! ### Lists of statements -/

/-- Statements one after another, or the branches of a conditional. -/
inductive Part where
  | body (keep : Bool) (stats : List Stat)
  | branches (position : Position) (otherwise : Option (List Stat))
    (choices : List (Expr × List Stat))

/-- The code of a part. -/
def Part.code (scopes : Option Nat) : Part → Gen Code
  | body keep stats => chunkCode scopes keep stats
  | branches position otherwise choices =>
    branchesCode scopes position (Setting.lastBranch scopes position otherwise) choices

/-- The function literals of a part. -/
def Part.functions : Part → List FunctionLiteral
  | body _ stats => chunkFunctions stats
  | branches _ otherwise choices =>
    branchesFunctions ((otherwise.map chunkFunctions).getD []) choices

/-- Whether a part leaves loops inside of loops only. -/
def Part.closed (inLoop : Bool) : Part → Bool
  | body _ stats => chunkClosed inLoop stats
  | branches _ otherwise choices =>
    branchesClosed inLoop choices && otherwise.all (chunkClosed inLoop)

/-- The code of the body of a branch, and of the jump over the branches behind it. -/
def branchBlock (scopes : Option Nat) (position : Position) (otherwise : Option (List Stat))
    (condition : Expr) (body : List Stat) (rest : List (Expr × List Stat)) (next : Nat) : Code :=
  let others := ((Part.branches position otherwise rest).code scopes next).1
  let next := next + (Part.branches position otherwise rest).functions.length
  inScope condition.position (chunkCode (scopes.map (· + 1)) false body next).1 ++
    (if others.isEmpty then [] else [.jumping .jump others.length position])

/-- The code of the condition of a branch. -/
def branchTest (scopes : Option Nat) (position : Position) (otherwise : Option (List Stat))
    (condition : Expr) (body : List Stat) (rest : List (Expr × List Stat)) (next : Nat) : Code :=
  (condition.code
    (.jumpWhen false (branchBlock scopes position otherwise condition body rest next).length)
    (next + (Part.branches position otherwise rest).functions.length +
      (chunkFunctions body).length)).1

theorem bodies_branches (scopes : Option Nat) (position : Position) (otherwise : Option (List Stat))
    (choices : List (Expr × List Stat)) (next : Nat) :
    (branchesCode scopes position (Setting.lastBranch scopes position otherwise) choices next).2 =
      functionCodes next (Part.branches position otherwise choices).functions :=
  bodies_branchesCode scopes position _ _ (Setting.bodies_lastBranch scopes position otherwise) _ _

theorem code_branches_cons (scopes : Option Nat) (position : Position)
    (otherwise : Option (List Stat)) (condition : Expr) (body : List Stat)
    (rest : List (Expr × List Stat)) (next : Nat) :
    ((Part.branches position otherwise ((condition, body) :: rest)).code scopes next).1 =
      branchTest scopes position otherwise condition body rest next ++
        branchBlock scopes position otherwise condition body rest next ++
        ((Part.branches position otherwise rest).code scopes next).1 := by
  simp only [Part.code, branchesCode, Gen.fst_bind, Gen.fst_pure, bodies_branches, bodies_chunkCode,
    length_functionCodes]
  rfl

theorem code_body_cons (scopes : Option Nat) (keep : Bool) (s : Stat) (rest : List Stat)
    (next : Nat) :
    ((Part.body keep (s :: rest)).code scopes next).1 =
      (s.code scopes (keep && rest.isEmpty) next).1 ++
        ((Part.body keep rest).code scopes (next + s.functions.length)).1 := by
  simp only [Part.code, chunkCode, Gen.fst_bind, Gen.fst_pure, Stat.bodies_code,
    length_functionCodes]

/-- The parts of a text that is put behind a program: the numbers of the functions that they make
begin at `next`, their code begins at `ip`, and `site` is the innermost loop of their function that
they stand in. -/
inductive Located (p : Program) (text : Chunk) : Part → Nat → Nat → Option LoopSite → Prop
  /-- The text itself. -/
  | text : Located p text (.body true text) 0 (p.extend text).1.start none
  /-- The body of a function. -/
  | function {f : FunctionLiteral} {number place : Nat}
      (hf : (chunkFunctions text)[number]? = some f)
      (hplace : (chunkPlaces p.size text)[number]? = some place) :
      Located p text (.body false f.body) (number + 1)
        (place + 1 + (bindLocals f.parameters).length) none
  /-- What is behind a statement. -/
  | tail {keep : Bool} {s : Stat} {rest : List Stat} {next ip : Nat} {site : Option LoopSite}
      (h : Located p text (.body keep (s :: rest)) next ip site) :
      Located p text (.body keep rest) (next + s.functions.length)
        (ip + (s.code (site.map LoopSite.scopes) (keep && rest.isEmpty) next).1.length) site
  /-- The statements of a block. -/
  | block {keep : Bool} {body rest : List Stat} {next ip : Nat} {site : Option LoopSite}
      (h : Located p text (.body keep (.block body :: rest)) next ip site) :
      Located p text (.body false body) next (ip + 1) (site.map LoopSite.inner)
  /-- The branches of a conditional. -/
  | conditional {keep : Bool} {position : Position} {otherwise : Option (List Stat)}
      {branches : List (Expr × List Stat)} {rest : List Stat} {next ip : Nat}
      {site : Option LoopSite}
      (h : Located p text (.body keep (.conditional position branches otherwise :: rest)) next ip
        site) :
      Located p text (.branches position otherwise branches) next ip site
  /-- The body of the first branch. -/
  | branch {position : Position} {otherwise : Option (List Stat)} {condition : Expr}
      {body : List Stat} {rest : List (Expr × List Stat)} {next ip : Nat} {site : Option LoopSite}
      (h : Located p text (.branches position otherwise ((condition, body) :: rest)) next ip site) :
      Located p text (.body false body)
        (next + (Part.branches position otherwise rest).functions.length)
        (ip + (branchTest (site.map LoopSite.scopes) position otherwise condition body rest
          next).length + 1) (site.map LoopSite.inner)
  /-- The branches behind the first one. -/
  | others {position : Position} {otherwise : Option (List Stat)} {condition : Expr}
      {body : List Stat} {rest : List (Expr × List Stat)} {next ip : Nat} {site : Option LoopSite}
      (h : Located p text (.branches position otherwise ((condition, body) :: rest)) next ip site) :
      Located p text (.branches position otherwise rest) next
        (ip + (branchTest (site.map LoopSite.scopes) position otherwise condition body rest
            next).length +
          (branchBlock (site.map LoopSite.scopes) position otherwise condition body rest
            next).length) site
  /-- What is done if no condition holds. -/
  | otherwise {position : Position} {body : List Stat} {next ip : Nat} {site : Option LoopSite}
      (h : Located p text (.branches position (some body) []) next ip site) :
      Located p text (.body false body) next (ip + 1) (site.map LoopSite.inner)
  /-- The body of a loop. -/
  | loop {keep : Bool} {s : Stat} {body rest : List Stat} {next ip : Nat} {site : Option LoopSite}
      (h : Located p text (.body keep (s :: rest)) next ip site) (hbody : s.loopBody? = some body) :
      Located p text (.body false body) next (ip + s.ahead next) (some ⟨s, next, ip, 1⟩)

/-! ### The code of loops -/

section Loops

variable {p : Program} {places : List Nat} {exit scopes : Option Nat} {keep : Bool} {next ip : Nat}
  {s : Stat} {body : List Stat}

/-- The code of a loop is the same wherever it stands. -/
theorem code_of_loopBody (h : s.loopBody? = some body) (scopes : Option Nat) (keep : Bool)
    (next : Nat) : (s.code scopes keep next).1 = (s.code none false next).1 := by
  cases s with
  | numericFor _ _ _ step _ => cases step <;> rfl
  | whileLoop | genericFor | repeatLoop => rfl
  | _ => cases h

theorem not_leave_loop (h : s.loopBody? = some body) :
    ∀ op ∈ (s.code scopes keep next).1, op.code ≠ .leave := by
  have hvalue (e : Expr) (next : Nat) : ∀ op ∈ (e.code .value next).1, op.code ≠ .leave := by
    have hlevel : Level false _ (e.code .value next).1 := e.level_code
    exact fun op hop => hlevel.not_leave hop
  have hvalues (es : List Expr) (next : Nat) : ∀ op ∈ (valuesCode es next).1, op.code ≠ .leave :=
    fun op hop => (straight_valuesCode es (fun _ => True) trivial).not_leave hop
  cases s with
  | whileLoop position condition body =>
    simp only [Stat.code, Gen.fst_bind, Gen.fst_pure]
    exact Program.not_leave_resolveBreaks _ _
  | repeatLoop position body condition =>
    simp only [Stat.code, Gen.fst_bind, Gen.fst_pure]
    exact Program.not_leave_resolveBreaks _ _
  | numericFor counter start stop step body =>
    rw [Setting.code_numericFor counter start stop step body _ rfl]
    exact List.forall_mem_append.2 ⟨hvalue _ _, Program.not_leave_resolveBreaks _ _⟩
  | genericFor position names iterators body =>
    simp only [Stat.code, Gen.fst_bind, Gen.fst_pure, iteratorLoop]
    refine List.forall_mem_append.2 ⟨List.forall_mem_append.2 ⟨?_, ?_⟩,
      Program.not_leave_resolveBreaks _ _⟩
    · exact List.forall_mem_cons.2 ⟨by rintro ⟨⟩, hvalues _ _⟩
    · exact List.forall_mem_singleton.2 (by rintro ⟨⟩)
  | _ => cases h

/-- A loop that keeps values on the stack: what it does again and again, and the instruction that
drops them. -/
theorem holds_round {front round : Code} {back drop : Op} (hdrop : drop.isFinal)
    (h : p.Holds places exit ip (front ++ resolveBreaks 1 (round ++ [back, drop]))) :
    p.Holds places (some (ip + (front ++ resolveBreaks 1 (round ++ [back, drop])).length - 1))
      (ip + front.length) round ∧
    p.code[ip + (front ++ resolveBreaks 1 (round ++ [back, drop])).length - 1]? = some drop := by
  have hlength : (front ++ resolveBreaks 1 (round ++ [back, drop])).length =
      front.length + round.length + 2 := by
    simp only [List.length_append, Program.length_resolveBreaks, List.length_cons, List.length_nil]
    omega
  rw [hlength]
  have hloop := Program.holds_resolveBreaks (x := ip + (front.length + round.length + 2) - 1)
    h.right (by simp only [List.length_append, List.length_cons, List.length_nil]; omega)
  exact ⟨hloop.left, hloop.right.tail.headAt (by omega) hdrop⟩

/-- **The body of a loop stands behind what is in front of it**, and leaves the loop at its exit. -/
theorem holds_loopBody (h : s.loopBody? = some body)
    (hcode : p.Holds places exit ip (s.code scopes keep next).1) :
    p.Holds places (some (ip + (s.code scopes keep next).1.length - min 1 s.kept))
      (ip + s.ahead next) (chunkCode (some 1) false body next).1 ∧
    ip + s.ahead next + (chunkCode (some 1) false body next).1.length + 1 ≤
      ip + (s.code scopes keep next).1.length - min 1 s.kept := by
  cases s with
  | whileLoop position condition body =>
    cases h
    simp only [Stat.code, Gen.fst_bind, Gen.fst_pure, bodies_chunkCode, length_functionCodes]
      at hcode ⊢
    rw [Program.length_resolveBreaks]
    have hloop := Program.holds_resolveBreaks hcode (Nat.add_zero _)
    refine ⟨hloop.left.right.left.tail, ?_⟩
    simp only [Stat.ahead, Stat.kept, inScope, List.length_append, List.length_cons,
      List.length_nil]
    omega
  | repeatLoop position body condition =>
    cases h
    simp only [Stat.code, Gen.fst_bind, Gen.fst_pure, bodies_chunkCode, length_functionCodes]
      at hcode ⊢
    rw [Program.length_resolveBreaks]
    have hloop := Program.holds_resolveBreaks hcode (Nat.add_zero _)
    refine ⟨hloop.left.left.tail.left, ?_⟩
    simp only [Stat.ahead, Stat.kept, inScope, List.length_append, List.length_cons,
      List.length_nil]
    omega
  | numericFor counter start stop step body =>
    cases h
    rw [Setting.code_numericFor counter start stop step body _ rfl] at hcode ⊢
    have hround := (holds_round rfl hcode).1
    have hpass := hround.left.left.right.left.tail
    refine ⟨hpass.right.moved ?_, ?_⟩
    all_goals
      simp only [Stat.ahead, Stat.kept, Setting.countingRound, inScope, bindLocal,
        Program.length_resolveBreaks, List.length_append, List.length_cons, List.length_nil]
      omega
  | genericFor position names iterators body =>
    cases h
    simp only [Stat.code, Gen.fst_bind, Gen.fst_pure, bodies_chunkCode, length_functionCodes,
      iteratorLoop] at hcode ⊢
    have hround := (holds_round rfl hcode).1
    have hpass := hround.right.left.tail
    refine ⟨hpass.right.moved ?_, ?_⟩
    all_goals
      simp only [Stat.ahead, Stat.kept, inScope, Program.length_resolveBreaks, List.length_append,
        List.length_cons, List.length_nil]
      omega
  | _ => cases h

/-- The instruction at which a loop is left: the one behind the loop, or the last one, which drops
what the loop keeps. -/
theorem exit_or_drop (h : s.loopBody? = some body)
    (hcode : p.Holds places exit ip (s.code scopes keep next).1) :
    s.kept = 0 ∨ 0 < s.kept ∧ ∃ op, op.code = .pop ∧ op.count?.getD 1 = s.kept ∧
      p.code[ip + (s.code scopes keep next).1.length - 1]? = some op := by
  cases s with
  | whileLoop | repeatLoop => exact .inl rfl
  | numericFor counter start stop step body =>
    rw [Setting.code_numericFor counter start stop step body _ rfl] at hcode ⊢
    exact .inr ⟨Nat.one_pos, _, rfl, rfl, (holds_round rfl hcode).2⟩
  | genericFor position names iterators body =>
    simp only [Stat.code, Gen.fst_bind, Gen.fst_pure, iteratorLoop] at hcode ⊢
    exact .inr ⟨Nat.succ_pos 2, _, rfl, rfl, (holds_round rfl hcode).2⟩
  | _ => cases h

end Loops

/-! ### Parts in their places -/

/-- A loop stands at its place in a program. -/
structure LoopSite.Stands (q : Program) (places : List Nat) (l : LoopSite) : Prop where
  body : l.loop.loopBody?.isSome
  closed : l.loop.closed false
  holds : q.Holds places none l.ip l.code

/-- A part of a text stands at its place in a program, inside of its loop. -/
structure Part.Stands (q : Program) (places : List Nat) (part : Part) (next ip : Nat)
    (site : Option LoopSite) : Prop where
  closed : part.closed site.isSome
  holds : q.Holds places (site.map LoopSite.exit) ip (part.code (site.map LoopSite.scopes) next).1
  site : ∀ l ∈ site, l.Stands q places ∧ l.ip ≤ ip ∧
    ip + (part.code (some l.scopes) next).1.length ≤ l.exit

namespace Part.Stands

variable {q : Program} {places : List Nat} {part inner : Part} {next next' ip ip' : Nat}
  {site : Option LoopSite}

/-- A part of a part, in the same loop. -/
theorem of_part (h : part.Stands q places next ip site)
    (hclosed : inner.closed site.isSome)
    (hholds : q.Holds places (site.map LoopSite.exit) ip'
      (inner.code (site.map LoopSite.scopes) next').1)
    (hstart : ip ≤ ip') (hstop : ip' + (inner.code (site.map LoopSite.scopes) next').1.length ≤
      ip + (part.code (site.map LoopSite.scopes) next).1.length) :
    inner.Stands q places next' ip' site where
  closed := hclosed
  holds := hholds
  site l hl := by
    cases hl
    obtain ⟨hloop, hip, hexit⟩ := h.site l rfl
    exact ⟨hloop, Nat.le_trans hip hstart, Nat.le_trans hstop hexit⟩

/-- The first one of some statements. -/
theorem first {keep : Bool} {s : Stat} {rest : List Stat}
    (h : (Part.body keep (s :: rest)).Stands q places next ip site) :
    s.closed site.isSome ∧
    q.Holds places (site.map LoopSite.exit) ip
      (s.code (site.map LoopSite.scopes) (keep && rest.isEmpty) next).1 ∧
    ip + (s.code (site.map LoopSite.scopes) (keep && rest.isEmpty) next).1.length ≤
      ip + ((Part.body keep (s :: rest)).code (site.map LoopSite.scopes) next).1.length := by
  have hclosed := h.closed
  have hholds := h.holds
  simp only [Part.closed, chunkClosed, Bool.and_eq_true] at hclosed
  rw [code_body_cons] at hholds ⊢
  refine ⟨hclosed.1, hholds.left, ?_⟩
  rw [List.length_append]
  omega

/-- A part of a part, one scope further in. -/
theorem of_block (h : part.Stands q places next ip site)
    (hclosed : inner.closed site.isSome)
    (hholds : q.Holds places (site.map LoopSite.exit) ip'
      (inner.code ((site.map LoopSite.scopes).map (· + 1)) next').1)
    (hstart : ip ≤ ip')
    (hstop : ip' + (inner.code ((site.map LoopSite.scopes).map (· + 1)) next').1.length ≤
      ip + (part.code (site.map LoopSite.scopes) next).1.length) :
    inner.Stands q places next' ip' (site.map LoopSite.inner) where
  closed := by rwa [Option.isSome_map]
  holds := by
    rw [Option.map_map] at hholds ⊢
    rw [Option.map_map]
    exact hholds
  site l hl := by
    obtain ⟨l, rfl, rfl⟩ := Option.map_eq_some_iff.1 hl
    obtain ⟨hloop, hip, hexit⟩ := h.site l rfl
    exact ⟨⟨hloop.body, hloop.closed, hloop.holds⟩, Nat.le_trans hip hstart,
      Nat.le_trans hstop hexit⟩

end Part.Stands

section

variable {p q : Program} {text : Chunk} {part : Part} {next ip : Nat} {site : Option LoopSite}

/-- **The code of every part of a text stands where the part is located**, also in a program that
goes on. -/
theorem Located.stands (h : Located p text part next ip site)
    (hq : ∀ (i : Nat) (op : Op), (p.extend text).1.code[i]? = some op → q.code[i]? = some op)
    (hclosed : chunkClosed false text) (hfunctions : ∀ f ∈ chunkFunctions text, f.closed) :
    part.Stands q (chunkPlaces p.size text) next ip site := by
  induction h with
  | text =>
    exact ⟨hclosed, (p.holds_extend_main text).mono hq, nofun⟩
  | @function f number place hf hplace =>
    have hholds := (p.holds_extend_function text hplace hf).mono hq
    refine ⟨hfunctions f (List.mem_of_getElem? hf), hholds.left.right.moved ?_, nofun⟩
    simp only [List.length_cons]
    omega
  | @tail keep s rest next ip site _ ih =>
    have hclosed := ih.closed
    have hholds := ih.holds
    simp only [Part.closed, chunkClosed, Bool.and_eq_true] at hclosed
    rw [code_body_cons] at hholds
    refine ih.of_part hclosed.2 hholds.right (Nat.le_add_right _ _) ?_
    rw [code_body_cons, List.length_append, Nat.add_assoc]
  | @block keep body rest next ip site _ ih =>
    obtain ⟨hclosed, hholds, hlength⟩ := ih.first
    simp only [Stat.code, Gen.fst_bind, Gen.fst_pure] at hholds hlength
    refine ih.of_block hclosed hholds.left.tail (Nat.le_succ _) (Nat.le_trans ?_ hlength)
    simp only [Part.code, inScope, List.length_append, List.length_cons]
    omega
  | @conditional keep position otherwise choices rest next ip site _ ih =>
    obtain ⟨hclosed, hholds, hlength⟩ := ih.first
    have hcode : (Stat.conditional position choices otherwise).code (site.map LoopSite.scopes)
        (keep && rest.isEmpty) =
        (Part.branches position otherwise choices).code (site.map LoopSite.scopes) := by
      cases otherwise <;> rfl
    rw [hcode] at hholds hlength
    refine ih.of_part ?_ hholds (Nat.le_refl _) hlength
    cases otherwise with
    | none => simpa [Stat.closed, Part.closed] using hclosed
    | some body => simpa [Stat.closed, Part.closed] using hclosed
  | @branch position otherwise condition body rest next ip site _ ih =>
    have hclosed := ih.closed
    have hholds := ih.holds
    simp only [Part.closed, branchesClosed, Bool.and_eq_true] at hclosed
    rw [code_branches_cons] at hholds
    refine ih.of_block hclosed.1.1 hholds.left.right.left.left.tail (by omega) ?_
    rw [code_branches_cons]
    simp only [Part.code, branchBlock, inScope, List.length_append, List.length_cons]
    omega
  | @others position otherwise condition body rest next ip site _ ih =>
    have hclosed := ih.closed
    have hholds := ih.holds
    simp only [Part.closed, branchesClosed, Bool.and_eq_true] at hclosed
    rw [code_branches_cons] at hholds
    refine ih.of_part ?_ (hholds.right.moved ?_) (by omega) ?_
    · rw [Part.closed, Bool.and_eq_true]
      exact ⟨hclosed.1.2, hclosed.2⟩
    · rw [List.length_append, Nat.add_assoc]
    · rw [code_branches_cons, List.length_append, List.length_append]
      omega
  | @otherwise position body next ip site _ ih =>
    have hcode : ((Part.branches position (some body) []).code (site.map LoopSite.scopes) next).1 =
        inScope position
          (chunkCode ((site.map LoopSite.scopes).map (· + 1)) false body next).1 := by
      simp only [Part.code, branchesCode, Setting.lastBranch, Gen.fst_bind, Gen.fst_pure]
    have hclosed := ih.closed
    have hholds := ih.holds
    simp only [Part.closed, branchesClosed, Option.all_some, Bool.true_and] at hclosed
    rw [hcode] at hholds
    refine ih.of_block hclosed hholds.left.tail (Nat.le_succ _) ?_
    rw [hcode]
    simp only [Part.code, inScope, List.length_append, List.length_cons]
    omega
  | @loop keep s body rest next ip site _ hbody ih =>
    obtain ⟨hclosed, hholds, -⟩ := ih.first
    obtain ⟨hinner, hlength⟩ := holds_loopBody hbody hholds
    rw [code_of_loopBody hbody] at hinner hlength hholds
    have hinside : chunkClosed true body := by
      cases s with
      | whileLoop | numericFor | genericFor | repeatLoop =>
        cases hbody
        exact hclosed
      | _ => cases hbody
    refine ⟨hinside, hinner, ?_⟩
    intro l hl
    cases hl
    refine ⟨⟨by rw [hbody]; rfl, ?_, hholds.of_not_leave (not_leave_loop hbody)⟩,
      Nat.le_add_right _ _, Nat.le_of_succ_le hlength⟩
    cases s with
    | whileLoop | numericFor | genericFor | repeatLoop => exact hclosed
    | _ => cases hbody

end

end ScriptEngine
