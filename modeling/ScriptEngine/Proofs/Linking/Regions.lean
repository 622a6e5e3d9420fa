import Mathlib.Data.List.Forall2
import ScriptEngine.Proofs.Linking.Jumps
import ScriptEngine.Proofs.Linking.Literals
import ScriptEngine.Proofs.Syntax.Parsed

/-!
# Regions of a linked program

A text that is loaded adds a region of code for each of its functions, and one for
itself behind them.  No instruction of a region leads out of it, and an instruction
that makes a function knows where the region of that function begins.

## Main definitions

* `Region` — the code of a function inside of a program.
* `Makes` — code makes the functions that stand directly in statements.
* `Program.LinkedFrom` — a program is another one and the regions of a text.

## Main results

* `Program.linkedFrom_extend` — loading a text whose loops are left inside of loops
  links its code.
* `Program.linkedFrom_of_parse` — loading any text does.
-/

namespace ScriptEngine

/-- The code of a function inside of a program, and where it begins. -/
structure Region where
  literal : FunctionLiteral
  start : Nat
  code : Code

/-- The instructions of a piece of code that make functions are, one after another,
those of the literals that stand directly in `body`.  Each makes a function that
begins where the region of its literal does. -/
def Makes (regions : List Region) (next : Nat) (body : Chunk) (code : Code) : Prop :=
  List.Forall₂
    (fun op m => ∃ r, regions[m.1]? = some r ∧ r.literal = m.2 ∧
      op = .withValue .push (.function r.start []) r.literal.position)
    (code.filter Op.makesFunction) (chunkMade next body)

/-- A program `q` is a program `p` and the linked code of a text behind it: a region for
each function of the text, in the order of their numbers, and the main region. -/
structure Program.LinkedFrom (p : Program) (chunk : Chunk) (q : Program)
    (regions : List Region) (main : Code) : Prop where
  code : q.code.toList = p.code.toList ++ (regions.map Region.code).flatten ++ main
  start : q.start = p.size + (regions.map Region.code).flatten.length
  literals : regions.map Region.literal = chunkFunctions chunk
  starts : ∀ (i : Nat) (r : Region), regions[i]? = some r →
    r.start = p.size + ((regions.take i).map Region.code).flatten.length
  compiled : ∀ (i : Nat) (r : Region), regions[i]? = some r →
    r.code = (r.literal.code i).map (Op.link (regions.map Region.start))
  first : ∀ r ∈ regions, r.code.head? =
    some (.counted .argumentCount r.literal.parameters.length r.literal.position)
  last : ∀ r ∈ regions, r.code.getLast? = some (.counted .ret 0 r.literal.position)
  resolved : ∀ op ∈ (regions.map Region.code).flatten ++ main, op.code ≠ .leave
  jumps : ∀ r ∈ regions, ∀ (i : Nat) (op : Op), r.code[i]? = some op → op.code.isJump →
    0 ≤ i + 1 + op.offset ∧ i + 1 + op.offset < r.code.length
  mainJumps : ∀ (i : Nat) (op : Op), main[i]? = some op → op.code.isJump →
    0 ≤ i + 1 + op.offset ∧ i + 1 + op.offset ≤ main.length
  makes : ∀ (i : Nat) (r : Region), regions[i]? = some r →
    Makes regions (i + 1) r.literal.body r.code
  mainMakes : Makes regions 0 chunk main

/-! ### Linking instructions -/

theorem Op.offset_link (places : List Nat) (op : Op) : (op.link places).offset = op.offset := by
  unfold Op.link
  split
  · next hoperand =>
    split
    · simp [Op.offset, hoperand]
    · rfl
  · rfl

theorem Op.makesFunction_link (places : List Nat) (op : Op) :
    (op.link places).makesFunction = op.makesFunction := by
  unfold Op.link
  split
  · next hcode hoperand =>
    split
    · simp [Op.makesFunction, hcode, hoperand]
    · rfl
  · rfl

theorem contained_link {inLoop : Bool} {before after : Nat} {code : Code} (places : List Nat)
    (h : Contained inLoop before after code) :
    Contained inLoop before after (code.map (Op.link places)) := by
  induction code generalizing before with
  | nil => trivial
  | cons op rest ih =>
    refine ⟨?_, ih h.2⟩
    rw [List.length_map]
    exact ⟨by rw [op.code_link, op.offset_link]; exact h.1.back,
      by rw [op.code_link, op.offset_link]; exact h.1.ahead,
      by rw [op.code_link]; exact h.1.leave⟩

theorem filter_map_link (places : List Nat) (code : Code) :
    (code.map (Op.link places)).filter Op.makesFunction = (makers code).map (Op.link places) := by
  rw [List.filter_map, makers]
  congr 2
  funext op
  exact op.makesFunction_link places

/-- Linking gives a function the place of its number. -/
theorem link_makeOp {places : List Nat} {m : Nat × FunctionLiteral} {place : Nat}
    (h : places[m.1]? = some place) :
    (makeOp m).link places = .withValue .push (.function place []) m.2.position := by
  simp [makeOp, Op.link, Op.withValue, h]

/-- Where an instruction of contained code lands. -/
theorem Contained.lands {inLoop : Bool} {before after i : Nat} {code : Code} {op : Op}
    (h : Contained inLoop before after code) (hop : code[i]? = some op) :
    op.Lands inLoop (before + i) (code.length - (i + 1) + after) := by
  induction code generalizing before i with
  | nil => cases hop
  | cons first rest ih =>
    cases i with
    | zero =>
      cases hop
      exact h.1.mono id (Nat.le_refl _) (by simp)
    | succ i =>
      rw [List.getElem?_cons_succ] at hop
      exact (ih h.2 hop).mono id (by omega) (by simp)

/-- Jumps of code that is contained in itself. -/
theorem Contained.jump {inLoop : Bool} {i : Nat} {code : Code} {op : Op}
    (h : Contained inLoop 0 0 code) (hop : code[i]? = some op) (hjump : op.code.isJump) :
    0 ≤ i + 1 + op.offset ∧ i + 1 + op.offset ≤ code.length := by
  have hi := (List.getElem?_eq_some_iff.1 hop).1
  have hback := (h.lands hop).back hjump
  have hahead := (h.lands hop).ahead hjump
  omega

theorem Contained.resolved {before after : Nat} {code : Code} {op : Op}
    (h : Contained false before after code) (hop : op ∈ code) : op.code ≠ .leave := by
  obtain ⟨i, hi⟩ := List.mem_iff_getElem?.1 hop
  exact fun hleave => Bool.false_ne_true ((h.lands hi).leave hleave)

/-! ### The regions of a text -/

/-- The regions of functions that are numbered from `number` on and whose code begins
at `start`. -/
def regionsFrom (places : List Nat) (start number : Nat) : List FunctionLiteral → List Region
  | [] => []
  | f :: rest =>
    ⟨f, start, (f.code number).map (Op.link places)⟩ ::
      regionsFrom places (start + (f.code number).length) (number + 1) rest

variable {places : List Nat} {start number : Nat} {fs : List FunctionLiteral}

theorem map_literal_regionsFrom : (regionsFrom places start number fs).map Region.literal = fs := by
  induction fs generalizing start number with
  | nil => rfl
  | cons f rest ih => simp [regionsFrom, ih]

theorem map_start_regionsFrom :
    (regionsFrom places start number fs).map Region.start =
      placesFrom start (functionCodes number fs) := by
  induction fs generalizing start number with
  | nil => rfl
  | cons f rest ih => simp [regionsFrom, functionCodes, placesFrom, ih]

theorem flatten_code_regionsFrom :
    ((regionsFrom places start number fs).map Region.code).flatten =
      (functionCodes number fs).flatten.map (Op.link places) := by
  induction fs generalizing start number with
  | nil => rfl
  | cons f rest ih => simp [regionsFrom, functionCodes, ih]

/-- The region of a number. -/
theorem getElem?_regionsFrom {i : Nat} {r : Region}
    (h : (regionsFrom places start number fs)[i]? = some r) :
    r.code = (r.literal.code (number + i)).map (Op.link places) ∧
      r.start =
        start + (((regionsFrom places start number fs).take i).map Region.code).flatten.length := by
  induction fs generalizing start number i with
  | nil => cases h
  | cons f rest ih =>
    cases i with
    | zero =>
      cases h
      exact ⟨rfl, rfl⟩
    | succ i =>
      rw [regionsFrom, List.getElem?_cons_succ] at h
      obtain ⟨hcode, hstart⟩ := ih h
      refine ⟨by rw [hcode, Nat.add_assoc, Nat.add_comm 1], ?_⟩
      rw [hstart, regionsFrom, List.take_succ_cons, List.map_cons, List.flatten_cons,
        List.length_append, List.length_map, Nat.add_assoc]

/-- Code makes what its statements say if their functions have got their regions. -/
theorem makes_of_makers {regions : List Region} {next : Nat} {body : Chunk} {code : Code}
    (hcode : makers code = (chunkMade next body).map makeOp)
    (hregions : ∀ m ∈ chunkMade next body, ∃ r, regions[m.1]? = some r ∧ r.literal = m.2) :
    Makes regions next body (code.map (Op.link (regions.map Region.start))) := by
  rw [Makes, filter_map_link, hcode]
  generalize chunkMade next body = made at hregions ⊢
  induction made with
  | nil => exact .nil
  | cons m rest ih =>
    obtain ⟨hm, hrest⟩ := List.forall_mem_cons.1 hregions
    obtain ⟨r, hr, hliteral⟩ := hm
    have hplace : (regions.map Region.start)[m.1]? = some r.start := by
      rw [List.getElem?_map, hr]
      rfl
    refine .cons ⟨r, hr, hliteral, ?_⟩ (ih hrest)
    rw [link_makeOp hplace, hliteral]

/-- The code of a function is contained, and no jump goes behind its last
instruction. -/
theorem contained_function {f : FunctionLiteral} (hf : f.closed) (number : Nat) :
    Contained false 0 0 (.counted .argumentCount f.parameters.length f.position ::
      bindLocals f.parameters ++ (chunkCode none false f.body (number + 1)).1) := by
  rw [contained_append, contained_cons]
  exact ⟨⟨lands_counted rfl, contained_bindLocals _⟩, enclosed_chunkCode f.body hf _ _⟩

theorem makers_function (f : FunctionLiteral) (number : Nat) :
    makers (f.code number) = (chunkMade (number + 1) f.body).map makeOp := by
  simp [FunctionLiteral.code, makers_chunkCode]

namespace Program

/-- **A text whose loops are left inside of loops is linked behind a program.** -/
theorem linkedFrom_extend (p : Program) {chunk : Chunk} (hclosed : chunkClosed false chunk)
    (hfunctions : ∀ f ∈ chunkFunctions chunk, f.closed) :
    ∃ regions main, p.LinkedFrom chunk (p.extend chunk).1 regions main := by
  let places := chunkPlaces p.size chunk
  let regions := regionsFrom places p.size 0 (chunkFunctions chunk)
  have hplaces : regions.map Region.start = places := map_start_regionsFrom
  have hcodes : (regions.map Region.code).flatten =
      (functionCodes 0 (chunkFunctions chunk)).flatten.map (Op.link places) :=
    flatten_code_regionsFrom
  have hliterals : regions.map Region.literal = chunkFunctions chunk := map_literal_regionsFrom
  -- Whatever has a number has a region.
  have hregion : ∀ {i : Nat} {f : FunctionLiteral}, (chunkFunctions chunk)[i]? = some f →
      ∃ r, regions[i]? = some r ∧ r.literal = f := by
    intro i f hf
    rw [← hliterals, List.getElem?_map, Option.map_eq_some_iff] at hf
    exact hf
  have hclosed' : ∀ r ∈ regions, r.literal.closed := by
    intro r hr
    refine hfunctions _ ?_
    rw [← hliterals]
    exact List.mem_map_of_mem hr
  -- The code of a region up to the instruction that returns.
  have hbody : ∀ r ∈ regions, ∃ body, Contained false 0 0 body ∧
      r.code = body ++ [.counted .ret 0 r.literal.position] ∧ body.head? =
        some (.counted .argumentCount r.literal.parameters.length r.literal.position) := by
    intro r hr
    obtain ⟨i, hi⟩ := List.mem_iff_getElem?.1 hr
    have hcode := (getElem?_regionsFrom hi).1
    rw [FunctionLiteral.code, List.map_append] at hcode
    exact ⟨_, contained_link places (contained_function (hclosed' r hr) _), hcode, rfl⟩
  have hmain : Contained false 0 0 ((chunkCode none true chunk 0).1.map (Op.link places)) :=
    contained_link places (enclosed_chunkCode chunk hclosed _ _)
  refine ⟨regions, (chunkCode none true chunk 0).1.map (Op.link places), ?_⟩
  exact
    { code := by rw [code_extend, added, List.map_append, hcodes, List.append_assoc]
      start := by rw [start_extend, hcodes, List.length_map]
      literals := hliterals
      starts := fun i r hr => (getElem?_regionsFrom hr).2
      compiled := by
        intro i r hr
        rw [hplaces, (getElem?_regionsFrom hr).1, Nat.zero_add]
      first := by
        intro r hr
        obtain ⟨body, -, hcode, hhead⟩ := hbody r hr
        rw [hcode, List.head?_append, hhead]
        rfl
      last := by
        intro r hr
        obtain ⟨body, -, hcode, -⟩ := hbody r hr
        rw [hcode, List.getLast?_append]
        rfl
      resolved := by
        intro op hop
        rcases List.mem_append.1 hop with hop | hop
        · obtain ⟨code, hmem, hop⟩ := List.mem_flatten.1 hop
          obtain ⟨r, hr, rfl⟩ := List.mem_map.1 hmem
          obtain ⟨body, hcontained, hcode, -⟩ := hbody r hr
          rw [hcode, List.mem_append, List.mem_singleton] at hop
          rcases hop with hop | rfl
          · exact hcontained.resolved hop
          · rintro ⟨⟩
        · exact hmain.resolved hop
      jumps := by
        intro r hr i op hop hjump
        obtain ⟨body, hcontained, hcode, -⟩ := hbody r hr
        have hlength : r.code.length = body.length + 1 := by simp [hcode]
        rw [hcode] at hop
        rcases Nat.lt_or_ge i body.length with hi | hi
        · rw [List.getElem?_append_left hi] at hop
          have := hcontained.jump hop hjump
          omega
        · rw [List.getElem?_append_right hi] at hop
          rw [List.mem_singleton.1 (List.mem_of_getElem? hop)] at hjump
          cases hjump
      mainJumps := fun i op hop hjump => hmain.jump hop hjump
      makes := by
        intro i r hr
        obtain ⟨hcode, -⟩ := getElem?_regionsFrom hr
        rw [hcode, ← hplaces, Nat.zero_add]
        refine makes_of_makers (makers_function _ _) fun m hm => ?_
        obtain ⟨k, hk, hget⟩ := numberedIn_chunk _ _ m hm
        have hliteral : (chunkFunctions chunk)[i]? = some r.literal := by
          rw [← hliterals, List.getElem?_map, hr]
          rfl
        rw [hk]
        exact hregion (nested_chunkFunctions chunk i _ hliteral k _ hget)
      mainMakes := by
        rw [← hplaces]
        refine makes_of_makers (makers_chunkCode none true chunk 0) fun m hm => ?_
        obtain ⟨k, hk, hget⟩ := numberedIn_chunk _ _ m hm
        rw [hk, Nat.zero_add]
        exact hregion hget }

/-- **Compiled code is well linked.**  Whatever text is put behind whatever program, as
it is written or folded, the program goes on with a region for each function of the
text and the region of the text itself. -/
theorem linkedFrom_of_parse {source : String} {chunk : Chunk} (h : parse source = .ok chunk)
    (folded : Bool) (p : Program) :
    ∃ regions main, p.LinkedFrom (if folded then optimize chunk else chunk)
      (p.extend (if folded then optimize chunk else chunk)).1 regions main := by
  have hformed : chunkFormed false (if folded then optimize chunk else chunk) := by
    have hparsed := chunkFormed_of_parse h
    cases folded with
    | false => exact hparsed
    | true => exact chunkFormed_optimize hparsed
  exact p.linkedFrom_extend (chunkClosed_of_formed _ hformed) fun f hf =>
    closed_of_mem_chunkFunctions hformed hf

/-- A loop that is left from inside of a branch, with a function inside of a function
in its body, has two regions and the main one. -/
theorem linkedFrom_of_parse_loop :
    ∃ chunk, parse "while a do f = function(x) return function() end end if f then break end end" =
        .ok chunk ∧ (chunkFunctions chunk).length = 2 ∧
      ∃ regions main,
        Program.empty.LinkedFrom chunk (Program.empty.extend chunk).1 regions main := by
  have hcount : ((parse
      "while a do f = function(x) return function() end end if f then break end end").map
        fun chunk => (chunkFunctions chunk).length).toOption = some 2 := by
    decide +kernel
  cases hchunk : parse
      "while a do f = function(x) return function() end end if f then break end end" with
  | error e =>
    rw [hchunk] at hcount
    cases hcount
  | ok chunk =>
    rw [hchunk] at hcount
    exact ⟨chunk, rfl, Option.some.inj hcount, linkedFrom_of_parse hchunk false .empty⟩

end Program

end ScriptEngine
