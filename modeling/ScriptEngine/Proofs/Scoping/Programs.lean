import ScriptEngine.Proofs.Safety.Programs
import ScriptEngine.Proofs.Scoping.Blocks

/-!
# Programs in blocks

At every place of a program it is known which function the code belongs to and which of
its blocks are open, however control got there.

## Main definitions

* `Site` — the function and the open blocks of a place.
* `Program.Sited` — a program whose places are known.

## Main results

* `laidOut_chunkCode` — the code of statements is laid out in blocks.
* `Program.exists_sited_extend` — the places of a program stay known when a text is added
  to it.
-/

namespace ScriptEngine

/-! ### Statements -/

/-- The blocks that are open at the instructions of a break. -/
def leaveLabels : Nat → List Nat → List (List Nat)
  | 0, opened => [opened]
  | n + 1, opened => opened :: leaveLabels n opened.tail

theorem laidOut_leaveCode {opened : List Nat} {start n : Nat} (position : Position)
    (hn : n ≤ opened.length) :
    LaidOut (some (opened.drop n)) opened start (leaveCode (some n) position) := by
  have hwithin (n : Nat) (blocks : List Nat) (start : Nat) :
      Along (fun _ blocks op => op.code = .makeLocal → opened <:+ blocks) start
        (leaveLabels n blocks) (leaveCode (some n) position) := by
    induction n generalizing blocks start with
    | zero => exact ⟨nofun, trivial⟩
    | succ n ih => exact ⟨nofun, ih _ _⟩
  have hfirst (n : Nat) (blocks : List Nat) : (leaveLabels n blocks)[0]? = some blocks := by
    cases n <;> rfl
  refine ⟨leaveLabels n opened, hwithin n opened start, by cases n <;> rfl, fun hshows hend => ?_⟩
  clear hwithin hend
  induction n generalizing opened start with
  | zero =>
    refine ⟨⟨fun target hflow => ?_, nofun, fun _ => rfl, nofun⟩, trivial⟩
    cases hflow with
    | next _ _ hleave => exact absurd rfl hleave
    | jump hjump => cases hjump
  | succ n ih =>
    have hrest := ih (by rw [List.length_tail]; omega) hshows.2
    rw [List.drop_tail] at hrest
    refine ⟨⟨fun target hflow => ?_, fun _ => ?_, nofun, nofun⟩, hrest⟩
    · cases hflow with
      | next =>
        obtain ⟨op, -, hshown⟩ := hshows.2.get (hfirst n opened.tail)
        exact hshown.1
      | jump hjump => cases hjump
    · rintro rfl
      cases hn

/-- The blocks in which a loop is left, `scopes` blocks being open inside of it. -/
abbrev exitBlocks (scopes : Option Nat) (opened : List Nat) : Option (List Nat) :=
  scopes.map opened.drop

section Inside

variable {scopes : Option Nat} {opened : List Nat} {start : Nat}

theorem length_inside (h : ∀ n, scopes = some n → n ≤ opened.length) :
    ∀ n, scopes.map (· + 1) = some n → n ≤ (start :: opened).length := by
  intro n hn
  obtain ⟨k, hk, rfl⟩ := Option.map_eq_some_iff.1 hn
  exact Nat.succ_le_succ (h k hk)

theorem lt_inside (h : ∀ b ∈ opened, b < start) : ∀ b ∈ start :: opened, b < start + 1 :=
  List.forall_mem_cons.2 ⟨Nat.lt_succ_self _, fun b hb => Nat.lt_succ_of_lt (h b hb)⟩

/-- A block inside of a loop, or outside of all. -/
theorem laidOut_block {code : Code} {position : Position}
    (h : LaidOut (exitBlocks (scopes.map (· + 1)) (start :: opened)) (start :: opened) (start + 1)
      code) : LaidOut (exitBlocks scopes opened) opened start (inScope position code) := by
  rw [exitBlocks, Option.map_map] at h
  exact h.inScope

end Inside

attribute [local simp] OpCode.straight OpCode.proceeds OpCode.isJump

section Loops

variable {exit : Option (List Nat)} {opened : List Nat} {place : Nat} {position : Position}
  {body : Code}

theorem laidOut_whileLoop {test : Code}
    (htest : Level false (fun k => k = 0 ∨ k = (inScope position body).length + 1) test)
    (hbody : ∀ {block start : Nat}, (∀ b ∈ block :: opened, b < start) →
      LaidOut (some opened) (block :: opened) start body)
    (hopened : ∀ b ∈ opened, b < place) :
    LaidOut exit opened place (resolveBreaks 0
      (test ++ inScope position body ++ [jumpBack position (test ++ inScope position body)])) := by
  have hlt : ∀ b ∈ opened, b < place + test.length := fun b hb => Nat.lt_add_right _ (hopened b hb)
  have hloop : LaidOut exit opened place _ :=
    laidOut_loop [] [] position position (.inl rfl) htest (fun _ _ => level_nil)
      (fun _ _ => level_nil) (hbody (lt_inside hlt)) hopened
  simp only [List.append_nil] at hloop
  exact hloop

theorem laidOut_repeatLoop {test : Code} {position' : Position} (htest : Straight false test)
    (hbody : ∀ {block start : Nat}, (∀ b ∈ block :: opened, b < start) →
      LaidOut (some opened) (block :: opened) start body)
    (hopened : ∀ b ∈ opened, b < place) :
    LaidOut exit opened place (resolveBreaks 0 (inScope position (body ++ test) ++
      [.jumping .jumpIfNot (-((inScope position (body ++ test)).length + 1 : Nat))
        position'])) := by
  have hpass : LaidOut (some opened) (place :: opened) (place + 1) (body ++ test) :=
    (hbody (lt_inside hopened)).append (laidOut_straight false htest)
  have hloop : LaidOut exit opened place _ :=
    laidOut_loop [] [] position position' (.inr rfl) level_nil (fun _ _ => level_nil)
      (fun _ _ => level_nil) hpass hopened
  simp only [List.append_nil, List.nil_append] at hloop
  exact hloop

/-- The code of a loop that counts. -/
theorem laidOut_countingLoop {name : String} {start stop step : Code}
    (hstart : Straight false start) (hstop : Straight false stop) (hstep : Straight false step)
    (hbody : ∀ {block start : Nat}, (∀ b ∈ block :: opened, b < start) →
      LaidOut (some opened) (block :: opened) start body)
    (hopened : ∀ b ∈ opened, b < place) :
    LaidOut exit opened place (countingLoop position name start stop step body) := by
  refine LaidOut.append (laidOut_straight false hstart) ?_
  generalize hwhere : place + start.length = place'
  have hlt : ∀ b ∈ opened, b < place' := fun b hb => hwhere ▸ Nat.lt_add_right _ (hopened b hb)
  let pass : Code := .plain .dup position :: bindLocal name position ++ body
  let head : Code := .plain .dup position :: stop
    ++ [.plain (.binary (.compare .notEquals)) position,
      .jumping .jumpIfNot ((inScope position pass).length + step.length + 2 : Nat) position]
  have hhead : Level false (fun k => k = 0 ∨ k = (inScope position pass).length +
      (step ++ [.plain (.binary (.arith .add)) position] : Code).length + 1) head := by
    rw [level_append, level_cons_plain rfl, level_cons_plain rfl, level_cons_jumping rfl]
    refine ⟨hstop _ (.inl (by simp)), .inr (.inr ?_), trivial⟩
    simp only [List.length_append, List.length_singleton, List.length_nil]
    omega
  have hpass : LaidOut (some opened) ((place' + head.length) :: opened)
      (place' + head.length + 1) pass := by
    refine LaidOut.append (laidOut_straight true ?_) (hbody fun b hb => ?_)
    · exact fun _ _ => by simp [bindLocal]
    · exact Nat.lt_add_right _ (lt_inside (fun b hb => Nat.lt_add_right _ (hlt b hb)) b hb)
  have hloop : LaidOut exit opened place' _ :=
    laidOut_loop _ [.plain .pop position] position position (.inl rfl) hhead
      (hstep.append fun _ _ => by simp) (fun _ _ => by simp) hpass hlt
  rw [List.append_assoc _ _ [Op.plain .pop position]] at hloop
  simp only [head, List.append_assoc] at hloop
  simp only [List.append_assoc]
  exact hloop

/-- The code of a loop over an iterator. -/
theorem laidOut_iteratorLoop {names : List Identifier} {iterators : Code}
    (hiterators : Straight false iterators)
    (hbody : ∀ {block start : Nat}, (∀ b ∈ block :: opened, b < start) →
      LaidOut (some opened) (block :: opened) start body)
    (hopened : ∀ b ∈ opened, b < place) :
    LaidOut exit opened place (iteratorLoop position names iterators body) := by
  refine LaidOut.append ?_ ?_
  · refine laidOut_straight false (Straight.append (fun far hfar => ?_) fun _ _ => by simp)
    exact (level_cons_plain rfl).2 (hiterators far hfar)
  generalize hwhere : place + _ = place'
  have hlt : ∀ b ∈ opened, b < place' := fun b hb => hwhere ▸ Nat.lt_add_right _ (hopened b hb)
  let pass : Code := bindLocals names ++ body
  let head : Code := [.plain .assignPush position, .plain .iterNext position,
    .jumping .iterJumpIfDone ((inScope position pass).length + 3 : Nat) position,
    .counted .assignSet names.length position, .counted .iterUpdateState names.length position]
  have hhead : Level false
      (fun k => k = 0 ∨ k = (inScope position pass).length + ([] : Code).length + 1) head := by
    rw [level_cons_plain rfl, level_cons_plain rfl, level_cons_jumping rfl]
    refine ⟨.inr (.inr ?_), by simp⟩
    simp only [List.length_cons, List.length_nil]
    omega
  have hpass : LaidOut (some opened) ((place' + head.length) :: opened)
      (place' + head.length + 1) pass := by
    refine LaidOut.append (laidOut_straight true (straight_bindLocals names)) (hbody fun b hb => ?_)
    exact Nat.lt_add_right _ (lt_inside (fun b hb => Nat.lt_add_right _ (hlt b hb)) b hb)
  have hloop : LaidOut exit opened place' _ :=
    laidOut_loop [] [.counted .pop 3 position] position position (.inl rfl) hhead
      (fun _ _ => level_nil) (fun _ _ => by simp) hpass hlt
  simp only [List.append_nil, List.append_assoc] at hloop
  exact hloop

end Loops

mutual

theorem laidOut_branchesCode {scopes : Option Nat} {position : Position} {opened : List Nat}
    {last : Gen Code} (hscopes : ∀ n, scopes = some n → n ≤ opened.length)
    (hlast : ∀ {next start : Nat}, (∀ b ∈ opened, b < start) →
      LaidOut (exitBlocks scopes opened) opened start (last next).1) :
    ∀ (branches : List (Expr × List Stat)), branchesClosed scopes.isSome branches →
      ∀ {next start : Nat}, (∀ b ∈ opened, b < start) →
        LaidOut (exitBlocks scopes opened) opened start
          (branchesCode scopes position last branches next).1
  | [], _, _, _, hopened => hlast hopened
  | (condition, body) :: rest, h, next, start, hopened => by
    simp only [branchesClosed, Bool.and_eq_true] at h
    simp only [branchesCode, Gen.fst_bind, Gen.fst_pure]
    have hlt (n : Nat) : ∀ b ∈ opened, b < start + n :=
      fun b hb => Nat.lt_add_right _ (hopened b hb)
    have hclosed : chunkClosed (scopes.map (· + 1)).isSome body := by
      rw [Option.isSome_map]
      exact h.1
    split
    · rw [List.append_nil]
      refine laidOut_test condition.level_condition ?_ ?_
      · exact laidOut_block
          (laidOut_chunkCode body (length_inside hscopes) hclosed (lt_inside (hlt _)))
      · rw [Nat.add_assoc]
        exact laidOut_branchesCode hscopes hlast rest h.2 (hlt _)
    · have hlength : ∀ (code : Code) (op : Op), (code ++ [op]).length = code.length + 1 := by simp
      rw [hlength]
      refine laidOut_choice condition.level_condition ?_ ?_
      · exact laidOut_block
          (laidOut_chunkCode body (length_inside hscopes) hclosed (lt_inside (hlt _)))
      · rw [Nat.add_assoc, Nat.add_assoc]
        exact laidOut_branchesCode hscopes hlast rest h.2 (hlt _)

/-- **The code of a statement is laid out in blocks.** -/
theorem Stat.laidOut_code : ∀ (s : Stat) {scopes : Option Nat} {keep : Bool} {opened : List Nat},
    (∀ n, scopes = some n → n ≤ opened.length) → s.closed scopes.isSome →
    ∀ {next start : Nat}, (∀ b ∈ opened, b < start) →
      LaidOut (exitBlocks scopes opened) opened start (s.code scopes keep next).1
  | .expression e, _, keep, _, _, _, _, _, _ => by
    cases e with
    | call position callee arguments =>
      simp only [Stat.code, Gen.fst_bind, Gen.fst_pure]
      exact laidOut_straight false
        (straight_callCode (straight_valuesCode arguments) callee.straight_code)
    | _ =>
      simp only [Stat.code, Gen.fst_bind, Gen.fst_pure]
      refine laidOut_straight false ?_
      cases keep
      · exact (Expr.straight_code _).append fun _ _ => by simp
      · exact Expr.straight_code _
  | .assignment _ isLocal targets values, _, _, _, _, _, _, _, _ => by
    simp only [Stat.code, Gen.fst_bind, Gen.fst_pure]
    refine laidOut_straight isLocal (Straight.append ?_ (straight_storesCode isLocal targets))
    have hvalues {next : Nat} : Straight isLocal (valuesCode values next).1 :=
      (straight_valuesCode values).of_not_declaring
    split
    · exact hvalues
    · exact Straight.append (fun far hfar => (level_cons_plain rfl).2 (hvalues far hfar))
        fun _ _ => by simp
  | .declaration names, _, _, _, _, _, _, _, _ => by
    rw [Stat.code]
    exact laidOut_straight true (straight_declarations names)
  | .localFunction name function, _, _, _, _, _, _, _, _ => by
    simp only [Stat.code, Gen.fst_bind, Gen.fst_pure]
    refine laidOut_straight true (Straight.append (fun far hfar => ?_) fun _ _ => by simp)
    exact (level_cons_named rfl).2 (function.straight_code.of_not_declaring far hfar)
  | .conditional _ branches none, _, _, _, hscopes, h, _, _, hopened => by
    rw [Stat.code]
    refine laidOut_branchesCode hscopes (fun _ => ?_) branches h hopened
    exact laidOut_straight true fun _ _ => level_nil
  | .conditional _ branches (some body), scopes, _, _, hscopes, h, _, _, hopened => by
    simp only [Stat.closed, Bool.and_eq_true] at h
    rw [Stat.code]
    refine laidOut_branchesCode hscopes (fun hopened => ?_) branches h.1 hopened
    simp only [Gen.fst_bind, Gen.fst_pure]
    exact laidOut_block (laidOut_chunkCode body (length_inside hscopes)
      (by rw [Option.isSome_map]; exact h.2) (lt_inside hopened))
  | .whileLoop position condition body, _, _, opened, _, h, _, _, hopened => by
    simp only [Stat.code, Gen.fst_bind, Gen.fst_pure]
    refine laidOut_whileLoop condition.level_condition (fun hlt => ?_) hopened
    exact @laidOut_chunkCode body (some 1) false _ (fun n hn => by cases hn; simp) h _ _ hlt
  | .numericFor counter first stop none body, _, _, _, _, h, _, _, hopened => by
    simp only [Stat.code, Gen.fst_bind, Gen.fst_pure]
    refine laidOut_countingLoop first.straight_code stop.straight_code (fun _ _ => by simp)
      (fun hlt => ?_) hopened
    exact @laidOut_chunkCode body (some 1) false _ (fun n hn => by cases hn; simp) h _ _ hlt
  | .numericFor counter first stop (some step) body, _, _, _, _, h, _, _, hopened => by
    simp only [Stat.code, Gen.fst_bind, Gen.fst_pure]
    refine laidOut_countingLoop first.straight_code stop.straight_code step.straight_code
      (fun hlt => ?_) hopened
    exact @laidOut_chunkCode body (some 1) false _ (fun n hn => by cases hn; simp) h _ _ hlt
  | .genericFor position names iterators body, _, _, _, _, h, _, _, hopened => by
    simp only [Stat.code, Gen.fst_bind, Gen.fst_pure]
    refine laidOut_iteratorLoop (straight_valuesCode iterators) (fun hlt => ?_) hopened
    exact @laidOut_chunkCode body (some 1) false _ (fun n hn => by cases hn; simp) h _ _ hlt
  | .repeatLoop position body condition, _, _, _, _, h, _, _, hopened => by
    simp only [Stat.code, Gen.fst_bind, Gen.fst_pure]
    refine laidOut_repeatLoop condition.straight_code (fun hlt => ?_) hopened
    exact @laidOut_chunkCode body (some 1) false _ (fun n hn => by cases hn; simp) h _ _ hlt
  | .block body, _, _, _, hscopes, h, _, _, hopened => by
    simp only [Stat.code, Gen.fst_bind, Gen.fst_pure]
    exact laidOut_block (laidOut_chunkCode body (length_inside hscopes)
      (by rw [Option.isSome_map]; exact h) (lt_inside hopened))
  | .result position values, _, _, _, hscopes, _, _, _, _ => by
    simp only [Stat.code, Gen.fst_bind, Gen.fst_pure]
    refine laidOut_straight false ?_
    have hvalues {next : Nat} : Straight false (valuesCode values next).1 :=
      straight_valuesCode values
    split
    · exact Straight.append (fun far hfar => (level_cons_plain rfl).2 (hvalues far hfar))
        fun _ _ => by simp
    · exact hvalues.append fun _ _ => by simp
  | .leave position, scopes, _, _, hscopes, h, _, _, _ => by
    rw [Stat.code, Gen.fst_pure]
    cases scopes with
    | none => cases h
    | some n => exact laidOut_leaveCode position (hscopes n rfl)

theorem laidOut_chunkCode : ∀ (body : List Stat) {scopes : Option Nat} {keep : Bool}
    {opened : List Nat}, (∀ n, scopes = some n → n ≤ opened.length) →
    chunkClosed scopes.isSome body → ∀ {next start : Nat}, (∀ b ∈ opened, b < start) →
      LaidOut (exitBlocks scopes opened) opened start (chunkCode scopes keep body next).1
  | [], _, _, _, _, _, _, _, _ => laidOut_straight true fun _ _ => trivial
  | s :: rest, _, _, _, hscopes, h, _, _, hopened => by
    simp only [chunkClosed, Bool.and_eq_true] at h
    simp only [chunkCode, Gen.fst_bind, Gen.fst_pure]
    refine (s.laidOut_code hscopes h.1 hopened).append (laidOut_chunkCode rest hscopes h.2 ?_)
    exact fun b hb => Nat.lt_add_right _ (hopened b hb)

end

/-! ### Programs -/

section Linking

variable {opens opens' : Nat → List Nat → Prop} {declares declares' : Nat → Prop}
  {exit : Option (List Nat)} {ip : Nat} {blocks : List Nat} {op : Op}

/-- What an instruction fits depends on its code and its distance only. -/
theorem Op.Fits.congr {op' : Op} (h : op.Fits opens declares exit ip blocks)
    (hcode : op'.code = op.code) (hoffset : op'.offset = op.offset) :
    op'.Fits opens declares exit ip blocks where
  flow := by
    intro target hflow
    have hblocks : op'.blocks ip blocks = op.blocks ip blocks := by rw [Op.blocks, Op.blocks, hcode]
    rw [hblocks]
    refine h.flow target ?_
    cases hflow with
    | next hjump hret hleave => exact .next (hcode ▸ hjump) (hcode ▸ hret) (hcode ▸ hleave)
    | jump hjump htarget => exact .jump (hcode ▸ hjump) (hoffset ▸ htarget)
  close hend := h.close (hcode ▸ hend)
  leave hleave := h.leave (hcode ▸ hleave)
  loop hjump target htarget := h.loop (hcode ▸ hjump) target (hoffset ▸ htarget)

/-- More places may become known, and fewer declare variables. -/
theorem Op.Fits.mono (h : op.Fits opens declares exit ip blocks)
    (hopens : ∀ place blocks, opens place blocks → opens' place blocks)
    (hdeclares : ∀ place, place ≤ ip → declares' place → declares place) :
    op.Fits opens' declares' exit ip blocks where
  flow target hflow := hopens _ _ (h.flow target hflow)
  close := h.close
  leave := h.leave
  loop := by
    intro hjump target htarget hback
    obtain ⟨block, hfirst, hlast, hblock, hopen, hcover⟩ := h.loop hjump target htarget hback
    refine ⟨block, hfirst, hlast, hblock, hopens _ _ hopen,
      fun place hplace hplace' hdeclared => ?_⟩
    obtain ⟨inner, hinner, hmem⟩ := hcover place hplace hplace' (hdeclares place hplace' hdeclared)
    exact ⟨inner, hopens _ _ hinner, hmem⟩

theorem Along.map_iff {P : Nat → List Nat → Op → Prop} {labels : List (List Nat)} {code : Code}
    (g : Op → Op) :
    Along P ip labels (code.map g) ↔
      Along (fun place blocks op => P place blocks (g op)) ip labels code := by
  induction code generalizing ip labels with
  | nil => cases labels <;> rfl
  | cons op rest ih =>
    cases labels with
    | nil => rfl
    | cons blocks labels => exact and_congr_right fun _ => ih

theorem Along.of_get {P : Nat → List Nat → Op → Prop} {labels : List (List Nat)} {code : Code}
    (hlength : labels.length = code.length)
    (h : ∀ i blocks op, labels[i]? = some blocks → code[i]? = some op → P (ip + i) blocks op) :
    Along P ip labels code := by
  induction code generalizing ip labels with
  | nil =>
    rw [List.length_eq_zero_iff.1 hlength]
    trivial
  | cons op rest ih =>
    cases labels with
    | nil => cases hlength
    | cons blocks labels =>
      refine ⟨h 0 blocks op rfl rfl, ih (Nat.succ.inj hlength) fun i blocks' op' hblocks hop => ?_⟩
      have hP := h (i + 1) blocks' op' hblocks hop
      rwa [Nat.add_comm i, ← Nat.add_assoc] at hP

/-- Linked code is laid out as before. -/
theorem Layout.link {far : Nat → Prop} {opened : List Nat} {start : Nat} {code : Code}
    {labels : List (List Nat)} (h : Layout exit far opened start code labels) (places : List Nat) :
    Layout exit far opened start (code.map (Op.link places)) labels where
  within := by
    rw [Along.map_iff]
    exact h.within.imp fun _ _ op hlocal hcode => hlocal (op.code_link places ▸ hcode)
  first := h.first
  laid := by
    intro opens declares hshows hopens
    rw [List.length_map] at hopens
    rw [Along.map_iff] at hshows ⊢
    have hshows' : Along (Op.Shows opens declares) start labels code :=
      hshows.imp fun _ _ op hshown =>
        ⟨hshown.1, fun hdeclares => op.code_link places ▸ hshown.2 hdeclares⟩
    exact (h.laid hshows' hopens).imp fun _ _ op hfits =>
      hfits.congr (op.code_link places) (op.offset_link places)

end Linking

/-- The blocks of the code of a function: none are open at its beginning, and no way leads
out of it but by returning. -/
structure Enclosure (start : Nat) (code : Code) (labels : List (List Nat)) : Prop where
  length_eq : labels.length = code.length
  first : labels.head? = some []
  fits : ∀ {opens : Nat → List Nat → Prop} {declares : Nat → Prop},
    Along (Op.Shows opens declares) start labels code →
    Along (Op.Fits opens declares none) start labels code

theorem exists_enclosure {f : FunctionLiteral} (hf : f.closed) (start number : Nat)
    (places : List Nat) :
    ∃ labels, Enclosure start ((f.code number).map (Op.link places)) labels := by
  have hinner := @laidOut_chunkCode f.body none false [] nofun hf (number + 1)
    (start + (.counted .argumentCount f.parameters.length f.position ::
      bindLocals f.parameters : Code).length) nofun
  have hparameters :
      LaidOut none [] start (.counted .argumentCount f.parameters.length f.position ::
      bindLocals f.parameters) :=
    laidOut_straight true fun far hfar =>
      (level_cons_counted rfl).2 (straight_bindLocals _ far hfar)
  obtain ⟨labels, hbody⟩ := hparameters.append hinner
  replace hbody := hbody.link places
  rw [FunctionLiteral.code, List.map_append]
  refine ⟨labels ++ [[]], ?_, ?_, fun hshows => ?_⟩
  · rw [List.length_append, List.length_append, hbody.length_eq]
    rfl
  · cases labels with
    | nil => rfl
    | cons blocks labels => exact congrArg some hbody.first
  · rw [Along.append_iff hbody.length_eq] at hshows ⊢
    obtain ⟨hshown, hend, -⟩ := hshows
    refine ⟨hbody.laid hshown fun k hk => hk ▸ hend.1,
      ⟨fun target hflow => ?_, nofun, nofun, nofun⟩, trivial⟩
    cases hflow with
    | next _ hret => exact absurd rfl hret
    | jump hjump => cases hjump

/-- What is known about a place of a program: where the function begins whose code is there,
unless it is that of the text loaded last, and the blocks that are open. -/
structure Site where
  function : Option Nat
  blocks : List Nat
deriving DecidableEq, Repr

namespace Program

/-- A variable is declared at a place. -/
def Declares (p : Program) (place : Nat) : Prop :=
  ∃ op, p.code[place]? = some op ∧ op.code = .makeLocal

/-- A program in blocks.  Code that is not run any more, that of texts loaded earlier, has no
sites. -/
structure Sited (p : Program) (site : Nat → Option Site) : Prop where
  start : site p.start = some ⟨none, []⟩
  finish : site p.size = some ⟨none, []⟩
  main : ∀ {ip : Nat} {here : Site}, site ip = some here → (here.function = none ↔ p.start ≤ ip)
  entry : ∀ op ∈ p.code.toList, op.code = .push → ∀ entry captured,
    op.pushed = .function entry captured → site entry = some ⟨some entry, []⟩
  fits : ∀ {ip : Nat} {op : Op} {here : Site}, p.code[ip]? = some op → site ip = some here →
    op.Fits (fun place blocks => site place = some ⟨here.function, blocks⟩) p.Declares none ip
      here.blocks

theorem sited_empty : Sited empty fun ip => if ip = 0 then some ⟨none, []⟩ else none where
  start := rfl
  finish := rfl
  main := by
    intro ip here h
    split at h
    · cases h
      exact iff_of_true rfl (Nat.zero_le _)
    · cases h
  entry _ hop := absurd hop List.not_mem_nil
  fits hop := by cases hop

/-- Instructions from `start` on fit their sites. -/
def FitAll (site : Nat → Option Site) (declares : Nat → Prop) (start : Nat) (code : Code)
    (sites : List Site) : Prop :=
  ∀ (i : Nat) (op : Op) (here : Site), code[i]? = some op → sites[i]? = some here →
    op.Fits (fun place blocks => site place = some ⟨here.function, blocks⟩) declares none
      (start + i) here.blocks

/-- Sites from `start` on, and the variables that are declared there. -/
structure SitesAt (site : Nat → Option Site) (declares : Nat → Prop) (start : Nat) (code : Code)
    (sites : List Site) : Prop where
  length_eq : sites.length = code.length
  site : ∀ (i : Nat) (here : Site), sites[i]? = some here → site (start + i) = some here
  declares : ∀ (i : Nat) (op : Op), code[i]? = some op → declares (start + i) →
    op.code = .makeLocal

theorem SitesAt.append {site : Nat → Option Site} {declares : Nat → Prop} {start : Nat}
    {code code' : Code} {sites sites' : List Site} (hlength : sites.length = code.length)
    (h : SitesAt site declares start (code ++ code') (sites ++ sites')) :
    SitesAt site declares start code sites ∧
      SitesAt site declares (start + code.length) code' sites' := by
  have hlength' := h.length_eq
  rw [List.length_append, List.length_append, hlength, Nat.add_left_cancel_iff] at hlength'
  refine ⟨⟨hlength, fun i here hi => ?_, fun i op hop => ?_⟩,
    ⟨hlength', fun i here hi => ?_, fun i op hop => ?_⟩⟩
  · refine h.site i here ?_
    rwa [List.getElem?_append_left (List.getElem?_eq_some_iff.1 hi).1]
  · refine h.declares i op ?_
    rwa [List.getElem?_append_left (List.getElem?_eq_some_iff.1 hop).1]
  · rw [Nat.add_assoc]
    refine h.site _ here ?_
    rwa [← hlength, List.getElem?_append_right (Nat.le_add_right _ _), Nat.add_sub_cancel_left]
  · rw [Nat.add_assoc]
    refine h.declares _ op ?_
    rwa [List.getElem?_append_right (Nat.le_add_right _ _), Nat.add_sub_cancel_left]

theorem FitAll.append {site : Nat → Option Site} {declares : Nat → Prop} {start : Nat}
    {code code' : Code} {sites sites' : List Site} (hlength : sites.length = code.length)
    (h : FitAll site declares start code sites)
    (h' : FitAll site declares (start + code.length) code' sites') :
    FitAll site declares start (code ++ code') (sites ++ sites') := by
  intro i op here hop hi
  rcases Nat.lt_or_ge i code.length with hlt | hge
  · rw [List.getElem?_append_left hlt] at hop
    rw [List.getElem?_append_left (hlength ▸ hlt)] at hi
    exact h i op here hop hi
  · rw [List.getElem?_append_right hge] at hop
    rw [List.getElem?_append_right (hlength ▸ hge), hlength] at hi
    have hfits := h' _ op here hop hi
    rwa [Nat.add_assoc, Nat.add_sub_cancel' hge] at hfits

/-- Labels of one function fit if they do so along its code. -/
theorem fitAll_of_along {site : Nat → Option Site} {declares : Nat → Prop} {start : Nat}
    {function : Option Nat} {code : Code} {labels : List (List Nat)}
    (h : SitesAt site declares start code (labels.map (⟨function, ·⟩)))
    (hfits : Along (Op.Shows (fun place blocks => site place = some ⟨function, blocks⟩) declares)
        start labels code →
      Along (Op.Fits (fun place blocks => site place = some ⟨function, blocks⟩) declares none)
        start labels code) : FitAll site declares start code (labels.map (⟨function, ·⟩)) := by
  have hlength : labels.length = code.length := by
    rw [← h.length_eq, List.length_map]
  have hall := hfits (.of_get hlength fun i blocks op hblocks hop => by
    refine ⟨h.site i ⟨function, blocks⟩ ?_, h.declares i op hop⟩
    rw [List.getElem?_map, hblocks]
    rfl)
  intro i op here hop hi
  rw [List.getElem?_map] at hi
  obtain ⟨blocks, hblocks, rfl⟩ := Option.map_eq_some_iff.1 hi
  obtain ⟨op', hop', hfit⟩ := hall.get hblocks
  rw [hop] at hop'
  cases hop'
  exact hfit

/-- The sites of regions that follow each other. -/
theorem exists_sites_regions {regions : List Region} {start : Nat}
    (hstarts : ∀ (i : Nat) (r : Region), regions[i]? = some r →
      r.start = start + ((regions.take i).map Region.code).flatten.length)
    (hregions : ∀ r ∈ regions, ∃ labels, Enclosure r.start r.code labels) :
    ∃ sites : List Site, sites.length = (regions.map Region.code).flatten.length ∧
      (∀ here ∈ sites, here.function ≠ none) ∧
      ∀ {site : Nat → Option Site} {declares : Nat → Prop},
        SitesAt site declares start (regions.map Region.code).flatten sites →
        (∀ r ∈ regions, site r.start = some ⟨some r.start, []⟩) ∧
          FitAll site declares start (regions.map Region.code).flatten sites := by
  induction regions generalizing start with
  | nil => exact ⟨[], rfl, nofun, fun _ => ⟨nofun, fun _ _ _ hop => nomatch hop⟩⟩
  | cons r rest ih =>
    obtain ⟨⟨labels, hr⟩, hrest⟩ := List.forall_mem_cons.1 hregions
    have hstart : r.start = start := by simpa using hstarts 0 r rfl
    have hstarts' : ∀ (i : Nat) (r' : Region), rest[i]? = some r' →
        r'.start = start + r.code.length + ((rest.take i).map Region.code).flatten.length := by
      intro i r' hr'
      rw [hstarts (i + 1) r' hr', List.take_succ_cons, List.map_cons, List.flatten_cons,
        List.length_append, Nat.add_assoc]
    obtain ⟨sites, hsites, hfunctions, hall⟩ := ih hstarts' hrest
    have hlength : (labels.map (Site.mk (some r.start))).length = r.code.length := by
      rw [List.length_map, hr.length_eq]
    refine ⟨labels.map (Site.mk (some r.start)) ++ sites, ?_, ?_, fun {site declares} hknown => ?_⟩
    · rw [List.length_append, hlength, hsites, List.map_cons, List.flatten_cons, List.length_append]
    · intro here hmem
      rcases List.mem_append.1 hmem with hmem | hmem
      · obtain ⟨blocks, -, rfl⟩ := List.mem_map.1 hmem
        exact nofun
      · exact hfunctions here hmem
    · rw [List.map_cons, List.flatten_cons] at hknown ⊢
      obtain ⟨hhere, hthere⟩ := hknown.append hlength
      obtain ⟨hentries, hfits⟩ := hall hthere
      refine ⟨List.forall_mem_cons.2 ⟨?_, hentries⟩, .append hlength ?_ hfits⟩
      · have hfirst := hhere.site 0 ⟨some r.start, []⟩ (by
          rw [List.getElem?_map, ← List.head?_eq_getElem?, hr.first]
          rfl)
        rwa [Nat.add_zero, ← hstart] at hfirst
      · refine fitAll_of_along hhere fun hshows => ?_
        rw [← hstart] at hshows ⊢
        exact hr.fits hshows

/-- The main region of a text is its code. -/
theorem LinkedFrom.main_eq {p : Program} {chunk : Chunk} {regions : List Region} {main : Code}
    (h : p.LinkedFrom chunk (p.extend chunk).1 regions main) :
    main = (chunkCode none true chunk 0).1.map (Op.link (chunkPlaces p.size chunk)) := by
  have hcode := h.code
  have hstart := h.start
  rw [code_extend, added, List.map_append, ← List.append_assoc] at hcode
  rw [start_extend] at hstart
  refine (List.append_inj hcode ?_).2.symm
  rw [List.length_append, List.length_append, List.length_map]
  omega

/-- The sites of a program to which regions are added. -/
def extendSites (p : Program) (site : Nat → Option Site) (sites : List Site) (ip : Nat) :
    Option Site :=
  if ip < p.start then site ip else if ip < p.size then none else sites[ip - p.size]?

section Extend

variable {p q : Program} {site : Nat → Option Site} {sites : List Site} {ip : Nat}

theorem Sited.start_le (h : p.Sited site) : p.start ≤ p.size := (h.main h.finish).1 rfl

theorem extendSites_of_lt (h : ip < p.start) : p.extendSites site sites ip = site ip := if_pos h

theorem extendSites_add (h : p.Sited site) (i : Nat) :
    p.extendSites site sites (p.size + i) = sites[i]? := by
  have hle := h.start_le
  rw [extendSites, if_neg (by omega), if_neg (by omega), Nat.add_sub_cancel_left]

/-- A place has a site if it had one and was not in the main region, or is a new one. -/
theorem cases_extendSites (h : p.Sited site) {here : Site}
    (hhere : p.extendSites site sites ip = some here) :
    (ip < p.start ∧ site ip = some here ∧ here.function ≠ none) ∨
      ∃ i, ip = p.size + i ∧ sites[i]? = some here := by
  have hle := h.start_le
  unfold extendSites at hhere
  split at hhere
  · next hlt =>
    refine .inl ⟨hlt, hhere, fun hnone => ?_⟩
    exact absurd ((h.main hhere).1 hnone) (Nat.not_le.2 hlt)
  · split at hhere
    · cases hhere
    · exact .inr ⟨ip - p.size, by omega, hhere⟩

/-- Old code fits as before. -/
theorem Sited.fits_extend (h : p.Sited site)
    (hcode : ∀ {i : Nat} {op : Op}, p.code[i]? = some op → q.code[i]? = some op) {op : Op}
    {here : Site} (hlt : ip < p.start) (hop : q.code[ip]? = some op) (hhere : site ip = some here)
    (hfunction : here.function ≠ none) :
    op.Fits (fun place blocks => p.extendSites site sites place = some ⟨here.function, blocks⟩)
      q.Declares none ip here.blocks := by
  have hle := h.start_le
  have hold {place : Nat} (hplace : place < p.size) {op : Op} (hop : q.code[place]? = some op) :
      p.code[place]? = some op := by
    have hsome := Array.getElem?_eq_getElem hplace
    rwa [← hop, hcode hsome]
  refine (h.fits (hold (by omega) hop) hhere).mono (fun place blocks hplace => ?_) ?_
  · refine (extendSites_of_lt (Nat.lt_of_not_le fun hmain => ?_)).trans hplace
    exact hfunction ((h.main hplace).2 hmain)
  · rintro place hplace ⟨op', hop', hlocal⟩
    exact ⟨op', hold (by omega) hop', hlocal⟩

end Extend

/-- **The places of a program stay known when a text is added to it.** -/
theorem exists_sited_extend {p : Program} {chunk : Chunk} {site : Nat → Option Site}
    (h : p.Sited site) (hclosed : chunkClosed false chunk)
    (hfunctions : ∀ f ∈ chunkFunctions chunk, f.closed) :
    ∃ site', (p.extend chunk).1.Sited site' := by
  obtain ⟨regions, main, hlinked⟩ := p.linkedFrom_extend hclosed hfunctions
  have hregions : ∀ r ∈ regions, ∃ labels, Enclosure r.start r.code labels := by
    intro r hr
    obtain ⟨i, hi⟩ := List.mem_iff_getElem?.1 hr
    rw [hlinked.compiled i r hi]
    refine exists_enclosure (hfunctions _ ?_) _ _ _
    rw [← hlinked.literals]
    exact List.mem_map_of_mem hr
  obtain ⟨sites, hlength, hfunction, hsites⟩ := exists_sites_regions hlinked.starts hregions
  obtain ⟨labels, hmain⟩ := @laidOut_chunkCode chunk none true [] (by simp) hclosed 0
    (p.extend chunk).1.start (by simp)
  replace hmain := hmain.link (chunkPlaces p.size chunk)
  rw [← hlinked.main_eq] at hmain
  have hcode : ∀ {i : Nat} {op : Op}, p.code[i]? = some op →
      (p.extend chunk).1.code[i]? = some op := getElem?_extend_of_some p chunk
  generalize (p.extend chunk).1 = q at hlinked hmain hcode ⊢
  have hget (i : Nat) :
      q.code[p.size + i]? = ((regions.map Region.code).flatten ++ main)[i]? := by
    rw [← Array.getElem?_toList, hlinked.code, List.append_assoc, size, ← Array.length_toList,
      List.getElem?_append_right (Nat.le_add_right _ _), Nat.add_sub_cancel_left]
  have hsize : q.size = q.start + main.length := by
    rw [size, ← Array.length_toList, hlinked.code, hlinked.start, List.length_append,
      List.length_append, Array.length_toList]
    rfl
  let mainSites : List Site := labels.map (Site.mk none)
  have hmainLength : mainSites.length = main.length := by rw [List.length_map, hmain.length_eq]
  obtain ⟨all, hall⟩ : ∃ all, all = sites ++ (mainSites ++ [⟨none, []⟩]) := ⟨_, rfl⟩
  have hknown : SitesAt (p.extendSites site all) q.Declares p.size
      ((regions.map Region.code).flatten ++ main) (sites ++ mainSites) := by
    refine ⟨by rw [List.length_append, List.length_append, hlength, hmainLength], ?_, ?_⟩
    · intro i here hi
      rw [extendSites_add h, hall, ← List.append_assoc,
        List.getElem?_append_left (List.getElem?_eq_some_iff.1 hi).1, hi]
    · rintro i op hop ⟨op', hop', hlocal⟩
      rw [hget, hop] at hop'
      cases hop'
      exact hlocal
  have hend : p.extendSites site all q.size = some ⟨none, []⟩ := by
    rw [hsize, hlinked.start, Nat.add_assoc, extendSites_add h, ← hlength, ← hmainLength,
      ← List.length_append, hall, ← List.append_assoc]
    exact List.getElem?_concat_length
  obtain ⟨hknownRegions, hknownMain⟩ := hknown.append hlength
  obtain ⟨hentries, hfitsRegions⟩ := hsites hknownRegions
  rw [← hlinked.start] at hknownMain
  have hfitsMain : FitAll (p.extendSites site all) q.Declares q.start main mainSites := by
    refine fitAll_of_along hknownMain fun hshows => hmain.laid hshows fun k hk => ?_
    rw [hk, Nat.add_zero, ← hsize]
    exact hend
  have hfits := hfitsRegions.append hlength (hlinked.start ▸ hfitsMain)
  have hle := h.start_le
  have hstart := hlinked.start
  refine ⟨p.extendSites site all, ?_, hend, ?_, ?_, ?_⟩
  · rw [hstart, extendSites_add h, ← hlength, hall,
      List.getElem?_append_right (Nat.le_refl _), Nat.sub_self]
    cases labels with
    | nil => rfl
    | cons blocks labels => exact congrArg (fun blocks => some (Site.mk none blocks)) hmain.first
  · intro ip here hhere
    rcases cases_extendSites h hhere with ⟨hlt, -, hsome⟩ | ⟨i, rfl, hi⟩
    · exact iff_of_false hsome (by omega)
    · rcases Nat.lt_or_ge i sites.length with hlt | hge
      · rw [hall, List.getElem?_append_left hlt] at hi
        exact iff_of_false (hfunction here (List.mem_of_getElem? hi)) (by omega)
      · rw [hall, List.getElem?_append_right hge] at hi
        refine iff_of_true ?_ (by omega)
        rcases List.mem_append.1 (List.mem_of_getElem? hi) with hmem | hmem
        · obtain ⟨blocks, -, rfl⟩ := List.mem_map.1 hmem
          rfl
        · rw [List.mem_singleton.1 hmem]
  · intro op hop hpush entry captured hpushed
    rcases hlinked.cases_pushed hop hpush hpushed with hop | ⟨i, r, hr, rfl⟩
    · have hold := h.entry op hop hpush entry captured hpushed
      refine (extendSites_of_lt (Nat.lt_of_not_le fun hmain => ?_)).trans hold
      exact absurd ((h.main hold).2 hmain) (by simp)
    · exact hentries r (List.mem_of_getElem? hr)
  · intro ip op here hop hhere
    rcases cases_extendSites h hhere with ⟨hlt, hsite, hsome⟩ | ⟨i, rfl, hi⟩
    · exact h.fits_extend hcode hlt hop hsite hsome
    · rw [hget] at hop
      refine hfits i op here hop ?_
      have hi' : i < (sites ++ mainSites).length := by
        rw [hknown.length_eq]
        exact (List.getElem?_eq_some_iff.1 hop).1
      rwa [hall, ← List.append_assoc, List.getElem?_append_left hi'] at hi

end Program

end ScriptEngine
