import ScriptEngine.Proofs.Linking.Regions
import ScriptEngine.Proofs.Scoping.Level

/-!
# Blocks of code

A block has an instruction that opens its scope, and is known by the place of that
instruction.  A piece of code is laid out in blocks if the blocks that are open at a place
do not depend on how control got there.  Jumps join places with the same blocks; the pass
of a loop is a block of its own, in which all variables of the loop are declared.

## Main definitions

* `Op.Flows` — where control goes from an instruction.
* `Op.Fits` — an instruction fits the blocks that are open around it.
* `Layout` — the blocks that are open at each place of a piece of code.

## Main results

* `Layout.append`, `Layout.inScope`, `Layout.loop` — pieces of code one after another, in a
  block, and jumped back over.
* `Layout.resolve` — breaks lead to where the blocks around a loop are open.
* `laidOut_loop` — the code of a loop is laid out in blocks.
-/

namespace ScriptEngine

/-! ### Control flow -/

/-- Where control goes from an instruction inside of a function: to the place behind it, or
to a distance from there. -/
inductive Op.Flows (op : Op) (behind : Nat) : Nat → Prop
  | next (hjump : op.code ≠ .jump) (hret : op.code ≠ .ret) (hleave : op.code ≠ .leave) :
      Flows op behind behind
  | jump {target : Nat} (hjump : op.code.isJump) (h : (target : Int) = behind + op.offset) :
      Flows op behind target

/-- The blocks that are open behind an instruction at a place, innermost first. -/
def Op.blocks (op : Op) (ip : Nat) (blocks : List Nat) : List Nat :=
  match op.code with
  | .startBlock => ip :: blocks
  | .endBlock => blocks.tail
  | _ => blocks

theorem Op.blocks_of_ne {op : Op} (hstart : op.code ≠ .startBlock) (hend : op.code ≠ .endBlock)
    (ip : Nat) (blocks : List Nat) : op.blocks ip blocks = blocks := by
  unfold Op.blocks
  split
  · next h => exact absurd h hstart
  · next h => exact absurd h hend
  · rfl

/-- What a loop from `first` to `last` has for each of its passes: a block directly inside of
those around the loop, in which all variables of the loop are declared. -/
def HasPass (opens : Nat → List Nat → Prop) (declares : Nat → Prop) (first last : Nat)
    (blocks : List Nat) : Prop :=
  ∃ block, first ≤ block ∧ block < last ∧ block ∉ blocks ∧ opens (block + 1) (block :: blocks) ∧
    ∀ place, first ≤ place → place ≤ last → declares place →
      ∃ inner, opens place inner ∧ block ∈ inner

/-- An instruction fits the blocks that are open around it: wherever control goes, the
blocks behind it are open.  A loop is left in the blocks of `exit`. -/
structure Op.Fits (opens : Nat → List Nat → Prop) (declares : Nat → Prop)
    (exit : Option (List Nat)) (ip : Nat) (blocks : List Nat) (op : Op) : Prop where
  flow : ∀ target, op.Flows (ip + 1) target → opens target (op.blocks ip blocks)
  close : op.code = .endBlock → blocks ≠ []
  leave : op.code = .leave → exit = some blocks
  loop : op.code.isJump → ∀ target : Nat, (target : Int) = ip + 1 + op.offset → target ≤ ip →
    HasPass opens declares target ip blocks

/-- What is true of the blocks at a place. -/
def Op.Shows (opens : Nat → List Nat → Prop) (declares : Nat → Prop) (ip : Nat)
    (blocks : List Nat) (op : Op) : Prop :=
  opens ip blocks ∧ (declares ip → op.code = .makeLocal)

/-! ### Labels along code -/

/-- Something is true of each instruction of a piece of code, the blocks that are open at it,
and its place. -/
def Along (P : Nat → List Nat → Op → Prop) : Nat → List (List Nat) → Code → Prop
  | _, [], [] => True
  | ip, blocks :: labels, op :: rest => P ip blocks op ∧ Along P (ip + 1) labels rest
  | _, _, _ => False

namespace Along

variable {P Q : Nat → List Nat → Op → Prop} {ip : Nat} {labels labels' : List (List Nat)}
  {code code' : Code}

theorem length_eq (h : Along P ip labels code) : labels.length = code.length := by
  induction code generalizing ip labels with
  | nil =>
    cases labels with
    | nil => rfl
    | cons => exact h.elim
  | cons op rest ih =>
    cases labels with
    | nil => exact h.elim
    | cons blocks labels => exact congrArg (· + 1) (ih h.2)

theorem append_iff (h : labels.length = code.length) :
    Along P ip (labels ++ labels') (code ++ code') ↔
      Along P ip labels code ∧ Along P (ip + code.length) labels' code' := by
  induction code generalizing ip labels with
  | nil =>
    rw [List.length_eq_zero_iff.1 h]
    exact (and_iff_right trivial).symm
  | cons op rest ih =>
    cases labels with
    | nil => cases h
    | cons blocks labels =>
      simp only [List.cons_append, Along, ih (Nat.succ.inj h), and_assoc, List.length_cons,
        Nat.add_assoc, Nat.add_comm 1]

theorem append (h : Along P ip labels code) (h' : Along P (ip + code.length) labels' code') :
    Along P ip (labels ++ labels') (code ++ code') := (append_iff h.length_eq).2 ⟨h, h'⟩

theorem imp (h : Along P ip labels code)
    (hPQ : ∀ place blocks op, P place blocks op → Q place blocks op) : Along Q ip labels code := by
  induction code generalizing ip labels with
  | nil =>
    cases labels with
    | nil => trivial
    | cons => exact h.elim
  | cons op rest ih =>
    cases labels with
    | nil => exact h.elim
    | cons blocks labels => exact ⟨hPQ _ _ _ h.1, ih h.2⟩

theorem and (h : Along P ip labels code) (h' : Along Q ip labels code) :
    Along (fun place blocks op => P place blocks op ∧ Q place blocks op) ip labels code := by
  induction code generalizing ip labels with
  | nil =>
    cases labels with
    | nil => trivial
    | cons => exact h.elim
  | cons op rest ih =>
    cases labels with
    | nil => exact h.elim
    | cons blocks labels => exact ⟨⟨h.1, h'.1⟩, ih h.2 h'.2⟩

theorem get (h : Along P ip labels code) {i : Nat} {blocks : List Nat}
    (hi : labels[i]? = some blocks) : ∃ op, code[i]? = some op ∧ P (ip + i) blocks op := by
  induction code generalizing ip labels i with
  | nil =>
    cases labels with
    | nil => cases hi
    | cons => exact h.elim
  | cons op rest ih =>
    cases labels with
    | nil => exact h.elim
    | cons first labels =>
      cases i with
      | zero =>
        cases hi
        exact ⟨op, rfl, h.1⟩
      | succ i =>
        obtain ⟨op', hop', hP⟩ := ih h.2 hi
        exact ⟨op', hop', by rwa [Nat.add_assoc, Nat.add_comm 1] at hP⟩

/-- What is true at a place. -/
theorem at_place (h : Along P ip labels code) {place : Nat} (hfirst : ip ≤ place)
    (hlast : place < ip + code.length) : ∃ blocks op, P place blocks op := by
  have hi : place - ip < labels.length := by
    rw [h.length_eq]
    omega
  obtain ⟨op, -, hP⟩ := h.get (List.getElem?_eq_getElem hi)
  rw [Nat.add_sub_cancel' hfirst] at hP
  exact ⟨_, op, hP⟩

/-- Labels that are all the same. -/
theorem replicate_iff {blocks : List Nat} :
    Along P ip (List.replicate code.length blocks) code ↔
      ∀ i op, code[i]? = some op → P (ip + i) blocks op := by
  constructor
  · intro h i op hop
    have hi : i < code.length := (List.getElem?_eq_some_iff.1 hop).1
    have hlabel : (List.replicate code.length blocks)[i]? = some blocks := by simp [hi]
    obtain ⟨op', hop', hP⟩ := h.get hlabel
    rw [hop] at hop'
    cases hop'
    exact hP
  · intro h
    induction code generalizing ip with
    | nil => trivial
    | cons op rest ih =>
      refine ⟨h 0 op rfl, ih fun i op' hop' => ?_⟩
      have hP := h (i + 1) op' hop'
      rwa [Nat.add_comm i, ← Nat.add_assoc] at hP

end Along

/-! ### Layouts -/

/-- The blocks that are open at each place of a piece of code that stands at `start`, in the
blocks `opened`.  Jumps past its end go by a distance in `far`, to places where the same
blocks are open. -/
structure Layout (exit : Option (List Nat)) (far : Nat → Prop) (opened : List Nat) (start : Nat)
    (code : Code) (labels : List (List Nat)) : Prop where
  within : Along (fun _ blocks op => op.code = .makeLocal → opened <:+ blocks) start labels code
  first : labels.headD opened = opened
  laid : ∀ {opens : Nat → List Nat → Prop} {declares : Nat → Prop},
    Along (Op.Shows opens declares) start labels code →
    (∀ k, far k → opens (start + code.length + k) opened) →
    Along (Op.Fits opens declares exit) start labels code

namespace Layout

variable {exit : Option (List Nat)} {far far' : Nat → Prop} {opened : List Nat} {start : Nat}
  {code code' : Code} {labels labels' : List (List Nat)}

theorem length_eq (h : Layout exit far opened start code labels) : labels.length = code.length :=
  h.within.length_eq

/-- Level code stands in the same blocks all along. -/
theorem of_level {declaring : Bool} (h : Level declaring far code) (hfar : far 0) :
    Layout exit far opened start code (List.replicate code.length opened) where
  within := Along.replicate_iff.2 fun _ _ _ _ => List.suffix_refl _
  first := by cases code <;> rfl
  laid := by
    intro opens declares hshows hopens
    rw [Along.replicate_iff] at hshows
    have hhere : ∀ j, j ≤ code.length → opens (start + j) opened := by
      intro j hj
      rcases Nat.lt_or_ge j code.length with hlt | hge
      · exact (hshows j code[j] (List.getElem?_eq_getElem hlt)).1
      · obtain rfl := Nat.le_antisymm hj hge
        exact hopens 0 hfar
    clear hshows
    induction code generalizing start with
    | nil => trivial
    | cons op rest ih =>
      obtain ⟨⟨hstart, hend, hleave, -, hjump⟩, hrest⟩ := h
      rw [List.length_cons] at hhere hopens
      refine ⟨⟨fun target hflow => ?_, fun h => absurd h hend, fun h => absurd h hleave, ?_⟩, ?_⟩
      · rw [op.blocks_of_ne hstart hend]
        cases hflow with
        | next => exact hhere 1 (by omega)
        | jump hcode htarget =>
          obtain ⟨d, hd, hland⟩ := hjump hcode
          rcases hland with hinside | hpast
          · obtain rfl : target = start + (d + 1) := by omega
            exact hhere (d + 1) (by omega)
          · rcases Nat.lt_or_ge d rest.length with hlt | hge
            · obtain rfl : target = start + (d + 1) := by omega
              exact hhere (d + 1) (by omega)
            · obtain rfl : target = start + (rest.length + 1) + (d - rest.length) := by omega
              exact hopens _ hpast
      · intro hcode target htarget hback
        obtain ⟨d, hd, -⟩ := hjump hcode
        omega
      · refine ih hrest (fun k hk => ?_) fun j hj => ?_
        · have := hopens k hk
          rwa [Nat.add_comm rest.length, ← Nat.add_assoc] at this
        · have := hhere (j + 1) (by omega)
          rwa [Nat.add_comm j, ← Nat.add_assoc] at this

/-- One piece of code after another.  Jumps past the end of the first one land in the
second, where the blocks around both are open, or past its end. -/
theorem append (h : Layout exit far opened start code labels)
    (h' : Layout exit far' opened (start + code.length) code' labels')
    (hland : ∀ k, far k → labels'[k]? = some opened ∨
      (labels'.length ≤ k ∧ far' (k - labels'.length))) :
    Layout exit far' opened start (code ++ code') (labels ++ labels') where
  within := h.within.append h'.within
  first := by
    cases labels with
    | nil => exact h'.first
    | cons => exact h.first
  laid := by
    intro opens declares hshows hopens
    rw [Along.append_iff h.length_eq] at hshows
    have hopens' : ∀ k, far' k → opens (start + code.length + code'.length + k) opened := by
      intro k hk
      have := hopens k hk
      rwa [List.length_append, ← Nat.add_assoc] at this
    refine (h.laid hshows.1 fun k hk => ?_).append (h'.laid hshows.2 hopens')
    rcases hland k hk with hinside | ⟨hpast, hfar⟩
    · obtain ⟨op, -, hshown⟩ := hshows.2.get hinside
      exact hshown.1
    · have := hopens' _ hfar
      rw [h'.length_eq] at hpast this
      rwa [Nat.add_assoc _ code'.length, Nat.add_sub_cancel' hpast] at this

/-- The end of a piece of code is where the next one begins. -/
theorem lands_zero (h : Layout exit far' opened start code labels) (hfar : far' 0) :
    labels[0]? = some opened ∨ (labels.length ≤ 0 ∧ far' (0 - labels.length)) := by
  cases labels with
  | nil => exact .inr ⟨Nat.le_refl _, hfar⟩
  | cons blocks labels => exact .inl (congrArg some h.first)

theorem second_inScope (h : Layout exit far (start :: opened) (start + 1) code labels) :
    (opened :: labels ++ [start :: opened])[1]? = some (start :: opened) := by
  cases labels with
  | nil => rfl
  | cons blocks labels => exact congrArg some h.first

/-- A piece of code in a block of its own. -/
theorem inScope {position : Position}
    (h : Layout exit (· = 0) (start :: opened) (start + 1) code labels) (hfar : far 0) :
    Layout exit far opened start (inScope position code)
      (opened :: labels ++ [start :: opened]) where
  within := by
    rw [ScriptEngine.inScope, Along.append_iff (by simp [h.length_eq])]
    refine ⟨⟨by rintro ⟨⟩, ?_⟩, by rintro ⟨⟩, trivial⟩
    exact h.within.imp fun _ _ _ hlocal hcode => (List.suffix_cons _ _).trans (hlocal hcode)
  first := rfl
  laid := by
    intro opens declares hshows hopens
    have hsecond := hshows.get h.second_inScope
    rw [ScriptEngine.inScope, Along.append_iff (by simp [h.length_eq])] at hshows ⊢
    obtain ⟨⟨hstart, hinner⟩, hend, -⟩ := hshows
    refine ⟨⟨⟨fun target hflow => ?_, by rintro ⟨⟩, by rintro ⟨⟩, by rintro ⟨⟩⟩, ?_⟩,
      ⟨fun target hflow => ?_, fun _ => List.cons_ne_nil _ _, by rintro ⟨⟩, by rintro ⟨⟩⟩, trivial⟩
    · cases hflow with
      | next =>
        obtain ⟨op, -, hshown⟩ := hsecond
        exact hshown.1
      | jump hcode => cases hcode
    · refine h.laid hinner fun k hk => ?_
      subst hk
      have := hend.1
      rwa [List.length_cons, Nat.add_comm code.length, ← Nat.add_assoc] at this
    · cases hflow with
      | next =>
        have := hopens 0 hfar
        rw [ScriptEngine.inScope, List.length_append, ← Nat.add_assoc] at this
        exact this
      | jump hcode => cases hcode

/-- **A loop.**  What is jumped back over has a block in which all its variables are
declared. -/
theorem loop {jumpCode : OpCode} {position : Position} {block : Nat}
    (h : Layout exit far opened start code labels) (hfar : ∀ k, far k → k = 0 ∨ k = 1)
    (hjump : jumpCode = .jump ∨ jumpCode = .jumpIfNot) (hfirst : start ≤ block)
    (hlast : block < start + code.length) (hblock : block ∉ opened)
    (hopen : labels[block + 1 - start]? = some (block :: opened))
    (hcover : Along (fun _ blocks op => op.code = .makeLocal → block ∈ blocks) start labels code) :
    Layout exit (· = 0) opened start
      (code ++ [.jumping jumpCode (-(code.length + 1 : Nat)) position]) (labels ++ [opened]) where
  within := h.within.append ⟨fun _ => List.suffix_refl _, trivial⟩
  first := by
    cases labels with
    | nil => rfl
    | cons => exact h.first
  laid := by
    intro opens declares hshows hopens
    have hend := hopens 0 rfl
    have hlabel : (labels ++ [opened])[0]? = some opened := by
      cases labels with
      | nil => rfl
      | cons blocks labels => exact congrArg some h.first
    have hfirstShown := hshows.get hlabel
    have hcovered : ∀ place, start ≤ place → place ≤ start + code.length → declares place →
        ∃ inner, opens place inner ∧ block ∈ inner := by
      intro place hplace hplace' hdeclares
      have hjumpCode : jumpCode ≠ .makeLocal := by
        rcases hjump with rfl | rfl <;> decide
      have hall : Along (fun _ blocks op => op.code = .makeLocal → block ∈ blocks) start
          (labels ++ [opened])
          (code ++ [.jumping jumpCode (-(code.length + 1 : Nat)) position]) :=
        hcover.append ⟨fun hcode => absurd hcode hjumpCode, trivial⟩
      obtain ⟨blocks, op, hshown, hinside⟩ :=
        (hshows.and hall).at_place hplace
          (by rw [List.length_append]; exact Nat.lt_succ_of_le hplace')
      exact ⟨blocks, hshown.1, hinside (hshown.2 hdeclares)⟩
    rw [Along.append_iff h.length_eq] at hshows
    obtain ⟨hround, hback, -⟩ := hshows
    obtain ⟨_, -, hopened⟩ := hround.get hopen
    refine Along.append (h.laid hround fun k hk => ?_) ⟨⟨fun target hflow => ?_, ?_, ?_, ?_⟩,
      trivial⟩
    · rcases hfar k hk with rfl | rfl
      · exact hback.1
      · rw [List.length_append] at hend
        exact hend
    · obtain ⟨_, -, hstart⟩ := hfirstShown
      rw [Op.blocks_of_ne (by rcases hjump with rfl | rfl <;> nofun)
        (by rcases hjump with rfl | rfl <;> nofun)]
      cases hflow with
      | next =>
        rw [List.length_append] at hend
        exact hend
      | jump _ htarget =>
        have hoffset : (Op.jumping jumpCode (-(code.length + 1 : Nat)) position).offset =
          -(code.length + 1 : Nat) := rfl
        obtain rfl : target = start := by omega
        exact hstart.1
    · rcases hjump with rfl | rfl <;> nofun
    · rcases hjump with rfl | rfl <;> nofun
    · intro _ target htarget _
      have hoffset : (Op.jumping jumpCode (-(code.length + 1 : Nat)) position).offset =
        -(code.length + 1 : Nat) := rfl
      obtain rfl : target = start := by omega
      refine ⟨block, hfirst, hlast, hblock, ?_, hcovered⟩
      have := hopened.1
      rwa [show target + (block + 1 - target) = block + 1 by omega] at this

end Layout

/-! ### Breaks -/

/-- Resolving breaks changes no other instructions. -/
theorem Along.resolved {P Q : Nat → List Nat → Op → Prop} {short ip : Nat} {target : Int}
    {labels : List (List Nat)} {code : Code} (h : Along P ip labels code)
    (htarget : target = ip + code.length - short)
    (hkeep : ∀ place blocks op, op.code ≠ .leave → P place blocks op → Q place blocks op)
    (hleave : ∀ (place : Nat) blocks op, op.code = .leave → P place blocks op →
      Q place blocks (.jumping .jump (target - (place + 1)) op.position)) :
    Along Q ip labels (resolveBreaks short code) := by
  induction code generalizing ip labels with
  | nil =>
    cases labels with
    | nil => trivial
    | cons => exact h.elim
  | cons op rest ih =>
    cases labels with
    | nil => exact h.elim
    | cons blocks labels =>
      rw [List.length_cons] at htarget
      refine ⟨?_, ih h.2 (by omega)⟩
      split
      · next hcode =>
        have hjump := hleave ip blocks op hcode h.1
        rwa [show target - (ip + 1) = (rest.length : Int) - short by omega] at hjump
      · next hcode => exact hkeep ip blocks op hcode h.1

theorem Along.of_resolved {P Q : Nat → List Nat → Op → Prop} {short ip : Nat}
    {labels : List (List Nat)} {code : Code} (h : Along P ip labels (resolveBreaks short code))
    (hkeep : ∀ place blocks op, P place blocks op → Q place blocks op)
    (hleave : ∀ place blocks d position op, P place blocks (.jumping .jump d position) →
      Q place blocks op) : Along Q ip labels code := by
  induction code generalizing ip labels with
  | nil =>
    cases labels with
    | nil => trivial
    | cons => exact h.elim
  | cons op rest ih =>
    cases labels with
    | nil => exact h.elim
    | cons blocks labels =>
      refine ⟨?_, ih h.2⟩
      have hfirst := h.1
      split at hfirst
      · exact hleave _ _ _ _ _ hfirst
      · exact hkeep _ _ _ hfirst

theorem Along.lt {P : Nat → List Nat → Op → Prop} {ip : Nat} {labels : List (List Nat)}
    {code : Code} (h : Along P ip labels code) :
    Along (fun place _ _ => place < ip + code.length) ip labels code := by
  induction code generalizing ip labels with
  | nil =>
    cases labels with
    | nil => trivial
    | cons => exact h.elim
  | cons op rest ih =>
    cases labels with
    | nil => exact h.elim
    | cons blocks labels =>
      refine ⟨by simp, (ih h.2).imp fun place _ _ hplace => ?_⟩
      rw [List.length_cons]
      omega

/-- **The code of a loop is left where the blocks around it are open.** -/
theorem Layout.resolve {exit : Option (List Nat)} {opened : List Nat} {start : Nat}
    {body after : Code} {labels labels' : List (List Nat)}
    (h : Layout (some opened) (· = 0) opened start (body ++ after) (labels ++ labels'))
    (hlength : labels.length = body.length) (hfirst : labels'.headD opened = opened)
    (hafter : ∀ op ∈ after, op.code ≠ .leave) :
    Layout exit (· = 0) opened start (resolveBreaks after.length (body ++ after))
      (labels ++ labels') where
  within := h.within.resolved rfl (fun _ _ _ _ => id) fun _ _ _ _ _ => nofun
  first := h.first
  laid := by
    intro opens declares hshows hopens
    have hshows' : Along (Op.Shows opens declares) start (labels ++ labels') (body ++ after) := by
      refine hshows.of_resolved (fun _ _ _ => id) fun place blocks d position op hshown => ?_
      exact ⟨hshown.1, fun hdeclares => nomatch hshown.2 hdeclares⟩
    rw [Program.length_resolveBreaks] at hopens
    have hfits := h.laid hshows' hopens
    have hsplit := (Along.append_iff hlength).1 hshows'
    have hends : opens (start + body.length) opened := by
      cases labels' with
      | nil =>
        have hnil : after = [] := List.length_eq_zero_iff.1 hsplit.2.length_eq.symm
        have := hopens 0 rfl
        rwa [hnil, List.append_nil] at this
      | cons blocks labels' =>
        obtain rfl : blocks = opened := hfirst
        obtain ⟨op, -, hshown⟩ := hsplit.2.get (i := 0) rfl
        exact hshown.1
    -- Breaks stand before the end of the loop, so that they jump ahead.
    have hplaces : Along (fun place _ op => op.code = .leave → place < start + body.length) start
        (labels ++ labels') (body ++ after) := by
      refine (Along.append_iff hlength).2 ⟨hsplit.1.lt.imp fun _ _ _ hplace _ => hplace, ?_⟩
      have hno : ∀ {ip : Nat} {ls : List (List Nat)} {code : Code},
          Along (Op.Shows opens declares) ip ls code → (∀ op ∈ code, op.code ≠ .leave) →
          Along (fun place _ op => op.code = .leave → place < start + body.length) ip ls code := by
        intro ip ls code hcode hleave
        induction code generalizing ip ls with
        | nil =>
          cases ls with
          | nil => trivial
          | cons => exact hcode.elim
        | cons op rest ih =>
          cases ls with
          | nil => exact hcode.elim
          | cons blocks ls =>
            obtain ⟨hop, hrest⟩ := List.forall_mem_cons.1 hleave
            exact ⟨fun hcode => absurd hcode hop, ih hcode.2 hrest⟩
      exact hno hsplit.2 hafter
    have htarget : ((start + body.length : Nat) : Int) =
        start + (body ++ after).length - after.length := by
      rw [List.length_append]
      omega
    refine (hfits.and hplaces).resolved htarget ?_ ?_
    · intro place blocks op hcode hfit
      exact ⟨hfit.1.flow, hfit.1.close, fun h => absurd h hcode, hfit.1.loop⟩
    · intro place blocks op hcode hfit
      obtain rfl : opened = blocks := Option.some.inj (hfit.1.leave hcode)
      have hplace := hfit.2 hcode
      have hoffset (position : Position) :
          (Op.jumping .jump (((start + body.length : Nat) : Int) - (place + 1)) position).offset =
            ((start + body.length : Nat) : Int) - (place + 1) := rfl
      refine ⟨fun target hflow => ?_, nofun, nofun, fun _ target htarget hback => ?_⟩
      · cases hflow with
        | next hjump => exact absurd rfl hjump
        | jump _ htarget =>
          rw [hoffset] at htarget
          obtain rfl : target = start + body.length := by omega
          exact hends
      · rw [hoffset] at htarget
        omega

/-- A piece of code can be laid out in blocks. -/
def LaidOut (exit : Option (List Nat)) (opened : List Nat) (start : Nat) (code : Code) : Prop :=
  ∃ labels, Layout exit (· = 0) opened start code labels

section LaidOut

variable {exit : Option (List Nat)} {opened : List Nat} {start : Nat} {code code' : Code}

theorem laidOut_straight (declaring : Bool) (h : Straight declaring code) :
    LaidOut exit opened start code := ⟨_, .of_level (h _ rfl) rfl⟩

theorem LaidOut.append (h : LaidOut exit opened start code)
    (h' : LaidOut exit opened (start + code.length) code') :
    LaidOut exit opened start (code ++ code') := by
  obtain ⟨labels, h⟩ := h
  obtain ⟨labels', h'⟩ := h'
  refine ⟨_, h.append h' fun k hk => ?_⟩
  subst hk
  exact h'.lands_zero rfl

theorem LaidOut.inScope {position : Position}
    (h : LaidOut exit (start :: opened) (start + 1) code) :
    LaidOut exit opened start (inScope position code) := by
  obtain ⟨labels, h⟩ := h
  exact ⟨_, h.inScope rfl⟩

/-- A test in front of code, and what follows if it fails. -/
theorem laidOut_test {test : Code}
    (htest : Level false (fun k => k = 0 ∨ k = code.length) test)
    (h : LaidOut exit opened (start + test.length) code)
    (h' : LaidOut exit opened (start + test.length + code.length) code') :
    LaidOut exit opened start (test ++ code ++ code') := by
  obtain ⟨labels, h⟩ := h
  obtain ⟨labels', h'⟩ := h'
  have hrest := h.append h' fun k hk => hk ▸ h'.lands_zero rfl
  rw [List.append_assoc]
  refine ⟨_, (Layout.of_level htest (.inl rfl)).append hrest fun k hk => ?_⟩
  rcases hk with rfl | rfl
  · exact hrest.lands_zero rfl
  · rw [← h.length_eq, List.getElem?_append_right (Nat.le_refl _), Nat.sub_self, List.length_append]
    refine (h'.lands_zero rfl).imp_right fun hnil => ⟨by omega, by omega⟩

/-- A test in front of code that jumps over what follows if the test fails. -/
theorem laidOut_choice {test : Code} {position : Position}
    (htest : Level false (fun k => k = 0 ∨ k = code.length + 1) test)
    (h : LaidOut exit opened (start + test.length) code)
    (h' : LaidOut exit opened (start + test.length + code.length + 1) code') :
    LaidOut exit opened start
      (test ++ (code ++ [.jumping .jump code'.length position]) ++ code') := by
  obtain ⟨labels, h⟩ := h
  obtain ⟨labels', h'⟩ := h'
  have hjump : Level false (fun k => k = 0 ∨ k = code'.length)
      [.jumping .jump code'.length position] :=
    (level_cons_jumping rfl).2 ⟨.inr (.inr rfl), trivial⟩
  have hover := (Layout.of_level hjump (.inl rfl)).append h' fun k hk => by
    rcases hk with rfl | rfl
    · exact h'.lands_zero rfl
    · exact .inr ⟨Nat.le_of_eq h'.length_eq, by rw [h'.length_eq, Nat.sub_self]⟩
  have hrest := h.append hover fun k hk => hk ▸ hover.lands_zero rfl
  rw [List.append_assoc, List.append_assoc]
  refine ⟨_, (Layout.of_level htest (.inl rfl)).append hrest fun k hk => ?_⟩
  rcases hk with rfl | rfl
  · exact hrest.lands_zero rfl
  · rw [← h.length_eq, List.getElem?_append_right (Nat.le_add_right _ _), Nat.add_sub_cancel_left]
    cases labels' with
    | nil => exact .inr ⟨by simp, by simp⟩
    | cons blocks labels' => exact .inl (congrArg some h'.first)

/-- What a loop jumps back over: a test, a pass in a block of its own, and what comes
behind the pass. -/
theorem exists_round {head body tail : Code} {position : Position} {labels : List (List Nat)}
    (hhead : Level false
      (fun k => k = 0 ∨ k = (inScope position body).length + tail.length + 1) head)
    (htail : Straight false tail)
    (hbody : Layout exit (· = 0) ((start + head.length) :: opened) (start + head.length + 1) body
      labels) :
    ∃ round, Layout exit (fun k => k = 0 ∨ k = 1) opened start
        (head ++ (inScope position body ++ tail)) round ∧
      round[head.length + 1]? = some ((start + head.length) :: opened) ∧
      Along (fun _ blocks op => op.code = .makeLocal → start + head.length ∈ blocks) start round
        (head ++ (inScope position body ++ tail)) := by
  have hpass : Layout exit (· = 0) opened (start + head.length) (inScope position body) _ :=
    hbody.inScope rfl
  have htail' : Layout exit (fun k => k = 0 ∨ k = 1) opened
      (start + head.length + (inScope position body).length) tail
      (List.replicate tail.length opened) := .of_level (htail _ (.inl rfl)) (.inl rfl)
  have hrest := hpass.append htail' fun k hk => hk ▸ htail'.lands_zero (.inl rfl)
  have hhead' : Layout exit _ opened start head (List.replicate head.length opened) :=
    .of_level hhead (.inl rfl)
  refine ⟨_, hhead'.append hrest fun k hk => ?_, ?_, .append ?_ (.append ?_ ?_)⟩
  · rcases hk with rfl | rfl
    · exact hrest.lands_zero (.inl rfl)
    · have hlength := hrest.length_eq.trans List.length_append
      exact .inr ⟨by omega, .inr (by omega)⟩
  · rw [List.getElem?_append_right (by simp), List.length_replicate, Nat.add_sub_cancel_left,
      List.getElem?_append_left (by simp)]
    exact hbody.second_inScope
  · rw [Along.replicate_iff]
    exact fun i op hop hlocal => absurd hlocal (hhead.not_makeLocal (List.mem_of_getElem? hop))
  · rw [ScriptEngine.inScope, Along.append_iff (by simp [hbody.length_eq])]
    refine ⟨⟨by rintro ⟨⟩, hbody.within.imp fun _ _ _ hlocal hcode => ?_⟩, by rintro ⟨⟩, trivial⟩
    exact (hlocal hcode).subset List.mem_cons_self
  · rw [Along.replicate_iff]
    intro i op hop hlocal
    exact absurd hlocal ((htail (· = 0) rfl).not_makeLocal (List.mem_of_getElem? hop))

/-- **A loop whose passes have a block.** -/
theorem laidOut_loop {head body : Code} (tail after : Code) (position position' : Position)
    {jumpCode : OpCode} (hjump : jumpCode = .jump ∨ jumpCode = .jumpIfNot)
    (hhead : Level false
      (fun k => k = 0 ∨ k = (inScope position body).length + tail.length + 1) head)
    (htail : Straight false tail) (hafter : Straight false after)
    (hbody : LaidOut (some opened) ((start + head.length) :: opened) (start + head.length + 1) body)
    (hopened : ∀ b ∈ opened, b < start) :
    LaidOut exit opened start (resolveBreaks after.length
      (head ++ (inScope position body ++ tail)
        ++ [.jumping jumpCode (-((head ++ (inScope position body ++ tail)).length + 1 : Nat))
          position']
        ++ after)) := by
  obtain ⟨labels, hbody⟩ := hbody
  obtain ⟨round, hround, hopen, hcover⟩ := exists_round hhead htail hbody
  have hblock : start + head.length ∉ opened := fun hmem => by
    have := hopened _ hmem
    omega
  have hloop : Layout (some opened) (· = 0) opened start (head ++ (inScope position body ++ tail)
      ++ [.jumping jumpCode (-((head ++ (inScope position body ++ tail)).length + 1 : Nat))
        position'])
      _ :=
    hround.loop (fun _ => id) hjump (Nat.le_add_right _ _) (by simp [inScope]) hblock
      (by rwa [Nat.add_assoc, Nat.add_sub_cancel_left]) hcover
  have hafter' (place : Nat) : Layout (some opened) (· = 0) opened place after
      (List.replicate after.length opened) := .of_level (hafter _ rfl) rfl
  have hall := hloop.append (hafter' _) fun k hk => hk ▸ (hafter' 0).lands_zero rfl
  refine ⟨_, hall.resolve hloop.length_eq (hafter' 0).first fun op hop => ?_⟩
  exact (hafter (· = 0) rfl).not_leave hop

end LaidOut

end ScriptEngine
