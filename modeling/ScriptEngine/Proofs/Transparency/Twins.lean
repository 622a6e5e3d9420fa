import Mathlib.Logic.Function.Basic
import ScriptEngine.Proofs.Evaluation.Evaluator
import ScriptEngine.Proofs.Transparency.Conditions
import ScriptEngine.Proofs.Transparency.Moving
import ScriptEngine.Proofs.Transparency.Survivors

/-!
# Two programs side by side

A program and what it is folded to work on the same tables and the same globals, but for where the
code of functions begins.  Their scopes differ in the variables whose declarations have been
removed: the plain program has them in its scopes, with the literals that they stand for, once
execution is behind their declarations.

## Main definitions

* `Block`, `Blocks` — what is known of the blocks that scopes belong to.
* `Blocks.Grows` — how that changes.
* `Twins`, `Twins.Alike` — the two programs, and stores that correspond to each other.
* `Constants.Fits`, `Scene` — what folding knows is true where a node is evaluated.
* `Linked` — the function literals of the two programs correspond to each other.
* `Twins.Closures` — script functions that both programs have.
* `Twins.Mirrors` — an evaluation does in the folded program what it does in the plain one.

## Main results

* `Twins.closures_among` — functions stay known.
* `Twins.Mirrors.bind` — evaluations one after another.
-/

namespace ScriptEngine

open Node

/-! ### Blocks -/

/-- What is known of the block that a scope belongs to: the variables whose declarations have been
removed, `gone` if execution is behind them and `pending` if it is not yet, and the names that
may be declared in it. -/
structure Block where
  gone : List (String × Literal)
  pending : List (String × Literal)
  binds : String → Prop

namespace Block

/-- A block from which nothing is removed. -/
def plain : Block := ⟨[], [], fun _ => True⟩

/-- Execution is behind a declaration of the name that has been removed. -/
def Gone (b : Block) (name : String) : Prop := ∃ literal, (name, literal) ∈ b.gone

/-- Execution is in front of a declaration of the name that has been removed. -/
def Pending (b : Block) (name : String) : Prop := ∃ literal, (name, literal) ∈ b.pending

/-- A declaration of the name has been removed. -/
def Removes (b : Block) (name : String) : Prop := b.Gone name ∨ b.Pending name

/-- Execution has gone on in a block. -/
structure Leads (b b' : Block) : Prop where
  binds : b'.binds = b.binds
  gone : b.gone ⊆ b'.gone
  pending : b'.pending ⊆ b.pending
  passed : b'.gone ⊆ b.gone ++ b.pending

theorem Leads.refl (b : Block) : b.Leads b where
  binds := rfl
  gone := List.Subset.refl _
  pending := List.Subset.refl _
  passed := List.subset_append_left _ _

theorem Leads.trans {b b' b'' : Block} (h : b.Leads b') (h' : b'.Leads b'') : b.Leads b'' where
  binds := h'.binds.trans h.binds
  gone _ hentry := h'.gone (h.gone hentry)
  pending _ hentry := h.pending (h'.pending hentry)
  passed entry hentry := by
    rcases List.mem_append.1 (h'.passed hentry) with hentry | hentry
    · exact h.passed hentry
    · exact List.mem_append_right _ (h.pending hentry)

theorem Leads.removes {b b' : Block} (h : b.Leads b') {name : String} (hname : b'.Removes name) :
    b.Removes name := by
  rcases hname with ⟨literal, hentry⟩ | ⟨literal, hentry⟩
  · rcases List.mem_append.1 (h.passed hentry) with hentry | hentry
    · exact .inl ⟨literal, hentry⟩
    · exact .inr ⟨literal, hentry⟩
  · exact .inr ⟨literal, h.pending hentry⟩

/-- A block once execution is behind a declaration that has been removed. -/
def pass (b : Block) (entry : String × Literal) : Block := { b with gone := b.gone ++ [entry] }

theorem leads_pass {b : Block} {entry : String × Literal} (h : entry ∈ b.pending) :
    b.Leads (b.pass entry) where
  binds := rfl
  gone := List.subset_append_left _ _
  pending := List.Subset.refl _
  passed other hother := by
    rcases List.mem_append.1 hother with hother | hother
    · exact List.mem_append_left _ hother
    · obtain rfl := List.mem_singleton.1 hother
      exact List.mem_append_right _ h

theorem Leads.mono {b b' : Block} (h : b.Leads b') {name : String} (hname : b.Gone name) :
    b'.Gone name := hname.imp fun _ hentry => h.gone hentry

end Block

/-- What is known of the blocks that scopes belong to. -/
abbrev Blocks := ScopeRef → Block

namespace Blocks

/-- What is removed from a block is not declared in the blocks in it. -/
def Shaded (blocks : Blocks) (reach : List ScopeRef) : Prop :=
  reach.Pairwise fun inner outer => ∀ name, (blocks outer).Removes name →
    ¬ (blocks inner).binds name

/-- There are more scopes, and execution has gone on in the block of one scope at most. -/
structure Grows (top : Option ScopeRef) (blocks : Blocks) (size : Nat) (blocks' : Blocks)
    (size' : Nat) : Prop where
  larger : size ≤ size'
  leads : ∀ ref : ScopeRef, ref.index < size → (blocks ref).Leads (blocks' ref)
  same : ∀ ref : ScopeRef, ref.index < size → some ref ≠ top → blocks' ref = blocks ref

variable {top : Option ScopeRef} {blocks blocks' blocks'' : Blocks} {size size' size'' : Nat}

theorem Grows.refl : Grows top blocks size blocks size where
  larger := Nat.le_refl _
  leads _ _ := .refl _
  same _ _ _ := rfl

theorem Grows.trans (h : Grows top blocks size blocks' size')
    (h' : Grows top blocks' size' blocks'' size'') : Grows top blocks size blocks'' size'' where
  larger := Nat.le_trans h.larger h'.larger
  leads ref href := (h.leads ref href).trans (h'.leads ref (Nat.lt_of_lt_of_le href h.larger))
  same ref href hne := by
    rw [h'.same ref (Nat.lt_of_lt_of_le href h.larger) hne, h.same ref href hne]

/-- Where execution has gone on in no block, all are as they were. -/
theorem Grows.eq_of_none (h : Grows none blocks size blocks' size') {ref : ScopeRef}
    (href : ref.index < size) : blocks' ref = blocks ref :=
  h.same ref href (Option.some_ne_none ref)

theorem Grows.of_none (h : Grows none blocks size blocks' size') :
    Grows top blocks size blocks' size' where
  larger := h.larger
  leads := h.leads
  same _ href _ := h.eq_of_none href

/-- What goes on in a block that was not there is not seen outside of it. -/
theorem Grows.of_new {ref : ScopeRef} (h : Grows (some ref) blocks size blocks' size')
    (href : size ≤ ref.index) : Grows none blocks size blocks' size' where
  larger := h.larger
  leads := h.leads
  same other hother _ := by
    refine h.same other hother fun heq => ?_
    obtain rfl := Option.some.inj heq
    exact absurd hother (Nat.not_lt.2 href)

/-- Execution goes on in one block. -/
theorem Grows.update {ref : ScopeRef} {b : Block} (h : (blocks ref).Leads b) :
    Grows (some ref) blocks size (Function.update blocks ref b) size where
  larger := Nat.le_refl _
  leads other _ := by
    by_cases heq : other = ref
    · subst heq
      rwa [Function.update_self]
    · rw [Function.update_of_ne heq]
      exact .refl _
  same other _ hne := Function.update_of_ne (fun heq => hne (congrArg some heq)) _ _

/-- Scopes that are there stay there. -/
theorem Grows.inside (h : Grows top blocks size blocks' size') {reach : List ScopeRef}
    (hinside : ∀ ref ∈ reach, ref.index < size) : ∀ ref ∈ reach, ref.index < size' :=
  fun ref href => Nat.lt_of_lt_of_le (hinside ref href) h.larger

/-- What is not removed from a block is not removed later. -/
theorem Grows.free (h : Grows top blocks size blocks' size') {reach : List ScopeRef}
    (hinside : ∀ ref ∈ reach, ref.index < size) {P : String → Prop}
    (hfree : ∀ name, P name → ∀ ref ∈ reach, ¬ (blocks ref).Removes name) :
    ∀ name, P name → ∀ ref ∈ reach, ¬ (blocks' ref).Removes name :=
  fun name hname ref href hremoves =>
    hfree name hname ref href ((h.leads ref (hinside ref href)).removes hremoves)

theorem Shaded.grows {reach : List ScopeRef} (h : blocks.Shaded reach)
    (hgrows : Grows top blocks size blocks' size') (hinside : ∀ ref ∈ reach, ref.index < size) :
    blocks'.Shaded reach := by
  refine List.Pairwise.imp_of_mem (fun {inner outer} hinner houter hshaded name hname => ?_) h
  rw [(hgrows.leads inner (hinside inner hinner)).binds]
  exact hshaded name ((hgrows.leads outer (hinside outer houter)).removes hname)

end Blocks

/-! ### What folding knows -/

/-- What is known of a name is true in the scopes in reach: a literal if execution is behind its
removed declaration, and nothing if it is not. -/
structure Constants.Fits (constants : Constants) (blocks : Blocks) (reach : List ScopeRef)
    (name : String) : Prop where
  known : ∀ literal, constants.find? name = some literal →
    ∃ ref ∈ reach, (name, literal) ∈ (blocks ref).gone
  unknown : constants.find? name = none → ∀ ref ∈ reach, ¬ (blocks ref).Gone name

/-- Where a node is evaluated: what is known of the names in it is true, nothing that it binds has
been removed from the blocks around it, and its function literals mention nothing that is still to
be declared there. -/
structure Scene (constants : Constants) (blocks : Blocks) (size : Nat) (reach : List ScopeRef)
    (n : Node) : Prop where
  shaded : blocks.Shaded reach
  inside : ∀ ref ∈ reach, ref.index < size
  targeted : n.All Targeted
  fits : ∀ name, n.Mentions name → constants.Fits blocks reach name
  free : ∀ name ∈ n.bound, ∀ ref ∈ reach, ¬ (blocks ref).Removes name
  early : ∀ name, n.Closes name → ∀ ref ∈ reach, ¬ (blocks ref).Pending name

namespace Scene

variable {constants : Constants} {blocks blocks' : Blocks} {size size' : Nat}
  {reach : List ScopeRef} {n child : Node}

theorem of_child (h : Scene constants blocks size reach n) (hchild : child ∈ n.children) :
    Scene constants blocks size reach child where
  shaded := h.shaded
  inside := h.inside
  targeted := h.targeted.of_mem hchild
  fits name hname := h.fits name (hname.of_child hchild)
  free name hname := h.free name (mem_bound_of_child hchild hname)
  early name hname := h.early name (hname.of_child hchild)

theorem of_expr (h : Scene constants blocks size reach n) (e : Expr) (he : expr e ∈ n.children) :
    Scene constants blocks size reach (expr e) := h.of_child he

theorem of_chunk (h : Scene constants blocks size reach n) (body : List Stat)
    (hbody : chunk body ∈ n.children) : Scene constants blocks size reach (chunk body) :=
  h.of_child hbody

/-- There is nothing in a literal. -/
theorem literal (h : Scene constants blocks size reach n) (position : Position) (value : Literal) :
    Scene constants blocks size reach (expr (.literal position value)) where
  shaded := h.shaded
  inside := h.inside
  targeted := all_iff.2 ⟨trivial, List.forall_mem_nil _⟩
  fits name hname := by
    obtain ⟨p, hwithin⟩ := hname
    cases hwithin with
    | child hchild _ => cases hchild
  free name hname := by cases hname
  early name hname := by
    obtain ⟨p, hwithin⟩ := hname.mentions
    cases hwithin with
    | child hchild _ => cases hchild

/-- Nothing changes as long as execution does not go on in the blocks in reach. -/
theorem grows (h : Scene constants blocks size reach n)
    (hgrows : Blocks.Grows none blocks size blocks' size') :
    Scene constants blocks' size' reach n := by
  have hsame (ref : ScopeRef) (href : ref ∈ reach) : blocks' ref = blocks ref :=
    hgrows.eq_of_none (h.inside ref href)
  exact
    { shaded := h.shaded.grows hgrows h.inside
      inside := hgrows.inside h.inside
      targeted := h.targeted
      fits := fun name hname =>
        { known := fun literal hfind => by
            obtain ⟨ref, href, hgone⟩ := (h.fits name hname).known literal hfind
            exact ⟨ref, href, by rwa [hsame ref href]⟩
          unknown := fun hfind ref href => by
            rw [hsame ref href]
            exact (h.fits name hname).unknown hfind ref href }
      free := fun name hname ref href => by
        rw [hsame ref href]
        exact h.free name hname ref href
      early := fun name hname ref href => by
        rw [hsame ref href]
        exact h.early name hname ref href }

/-- What is known of names is forgotten where they are declared again. -/
theorem shadow (h : Scene constants blocks size reach n) {names : List Identifier}
    (hnames : ∀ name ∈ names.map Identifier.name, ∀ ref ∈ reach, ¬ (blocks ref).Removes name) :
    Scene (constants.shadow names) blocks size reach n := by
  refine { h with fits := fun name hname => ⟨?_, ?_⟩ }
  · intro literal hfind
    rw [Constants.find?_shadow] at hfind
    split at hfind
    · cases hfind
    · exact (h.fits name hname).known literal hfind
  · intro hfind ref href
    rw [Constants.find?_shadow] at hfind
    split at hfind
    · next hmem => exact fun hgone => hnames name hmem ref href (.inl hgone)
    · exact (h.fits name hname).unknown hfind ref href

/-- A function literal does not notice that execution goes on in the blocks around it. -/
theorem grows_function {top : Option ScopeRef} {position : Position} {parameters : List Identifier}
    {body : List Stat}
    (h : Scene constants blocks size reach (expr (.function position parameters body)))
    (hgrows : Blocks.Grows top blocks size blocks' size') :
    Scene constants blocks' size' reach (expr (.function position parameters body)) := by
  have hleads (ref : ScopeRef) (href : ref ∈ reach) : (blocks ref).Leads (blocks' ref) :=
    hgrows.leads ref (h.inside ref href)
  have hcloses (name : String)
      (hname : (expr (.function position parameters body)).Mentions name) :
      (expr (.function position parameters body)).Closes name := by
    obtain ⟨p, hwithin⟩ := hname
    cases hwithin with
    | child hchild hwithin =>
      obtain rfl := List.mem_singleton.1 hchild
      exact ⟨position, parameters, body, .here, p, hwithin⟩
  -- A declaration that execution has passed since then was pending before, and the function literal
  -- would have closed over it.
  have hstill (name : String)
      (hname : (expr (.function position parameters body)).Mentions name)
      (hnone : constants.find? name = none) (ref : ScopeRef) (href : ref ∈ reach) :
      ¬ (blocks' ref).Gone name := by
    rintro ⟨literal, hgone⟩
    rcases List.mem_append.1 ((hleads ref href).passed hgone) with hgone | hpending
    · exact (h.fits name hname).unknown hnone ref href ⟨literal, hgone⟩
    · exact h.early name (hcloses name hname) ref href ⟨literal, hpending⟩
  exact
    { shaded := h.shaded.grows hgrows h.inside
      inside := hgrows.inside h.inside
      targeted := h.targeted
      fits := fun name hname =>
        { known := fun literal hfind => by
            obtain ⟨ref, href, hgone⟩ := (h.fits name hname).known literal hfind
            exact ⟨ref, href, (hleads ref href).gone hgone⟩
          unknown := hstill name hname }
      free := fun name hname ref href hremoves =>
        h.free name hname ref href ((hleads ref href).removes hremoves)
      early := fun name hname ref href hpending => by
        obtain ⟨literal, hpending⟩ := hpending
        exact h.early name hname ref href ⟨literal, (hleads ref href).pending hpending⟩ }

end Scene

/-! ### What a program puts out -/

/-- Whether an event is one of the program's own, and no record of the engine's doings. -/
def Event.isShown : Event → Bool
  | .logged _ _ => false
  | _ => true

/-- What a program itself has put out. -/
def Store.shown (s : Store) : List Event := s.output.toList.filter Event.isShown

/-! ### Function literals of both programs -/

/-- A program, what it is folded to, and where the functions of the first one begin in the
second. -/
structure Twins where
  place : Nat → Nat
  plain : World
  folded : World

/-- Where the function of a number begins. -/
def entryAt (places : List Nat) (number : Nat) : Nat := (places[number]?).getD number

/-- The functions of a program that begin at some places are literals that are numbered from `next`
on. -/
def FunctionTable.Lists (functions : FunctionTable) (places : List Nat) (next : Nat)
    (fs : List FunctionLiteral) : Prop :=
  ∀ i f, fs[i]? = some f →
    functions.lookup (entryAt places (next + i)) = some ⟨f, next + i, places⟩

/-- The function literals of a piece of syntax and those of what it is folded to, which come from
those with the numbers `kept`. -/
structure Twins.Linked (t : Twins) (places places' : List Nat) (next next' : Nat)
    (fs fs' : List FunctionLiteral) (kept : List Nat) : Prop where
  moves : ∀ i number, kept[i]? = some number →
    entryAt places' (next' + i) = t.place (entryAt places number)
  plain : t.plain.functions.Lists places next fs
  folded : t.folded.functions.Lists places' next' fs'

theorem FunctionTable.Lists.left {functions : FunctionTable} {places : List Nat} {next : Nat}
    {fs gs : List FunctionLiteral} (h : functions.Lists places next (fs ++ gs)) :
    functions.Lists places next fs :=
  fun i f hi => h i f (by rw [List.getElem?_append_left (List.getElem?_eq_some_iff.1 hi).1, hi])

theorem FunctionTable.Lists.right {functions : FunctionTable} {places : List Nat} {next : Nat}
    {fs gs : List FunctionLiteral} (h : functions.Lists places next (fs ++ gs)) :
    functions.Lists places (next + fs.length) gs := by
  intro i f hi
  have hall := h (fs.length + i) f (by rw [List.getElem?_append_right (Nat.le_add_right _ _),
    Nat.add_sub_cancel_left, hi])
  rwa [← Nat.add_assoc] at hall

namespace Twins

variable {t : Twins} {places places' : List Nat} {next next' : Nat}
  {fs gs fs' gs' : List FunctionLiteral} {ks ls : List Nat}

theorem Linked.left (h : t.Linked places places' next next' (fs ++ gs) (fs' ++ gs') (ks ++ ls)) :
    t.Linked places places' next next' fs fs' ks where
  moves i number hi := h.moves i number (by
    rw [List.getElem?_append_left (List.getElem?_eq_some_iff.1 hi).1, hi])
  plain := h.plain.left
  folded := h.folded.left

theorem Linked.right (h : t.Linked places places' next next' (fs ++ gs) (fs' ++ gs') (ks ++ ls))
    (hlength : ks.length = fs'.length) :
    t.Linked places places' (next + fs.length) (next' + fs'.length) gs gs' ls where
  moves i number hi := by
    have hall := h.moves (ks.length + i) number (by
      rw [List.getElem?_append_right (Nat.le_add_right _ _), Nat.add_sub_cancel_left, hi])
    rwa [hlength, ← Nat.add_assoc] at hall
  plain := h.plain.right
  folded := h.folded.right

theorem Linked.tail {f f' : FunctionLiteral} {k : Nat}
    (h : t.Linked places places' next next' (f :: fs) (f' :: fs') (k :: ks)) :
    t.Linked places places' (next + 1) (next' + 1) fs fs' ks := by
  have hall : t.Linked places places' next next' ([f] ++ fs) ([f'] ++ fs') ([k] ++ ks) := h
  exact hall.right rfl

/-! ### Script functions of both programs -/

/-- A function of the plain program and what it has been folded to, as closures over the same
scopes. -/
structure Folds (t : Twins) (blocks : Blocks) (size : Nat) (captured : List ScopeRef)
    (constants : Constants) (f f' : PlacedFunction) : Prop where
  literal : f'.literal = ⟨f.literal.position, f.literal.parameters,
    (foldStats (boundNames f.literal.body) false (constants.shadow f.literal.parameters)
      f.literal.body).1⟩
  linked : t.Linked f.places f'.places (f.number + 1) (f'.number + 1)
    (chunkFunctions f.literal.body)
    (chunkFunctions (foldStats (boundNames f.literal.body) false
      (constants.shadow f.literal.parameters) f.literal.body).1)
    (chunkKept (boundNames f.literal.body) false (constants.shadow f.literal.parameters)
      (f.number + 1) f.literal.body)
  safe : foldsSafely (boundNames f.literal.body) false (constants.shadow f.literal.parameters)
    f.literal.body
  scene : Scene constants blocks size captured
    (expr (.function f.literal.position f.literal.parameters f.literal.body))

/-- The script functions of the plain program that the folded one has as well. -/
def Closures (t : Twins) (blocks : Blocks) (size : Nat) : Functions := fun entry captured =>
  ∃ f f' constants, t.plain.functions.lookup entry = some f ∧
    t.folded.functions.lookup (t.place entry) = some f' ∧
    t.Folds blocks size captured constants f f'

variable {top : Option ScopeRef} {blocks blocks' : Blocks} {size size' : Nat}

theorem Folds.grows {captured : List ScopeRef} {constants : Constants} {f f' : PlacedFunction}
    (h : t.Folds blocks size captured constants f f')
    (hgrows : Blocks.Grows top blocks size blocks' size') :
    t.Folds blocks' size' captured constants f f' :=
  ⟨h.literal, h.linked, h.safe, h.scene.grows_function hgrows⟩

/-- Functions stay known. -/
theorem closures_among (hgrows : Blocks.Grows top blocks size blocks' size') :
    (t.Closures blocks size).Among (t.Closures blocks' size') := by
  rintro entry captured ⟨f, f', constants, hplain, hfolded, hfolds⟩
  exact ⟨f, f', constants, hplain, hfolded, hfolds.grows hgrows⟩

/-! ### Stores of both programs -/

/-- The stores of the two programs: the same globals, tables and output, and the same scopes but for
what has been removed. -/
structure Alike (t : Twins) (blocks : Blocks) (s s' : Store) : Prop where
  globals : s'.globals = s.globals.moved t.place
  tables : s'.tables = s.tables.map (Table.moved t.place)
  natives : s'.natives = s.natives
  shown : s'.shown = s.shown
  size : s'.scopes.size = s.scopes.size
  kept : ∀ ref name, ¬ (blocks ref).Gone name →
    (s'.scope ref).get? name = ((s.scope ref).get? name).map (Value.moved t.place)
  gone : ∀ ref name literal, (name, literal) ∈ (blocks ref).gone →
    (s.scope ref).get? name = some literal.toValue
  binds : ∀ ref name v, (s.scope ref).get? name = some v → (blocks ref).binds name

/-- Stores of the two programs that hold no functions but those that both programs have. -/
structure At (t : Twins) (blocks : Blocks) (s s' : Store) : Prop where
  alike : t.Alike blocks s s'
  known : s.Known (t.Closures blocks s.scopes.size)

/-- An evaluation has led from one place of both programs to another. -/
structure Leads (t : Twins) (top : Option ScopeRef) (blocks : Blocks) (s : Store)
    (blocks' : Blocks) (s' s'' : Store) : Prop where
  grows : Blocks.Grows top blocks s.scopes.size blocks' s'.scopes.size
  arrived : t.At blocks' s' s''

/-- **An evaluation does in the folded program what it does in the plain one**, which has come to an
end: it has the same result but for where functions begin, or the same failure, and leaves stores
that correspond to each other.  One that is undecided or runs out of fuel says nothing. -/
def Mirrors (t : Twins) {α : Type} (move : α → α) (post : Blocks → Store → α → Prop)
    (top : Option ScopeRef) (blocks : Blocks) (s : Store) (r r' : EStateM.Result Stop Store α) :
    Prop :=
  match r with
  | .ok a s₁ => ∃ blocks₁ s₁', r' = .ok (move a) s₁' ∧ t.Leads top blocks s blocks₁ s₁ s₁' ∧
      post blocks₁ s₁ a
  | .error (.interrupted (.error e)) s₁ => ∃ blocks₁ s₁', r' =
    .error (.interrupted (.error e)) s₁' ∧
      t.Leads top blocks s blocks₁ s₁ s₁'
  | .error (.interrupted .outOfFuel) _ => True
  | .error .undecided _ => True

/-- A value whose functions both programs have. -/
def KnownValue (t : Twins) (blocks : Blocks) (s : Store) (v : Value) : Prop :=
  v.Known (t.Closures blocks s.scopes.size)

@[inherit_doc KnownValue]
def KnownValues (t : Twins) (blocks : Blocks) (s : Store) (vs : List Value) : Prop :=
  AllKnown (t.Closures blocks s.scopes.size) vs

theorem Leads.refl {s s' : Store} (h : t.At blocks s s') : t.Leads top blocks s blocks s s' :=
  ⟨.refl, h⟩

theorem Leads.trans {s s₁ s₁' s₂ s₂' : Store} {blocks₁ blocks₂ : Blocks}
    (h : t.Leads top blocks s blocks₁ s₁ s₁') (h' : t.Leads top blocks₁ s₁ blocks₂ s₂ s₂') :
    t.Leads top blocks s blocks₂ s₂ s₂' := ⟨h.grows.trans h'.grows, h'.arrived⟩

theorem Leads.of_none {s s₁ s₁' : Store} {blocks₁ : Blocks}
    (h : t.Leads none blocks s blocks₁ s₁ s₁') : t.Leads top blocks s blocks₁ s₁ s₁' :=
  ⟨h.grows.of_none, h.arrived⟩

theorem Leads.of_new {s s₁ s₁' s₂ s₂' : Store} {blocks₁ blocks₂ : Blocks} {ref : ScopeRef}
    (h : t.Leads none blocks s blocks₁ s₁ s₁') (href : s.scopes.size ≤ ref.index)
    (h' : t.Leads (some ref) blocks₁ s₁ blocks₂ s₂ s₂') : t.Leads none blocks s blocks₂ s₂ s₂' :=
  ⟨(h.grows.of_none.trans h'.grows).of_new href, h'.arrived⟩

namespace Mirrors

variable {α β : Type} {move : α → α} {after : β → β} {post : Blocks → Store → α → Prop}
  {goal : Blocks → Store → β → Prop} {s s' s₀ s₁ s₁' : Store} {blocks₀ blocks₁ : Blocks}
  {r r' : EStateM.Result Stop Store α}

/-- What is true of where an evaluation leads may be told of other programs, and from elsewhere. -/
theorem transport {u : Twins} {goal : Blocks → Store → α → Prop} {top' : Option ScopeRef}
    (h : t.Mirrors move post top blocks s r r')
    (hleads : ∀ blocks₁ s₁ s₁', t.Leads top blocks s blocks₁ s₁ s₁' →
      u.Leads top' blocks₀ s₀ blocks₁ s₁ s₁')
    (hpost : ∀ a blocks₁ s₁ s₁', t.Leads top blocks s blocks₁ s₁ s₁' → post blocks₁ s₁ a →
      goal blocks₁ s₁ a) : u.Mirrors move goal top' blocks₀ s₀ r r' := by
  cases r with
  | ok a s₁ =>
    obtain ⟨blocks₁, s₁', hr', harrived, ha⟩ := h
    exact ⟨blocks₁, s₁', hr', hleads _ _ _ harrived, hpost a _ _ _ harrived ha⟩
  | error e s₁ =>
    rcases e with _ | e | _
    · trivial
    · obtain ⟨blocks₁, s₁', hr', harrived⟩ := h
      exact ⟨blocks₁, s₁', hr', hleads _ _ _ harrived⟩
    · trivial

/-- What goes on where another evaluation has led. -/
theorem of_leads (hleads : t.Leads top blocks s blocks₁ s₁ s₁')
    (h : t.Mirrors move post top blocks₁ s₁ r r') : t.Mirrors move post top blocks s r r' :=
  h.transport (fun _ _ _ => hleads.trans) fun _ _ _ _ _ ha => ha

/-- What changes no block may change one. -/
theorem of_none (h : t.Mirrors move post none blocks s r r') :
    t.Mirrors move post top blocks s r r' :=
  h.transport (fun _ _ _ => Leads.of_none) fun _ _ _ _ _ ha => ha

/-- What goes on in a block that was not there is not seen outside of it. -/
theorem of_new {ref : ScopeRef} (hnew : t.Leads none blocks s blocks₁ s₁ s₁')
    (href : s.scopes.size ≤ ref.index) (h : t.Mirrors move post (some ref) blocks₁ s₁ r r') :
    t.Mirrors move post none blocks s r r' :=
  h.transport (fun _ _ _ => hnew.of_new href) fun _ _ _ _ _ ha => ha

theorem imp {post' : Blocks → Store → α → Prop} (h : t.Mirrors move post top blocks s r r')
    (himp : ∀ a blocks₁ s₁ s₁', t.Leads top blocks s blocks₁ s₁ s₁' → post blocks₁ s₁ a →
      post' blocks₁ s₁ a) : t.Mirrors move post' top blocks s r r' :=
  h.transport (fun _ _ _ hleads => hleads) himp

theorem pure {a a' : α} (h : t.At blocks s s') (ha : a' = move a) (hpost : post blocks s a) :
    t.Mirrors move post top blocks s ((Pure.pure a : Eval α) s) ((Pure.pure a' : Eval α) s') := by
  subst ha
  exact ⟨blocks, s', rfl, .refl h, hpost⟩

theorem fail {position : Position} {c : Cause} (h : t.At blocks s s') :
    t.Mirrors move post top blocks s ((Eval.fail position c : Eval α) s)
      ((Eval.fail position c : Eval α) s') := ⟨blocks, s', rfl, .refl h⟩

/-- The result of an operator in both programs. -/
theorem located {position : Position} {x x' : Except Cause α} (h : t.At blocks s s')
    (hx : x' = x.map move) (hpost : ∀ a, x = .ok a → post blocks s a) :
    t.Mirrors move post top blocks s (Eval.located position x s) (Eval.located position x' s') := by
  subst hx
  cases x with
  | ok a => exact .pure h rfl (hpost a rfl)
  | error c => exact .fail h

/-- Evaluations one after another. -/
theorem bind {x x' : Eval α} {f f' : α → Eval β}
    (hx : t.Mirrors move post top blocks s (x s) (x' s'))
    (hf : ∀ a blocks₁ s₁ s₁', t.Leads top blocks s blocks₁ s₁ s₁' → post blocks₁ s₁ a →
      t.Mirrors after goal top blocks₁ s₁ (f a s₁) (f' (move a) s₁')) :
    t.Mirrors after goal top blocks s ((x >>= f) s) ((x' >>= f') s') := by
  change t.Mirrors after goal top blocks s (EStateM.bind x f s) (EStateM.bind x' f' s')
  rw [EStateM.bind, EStateM.bind]
  cases hrun : x s with
  | ok a s₁ =>
    rw [hrun] at hx
    obtain ⟨blocks₁, s₁', hrun', hleads, hpost⟩ := hx
    rw [hrun']
    exact .of_leads hleads (hf a blocks₁ s₁ s₁' hleads hpost)
  | error e s₁ =>
    rw [hrun] at hx
    rcases e with _ | e | _
    · trivial
    · obtain ⟨blocks₁, s₁', hrun', hleads⟩ := hx
      rw [hrun']
      exact ⟨blocks₁, s₁', rfl, hleads⟩
    · trivial

/-- An evaluation that changes no block comes first. -/
theorem of_none_bind {x x' : Eval α} {f f' : α → Eval β}
    (hx : t.Mirrors move post none blocks s (x s) (x' s'))
    (hf : ∀ a blocks₁ s₁ s₁', t.Leads none blocks s blocks₁ s₁ s₁' →
      (∀ ref : ScopeRef, ref.index < s.scopes.size → blocks₁ ref = blocks ref) → post blocks₁ s₁ a →
      t.Mirrors after goal top blocks₁ s₁ (f a s₁) (f' (move a) s₁')) :
    t.Mirrors after goal top blocks s ((x >>= f) s) ((x' >>= f') s') := by
  have hstrong : t.Mirrors move (fun blocks₁ s₁ a => (∃ s₁', t.Leads none blocks s blocks₁ s₁ s₁') ∧
      post blocks₁ s₁ a) none blocks s (x s) (x' s') :=
    hx.imp fun a blocks₁ s₁ s₁' hleads hpost => ⟨⟨s₁', hleads⟩, hpost⟩
  refine hstrong.of_none.bind fun a blocks₁ s₁ s₁' hleads hpost => ?_
  obtain ⟨⟨_, hnone⟩, hpost⟩ := hpost
  have hsame : ∀ ref : ScopeRef, ref.index < s.scopes.size → blocks₁ ref = blocks ref :=
    fun _ href => hnone.grows.eq_of_none href
  exact hf a blocks₁ s₁ s₁' ⟨hnone.grows, hleads.arrived⟩ hsame hpost

/-- Something is read off both stores first. -/
theorem read {x x' : Store → α} {f f' : α → Eval β}
    (h : t.Mirrors after goal top blocks s (f (x s) s) (f' (x' s') s')) :
    t.Mirrors after goal top blocks s ((Eval.fromStore x >>= f) s)
      ((Eval.fromStore x' >>= f') s') := h

end Mirrors

end Twins

end ScriptEngine
