import ScriptEngine.Proofs.Scoping.Parts
import ScriptEngine.Proofs.Transparency.Twins

/-!
# Variables and tables of both programs

What reads and changes a store does so alike in the store of a program and in that of what it has
been folded to, as long as the variables whose declarations have been removed are left alone.  The
declaration of one of these changes the first store only.

## Main results

* `Twins.Alike.read`, `Twins.Alike.read_of_gone` — variables are read alike, and those that are
  gone from the second program have the values of their literals in the first one.
* `Twins.At.declare`, `Twins.At.write` — variables are changed alike.
* `Twins.At.pass` — a declaration that the second program does not have.
* `Twins.Mirrors.introduceAll` — variables that a block begins with.
* `Twins.Mirrors.putPairs` — tables are changed alike.
-/

namespace ScriptEngine

open Node

/-! ### Scopes of a store -/

theorem Bindings.declare_declare (b : Bindings) (name : String) (v w : Value) :
    (b.declare name v).declare name w = b.declare name w := by
  induction b with
  | nil => simp [declare]
  | cons e rest ih =>
    obtain ⟨other, u⟩ := e
    by_cases h : other = name
    · simp [declare, h]
    · simp [declare, h, ih]

namespace Store

variable {s : Store} {ref : ScopeRef} {name : String} {v w : Value}

theorem declare_declare : (s.declare ref name v).declare ref name w = s.declare ref name w := by
  have hscopes :
      (s.scopes.modify ref.index (·.declare name v)).modify ref.index (·.declare name w) =
      s.scopes.modify ref.index (·.declare name w) := by
    refine Array.ext_getElem? fun i => ?_
    simp only [Array.getElem?_modify]
    split
    · simp [Function.comp_def, Bindings.declare_declare]
    · rfl
  exact congrArg (fun scopes => { s with scopes := scopes }) hscopes

/-- The variables of scopes behind a declaration. -/
theorem get?_scope_declare (other : ScopeRef) (n : String) :
    ((s.declare ref name v).scope other).get? n =
      if other = ref ∧ ref.index < s.scopes.size ∧ name = n then some v
      else (s.scope other).get? n := by
  have hscope : (s.declare ref name v).scope other =
      ((s.scopes.modify ref.index (·.declare name v))[other.index]?).getD [] := rfl
  rw [hscope, Array.getElem?_modify, scope]
  by_cases hindex : ref.index = other.index
  · obtain rfl : ref = other := congrArg ScopeRef.mk hindex
    by_cases hsize : ref.index < s.scopes.size
    · simp [hsize]
    · simp [hsize]
  · have hne : other ≠ ref := fun heq => hindex (heq ▸ rfl)
    simp [hindex, hne]

@[simp] theorem size_declare : (s.declare ref name v).scopes.size = s.scopes.size :=
  Array.size_modify

/-- The variables of scopes behind one that has been made. -/
theorem get?_scope_newScope (other : ScopeRef) (n : String) :
    (s.newScope.2.scope other).get? n = (s.scope other).get? n := by
  have hscope : s.newScope.2.scope other = ((s.scopes.push [])[other.index]?).getD [] := rfl
  rw [hscope, Array.getElem?_push, scope]
  split
  · next heq => simp [heq, Bindings.get?]
  · rfl

@[simp] theorem size_newScope : s.newScope.2.scopes.size = s.scopes.size + 1 :=
  Array.size_push _

/-- What a variable is given that is declared in the innermost scope. -/
theorem write_declare {outer : List ScopeRef} (h : ref.index < s.scopes.size) :
    (s.declare ref name .nil).write (ref :: outer) name v = s.declare ref name v := by
  have hcontains : ((s.declare ref name .nil).scope ref).contains name = true := by
    simp [Bindings.contains, get?_scope_declare, h]
  rw [write, Exec.findScope, if_pos hcontains]
  exact declare_declare

@[simp] theorem size_write (reach : List ScopeRef) :
    (s.write reach name v).scopes.size = s.scopes.size := by
  rw [write]
  split
  · exact size_declare
  · split <;> rfl

variable {E : Functions}

theorem Known.read (h : s.Known E) (reach : List ScopeRef) (name : String) :
    (s.read reach name).Known E := by
  rw [Store.read]
  split
  · exact (h.scope _).getD name
  · exact h.globals.getD name

theorem Known.index (h : s.Known E) {target key : Value} (hv : s.index target key = .ok v) :
    v.Known E := by
  cases target with
  | nil =>
    obtain rfl : Value.nil = v := Except.ok.inj hv
    trivial
  | table ref =>
    simp only [Store.index] at hv
    split at hv
    · cases hv
      trivial
    · split at hv
      · cases hv
        exact (h.table ref).get _
      · cases hv
  | _ => cases hv

end Store

/-- A variable is there where it is found. -/
theorem contains_of_findScope {s : Store} {name : String} {reach : List ScopeRef} {ref : ScopeRef}
    (h : Exec.findScope s name reach = some ref) : (s.scope ref).contains name = true := by
  induction reach with
  | nil => cases h
  | cons first rest ih =>
    rw [Exec.findScope] at h
    split at h
    · next hcontains =>
      obtain rfl := Option.some.inj h
      exact hcontains
    · exact ih h

/-- Evaluations that introduce a variable declare it. -/
theorem introduce_eq {c : Context} {ref : ScopeRef} {outer : List ScopeRef} {s : Store}
    (hscopes : c.scopes = ref :: outer) (hsize : ref.index < s.scopes.size) (name : String)
    (v : Value) : introduce c name v s = .ok () (s.declare ref name v) := by
  have hreach : c.reach = ref :: (outer ++ c.captured) := by rw [Context.reach, hscopes]; rfl
  simp only [introduce, hscopes, Eval.modifyStore]
  rw [hreach, Store.write_declare hsize]

namespace Twins

variable {t : Twins} {top : Option ScopeRef} {blocks blocks₁ : Blocks} {s s' s₁ s₁' : Store}
  {ref : ScopeRef} {reach : List ScopeRef} {name : String} {v : Value}

/-! ### Reading variables -/

namespace Alike

theorem findScope_eq (h : t.Alike blocks s s') (hgone : ∀ ref ∈ reach, ¬ (blocks ref).Gone name) :
    Exec.findScope s' name reach = Exec.findScope s name reach := by
  induction reach with
  | nil => rfl
  | cons ref rest ih =>
    obtain ⟨hfirst, hrest⟩ := List.forall_mem_cons.1 hgone
    have hcontains : (s'.scope ref).contains name = (s.scope ref).contains name := by
      rw [Bindings.contains, Bindings.contains, h.kept ref name hfirst, Option.isSome_map]
    rw [Exec.findScope, Exec.findScope, hcontains, ih hrest]

/-- **Variables are read alike.** -/
theorem read (h : t.Alike blocks s s') (hgone : ∀ ref ∈ reach, ¬ (blocks ref).Gone name) :
    s'.read reach name = (s.read reach name).moved t.place := by
  rw [Store.read, Store.read, h.findScope_eq hgone]
  cases hfound : Exec.findScope s name reach with
  | none =>
    rw [h.globals]
    simp only [Bindings.get?_moved]
    cases s.globals.get? name <;> rfl
  | some ref =>
    simp only [h.kept ref name (hgone ref (findScope_mem hfound))]
    cases (s.scope ref).get? name <;> rfl

/-- **A variable that is gone has the value of its literal in the plain program.** -/
theorem read_of_gone (h : t.Alike blocks s s') (hshaded : blocks.Shaded reach) {literal : Literal}
    (href : ref ∈ reach) (hgone : (name, literal) ∈ (blocks ref).gone) :
    s.read reach name = literal.toValue := by
  have hvalue := h.gone ref name literal hgone
  have hfound : Exec.findScope s name reach = some ref := by
    clear hvalue
    induction reach with
    | nil => cases href
    | cons first rest ih =>
      obtain ⟨hfirst, hrest⟩ := List.pairwise_cons.1 hshaded
      rw [Exec.findScope]
      rcases List.mem_cons.1 href with rfl | href
      · rw [if_pos]
        rw [Bindings.contains, h.gone ref name literal hgone]
        rfl
      · -- The scopes further in do not have the variable, as it is not declared in their blocks.
        have hnone : (s.scope first).get? name = none := by
          cases hget : (s.scope first).get? name with
          | none => rfl
          | some v =>
            have hbinds := h.binds first name v hget
            exact absurd hbinds (hfirst ref href name (.inl ⟨literal, hgone⟩))
        rw [if_neg (by simp [Bindings.contains, hnone])]
        exact ih hrest href
  rw [Store.read, hfound]
  simp [hvalue]

end Alike

/-! ### Changing variables -/

/-- A change of the stores that makes no scopes. -/
theorem At.leads (h : t.At blocks s₁ s₁') (hsize : s₁.scopes.size = s.scopes.size) :
    t.Leads top blocks s blocks s₁ s₁' := by
  refine ⟨?_, h⟩
  rw [hsize]
  exact .refl

/-- Nothing changes if only less is known to be pending. -/
theorem At.grows (h : t.At blocks s s') (hgrows : Blocks.Grows top blocks s.scopes.size blocks₁
    s.scopes.size) (hgone : ∀ ref, (blocks₁ ref).gone = (blocks ref).gone)
    (hbinds : ∀ ref, (blocks₁ ref).binds = (blocks ref).binds) : t.At blocks₁ s s' where
  alike :=
    { globals := h.alike.globals
      tables := h.alike.tables
      natives := h.alike.natives
      shown := h.alike.shown
      size := h.alike.size
      kept := fun ref name hname => h.alike.kept ref name (by rwa [Block.Gone, ← hgone ref])
      gone := fun ref name literal hmem => h.alike.gone ref name literal (by rwa [← hgone ref])
      binds := fun ref name v hv => by rw [hbinds]; exact h.alike.binds ref name v hv }
  known := h.known.mono (closures_among hgrows)

/-- A variable is declared in both programs. -/
theorem At.declare (h : t.At blocks s s') (hgone : ¬ (blocks ref).Gone name)
    (hbinds : (blocks ref).binds name) (hv : t.KnownValue blocks s v) :
    t.At blocks (s.declare ref name v) (s'.declare ref name (v.moved t.place)) where
  alike :=
    { globals := h.alike.globals
      tables := h.alike.tables
      natives := h.alike.natives
      shown := h.alike.shown
      size := by rw [Store.size_declare, Store.size_declare, h.alike.size]
      kept := fun other n hn => by
        rw [Store.get?_scope_declare, Store.get?_scope_declare, h.alike.size,
          h.alike.kept other n hn]
        split <;> rfl
      gone := fun other n literal hmem => by
        rw [Store.get?_scope_declare, if_neg]
        · exact h.alike.gone other n literal hmem
        · rintro ⟨rfl, -, rfl⟩
          exact hgone ⟨literal, hmem⟩
      binds := fun other n w hw => by
        rw [Store.get?_scope_declare] at hw
        split at hw
        · next heq =>
          obtain ⟨rfl, -, rfl⟩ := heq
          exact hbinds
        · exact h.alike.binds other n w hw }
  known := by
    rw [Store.size_declare]
    exact h.known.declare ref name hv

/-- **A declaration that has been removed** changes the plain program only. -/
theorem At.pass (h : t.At blocks s s') {literal : Literal} (hsize : ref.index < s.scopes.size)
    (hpending : (name, literal) ∈ (blocks ref).pending) (hgone : ¬ (blocks ref).Gone name)
    (hbinds : (blocks ref).binds name) :
    t.Leads (some ref) blocks s (Function.update blocks ref ((blocks ref).pass (name, literal)))
      (s.declare ref name literal.toValue) s' := by
  have hgrows : Blocks.Grows (some ref) blocks s.scopes.size
      (Function.update blocks ref ((blocks ref).pass (name, literal))) s.scopes.size :=
    .update (Block.leads_pass hpending)
  have hkept (other : ScopeRef) (n : String)
      (hn : ¬ (Function.update blocks ref ((blocks ref).pass (name, literal)) other).Gone n) :
      (s'.scope other).get? n =
        (((s.declare ref name literal.toValue).scope other).get? n).map (Value.moved t.place) := by
    rw [Store.get?_scope_declare, if_neg]
    · refine h.alike.kept other n fun hother => hn ?_
      by_cases heq : other = ref
      · subst heq
        rw [Function.update_self]
        exact (Block.leads_pass hpending).mono hother
      · rwa [Function.update_of_ne heq]
    · rintro ⟨rfl, -, rfl⟩
      rw [Function.update_self] at hn
      exact hn ⟨literal, List.mem_append_right _ (List.mem_singleton_self _)⟩
  -- What is gone now was gone before, or is the variable that is declared here.
  have hvalues (other : ScopeRef) (n : String) (literal' : Literal) (hmem : (n, literal') ∈
      (Function.update blocks ref ((blocks ref).pass (name, literal)) other).gone) :
      ((s.declare ref name literal.toValue).scope other).get? n = some literal'.toValue := by
    rw [Store.get?_scope_declare]
    by_cases heq : other = ref
    · subst heq
      rw [Function.update_self] at hmem
      rcases List.mem_append.1 hmem with hmem | hmem
      · rw [if_neg]
        · exact h.alike.gone other n literal' hmem
        · rintro ⟨-, -, rfl⟩
          exact hgone ⟨literal', hmem⟩
      · obtain ⟨rfl, rfl⟩ := Prod.ext_iff.1 (List.mem_singleton.1 hmem)
        exact if_pos ⟨rfl, hsize, rfl⟩
    · rw [Function.update_of_ne heq] at hmem
      rw [if_neg fun hother => heq hother.1]
      exact h.alike.gone other n literal' hmem
  have hsame (other : ScopeRef) :
      (Function.update blocks ref ((blocks ref).pass (name, literal)) other).binds =
        (blocks other).binds := by
    by_cases heq : other = ref
    · subst heq
      rw [Function.update_self]
      rfl
    · rw [Function.update_of_ne heq]
  have halike : t.Alike (Function.update blocks ref ((blocks ref).pass (name, literal)))
      (s.declare ref name literal.toValue) s' :=
    { globals := h.alike.globals
      tables := h.alike.tables
      natives := h.alike.natives
      shown := h.alike.shown
      size := by rw [Store.size_declare, h.alike.size]
      kept := hkept
      gone := hvalues
      binds := fun other n w hw => by
        rw [hsame]
        rw [Store.get?_scope_declare] at hw
        split at hw
        · next heq =>
          obtain ⟨rfl, -, rfl⟩ := heq
          exact hbinds
        · exact h.alike.binds other n w hw }
  refine ⟨by rwa [Store.size_declare], halike, ?_⟩
  rw [Store.size_declare]
  refine Store.Known.declare (h.known.mono (closures_among hgrows)) ref name ?_
  cases literal <;> trivial

/-- A variable is changed in both programs. -/
theorem At.write (h : t.At blocks s s') (hgone : ∀ ref ∈ reach, ¬ (blocks ref).Gone name)
    (hv : t.KnownValue blocks s v) :
    t.At blocks (s.write reach name v) (s'.write reach name (v.moved t.place)) := by
  rw [Store.write, Store.write, h.alike.findScope_eq hgone]
  cases hfound : Exec.findScope s name reach with
  | some ref =>
    have hbinds : (blocks ref).binds name := by
      obtain ⟨w, hw⟩ := Option.isSome_iff_exists.1 (contains_of_findScope hfound)
      exact h.alike.binds ref name w hw
    exact h.declare (hgone ref (findScope_mem hfound)) hbinds hv
  | none =>
    have hglobals (b b' : Bindings) (hb : b' = b.moved t.place) (hknown : b.Known _) :
        t.At blocks { s with globals := b } { s' with globals := b' } :=
      ⟨⟨hb, h.alike.tables, h.alike.natives, h.alike.shown, h.alike.size, h.alike.kept,
        h.alike.gone, h.alike.binds⟩, hknown, h.known.tables, h.known.scopes⟩
    simp only [Value.isNil_moved]
    split
    · refine hglobals _ _ ?_ (h.known.removeGlobal name).globals
      rw [h.alike.globals, Bindings.erase_moved]
    · refine hglobals _ _ ?_ (h.known.setGlobal name hv).globals
      rw [h.alike.globals, Bindings.declare_moved]

/-- A scope is made in both programs, for a block that has not begun. -/
theorem At.newScope (h : t.At blocks s s') {b : Block} (hb : b.gone = []) :
    s'.newScope.1 = s.newScope.1 ∧
      t.Leads none blocks s (Function.update blocks s.newScope.1 b) s.newScope.2 s'.newScope.2 := by
  have hgrows : Blocks.Grows none blocks s.scopes.size (Function.update blocks s.newScope.1 b)
      s.newScope.2.scopes.size := by
    have hne (ref : ScopeRef) (href : ref.index < s.scopes.size) : ref ≠ s.newScope.1 := by
      rintro rfl
      exact Nat.lt_irrefl _ href
    refine ⟨?_, fun ref href => ?_, fun ref href _ => ?_⟩
    · rw [Store.size_newScope]
      exact Nat.le_succ _
    · rw [Function.update_of_ne (hne ref href)]
      exact .refl _
    · rw [Function.update_of_ne (hne ref href)]
  have hempty (n : String) : (s.scope s.newScope.1).get? n = none := by
    have hscope : s.scope s.newScope.1 = (s.scopes[s.scopes.size]?).getD [] := rfl
    rw [hscope, Array.getElem?_eq_none (Nat.le_refl _)]
    rfl
  have halike : t.Alike (Function.update blocks s.newScope.1 b) s.newScope.2 s'.newScope.2 :=
    { globals := h.alike.globals
      tables := h.alike.tables
      natives := h.alike.natives
      shown := h.alike.shown
      size := by rw [Store.size_newScope, Store.size_newScope, h.alike.size]
      kept := fun ref n hn => by
        rw [Store.get?_scope_newScope, Store.get?_scope_newScope]
        by_cases href : ref = s.newScope.1
        · subst href
          -- Nothing was known to be gone from a scope that was not there.
          have hold : ¬ (blocks s.newScope.1).Gone n := by
            rintro ⟨literal, hmem⟩
            have hvalue := h.alike.gone _ n literal hmem
            rw [hempty] at hvalue
            cases hvalue
          exact h.alike.kept _ n hold
        · rw [Function.update_of_ne href] at hn
          exact h.alike.kept ref n hn
      gone := fun ref n literal hmem => by
        rw [Store.get?_scope_newScope]
        by_cases href : ref = s.newScope.1
        · subst href
          rw [Function.update_self, hb] at hmem
          cases hmem
        · rw [Function.update_of_ne href] at hmem
          exact h.alike.gone ref n literal hmem
      binds := fun ref n w hw => by
        rw [Store.get?_scope_newScope] at hw
        by_cases href : ref = s.newScope.1
        · subst href
          rw [hempty] at hw
          cases hw
        · rw [Function.update_of_ne href]
          exact h.alike.binds ref n w hw }
  exact ⟨congrArg ScopeRef.mk h.alike.size, hgrows, halike,
    Store.Known.newScope (h.known.mono (closures_among hgrows))⟩

/-! ### Tables -/

theorem At.withTables (h : t.At blocks s s') {tables tables' : Array Table}
    (htables : tables' = tables.map (Table.moved t.place))
    (hknown : ∀ u ∈ tables, u.Known (t.Closures blocks s.scopes.size)) :
    t.At blocks { s with tables := tables } { s' with tables := tables' } :=
  ⟨⟨h.alike.globals, htables, h.alike.natives, h.alike.shown, h.alike.size, h.alike.kept,
    h.alike.gone, h.alike.binds⟩, h.known.globals, hknown, h.known.scopes⟩

/-- A table is made in both programs. -/
theorem At.newTable (h : t.At blocks s s') {u : Table}
    (hu : u.Known (t.Closures blocks s.scopes.size)) :
    (s'.newTable (u.moved t.place)).1 = (s.newTable u).1 ∧
      t.At blocks (s.newTable u).2 (s'.newTable (u.moved t.place)).2 := by
  refine ⟨?_, h.withTables ?_ (h.known.newTable hu).tables⟩
  · exact congrArg TableRef.mk (by rw [h.alike.tables, Array.size_map])
  · rw [h.alike.tables, Array.map_push]

/-- A table is changed in both programs. -/
theorem At.modifyTable (h : t.At blocks s s') (table : TableRef) {f f' : Table → Table}
    (hf : ∀ u, f' (u.moved t.place) = (f u).moved t.place)
    (hknown : ∀ u, u.Known (t.Closures blocks s.scopes.size) →
      (f u).Known (t.Closures blocks s.scopes.size)) :
    t.At blocks (s.modifyTable table f) (s'.modifyTable table f') := by
  refine h.withTables ?_ (h.known.modifyTable table hknown).tables
  rw [h.alike.tables]
  refine Array.ext_getElem? fun i => ?_
  simp only [Array.getElem?_map, Array.getElem?_modify]
  split
  · simp [Function.comp_def, hf]
  · rfl

theorem At.setEntry (h : t.At blocks s s') (table : TableRef) (key : Key)
    (hv : t.KnownValue blocks s v) :
    t.At blocks (s.modifyTable table fun u => u.set key v)
      (s'.modifyTable table fun u => u.set key (v.moved t.place)) :=
  h.modifyTable table (fun u => (Table.set_moved u key v).symm) fun _ hu => hu.set key hv

theorem Alike.index (h : t.Alike blocks s s') (target key : Value) :
    s'.index (target.moved t.place) (key.moved t.place) =
      (s.index target key).map (Value.moved t.place) := by
  cases target with
  | table ref =>
    change s'.index (.table ref) (key.moved t.place) = _
    simp only [Store.index, Value.isNil_moved, Key.ofValue_moved, Store.table_moved h.tables]
    split
    · rfl
    · cases Key.ofValue key with
      | ok key => simp [Except.map]
      | error c => rfl
  | _ => rfl

/-! ### Evaluations that change stores -/

theorem KnownValue.leads (h : t.KnownValue blocks s v)
    (hleads : t.Leads top blocks s blocks₁ s₁ s₁') :
    t.KnownValue blocks₁ s₁ v := Value.Known.mono (closures_among hleads.grows) h

theorem KnownValues.leads {vs : List Value} (h : t.KnownValues blocks s vs)
    (hleads : t.Leads top blocks s blocks₁ s₁ s₁') : t.KnownValues blocks₁ s₁ vs :=
  AllKnown.mono (closures_among hleads.grows) h

/-- Keys and values whose functions both programs have. -/
def KnownPairs (t : Twins) (blocks : Blocks) (s : Store) (pairs : List (Value × Value)) : Prop :=
  ∀ pair ∈ pairs, t.KnownValue blocks s pair.1 ∧ t.KnownValue blocks s pair.2

theorem KnownPairs.leads {pairs : List (Value × Value)} (h : t.KnownPairs blocks s pairs)
    (hleads : t.Leads top blocks s blocks₁ s₁ s₁') : t.KnownPairs blocks₁ s₁ pairs :=
  fun pair hpair => (h pair hpair).imp (·.leads hleads) (·.leads hleads)

/-- Keys and values whose functions begin elsewhere. -/
def movedPairs (place : Nat → Nat) (pairs : List (Value × Value)) : List (Value × Value) :=
  pairs.map fun pair => (pair.1.moved place, pair.2.moved place)

/-- Nothing is known of what comes out. -/
def NothingKnown {α : Type} (_ : Blocks) (_ : Store) (_ : α) : Prop := True

namespace Mirrors

theorem change {f f' : Store → Store} (hsize : (f s).scopes.size = s.scopes.size)
    (h : t.At blocks (f s) (f' s')) :
    t.Mirrors id NothingKnown top blocks s (Eval.modifyStore f s) (Eval.modifyStore f' s') :=
  ⟨blocks, f' s', rfl, h.leads hsize, trivial⟩

/-- A scope is made in both programs, and a block is executed in it. -/
theorem newScope {α : Type} {move : α → α} {post : Blocks → Store → α → Prop}
    {f f' : ScopeRef → Eval α} {b : Block} (h : t.At blocks s s') (hb : b.gone = [])
    (hf : ∀ s₁', t.Leads none blocks s (Function.update blocks s.newScope.1 b) s.newScope.2 s₁' →
      t.Mirrors move post (some s.newScope.1) (Function.update blocks s.newScope.1 b) s.newScope.2
        (f s.newScope.1 s.newScope.2) (f' s.newScope.1 s₁')) :
    t.Mirrors move post none blocks s ((Eval.newScope >>= f) s) ((Eval.newScope >>= f') s') := by
  obtain ⟨href, hleads⟩ := h.newScope hb
  have hrun : (Eval.newScope >>= f') s' = f' s'.newScope.1 s'.newScope.2 := rfl
  have hnew : s.scopes.size ≤ s.newScope.1.index := Nat.le_refl _
  rw [hrun, href]
  exact .of_new hleads hnew (hf _ hleads)

/-- Values are put into a table. -/
theorem putPairs (h : t.At blocks s s') (position : Position) (table : TableRef)
    {pairs : List (Value × Value)} (hpairs : t.KnownPairs blocks s pairs) :
    t.Mirrors id NothingKnown none blocks s (putPairs position table pairs s)
      (ScriptEngine.putPairs position table (movedPairs t.place pairs) s') := by
  induction pairs generalizing s s' with
  | nil => exact .pure h rfl trivial
  | cons pair rest ih =>
    obtain ⟨key, v⟩ := pair
    obtain ⟨⟨-, hv⟩, hrest⟩ := List.forall_mem_cons.1 hpairs
    rw [movedPairs, List.map_cons, ScriptEngine.putPairs, ScriptEngine.putPairs, Value.isNil_moved]
    split
    · exact .fail h
    · rw [Key.ofValue_moved]
      cases Key.ofValue key with
      | error c => exact .fail h
      | ok key =>
        have hset := h.setEntry table key hv
        exact .of_leads (hset.leads rfl) (ih hset hrest)

theorem putAt (h : t.At blocks s s') (position : Position) {target key v : Value}
    (hkey : t.KnownValue blocks s key) (hv : t.KnownValue blocks s v) :
    t.Mirrors id NothingKnown none blocks s (putAt position target key v s)
      (ScriptEngine.putAt position (target.moved t.place) (key.moved t.place) (v.moved t.place)
        s') := by
  cases target with
  | table ref => exact .putPairs h position ref (List.forall_mem_singleton.2 ⟨hkey, hv⟩)
  | _ => exact .fail h

/-- A block begins with variables. -/
theorem introduceAll (h : t.At blocks s s') {c c' : Context} {outer outer' : List ScopeRef}
    (hscopes : c.scopes = ref :: outer) (hscopes' : c'.scopes = ref :: outer')
    (hsize : ref.index < s.scopes.size) {names : List Identifier}
    (hnames : ∀ name ∈ names, ¬ (blocks ref).Gone name.name ∧ (blocks ref).binds name.name)
    {vs : List Value} (hvs : t.KnownValues blocks s vs) :
    t.Mirrors id (fun blocks₁ s₁ _ => blocks₁ = blocks ∧ s₁.scopes.size = s.scopes.size) none
      blocks s
      (introduceAll c names vs s)
      (ScriptEngine.introduceAll c' names (vs.map (Value.moved t.place)) s') := by
  induction names generalizing vs with
  | nil => exact .pure h rfl ⟨rfl, rfl⟩
  | cons name rest ih =>
    obtain ⟨⟨hgone, hbinds⟩, hrest⟩ := List.forall_mem_cons.1 hnames
    rw [ScriptEngine.introduceAll, ScriptEngine.introduceAll, ← List.map_tail]
    have htail : t.KnownValues blocks s vs.tail := fun v hv => hvs v (List.mem_of_mem_tail hv)
    refine (ih hrest htail).bind ?_
    rintro ⟨⟩ blocks₁ s₁ s₁' hleads ⟨rfl, hsize₁⟩
    have hindex : ref.index < s₁.scopes.size := by rwa [hsize₁]
    have hhead : t.KnownValue blocks₁ s₁ (vs.headD .nil) := KnownValue.leads hvs.headD hleads
    have hdeclared := hleads.arrived.declare hgone hbinds hhead
    rw [introduce_eq hscopes hindex, introduce_eq hscopes' (by rwa [hleads.arrived.alike.size]),
      headD_map_moved]
    exact ⟨blocks₁, _, rfl, hdeclared.leads Store.size_declare, rfl, by
      rw [Store.size_declare, hsize₁]⟩

/-- Variables are declared without a value. -/
theorem declareAll (h : t.At blocks s s') {c c' : Context} {outer outer' : List ScopeRef}
    (hscopes : c.scopes = ref :: outer) (hscopes' : c'.scopes = ref :: outer')
    {names : List Identifier}
    (hnames : ∀ name ∈ names, ¬ (blocks ref).Gone name.name ∧ (blocks ref).binds name.name) :
    t.Mirrors id NothingKnown none blocks s (declareAll c names s)
      (ScriptEngine.declareAll c' names s') := by
  induction names generalizing s s' with
  | nil => exact .pure h rfl trivial
  | cons name rest ih =>
    obtain ⟨⟨hgone, hbinds⟩, hrest⟩ := List.forall_mem_cons.1 hnames
    simp only [ScriptEngine.declareAll, hscopes, hscopes']
    have hdeclared := h.declare hgone hbinds (v := .nil) trivial
    exact .of_leads (hdeclared.leads Store.size_declare) (ih hdeclared hrest)

end Mirrors

end Twins

end ScriptEngine
