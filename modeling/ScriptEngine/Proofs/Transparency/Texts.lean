import ScriptEngine.Proofs.Syntax.Parsed
import ScriptEngine.Proofs.Transparency.Calls
import ScriptEngine.Proofs.Transparency.Places

/-!
# Texts one after another

Texts are evaluated one after another, in programs that hold all that came before.  What they leave
is known to the next one: nothing is removed from the top level, and functions of earlier texts stay
where they are.

## Main definitions

* `Twins.ofTexts` — the programs of some texts and of what they are folded to.

## Main results

* `Twins.extends_ofTexts` — functions of earlier texts stay known.
* `Twins.mirrors_evalText` — **the evaluation of a text does in the folded program what it does in
  the plain one.**
-/

namespace ScriptEngine

open Node

/-! ### The block of the top level -/

/-- Nothing changes in a block from which nothing is removed. -/
theorem Block.Leads.plain {b : Block} (h : Block.plain.Leads b) : b = Block.plain := by
  obtain ⟨hbinds, -, hpending, hpassed⟩ := h
  obtain ⟨gone, pending, binds⟩ := b
  obtain rfl : gone = [] := List.subset_nil.1 hpassed
  obtain rfl : pending = [] := List.subset_nil.1 hpending
  obtain rfl : binds = _ := hbinds
  rfl

/-- What is known at the beginning of a text. -/
theorem Stage.root {blocks : Blocks} {size : Nat} {root : ScopeRef} {places : List Nat}
    (hblock : blocks root = Block.plain) (hsize : root.index < size) {chunk : Chunk}
    (htargeted : (Node.chunk chunk).All Targeted) :
    Stage [] blocks size ⟨[root], [], 0, places⟩ root [] (fun _ => True) (boundNames chunk) true
      chunk where
  scopes := rfl
  shaded := List.pairwise_singleton _ _
  inside := List.forall_mem_singleton.2 hsize
  targeted := htargeted
  mentions _ _ := trivial
  fits name _ :=
    { known := nofun
      unknown := fun _ => List.forall_mem_singleton.2 (by simp [hblock, Block.Gone, Block.plain]) }
  within := .refl _
  binds _ _ := by
    rw [hblock]
    trivial
  pending := by rw [hblock, removedFrom_root, Block.plain]
  gone name _ := by simp [hblock, Block.Gone, Block.plain]
  free _ _ := nofun
  early _ _ := nofun

namespace Twins

/-- The programs of some texts and of what they are folded to, where calls back are evaluated. -/
def ofTexts (place : Nat → Nat) (config config' : Config) (natives : Builtin → NativeBody)
    (n fuel : Nat) (texts : List Chunk) : Twins :=
  nested place config config' natives (.ofTexts texts) (.ofTexts (texts.map optimize)) n fuel

variable {place : Nat → Nat} {config config' : Config} {natives : Builtin → NativeBody}
  {n n' fuel : Nat} {chunk : Chunk} {earlier : List Chunk} {blocks : Blocks} {s s' : Store}
  {root : ScopeRef}

/-- **Functions of earlier texts stay known.** -/
theorem extends_ofTexts :
    (ofTexts place config config' natives n fuel earlier).Extends
      (ofTexts place config config' natives n' fuel (chunk :: earlier)) where
  place := rfl
  plain entry f h := by
    simp only [ofTexts, nested, functions_nested] at h ⊢
    exact FunctionTable.lookup_ofTexts_cons h
  folded entry f h := by
    simp only [ofTexts, nested, functions_nested] at h ⊢
    exact FunctionTable.lookup_ofTexts_cons h

/-- The function literals of a text correspond to those of what it is folded to. -/
theorem linked_ofTexts (h : Relocates place (chunk :: earlier)) :
    (ofTexts place config config' natives n fuel (chunk :: earlier)).Linked
      (chunkPlaces (Program.ofTexts earlier).size chunk)
      (chunkPlaces (Program.ofTexts (earlier.map optimize)).size (optimize chunk)) 0 0
      (chunkFunctions chunk) (chunkFunctions (optimize chunk))
      (chunkKept (boundNames chunk) true [] 0 chunk) where
  moves i number hi := by
    rw [Nat.zero_add]
    exact h.1 i number hi
  plain := by
    simp only [ofTexts, nested, functions_nested]
    exact FunctionTable.lists_ofTexts chunk earlier
  folded := by
    simp only [ofTexts, nested, functions_nested]
    exact FunctionTable.lists_ofTexts (optimize chunk) (earlier.map optimize)

/-- **The evaluation of a text does in the folded program what it does in the plain one.** -/
theorem mirrors_evalText (hosts : String → NativeBody) (hplace : Function.Injective place)
    (hdepth : config'.maxCallDepth = config.maxCallDepth)
    (htexts : Relocates place (chunk :: earlier)) (htargeted : (Node.chunk chunk).All Targeted)
    (hsafe : foldsSafely (boundNames chunk) true [] chunk)
    (hat : (ofTexts place config config' (discreet (Library.run hosts)) n fuel
      (chunk :: earlier)).At blocks s s')
    (hblock : blocks root = Block.plain) (hsize : root.index < s.scopes.size) :
    let t := ofTexts place config config' (discreet (Library.run hosts)) n fuel (chunk :: earlier)
    t.Mirrors (Value.moved t.place) t.KnownValue (some root) blocks s
      (evalText t.plain (Program.ofTexts earlier).size root n chunk s)
      (evalText t.folded (Program.ofTexts (earlier.map optimize)).size root n
        (optimize chunk) s') := by
  intro t
  have hsimulates : t.Simulates n := simulates_nested hplace hdepth hosts fuel
  have hstage : Stage [] blocks s.scopes.size
      ⟨[root], [], 0, chunkPlaces (Program.ofTexts earlier).size chunk⟩ root [] (fun _ => True)
      (boundNames chunk) true chunk := .root hblock hsize htargeted
  have hchunk :=
    hsimulates.chunk (Nat.le_refl n) hat (fun hkeep : true = true => hkeep) hstage hsafe
    (linked_ofTexts htexts)
  rw [evalText, evalText]
  refine hchunk.bind fun o blocks₁ s₁ s₁' hleads hends => ?_
  obtain ⟨hends, -⟩ := hends
  cases o with
  | next kept =>
    refine .pure hleads.arrived ?_ ?_
    · cases kept <;> rfl
    · cases kept with
      | none => trivial
      | some v => exact hends.2 v rfl
  | leave => exact .undecided
  | result values =>
    have hvalues : t.KnownValues blocks₁ s₁ values := hends
    exact .pure hleads.arrived (headD_map_moved values) hvalues.headD

end Twins

end ScriptEngine
