import Mathlib.Algebra.Order.BigOperators.Group.List
import ScriptEngine.Proofs.Compilation.Placement
import ScriptEngine.Proofs.Transparency.Twins

/-!
# Where functions begin in both programs

The functions of texts that are loaded one after another begin one behind the other.  The ones that
folding leaves keep their order, so that there is one injective map that takes every place in the
plain program to the one in the folded program, for all texts at once.

## Main definitions

* `textPairs`, `pairsOfTexts` — where functions begin in the plain program and in the folded one.
* `Relocates` — a map takes the places of some texts to those of what they are folded to.

## Main results

* `FunctionTable.lists_ofTexts`, `FunctionTable.lookup_ofTexts_cons` — the functions of texts are
  found where they begin.
* `exists_place` — there is an injective map for all texts.
-/

namespace ScriptEngine

/-! ### Looking up what is listed once -/

theorem lookup_zip_of_nodup {α : Type} {keys : List Nat} {values : List α} {i k : Nat} {v : α}
    (hnodup : keys.Nodup) (hkey : keys[i]? = some k) (hvalue : values[i]? = some v) :
    (keys.zip values).lookup k = some v := by
  induction keys generalizing values i with
  | nil => simp at hkey
  | cons key keys ih =>
    obtain ⟨hnot, hnodup⟩ := List.nodup_cons.1 hnodup
    cases values with
    | nil => simp at hvalue
    | cons value values =>
      cases i with
      | zero =>
        obtain rfl : key = k := Option.some.inj hkey
        obtain rfl : value = v := Option.some.inj hvalue
        simp
      | succ i =>
        have hne : (k == key) = false := by
          rw [beq_eq_false_iff_ne]
          rintro rfl
          exact hnot (List.mem_of_getElem? hkey)
        rw [List.zip_cons_cons, List.lookup_cons, hne]
        exact ih hnodup hkey hvalue

/-- Pairs in which nothing stands twice are part of an injective map. -/
theorem exists_injective {pairs : List (Nat × Nat)} (hkeys : (pairs.map Prod.fst).Nodup)
    (hvalues : (pairs.map Prod.snd).Nodup) :
    ∃ place : Nat → Nat, Function.Injective place ∧ ∀ pair ∈ pairs, place pair.1 = pair.2 := by
  have hmem {n v : Nat} (h : pairs.lookup n = some v) : (n, v) ∈ pairs := by
    obtain ⟨before, behind, rfl, -⟩ := List.lookup_eq_some_iff.1 h
    exact List.mem_append_right _ List.mem_cons_self
  have hlookup (pair : Nat × Nat) (hpair : pair ∈ pairs) : pairs.lookup pair.1 = some pair.2 := by
    obtain ⟨i, hi⟩ := List.mem_iff_getElem?.1 hpair
    have hfst : (pairs.map Prod.fst)[i]? = some pair.1 := by
      rw [List.getElem?_map, hi]
      rfl
    have hsnd : (pairs.map Prod.snd)[i]? = some pair.2 := by
      rw [List.getElem?_map, hi]
      rfl
    have hzip := lookup_zip_of_nodup hkeys hfst hsnd
    rwa [← List.unzip_fst, ← List.unzip_snd, List.zip_unzip] at hzip
  -- Where no function begins, the map goes behind all places of the folded program.
  let bound := (pairs.map Prod.snd).sum + 1
  have hbound {n v : Nat} (h : pairs.lookup n = some v) : v < bound :=
    Nat.lt_succ_of_le (List.le_sum_of_mem (List.mem_map_of_mem (hmem h)))
  refine ⟨fun n => (pairs.lookup n).getD (bound + n), fun m n heq => ?_, fun pair hpair => ?_⟩
  · cases hm : pairs.lookup m with
    | none =>
      cases hn : pairs.lookup n with
      | none =>
        simp only [hm, hn, Option.getD_none] at heq
        exact Nat.add_left_cancel heq
      | some w =>
        have hw := hbound hn
        simp only [hm, hn, Option.getD_none, Option.getD_some] at heq
        omega
    | some v =>
      cases hn : pairs.lookup n with
      | none =>
        have hv := hbound hm
        simp only [hm, hn, Option.getD_none, Option.getD_some] at heq
        omega
      | some w =>
        obtain rfl : v = w := by simpa only [hm, hn, Option.getD_some] using heq
        exact congrArg Prod.fst (List.inj_on_of_nodup_map hvalues (hmem hm) (hmem hn) rfl)
  · simp only [hlookup pair hpair, Option.getD_some]

/-! ### Places of pieces of code -/

section

variable {start : Nat} {codes : List Code}

theorem le_of_mem_placesFrom {place : Nat} (h : place ∈ placesFrom start codes) :
    start ≤ place := by
  induction codes generalizing start with
  | nil => cases h
  | cons code rest ih =>
    rcases List.mem_cons.1 h with rfl | h
    · exact Nat.le_refl _
    · exact Nat.le_trans (Nat.le_add_right _ _) (ih h)

theorem lt_of_mem_placesFrom (hcodes : ∀ code ∈ codes, 0 < code.length) {place : Nat}
    (h : place ∈ placesFrom start codes) : place < start + codes.flatten.length := by
  induction codes generalizing start with
  | nil => cases h
  | cons code rest ih =>
    obtain ⟨hcode, hrest⟩ := List.forall_mem_cons.1 hcodes
    rw [List.flatten_cons, List.length_append]
    rcases List.mem_cons.1 h with rfl | h
    · omega
    · have hlt := ih hrest h
      omega

theorem pairwise_placesFrom (hcodes : ∀ code ∈ codes, 0 < code.length) :
    (placesFrom start codes).Pairwise (· < ·) := by
  induction codes generalizing start with
  | nil => exact .nil
  | cons code rest ih =>
    obtain ⟨hcode, hrest⟩ := List.forall_mem_cons.1 hcodes
    refine .cons (fun place hplace => ?_) (ih hrest)
    have hle := le_of_mem_placesFrom hplace
    omega

end

/-! ### Places of the functions of a text -/

section

variable {size : Nat} {chunk : Chunk} {earlier : List Chunk}

theorem length_functionCodes_pos {next : Nat} {fs : List FunctionLiteral} :
    ∀ code ∈ functionCodes next fs, 0 < code.length := by
  induction fs generalizing next with
  | nil => nofun
  | cons f rest ih =>
    refine List.forall_mem_cons.2 ⟨?_, ih⟩
    simp [FunctionLiteral.code]

theorem length_chunkPlaces : (chunkPlaces size chunk).length = (chunkFunctions chunk).length := by
  rw [chunkPlaces, length_placesFrom, length_functionCodes]

theorem pairwise_chunkPlaces : (chunkPlaces size chunk).Pairwise (· < ·) :=
  pairwise_placesFrom length_functionCodes_pos

theorem nodup_chunkPlaces : (chunkPlaces size chunk).Nodup :=
  pairwise_chunkPlaces.imp Nat.ne_of_lt

theorem le_of_mem_chunkPlaces {place : Nat} (h : place ∈ chunkPlaces size chunk) : size ≤ place :=
  le_of_mem_placesFrom h

/-- Functions begin inside of the program. -/
theorem lt_of_mem_chunkPlaces {place : Nat}
    (h : place ∈ chunkPlaces (Program.ofTexts earlier).size chunk) :
    place < (Program.ofTexts (chunk :: earlier)).size := by
  have hlt := lt_of_mem_placesFrom length_functionCodes_pos h
  rw [← Program.start_extend] at hlt
  exact Nat.lt_of_lt_of_le hlt (by rw [Program.ofTexts, Program.size_extend]; omega)

theorem entryAt_of_getElem? {places : List Nat} {i place : Nat} (h : places[i]? = some place) :
    entryAt places i = place := by rw [entryAt, h, Option.getD_some]

end

/-! ### Functions of texts -/

namespace FunctionTable

variable {chunk : Chunk} {earlier : List Chunk} {entry : Nat} {f : PlacedFunction}

/-- A function of a text begins at its place. -/
theorem lookup_ofChunk {size i place : Nat} {literal : FunctionLiteral}
    (hplace : (chunkPlaces size chunk)[i]? = some place)
    (hliteral : (chunkFunctions chunk)[i]? = some literal) :
    (ofChunk size chunk).lookup place = some ⟨literal, i, chunkPlaces size chunk⟩ := by
  refine lookup_zip_of_nodup nodup_chunkPlaces hplace ?_
  rw [List.getElem?_map, List.getElem?_zipIdx, hliteral, Nat.zero_add]
  rfl

theorem fst_of_lookup_ofChunk {size : Nat} (h : (ofChunk size chunk).lookup entry = some f) :
    entry ∈ chunkPlaces size chunk := by
  obtain ⟨before, behind, heq, -⟩ := List.lookup_eq_some_iff.1 h
  have hmem : (entry, f) ∈ ofChunk size chunk := by
    rw [heq]
    exact List.mem_append_right _ List.mem_cons_self
  exact (List.of_mem_zip hmem).1

/-- The functions of earlier texts begin in front of a text. -/
theorem lt_of_lookup_ofTexts (h : (ofTexts earlier).lookup entry = some f) :
    entry < (Program.ofTexts earlier).size := by
  induction earlier with
  | nil => cases h
  | cons chunk earlier ih =>
    rw [ofTexts, List.lookup_append, Option.or_eq_some_iff] at h
    rcases h with hnew | ⟨-, hold⟩
    · exact lt_of_mem_chunkPlaces (fst_of_lookup_ofChunk hnew)
    · refine Nat.lt_of_lt_of_le (ih hold) ?_
      rw [Program.ofTexts, Program.size_extend, Program.start_extend]
      omega

/-- **The functions of earlier texts stay where they are.** -/
theorem lookup_ofTexts_cons (h : (ofTexts earlier).lookup entry = some f) :
    (ofTexts (chunk :: earlier)).lookup entry = some f := by
  rw [ofTexts, List.lookup_append, Option.or_eq_some_iff]
  refine .inr ⟨?_, h⟩
  rw [Option.eq_none_iff_forall_ne_some]
  intro g hg
  have hle := le_of_mem_chunkPlaces (fst_of_lookup_ofChunk hg)
  exact absurd (lt_of_lookup_ofTexts h) (Nat.not_lt.2 hle)

/-- **The functions of a text begin at their places.** -/
theorem lists_ofTexts (chunk : Chunk) (earlier : List Chunk) :
    (ofTexts (chunk :: earlier)).Lists (chunkPlaces (Program.ofTexts earlier).size chunk) 0
      (chunkFunctions chunk) := by
  intro i literal hliteral
  have hlt : i < (chunkPlaces (Program.ofTexts earlier).size chunk).length := by
    rw [length_chunkPlaces]
    exact (List.getElem?_eq_some_iff.1 hliteral).1
  have hplace := List.getElem?_eq_getElem hlt
  rw [Nat.zero_add, entryAt_of_getElem? hplace, ofTexts, List.lookup_append,
    lookup_ofChunk hplace hliteral]
  rfl

end FunctionTable

/-! ### The map of places -/

/-- Where the functions that are left of a text begin, in the plain program and in the folded
one. -/
def textPairs (chunk : Chunk) (size size' : Nat) : List (Nat × Nat) :=
  ((chunkKept (boundNames chunk) true [] 0 chunk).map (entryAt (chunkPlaces size chunk))).zip
    (chunkPlaces size' (optimize chunk))

/-- The same of texts that are loaded one after another, the last text coming first. -/
def pairsOfTexts : List Chunk → List (Nat × Nat)
  | [] => []
  | chunk :: earlier =>
    textPairs chunk (Program.ofTexts earlier).size (Program.ofTexts (earlier.map optimize)).size ++
      pairsOfTexts earlier

section

variable {chunk : Chunk} {earlier : List Chunk} {size size' : Nat}

theorem length_kept_optimize :
    (chunkKept (boundNames chunk) true [] 0 chunk).length =
      (chunkFunctions (optimize chunk)).length :=
  length_chunkKept chunk _ _ _ _

theorem fst_textPairs : (textPairs chunk size size').map Prod.fst =
    (chunkKept (boundNames chunk) true [] 0 chunk).map (entryAt (chunkPlaces size chunk)) := by
  refine List.map_fst_zip (Nat.le_of_eq ?_)
  rw [List.length_map, length_kept_optimize, length_chunkPlaces]

theorem snd_textPairs : (textPairs chunk size size').map Prod.snd =
    chunkPlaces size' (optimize chunk) := by
  refine List.map_snd_zip (Nat.le_of_eq ?_)
  rw [List.length_map, length_kept_optimize, length_chunkPlaces]

/-- The numbers that are left are numbers of function literals. -/
theorem lt_of_mem_kept {number : Nat} (h : number ∈ chunkKept (boundNames chunk) true [] 0 chunk) :
    number < (chunkPlaces size chunk).length := by
  have hmem := (chunkKept_sublist chunk _ _ _ _).subset h
  rw [List.mem_range'_1] at hmem
  rw [length_chunkPlaces]
  omega

/-- Where a function that is left begins. -/
theorem getElem?_of_mem_kept {number : Nat}
    (h : number ∈ chunkKept (boundNames chunk) true [] 0 chunk) :
    (chunkPlaces size chunk)[number]? = some (entryAt (chunkPlaces size chunk) number) := by
  have hlt : number < (chunkPlaces size chunk).length := lt_of_mem_kept h
  have hget := List.getElem?_eq_getElem hlt
  rw [entryAt_of_getElem? hget, hget]

theorem nodup_fst_textPairs : ((textPairs chunk size size').map Prod.fst).Nodup := by
  rw [fst_textPairs]
  have hkept : (chunkKept (boundNames chunk) true [] 0 chunk).Nodup :=
    (chunkKept_sublist chunk _ _ _ _).nodup (List.nodup_range' ..)
  refine List.Nodup.map_on (fun m hm n hn heq => ?_) hkept
  have hget : (chunkPlaces size chunk)[m]? = some (entryAt (chunkPlaces size chunk) m) :=
    getElem?_of_mem_kept hm
  rw [heq, ← getElem?_of_mem_kept hn] at hget
  exact (List.getElem?_inj (lt_of_mem_kept hm) nodup_chunkPlaces).1 hget

theorem mem_textPairs {pair : Nat × Nat} (h : pair ∈ textPairs chunk size size') :
    pair.1 ∈ chunkPlaces size chunk ∧ pair.2 ∈ chunkPlaces size' (optimize chunk) := by
  obtain ⟨hfst, hsnd⟩ := List.of_mem_zip h
  refine ⟨?_, hsnd⟩
  obtain ⟨number, hnumber, heq⟩ := List.mem_map.1 hfst
  rw [← heq]
  exact List.mem_of_getElem? (getElem?_of_mem_kept hnumber)

theorem size_le_ofTexts_cons :
    (Program.ofTexts earlier).size ≤ (Program.ofTexts (chunk :: earlier)).size := by
  rw [Program.ofTexts, Program.size_extend, Program.start_extend]
  omega

/-- The places of texts are inside of the programs. -/
theorem lt_of_mem_pairsOfTexts {texts : List Chunk} {pair : Nat × Nat}
    (h : pair ∈ pairsOfTexts texts) :
    pair.1 < (Program.ofTexts texts).size ∧
      pair.2 < (Program.ofTexts (texts.map optimize)).size := by
  induction texts with
  | nil => cases h
  | cons chunk earlier ih =>
    rcases List.mem_append.1 h with hnew | hold
    · obtain ⟨hfst, hsnd⟩ := mem_textPairs hnew
      exact ⟨lt_of_mem_chunkPlaces hfst, lt_of_mem_chunkPlaces hsnd⟩
    · obtain ⟨hfst, hsnd⟩ := ih hold
      exact ⟨Nat.lt_of_lt_of_le hfst size_le_ofTexts_cons,
        Nat.lt_of_lt_of_le hsnd size_le_ofTexts_cons⟩

/-- Nothing stands twice among the places of texts. -/
theorem nodup_pairsOfTexts (texts : List Chunk) :
    ((pairsOfTexts texts).map Prod.fst).Nodup ∧ ((pairsOfTexts texts).map Prod.snd).Nodup := by
  induction texts with
  | nil => exact ⟨.nil, .nil⟩
  | cons chunk earlier ih =>
    rw [pairsOfTexts, List.map_append, List.map_append]
    refine ⟨nodup_fst_textPairs.append ih.1 ?_, ?_⟩
    · intro n hnew hold
      obtain ⟨pair, hpair, rfl⟩ := List.mem_map.1 hnew
      obtain ⟨other, hother, heq⟩ := List.mem_map.1 hold
      have hle := le_of_mem_chunkPlaces (mem_textPairs hpair).1
      have hlt := (lt_of_mem_pairsOfTexts hother).1
      omega
    · rw [snd_textPairs]
      refine nodup_chunkPlaces.append ih.2 fun n hnew hold => ?_
      obtain ⟨other, hother, heq⟩ := List.mem_map.1 hold
      have hle := le_of_mem_chunkPlaces hnew
      have hlt := (lt_of_mem_pairsOfTexts hother).2
      omega

end

/-- A map takes the places of the functions that are left of some texts to those in the folded
program. -/
def Relocates (place : Nat → Nat) : List Chunk → Prop
  | [] => True
  | chunk :: earlier =>
    (∀ i number, (chunkKept (boundNames chunk) true [] 0 chunk)[i]? = some number →
      entryAt (chunkPlaces (Program.ofTexts (earlier.map optimize)).size (optimize chunk)) i =
        place (entryAt (chunkPlaces (Program.ofTexts earlier).size chunk) number)) ∧
      Relocates place earlier

/-- A map that all pairs are part of. -/
theorem relocates_of_pairs {place : Nat → Nat} {texts : List Chunk}
    (h : ∀ pair ∈ pairsOfTexts texts, place pair.1 = pair.2) : Relocates place texts := by
  induction texts with
  | nil => trivial
  | cons chunk earlier ih =>
    obtain ⟨hnew, hold⟩ := List.forall_mem_append.1 h
    refine ⟨fun i number hnumber => ?_, ih hold⟩
    have hlt : i < (chunkPlaces (Program.ofTexts (earlier.map optimize)).size
        (optimize chunk)).length := by
      rw [length_chunkPlaces, ← length_kept_optimize]
      exact (List.getElem?_eq_some_iff.1 hnumber).1
    have hplace := List.getElem?_eq_getElem hlt
    rw [entryAt_of_getElem? hplace]
    refine (hnew (_, _) ?_).symm
    refine List.mem_of_getElem? (i := i) (List.getElem?_zip_eq_some.2 ⟨?_, hplace⟩)
    rw [List.getElem?_map, hnumber]
    rfl

/-- **There is an injective map for all texts.** -/
theorem exists_place (texts : List Chunk) :
    ∃ place, Function.Injective place ∧ Relocates place texts := by
  obtain ⟨hkeys, hvalues⟩ := nodup_pairsOfTexts texts
  obtain ⟨place, hplace, hpairs⟩ := exists_injective hkeys hvalues
  exact ⟨place, hplace, relocates_of_pairs hpairs⟩

end ScriptEngine
