import ScriptEngine.Proofs.Linking.Regions
import ScriptEngine.Proofs.Safety.Soundness
import ScriptEngine.Proofs.Safety.Statements

/-!
# Programs that push verified functions

A text that is loaded goes behind those before it.  The functions that its code pushes
are verified, and those of the texts before it stay so.

## Main definitions

* `Program.Verifying` — all functions that a program pushes are verified.

## Main results

* `Program.LinkedFrom.holdsFunction` — the region of a literal holds its code.
* `Program.verifying_extend` — loading a text keeps all pushed functions verified.
* `endsInExpression_optimize` — folding a text leaves the kind of its last statement.
-/

namespace ScriptEngine

/-! ### The regions of functions -/

namespace Program

variable {p q : Program} {chunk : Chunk} {regions : List Region} {main : Code}

/-- The instructions of a region, inside of the program. -/
theorem LinkedFrom.getElem?_region (h : p.LinkedFrom chunk q regions main) {i : Nat} {r : Region}
    (hr : regions[i]? = some r) {j : Nat} (hj : j < r.code.length) :
    q.code[r.start + j]? = r.code[j]? := by
  obtain ⟨hi, hget⟩ := List.getElem?_eq_some_iff.1 hr
  have hsplit : regions = regions.take i ++ r :: regions.drop (i + 1) := by
    rw [← hget, ← List.drop_eq_getElem_cons hi, List.take_append_drop]
  have hcode : q.code.toList = (p.code.toList ++ ((regions.take i).map Region.code).flatten) ++
      (r.code ++ (((regions.drop (i + 1)).map Region.code).flatten ++ main)) := by
    rw [h.code]
    nth_rewrite 1 [hsplit]
    simp only [List.map_append, List.map_cons, List.flatten_append, List.flatten_cons,
      List.append_assoc]
  have hstart : r.start =
      (p.code.toList ++ ((regions.take i).map Region.code).flatten).length := by
    rw [h.starts i r hr, List.length_append]
    rfl
  rw [← Array.getElem?_toList, hcode, hstart, List.getElem?_append_right (Nat.le_add_right _ _),
    Nat.add_sub_cancel_left, List.getElem?_append_left hj]

/-- **The region of a literal holds its code.** -/
theorem LinkedFrom.holdsFunction (h : p.LinkedFrom chunk q regions main) {i : Nat} {r : Region}
    (hr : regions[i]? = some r) :
    q.HoldsFunction r.start ⟨r.literal, i, regions.map Region.start⟩ := by
  refine holds_of_getElem? fun j hj => ?_
  have hcode := h.compiled i r hr
  have hlength : j < r.code.length := by rw [hcode, List.length_map]; exact hj
  rw [h.getElem?_region hr hlength, hcode, List.getElem?_map]

/-! ### Pushed functions -/

/-- All functions that a program pushes are verified. -/
def Verifying (p : Program) : Prop :=
  ∀ op ∈ p.code.toList, op.code = .push → ∀ entry captured, op.pushed = .function entry captured →
    p.enters entry captured

theorem verifying_empty : Verifying empty := fun _ hop => absurd hop List.not_mem_nil

/-- A function that is pushed is made. -/
theorem makesFunction_of_pushed {op : Op} {entry : Nat} {captured : List ScopeRef}
    (hcode : op.code = .push) (h : op.pushed = .function entry captured) : op.makesFunction := by
  rw [Op.pushed] at h
  split at h
  · cases h
  · next v hoperand =>
    subst h
    simp only [Op.makesFunction, hcode, hoperand]
  · cases h
  · cases h

/-- What a piece of code makes begins where a region does. -/
theorem exists_region_of_makes {next : Nat} {body : Chunk} {code : Code}
    (h : Makes regions next body code) {op : Op} (hop : op ∈ code) {entry : Nat}
    {captured : List ScopeRef} (hcode : op.code = .push)
    (hpushed : op.pushed = .function entry captured) :
    ∃ (i : Nat) (r : Region), regions[i]? = some r ∧ r.start = entry := by
  have hmem : op ∈ code.filter Op.makesFunction :=
    List.mem_filter.2 ⟨hop, makesFunction_of_pushed hcode hpushed⟩
  rw [Makes] at h
  generalize code.filter Op.makesFunction = made at h hmem
  generalize chunkMade next body = literals at h
  induction h with
  | nil => cases hmem
  | @cons first m made literals hfirst _ ih =>
    rcases List.mem_cons.1 hmem with rfl | hmem
    · obtain ⟨r, hr, -, rfl⟩ := hfirst
      exact ⟨m.1, r, hr, (Value.function.inj hpushed).1⟩
    · exact ih hmem

/-- A function that is pushed was pushed before, or begins where a region does. -/
theorem LinkedFrom.cases_pushed (h : p.LinkedFrom chunk q regions main) {op : Op}
    (hop : op ∈ q.code.toList) {entry : Nat} {captured : List ScopeRef} (hcode : op.code = .push)
    (hpushed : op.pushed = .function entry captured) :
    op ∈ p.code.toList ∨ ∃ (i : Nat) (r : Region), regions[i]? = some r ∧ r.start = entry := by
  rw [h.code, List.append_assoc, List.mem_append, List.mem_append] at hop
  rcases hop with hop | hop | hop
  · exact .inl hop
  · obtain ⟨code, hmem, hop⟩ := List.mem_flatten.1 hop
    obtain ⟨r, hr, rfl⟩ := List.mem_map.1 hmem
    obtain ⟨i, hi⟩ := List.mem_iff_getElem?.1 hr
    exact .inr (exists_region_of_makes (h.makes i r hi) hop hcode hpushed)
  · exact .inr (exists_region_of_makes h.mainMakes hop hcode hpushed)

/-- **Loading a text keeps all pushed functions verified.** -/
theorem verifying_extend (hp : p.Verifying) (hclosed : chunkClosed false chunk)
    (hfunctions : ∀ f ∈ chunkFunctions chunk, f.closed) : (p.extend chunk).1.Verifying := by
  obtain ⟨regions, main, h⟩ := p.linkedFrom_extend hclosed hfunctions
  intro op hop hcode entry captured hpushed
  rcases h.cases_pushed hop hcode hpushed with hop | ⟨i, r, hr, rfl⟩
  · exact (hp op hop hcode entry captured hpushed).mono fun _ _ => getElem?_extend_of_some p chunk
  · refine verified_function (h.holdsFunction hr) (hfunctions _ ?_)
    rw [← h.literals]
    exact List.mem_map_of_mem (List.mem_of_getElem? hr)

end Program

/-! ### The last statement -/

/-- Folding a statement of the top level leaves a statement of the same kind. -/
theorem Stat.isExpression_fold (bound : List String) (constants : Constants) (s : Stat) :
    (s.fold bound true constants).1.map Stat.isExpression = some s.isExpression := by
  cases s with
  | assignment position isLocal targets values => cases isLocal <;> rw [Stat.fold] <;> rfl
  | conditional position branches last => cases last <;> rw [Stat.fold] <;> rfl
  | numericFor counter start stop step body => cases step <;> rw [Stat.fold] <;> rfl
  | _ => rw [Stat.fold]; rfl

/-- **Folding a text leaves the kind of its last statement.** -/
theorem endsInExpression_optimize (chunk : Chunk) :
    endsInExpression (optimize chunk) = endsInExpression chunk := by
  have hfold (bound : List String) (stats : List Stat) (constants : Constants) :
      (foldStats bound true constants stats).1.map Stat.isExpression =
        stats.map Stat.isExpression := by
    induction stats generalizing constants with
    | nil => rw [foldStats]
    | cons s rest ih =>
      rw [foldStats, List.map_append, ih, ← Option.toList_map, s.isExpression_fold]
      rfl
  have hlast (stats : List Stat) :
      endsInExpression stats = ((stats.map Stat.isExpression).getLast?).any id := by
    rw [endsInExpression, List.getLast?_map, Option.any_map]
    rfl
  rw [hlast, optimize, hfold, hlast]

end ScriptEngine
