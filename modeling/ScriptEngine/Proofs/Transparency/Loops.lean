import ScriptEngine.Proofs.Transparency.Blocks

/-!
# Folded targets, branches and loops

Evaluations of what statements consist of do in the folded program what they do in the plain one if
all that is nested less deeply does.

## Main results

* `Twins.simulatesStores_succ`, `Twins.simulatesBranches_succ`, `Twins.simulatesCounting_succ`,
  `Twins.simulatesIterating_succ` — one level of nesting more.
-/

namespace ScriptEngine

open Node

namespace Twins

variable {t : Twins} {n : Nat}

theorem simulatesStores_succ (ih : t.Simulates n) : t.SimulatesStores (n + 1) := by
  intro n' constants blocks c places' next next' targets values s s' hn hat hscene hgone hsafe
    hlinked hvalues
  obtain ⟨m, rfl, hm⟩ := exists_succ_of_le hn
  have htail : t.KnownValues blocks s values.tail := fun v hv => hvalues v (List.mem_of_mem_tail hv)
  cases targets with
  | nil =>
    simp only [foldTargets, evalStores]
    exact .pure hat rfl trivial
  | cons target rest =>
    obtain ⟨htarget, hrest⟩ := List.forall_mem_cons.1 hscene
    rw [boundInTargets_cons, List.forall_mem_append] at hgone
    cases target with
    | var position name =>
      simp only [foldTargets, storesFunctions, targetsKept, targetsFoldSafely, evalStores,
        Bool.false_eq_true, if_false, ← List.map_tail] at hsafe hlinked ⊢
      refine (ih.stores hm hat hrest hgone.2 hsafe hlinked htail).bind
        fun _ blocks₁ s₁ s₁' hleads _ => ?_
      rw [headD_map_moved]
      have hname : ∀ ref ∈ c.reach, ¬ (blocks₁ ref).Gone name := fun ref href => by
        rw [hleads.grows.eq_of_none (htarget.inside ref href)]
        exact hgone.1 name (List.mem_singleton_self _) ref href
      exact .change (Store.size_write _)
        (hleads.arrived.write hname (KnownValue.leads hvalues.headD hleads))
    | index position table key =>
      have htable := htarget.of_expr table (by simp [children])
      have hkey := htarget.of_expr key (by simp [children])
      simp only [foldTargets, storesFunctions, targetsKept, targetsFoldSafely, evalStores,
        ← List.map_tail] at hsafe hlinked ⊢
      have hlengthRest := length_targetsKept rest constants next
      have hlengthTable := table.length_keeps constants (next + (storesFunctions rest).length)
      have hlinkedKey := hlinked.right (by simp [hlengthRest, hlengthTable])
      simp only [List.length_append, ← Nat.add_assoc] at hlinkedKey
      refine (ih.stores hm hat hrest hgone.2 hsafe.2.2 hlinked.left.left htail).bind
        fun _ blocks₁ s₁ s₁' hleads₁ _ => ?_
      refine (ih.expr hm hleads₁.arrived (htable.grows hleads₁.grows) hsafe.1
        (hlinked.left.right hlengthRest)).bind fun table' blocks₂ s₂ s₂' hleads₂ _ => ?_
      refine (ih.expr hm hleads₂.arrived ((hkey.grows hleads₁.grows).grows hleads₂.grows) hsafe.2.1
        hlinkedKey).bind fun key' blocks₃ s₃ s₃' hleads₃ hkey' => ?_
      rw [headD_map_moved]
      have hhead := KnownValue.leads hvalues.headD ((hleads₁.trans hleads₂).trans hleads₃)
      exact .putAt hleads₃.arrived position hkey' hhead
    | _ =>
      simp only [foldTargets, storesFunctions, targetsKept, targetsFoldSafely, evalStores,
        ← List.map_tail] at hsafe hlinked ⊢
      exact ih.stores hm hat hrest hgone.2 hsafe hlinked htail

theorem simulatesBranches_succ (ih : t.Simulates n) : t.SimulatesBranches (n + 1) := by
  intro n' constants blocks c places' next next' otherwise branches s s' hn hat hscene hotherwise
    hsafe hlinked
  obtain ⟨m, rfl, hm⟩ := exists_succ_of_le hn
  cases branches with
  | nil =>
    cases otherwise with
    | none =>
      simp only [foldOtherwise, Option.map_none, foldBranches, evalBranches]
      exact .pure hat rfl ends_none
    | some body =>
      obtain ⟨hbody, hsafe⟩ := hotherwise body rfl
      simp only [foldOtherwise, Option.map_some, foldBranches, evalBranches]
      exact ih.plainBlock hm hat hbody hsafe hlinked
  | cons branch rest =>
    obtain ⟨condition, body⟩ := branch
    obtain ⟨⟨hcondition, hbody⟩, hrest⟩ := List.forall_mem_cons.1 hscene
    simp only [foldBranches, branchesFunctions, branchesKept, branchesFoldSafely, evalBranches]
      at hsafe hlinked ⊢
    have hlast : ((otherwise.map fun body =>
        chunkKept (boundNames body) false constants next body).getD []).length =
        (((foldOtherwise constants otherwise).map chunkFunctions).getD []).length := by
      cases otherwise with
      | none => rfl
      | some body => exact length_chunkKept body _ _ constants next
    have hlengthRest :=
      length_branchesKept constants ((otherwise.map chunkFunctions).getD []) _ _ hlast
      rest next
    have hlengthBody := length_chunkKept body (boundNames body) false constants
      (next + (branchesFunctions ((otherwise.map chunkFunctions).getD []) rest).length)
    have hlinkedCondition := hlinked.right (by simp [hlengthRest, hlengthBody])
    simp only [List.length_append, ← Nat.add_assoc] at hlinkedCondition
    refine (ih.expr hm hat hcondition hsafe.1 hlinkedCondition).bind
      fun v blocks₁ s₁ s₁' hleads _ => ?_
    rw [Value.isTruthy_moved]
    split
    · exact ih.plainBlock hm hleads.arrived (hbody.grows hleads.grows) hsafe.2.1
        (hlinked.left.right hlengthRest)
    · exact ih.branches hm hleads.arrived
        (fun branch hbranch =>
          (hrest branch hbranch).imp (·.grows hleads.grows) (·.grows hleads.grows))
        (fun body hbody => (hotherwise body hbody).imp_left (·.grows hleads.grows)) hsafe.2.2
        hlinked.left.left

theorem simulatesCounting_succ (aligned : t.Aligned) (ih : t.Simulates n) :
    t.SimulatesCounting (n + 1) := by
  intro n' constants inner blocks c places' next next' counter stop step body v s s' hn hat hstop
    hstep hbody hcounter hsafeStop hsafeStep hsafeBody hlinked hv
  obtain ⟨m, rfl, hm⟩ := exists_succ_of_le hn
  have hlengthBody := length_chunkKept body (boundNames body) false inner next
  have hlengthStep := step.length_keeps constants (next + (chunkFunctions body).length)
  have hlinkedStop := hlinked.right (by simp [hlengthBody, hlengthStep])
  have hlinkedStep := hlinked.left.right hlengthBody
  simp only [List.length_append, ← Nat.add_assoc] at hlinkedStop
  have hnames : ∀ name ∈ [counter].map Identifier.name, ∀ ref ∈ c.reach,
      ¬ (blocks ref).Removes name := List.forall_mem_singleton.2 hcounter
  simp only [evalCounting]
  refine (ih.expr hm hat hstop hsafeStop hlinkedStop).bind fun limit blocks₁ s₁ s₁' hleads₁ _ => ?_
  refine .read ?_
  rw [Store.equal_moved aligned.apart hleads₁.arrived.alike.tables]
  split
  · exact .pure hleads₁.arrived rfl ends_none
  refine (ih.block hm hleads₁.arrived (hbody.grows hleads₁.grows)
    (hleads₁.grows.free hbody.inside hnames) hsafeBody hlinked.left.left
    (.singleton (KnownValue.leads hv hleads₁))).bind fun o blocks₂ s₂ s₂' hleads₂ hends => ?_
  have hleads₁₂ := hleads₁.trans hleads₂
  cases o with
  | next kept =>
    refine (ih.expr hm hleads₂.arrived (hstep.grows hleads₁₂.grows) hsafeStep hlinkedStep).bind
      fun distance blocks₃ s₃ s₃' hleads₃ _ => ?_
    have hleads₁₃ := hleads₁₂.trans hleads₃
    have hsum : (distance.moved t.place).arith .add (v.moved t.place) =
        (Value.arith .add distance v).map (Value.moved t.place) := by
      rw [Value.arith_moved]
      exact (binary_map_moved t.place s₃ (.arith .add) distance v).symm
    have hknown (w : Value) (hw : Value.arith .add distance v = .ok w) :
        t.KnownValue blocks₃ s₃ w := by
      have hresult : s₃.binary (.arith .add) distance v = .ok w := hw
      exact known_binary hresult
    refine (Mirrors.located hleads₃.arrived hsum hknown).bind fun w blocks₄ s₄ s₄' hleads₄ hw => ?_
    · have hgrows := (hleads₁₃.trans hleads₄).grows
      exact ih.counting hm hleads₄.arrived (hstop.grows hgrows) (hstep.grows hgrows)
        (hbody.grows hgrows) (hgrows.free (P := (· = counter.name)) hbody.inside
          (by rintro _ rfl; exact hcounter) counter.name rfl) hsafeStop hsafeStep hsafeBody
          hlinked hw
  | leave => exact .pure hleads₂.arrived rfl ends_none
  | result values => exact .pure hleads₂.arrived rfl hends

theorem simulatesIterating_succ (ih : t.Simulates n) : t.SimulatesIterating (n + 1) := by
  intro n' constants blocks c places' next next' position names body iterator state control s s' hn
    hat hbody hnames hsafe hlinked hvalues
  obtain ⟨m, rfl, hm⟩ := exists_succ_of_le hn
  have hiterator := hvalues iterator (by simp)
  have hstate := hvalues state (by simp)
  simp only [evalIterating]
  refine (ih.call hm hat hiterator (hvalues.of_subset (List.subset_cons_self _ _))).bind
    fun results blocks₁ s₁ s₁' hleads₁ hresults => ?_
  rw [headD_map_moved, Value.isNil_moved]
  split
  · exact .pure hleads₁.arrived rfl ends_none
  refine (ih.block hm hleads₁.arrived (hbody.grows hleads₁.grows)
    (hleads₁.grows.free hbody.inside hnames) hsafe hlinked hresults).bind
      fun o blocks₂ s₂ s₂' hleads₂ hends => ?_
  have hleads₁₂ := hleads₁.trans hleads₂
  cases o with
  | next kept =>
    refine ih.iterating hm hleads₂.arrived (hbody.grows hleads₁₂.grows)
      (hleads₁₂.grows.free hbody.inside hnames) hsafe hlinked ?_
    exact .cons (KnownValue.leads hiterator hleads₁₂) (.cons (KnownValue.leads hstate hleads₁₂)
      (.singleton (KnownValue.leads hresults.headD hleads₂)))
  | leave => exact .pure hleads₂.arrived rfl ends_none
  | result values => exact .pure hleads₂.arrived rfl hends

end Twins

end ScriptEngine
