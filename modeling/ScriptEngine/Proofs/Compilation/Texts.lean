import ScriptEngine.Proofs.Compilation.Statements

/-!
# The code of texts

A text that is loaded behind others is run as it is evaluated.

## Main results

* `Setting.runSteps_evalText` — **compilation preserves meaning**: whenever the
  evaluation of a text has an outcome, the machine comes to the same one.
-/

namespace ScriptEngine.Setting

/-- A machine at an instruction of the top level has no call open. -/
theorem grounded_atTopLevel (ip : Nat) (root : ScopeRef) :
    (Machine.atTopLevel ip root).Grounded := fun _ hframe => nomatch hframe

section

variable (config : Config) (natives : Builtin → NativeBody) (call : Position → Nat → Reentry)
  (root : ScopeRef) (earlier : List Chunk) (chunk : Chunk) (fuel : Nat) (s : Store)

/-- The machine of a text does what its evaluation says. -/
theorem follows_evalText :
    let setting : Setting := ⟨.ofTexts (chunk :: earlier), config, root, natives⟩
    setting.Follows call ⟨.atTopLevel setting.program.start root, s⟩
      (evalText (setting.world call (.ofTexts (chunk :: earlier))) (Program.ofTexts earlier).size
        root fuel chunk s)
      fun v s' st' => setting.halted st'.machine = true ∧ st'.machine.stack.headD .nil = v ∧
        st'.store = s' := by
  intro setting
  have hfunctions : ∀ entry f, (FunctionTable.ofTexts (chunk :: earlier)).lookup entry = some f →
      setting.program.HoldsFunction entry f := by
    intro entry f hlookup
    obtain ⟨before, behind, heq, _⟩ := List.lookup_eq_some_iff.1 hlookup
    exact Program.holds_lookup_ofTexts (by rw [heq]; simp)
  have hsize := Program.size_extend (Program.ofTexts earlier) chunk
  refine ((agrees hfunctions fuel).chunk (Machine.atTopLevel setting.program.start root) s
    (grounded_atTopLevel _ _) (Program.holds_extend_main (Program.ofTexts earlier) chunk)).bind
    fun outcome s₁ st₁ _ hended => ?_
  cases outcome with
  | next kept =>
    obtain ⟨_, rfl⟩ := hended
    refine .pure ⟨decide_eq_true (Nat.le_of_eq hsize), ?_, rfl⟩
    cases kept <;> rfl
  | leave => trivial
  | result values =>
    subst hended
    exact .pure ⟨decide_eq_true (Nat.le_refl _), rfl, rfl⟩

/-- **Compilation preserves meaning.**  Behind any texts that were loaded earlier
and on any store, whenever the evaluation of a text has an outcome, the machine
that runs its code from its first instruction comes to the same one in finitely
many steps: it halts with the same value on top of its stack and the same store,
or it fails in the same way with the same store. -/
theorem runSteps_evalText :
    let setting : Setting := ⟨.ofTexts (chunk :: earlier), config, root, natives⟩
    match evalText (setting.world call (.ofTexts (chunk :: earlier)))
      (Program.ofTexts earlier).size root fuel chunk s with
    | .ok v s' => ∃ steps m,
      setting.runSteps call false steps ⟨.atTopLevel setting.program.start root, s⟩ =
        .ok true ⟨m, s'⟩ ∧ m.stack.headD .nil = v
    | .error (.interrupted i) s' => ∃ steps m,
      setting.runSteps call false steps ⟨.atTopLevel setting.program.start root, s⟩ =
        .error i ⟨m, s'⟩
    | .error .undecided _ => True := by
  intro setting
  have hfollows := follows_evalText config natives call root earlier chunk fuel s
  dsimp only at hfollows
  split
  · next v s' heval =>
    rw [heval] at hfollows
    obtain ⟨⟨m, s''⟩, hreach, hhalted, hvalue, rfl⟩ := hfollows
    obtain ⟨steps, hrun⟩ := hreach.runSteps hhalted
    exact ⟨steps, m, hrun, hvalue⟩
  · next i s' heval =>
    rw [heval] at hfollows
    exact Fails.runSteps hfollows
  · trivial

end

end ScriptEngine.Setting
