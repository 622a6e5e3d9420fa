import ScriptEngine.Proofs.Scoping.Places
import ScriptEngine.Proofs.Scoping.Writes

/-!
# Chains of scopes

The scopes in reach of a call are those that it has opened, followed by those that were in
reach where its function was pushed.  Inner scopes are younger than outer ones; a scope that is
opened is younger than all others, so that it is in reach of no other call.

## Main definitions

* `Aged` — scopes that exist, the younger ones first.
* `Program.Closes` — the functions that have been pushed, with the scopes they close over.
* `Chained` — calls with the chains of scopes of their functions.
* `Owning` — the scopes that calls have opened, each of them by one call.

## Main results

* `Chained.shifts` — instructions keep chains of scopes.
* `Owning.shifts` — and who has opened them.
-/

namespace ScriptEngine

open Exec

/-! ### The age of scopes -/

/-- Scopes that exist, the younger ones first. -/
structure Aged (size : Nat) (refs : List ScopeRef) : Prop where
  younger : refs.Pairwise fun inner outer => outer.index < inner.index
  lt : ∀ ref ∈ refs, ref.index < size

namespace Aged

variable {size size' : Nat} {ref : ScopeRef} {refs refs' : List ScopeRef}

theorem mono (h : Aged size refs) (hle : size ≤ size') : Aged size' refs :=
  ⟨h.younger, fun ref href => Nat.lt_of_lt_of_le (h.lt ref href) hle⟩

theorem sublist (h : Aged size refs) (hsub : refs'.Sublist refs) : Aged size refs' :=
  ⟨h.younger.sublist hsub, fun ref href => h.lt ref (hsub.subset href)⟩

/-- A scope that is opened is younger than all others. -/
theorem cons (h : Aged size refs) : Aged (size + 1) (⟨size⟩ :: refs) where
  younger := List.pairwise_cons.2 ⟨fun ref href => h.lt ref href, h.younger⟩
  lt := List.forall_mem_cons.2
    ⟨Nat.lt_succ_self _, fun ref href => Nat.lt_succ_of_lt (h.lt ref href)⟩

theorem singleton (h : ref.index < size) : Aged size [ref] :=
  ⟨List.pairwise_singleton _ _, fun _ hother => List.mem_singleton.1 hother ▸ h⟩

/-- Blocks that are opened or closed. -/
theorem slides {blocks blocks' : List Nat} {scopes scopes' outer : List ScopeRef}
    (h : Aged size (scopes ++ outer)) (hslides : Slides size size' blocks scopes blocks' scopes')
    (hsize : size ≤ size') : Aged size' (scopes' ++ outer) := by
  cases hslides with
  | stay => exact h.mono hsize
  | opened _ hopened =>
    subst hopened
    exact h.cons
  | closed => exact (h.sublist ((List.tail_sublist _).append (.refl _))).mono hsize

/-- A scope is listed once. -/
theorem not_mem_of_cons (h : Aged size (ref :: refs)) : ref ∉ refs :=
  fun href => Nat.lt_irrefl _ ((List.pairwise_cons.1 h.younger).1 ref href)

end Aged

/-- The functions that have been pushed in the course of some activities.  The scopes that they
close over exist. -/
def Program.Closes (p : Program) (past : Set Activity) (scopes : Array Bindings) : Functions :=
  fun entry captured => p.Made past entry captured ∧ Aged scopes.size captured

namespace Program

variable {p : Program} {past past' : Set Activity} {scopes scopes' : Array Bindings}

theorem Made.mono {entry : Nat} {captured : List ScopeRef} (h : p.Made past entry captured)
    (hpast : past ⊆ past') : p.Made past' entry captured := by
  obtain ⟨waiting, fuel, trace, st, op, v, hst, hop⟩ := h
  exact ⟨waiting, fuel, trace, st, op, v, hpast hst, hop⟩

theorem Made.extend {entry : Nat} {captured : List ScopeRef} (h : p.Made past entry captured)
    (chunk : Chunk) : (p.extend chunk).1.Made past entry captured := by
  obtain ⟨waiting, fuel, trace, st, op, v, hst, hop, hpushed⟩ := h
  exact ⟨waiting, fuel, trace, st, op, v, hst, getElem?_extend_of_some p chunk hop, hpushed⟩

theorem closes_among (hpast : past ⊆ past') (hsize : scopes.size ≤ scopes'.size) :
    (p.Closes past scopes).Among (p.Closes past' scopes') :=
  fun _ _ h => ⟨h.1.mono hpast, h.2.mono hsize⟩

theorem closes_among_pushes : (p.Closes past scopes).Among p.pushes :=
  fun _ _ h => made_among_pushes past _ _ h.1

end Program

/-! ### Chains of calls -/

/-- A call with the chain of scopes of its function: what it has captured is what was in reach
where the function was pushed. -/
structure Linked (p : Program) (site : Nat → Option Site) (past : Set Activity) (size : Nat)
    (call : Nat × Activation) : Prop where
  aged : Aged size call.2.reach
  made : ∀ entry blocks, site call.1 = some ⟨some entry, blocks⟩ →
    p.Made past entry call.2.captured

/-- Calls at known places, with the chains of scopes of their functions. -/
structure Chained (p : Program) (site : Nat → Option Site) (past : Set Activity) (size : Nat)
    (calls : List (Nat × Activation)) : Prop where
  placed : Placed site calls
  linked : ∀ call ∈ calls, Linked p site past size call

section Chained

variable {p : Program} {site : Nat → Option Site} {past past' : Set Activity} {size size' : Nat}
  {call call' : Nat × Activation} {calls calls' : List (Nat × Activation)}

theorem Linked.mono (h : Linked p site past size call) (hpast : past ⊆ past')
    (hsize : size ≤ size') : Linked p site past' size' call :=
  ⟨h.aged.mono hsize, fun entry blocks hsite => (h.made entry blocks hsite).mono hpast⟩

/-- A call in the same function. -/
theorem Linked.moved (h : Linked p site past size call)
    (hcaptured : call'.2.captured = call.2.captured) {function : Option Nat}
    {blocks blocks' : List Nat} (hsite : site call.1 = some ⟨function, blocks⟩)
    (hsite' : site call'.1 = some ⟨function, blocks'⟩) (haged : Aged size' call'.2.reach) :
    Linked p site past size' call' := by
  refine ⟨haged, fun entry blocks'' hentry => ?_⟩
  rw [hsite'] at hentry
  cases hentry
  rw [hcaptured]
  exact h.made entry blocks hsite

/-- A call at the end of the program, or of a text. -/
theorem Linked.text (hsite : site call.1 = some ⟨none, []⟩) (haged : Aged size call.2.reach) :
    Linked p site past size call := by
  refine ⟨haged, fun entry blocks hentry => ?_⟩
  rw [hsite] at hentry
  cases hentry

namespace Chained

theorem mono (h : Chained p site past size calls) (hpast : past ⊆ past') (hsize : size ≤ size') :
    Chained p site past' size' calls :=
  ⟨h.placed, fun call hcall => (h.linked call hcall).mono hpast hsize⟩

/-- The only call of a text. -/
theorem text {ip : Nat} {ref : ScopeRef} (hsite : site ip = some ⟨none, []⟩)
    (href : ref.index < size) : Chained p site past size [(ip, ⟨[ref], []⟩)] where
  placed := .outermost ⟨[], hsite, rfl⟩ rfl
  linked := List.forall_mem_singleton.2 (.text hsite (.singleton href))

/-- What the calls have captured. -/
theorem captured (h : Chained p site past size calls) (hcall : call ∈ calls) :
    call.2.captured = [] ∨ ∃ entry, p.Made past entry call.2.captured := by
  -- By induction on the calls around: the outermost one is that of a text and has captured nothing.
  obtain ⟨hplaced, hlinked⟩ := h
  induction hplaced with
  | outermost _ hcaptured =>
    rw [List.mem_singleton.1 hcall]
    exact .inl hcaptured
  | @inner first calls entry hat _ ih =>
    rcases List.mem_cons.1 hcall with rfl | hcall
    · obtain ⟨blocks, hsite, -⟩ := hat
      exact .inr ⟨entry, (hlinked call List.mem_cons_self).made entry blocks hsite⟩
    · exact ih hcall fun other hother => hlinked other (List.mem_cons_of_mem _ hother)

/-- **Instructions keep chains of scopes.** -/
theorem shifts {scopes : Array Bindings} {root : ScopeRef}
    (h : Chained p site past scopes.size calls) (hsited : p.Sited site)
    (hroot : root.index < scopes.size) (hsize : scopes.size ≤ size')
    (hshifts : Shifts p site (p.Closes past scopes) root scopes.size size' calls calls') :
    Chained p site past size' calls' := by
  refine ⟨h.placed.shifts hsited Program.closes_among_pushes hshifts, ?_⟩
  obtain ⟨hplaced, hlinked⟩ := h
  cases hshifts with
  | @within call call' calls hcaptured hslides =>
    obtain ⟨hcall, hcalls⟩ := List.forall_mem_cons.1 hlinked
    obtain ⟨function, blocks, hsite, -⟩ := hplaced.exists_at
    obtain ⟨blocks', hsite', hslides⟩ := hslides function blocks hsite
    refine List.forall_mem_cons.2
      ⟨hcall.moved hcaptured hsite hsite' ?_, fun other hother => (hcalls other hother).mono
        subset_rfl hsize⟩
    rw [Activation.reach, hcaptured]
    exact hcall.aged.slides hslides hsize
  | @entered ip ip' entry x captured calls hhere hentry hopened =>
    obtain ⟨hcall, hcalls⟩ := List.forall_mem_cons.1 hlinked
    obtain ⟨function, blocks, hsite, -⟩ := hplaced.exists_at
    subst hopened
    refine List.forall_mem_cons.2 ⟨⟨hentry.2.cons, fun other blocks hother => ?_⟩,
      List.forall_mem_cons.2 ⟨?_, fun other hother => (hcalls other hother).mono subset_rfl hsize⟩⟩
    · rw [hsited.of_pushes (Program.closes_among_pushes _ _ hentry)] at hother
      cases hother
      exact hentry.1
    · exact (hcall.mono subset_rfl hsize).moved rfl hsite (hhere _ hsite) (hcall.aged.mono hsize)
  | left =>
    exact fun other hother => (hlinked other (List.mem_cons_of_mem _ hother)).mono subset_rfl hsize
  | ended =>
    exact List.forall_mem_singleton.2
      (.text hsited.finish (.singleton (Nat.lt_of_lt_of_le hroot hsize)))

end Chained

end Chained

/-! ### Who has opened a scope -/

/-- The scopes that the calls of a machine have opened. -/
def Machine.owned (m : Machine) : List ScopeRef := ScriptEngine.owned m.activations

/-- The scopes that calls have opened, the younger ones first, and therefore each of them by one
call.  The oldest one is that of the top level. -/
structure Owning (size : Nat) (root : ScopeRef) (refs : List ScopeRef) : Prop where
  aged : Aged size refs
  last : refs.getLast? = some root

namespace Owning

variable {size size' : Nat} {root : ScopeRef} {refs refs' : List ScopeRef}

theorem mono (h : Owning size root refs) (hsize : size ≤ size') : Owning size' root refs :=
  ⟨h.aged.mono hsize, h.last⟩

theorem root_lt (h : Owning size root refs) : root.index < size :=
  h.aged.lt root (List.mem_of_getLast? h.last)

theorem singleton (h : root.index < size) : Owning size root [root] := ⟨.singleton h, rfl⟩

theorem cons (h : Owning size root refs) : Owning (size + 1) root (⟨size⟩ :: refs) := by
  refine ⟨h.aged.cons, ?_⟩
  rw [List.getLast?_cons, h.last]
  rfl

theorem suffix (h : Owning size root refs) (hsuffix : refs' <:+ refs) (hne : refs' ≠ []) :
    Owning size root refs' := by
  refine ⟨h.aged.sublist hsuffix.sublist, ?_⟩
  obtain ⟨younger, rfl⟩ := hsuffix
  rw [← h.last, List.getLast?_append_of_ne_nil _ hne]

end Owning

theorem owned_cons (x : Activation) (xs : List Activation) :
    owned (x :: xs) = x.scopes ++ owned xs :=
  List.flatMap_cons

/-- A call at a known place has a scope. -/
theorem Placed.scopes_ne_nil {site : Nat → Option Site} {calls : List (Nat × Activation)}
    {call : Nat × Activation} (h : Placed site calls) (hcall : call ∈ calls) :
    call.2.scopes ≠ [] := by
  have hscopes {function : Option Nat} {call : Nat × Activation} (hat : At site function call) :
      call.2.scopes ≠ [] := by
    obtain ⟨blocks, -, hlength⟩ := hat
    exact List.ne_nil_of_length_eq_add_one hlength
  induction h with
  | outermost hat => exact List.mem_singleton.1 hcall ▸ hscopes hat
  | inner hat _ ih =>
    rcases List.mem_cons.1 hcall with rfl | hcall
    · exact hscopes hat
    · exact ih hcall

theorem Placed.owned_ne_nil {site : Nat → Option Site} {calls : List (Nat × Activation)}
    (h : Placed site calls) : owned (calls.map Prod.snd) ≠ [] := by
  cases calls with
  | nil => cases h
  | cons call calls =>
    exact List.append_ne_nil_of_left_ne_nil (h.scopes_ne_nil List.mem_cons_self) _

/-- **Instructions keep who has opened scopes**, if there are other calls around the outermost
call of a machine that it does not end. -/
theorem Owning.shifts {p : Program} {site : Nat → Option Site} {E : Functions} {root : ScopeRef}
    {size size' : Nat} {calls calls' : List (Nat × Activation)} {rest : List ScopeRef}
    (h : Owning size root (owned (calls.map Prod.snd) ++ rest)) (hplaced : Placed site calls)
    (hshifts : Shifts p site E root size size' calls calls') (hended : calls.tail ≠ [] ∨ rest = [])
    (hsize : size ≤ size') : Owning size' root (owned (calls'.map Prod.snd) ++ rest) := by
  cases hshifts with
  | @within call call' calls hcaptured hslides =>
    obtain ⟨function, blocks, hsite, hlength⟩ := hplaced.exists_at
    obtain ⟨blocks', -, hslides⟩ := hslides function blocks hsite
    rw [List.map_cons, owned_cons, List.append_assoc] at h ⊢
    generalize call'.2.scopes = scopes' at hslides
    cases hslides with
    | stay => exact h.mono hsize
    | opened _ hopened =>
      subst hopened
      exact h.cons
    | closed =>
      refine (h.suffix ?_ ?_).mono hsize
      · obtain ⟨younger, heq⟩ := List.tail_suffix call.2.scopes
        exact ⟨younger, by rw [← List.append_assoc, heq]⟩
      · have htail : call.2.scopes.tail.length = blocks'.length + 1 := by
          rw [List.length_tail, hlength]
          rfl
        exact List.append_ne_nil_of_left_ne_nil (List.ne_nil_of_length_eq_add_one htail) _
  | entered _ _ hopened =>
    subst hopened
    exact h.cons
  | left hne =>
    rw [List.map_cons, owned_cons, List.append_assoc] at h
    have hcalls : Placed site calls' := by
      cases hplaced with
      | outermost => exact absurd rfl hne
      | inner _ hcalls => exact hcalls
    exact (h.suffix (List.suffix_append _ _)
      (List.append_ne_nil_of_left_ne_nil hcalls.owned_ne_nil _)).mono hsize
  | ended =>
    obtain rfl : rest = [] := hended.resolve_left fun hne => hne rfl
    exact .singleton (Nat.lt_of_lt_of_le h.root_lt hsize)

/-- **Only scopes that are new are opened.** -/
theorem Owning.mem_of_shifts {p : Program} {site : Nat → Option Site} {E : Functions}
    {root ref : ScopeRef} {size size' : Nat} {calls calls' : List (Nat × Activation)}
    {rest : List ScopeRef} (h : Owning size root (owned (calls.map Prod.snd) ++ rest))
    (hplaced : Placed site calls) (hshifts : Shifts p site E root size size' calls calls')
    (hended : calls.tail ≠ [] ∨ rest = []) (href : ref ∈ owned (calls'.map Prod.snd) ++ rest) :
    ref ∈ owned (calls.map Prod.snd) ++ rest ∨ size ≤ ref.index := by
  cases hshifts with
  | @within call call' calls hcaptured hslides =>
    obtain ⟨function, blocks, hsite, -⟩ := hplaced.exists_at
    obtain ⟨blocks', -, hslides⟩ := hslides function blocks hsite
    rw [List.map_cons, owned_cons, List.append_assoc] at href ⊢
    generalize call'.2.scopes = scopes' at hslides href
    cases hslides with
    | stay => exact .inl href
    | opened =>
      rcases List.mem_cons.1 href with rfl | href
      · exact .inr (Nat.le_refl _)
      · exact .inl href
    | closed =>
      exact .inl (((List.tail_sublist _).append (.refl _)).subset href)
  | entered =>
    rcases List.mem_cons.1 href with rfl | href
    · exact .inr (Nat.le_refl _)
    · exact .inl href
  | left =>
    rw [List.map_cons, owned_cons, List.append_assoc]
    exact .inl (List.mem_append_right _ href)
  | ended =>
    obtain rfl : rest = [] := hended.resolve_left fun hne => hne rfl
    obtain rfl : ref = root := List.mem_singleton.1 href
    exact .inl (List.mem_of_getLast? h.last)

end ScriptEngine
