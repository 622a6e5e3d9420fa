import ScriptEngine.Library.Base
import ScriptEngine.Proofs.Tables.Contents

/-!
# Traversing tables

A traversal holds no place in a table: each step looks for the key that was answered last
and answers the one behind it.  Meanwhile keys may be given other values, and keys may be
removed, which moves those behind them.  What carries a traversal through this is that the
key answered last is still there, and that the keys behind it are the ones that have been
there from the beginning, have not been answered and have not been removed.  So the key
answered last is the one that must not be removed: the step behind it fails.

## Main definitions

* `Key.IsProper` — a key is not NaN.
* `Library.Traversal` — a course of steps and of changes to keys that are there.
* `Library.remaining` — the keys that have not been lost.
* `Library.Follows` — what holds of a table throughout a traversal.

## Main results

* `Table.next_eq_of_keys` — the step behind a key answers the next key and its value.
* `Library.follows_of_traversal` — every course keeps the keys that lie ahead.
* `Library.next_survives_changes` — **a traversal answers every key once, in order, unless
  it is removed before.**
-/

namespace ScriptEngine

/-- A key that a value can be: any but NaN. -/
def Key.IsProper : Key → Prop
  | .number x => x.isNaN = false
  | .text _ => True

theorem Key.ofValue_toValue {k : Key} (h : k.IsProper) : ofValue k.toValue = .ok k := by
  cases k with
  | number x => exact if_neg (Bool.eq_false_iff.1 h)
  | text s => rfl

theorem Key.toValue_inj {k k' : Key} (h : k.toValue = k'.toValue) : k = k' := by
  cases k <;> cases k' <;> cases h <;> rfl

/-! ### Steps -/

namespace Table

variable {t : Table} {kept ahead : List Key} {k : Key}

/-- A step from an entry answers the one behind it. -/
theorem next_some {before after : List (Key × Value)} {e : Key × Value}
    (h : t.toList = before ++ e :: after) (hk : e.1.slot = k.slot) :
    t.next (some k) = .ok after.head? := by
  have hentry (i : Nat) : t.entries[i]? = (before ++ e :: after)[i]? := by
    rw [← Array.getElem?_toList, ← h]
    rfl
  have hplace : t.place? k = some before.length := by
    refine (t.isIndex _ _).2 ?_
    rw [slotAt, hentry]
    simp [hk]
  have hnext : t.next (some k) = .ok t.entries[before.length + 1]? := by
    simp only [next, hplace]
  rw [hnext, hentry, List.getElem?_append_right (Nat.le_add_right _ 1), Nat.add_sub_cancel_left,
    List.head?_eq_getElem?]
  rfl

/-- A step from a key that is not there fails. -/
theorem next_of_not_contains (h : t.contains k = false) : t.next (some k) = .error .unknownKey := by
  have hplace : t.place? k = none := by simpa [contains] using h
  simp only [next, hplace]

/-- **A step answers the next key and its value.** -/
theorem next_eq_of_keys (h : t.keys = kept ++ ahead) :
    t.next kept.getLast? = .ok (ahead.head?.map fun k => (k, t.get k)) := by
  obtain ⟨before, after, hlist, rfl, rfl⟩ := List.map_eq_append_iff.1 h
  have hhead : after.head? = (after.map Prod.fst).head?.map fun k => (k, t.get k) := by
    cases hafter : after with
    | nil => rfl
    | cons e rest =>
      have he : e ∈ t.toList := by simp [hlist, hafter]
      simp [get_of_mem he]
  rw [← hhead]
  rcases List.eq_nil_or_concat' before with rfl | ⟨front, e, rfl⟩
  · have hnone : t.next none = .ok t.entries[0]? := rfl
    rw [List.map_nil, List.getLast?_nil, hnone, ← Array.getElem?_toList, ← List.head?_eq_getElem?]
    exact congrArg (Except.ok ·.head?) hlist
  · rw [List.map_append, List.map_singleton, List.getLast?_concat]
    exact next_some (by rw [hlist, List.append_assoc]; rfl) rfl

end Table

namespace Library

variable {ref : TableRef} {s s' s₀ : Store} {visited kept ahead : List Key} {lost : List Slot}
  {k : Key} {v : Value}

/-- What a step is given to go on from: the key that was answered last, `nil` before the
first one. -/
def control (visited : List Key) : Value := (visited.getLast?.map Key.toValue).getD .nil

/-- What a step answers: a key with its value, or `nil` behind the last one. -/
def answer : Option (Key × Value) → List Value
  | some (k, v) => [k.toValue, v]
  | none => [.nil]

theorem next_eq {key : Option Key} (hproper : ∀ k ∈ key, k.IsProper) :
    next [.table ref, (key.map Key.toValue).getD .nil] =
      contents ref >>= fun t => answer <$> lift (t.next key) := by
  have hargs : Arguments.table [.table ref, (key.map Key.toValue).getD .nil] 0 "next" = .ok ref :=
    rfl
  have hvalue : Arguments.value [.table ref, (key.map Key.toValue).getD .nil] 1 =
    (key.map Key.toValue).getD .nil := rfl
  unfold next
  rw [hargs, lift, pure_bind, hvalue]
  cases key with
  | none =>
    rw [Option.map_none, Option.getD_none, if_pos (show Value.nil.isNil = true from rfl), pure_bind]
    refine congrArg (contents ref >>= ·) (funext fun t => ?_)
    cases t.next none with
    | error c => rfl
    | ok entry => cases entry <;> rfl
  | some k =>
    have hnil : k.toValue.isNil = false := by cases k <;> rfl
    rw [Option.map_some, Option.getD_some, hnil, if_neg Bool.false_ne_true,
      Key.ofValue_toValue (hproper k rfl), lift, map_pure, pure_bind]
    refine congrArg (contents ref >>= ·) (funext fun t => ?_)
    cases t.next (some k) with
    | error c => rfl
    | ok entry => cases entry <;> rfl

/-- **A step answers the next key and its value.** -/
theorem next_eq_of_keys (hproper : ∀ k ∈ visited, k.IsProper)
    (hkeys : (s.table ref).keys = kept ++ ahead) (hlast : kept.getLast? = visited.getLast?) :
    next [.table ref, control visited] s =
      .ok (answer (ahead.head?.map fun k => (k, (s.table ref).get k))) s := by
  rw [control, next_eq fun k hk => hproper k (List.mem_of_getLast? hk), ← hlast]
  change (answer <$> lift ((s.table ref).next kept.getLast?)) s = _
  rw [Table.next_eq_of_keys hkeys]
  rfl

/-- A step from a key that is not there fails. -/
theorem next_of_not_contains (hproper : k.IsProper) (h : (s.table ref).contains k = false) :
    next [.table ref, k.toValue] s = .error (.cause .unknownKey) s := by
  have hstep : next [.table ref, ((some k).map Key.toValue).getD .nil] s =
      (answer <$> lift ((s.table ref).next (some k))) s :=
    congrFun (next_eq (by simpa using hproper)) s
  rw [Table.next_of_not_contains h] at hstep
  exact hstep

/-! ### Traversals -/

/-- A course of steps, each from the key that was answered last, and of changes in between.
It tells the keys that have been answered, and those that have been lost by being removed
before they were.  Keys that are there may be given other values and may be removed, all
but the one answered last; what else is in the store may change as well. -/
inductive Traversal (ref : TableRef) (s₀ : Store) : List Key → List Slot → Store → Prop
  | start : Traversal ref s₀ [] [] s₀
  | step {visited : List Key} {lost : List Slot} {s s' : Store} {k : Key} {v : Value} :
      Traversal ref s₀ visited lost s →
      next [.table ref, control visited] s = .ok [k.toValue, v] s' →
      Traversal ref s₀ (visited ++ [k]) lost s'
  | give {visited : List Key} {lost : List Slot} {s s' : Store} {k : Key} {v : Value} :
      Traversal ref s₀ visited lost s → (s.table ref).contains k = true → v.isNil = false →
      s'.table ref = (s.table ref).set k v → Traversal ref s₀ visited lost s'
  | remove {visited : List Key} {lost : List Slot} {s s' : Store} {k : Key} :
      Traversal ref s₀ visited lost s → (s.table ref).contains k = true →
      k.slot ∈ visited.map Key.slot → (∀ last ∈ visited.getLast?, last.slot ≠ k.slot) →
      s'.table ref = (s.table ref).set k .nil → Traversal ref s₀ visited lost s'
  | lose {visited : List Key} {lost : List Slot} {s s' : Store} {k : Key} :
      Traversal ref s₀ visited lost s → (s.table ref).contains k = true →
      k.slot ∉ visited.map Key.slot →
      s'.table ref = (s.table ref).set k .nil → Traversal ref s₀ visited (k.slot :: lost) s'
  | other {visited : List Key} {lost : List Slot} {s s' : Store} :
      Traversal ref s₀ visited lost s → s'.table ref = s.table ref →
      Traversal ref s₀ visited lost s'

/-- The keys that have not been lost. -/
def remaining (lost : List Slot) (keys : List Key) : List Key :=
  keys.filter fun k => k.slot ∉ lost

/-- The keys that have been answered are the first of those that remain.  Those ahead are
in the table behind the one answered last, which is still there. -/
def Follows (keys visited : List Key) (lost : List Slot) (t : Table) : Prop :=
  ∃ kept ahead, remaining lost keys = visited ++ ahead ∧ t.keys = kept ++ ahead ∧
    kept.Sublist visited ∧ kept.getLast? = visited.getLast?

section Follows

variable {keys : List Key} {t u : Table}

theorem mem_of_mem_remaining (h : k ∈ remaining lost keys) : k ∈ keys :=
  List.mem_of_mem_filter h

theorem Follows.mem (h : Follows keys visited lost t) (hk : k ∈ visited) : k ∈ keys := by
  obtain ⟨kept, ahead, hahead, -⟩ := h
  exact mem_of_mem_remaining (hahead ▸ List.mem_append_left _ hk)

/-- A step answers a key that remains, the first one that has not been answered. -/
theorem Follows.step (h : Follows keys visited lost t) {ahead : List Key}
    (hahead : remaining lost keys = visited ++ k :: ahead) :
    Follows keys (visited ++ [k]) lost t := by
  obtain ⟨kept, ahead', hahead', hkeys, hsublist, -⟩ := h
  obtain rfl : k :: ahead = ahead' := List.append_cancel_left (hahead.symm.trans hahead')
  refine ⟨kept ++ [k], ahead, ?_, ?_, hsublist.append (.refl _), ?_⟩
  · rw [hahead, List.append_assoc]
    rfl
  · rw [hkeys, List.append_assoc]
    rfl
  · rw [List.getLast?_concat, List.getLast?_concat]

/-- A change of values goes unnoticed. -/
theorem Follows.of_keys_eq (h : Follows keys visited lost t) (hkeys : u.keys = t.keys) :
    Follows keys visited lost u := by
  unfold Follows
  rwa [hkeys]

/-- A key that has been answered may be removed, if it is not the one answered last. -/
theorem Follows.remove (h : Follows keys visited lost t) (hnodup : (keys.map Key.slot).Nodup)
    (hvisited : k.slot ∈ visited.map Key.slot)
    (hlast : ∀ last ∈ visited.getLast?, last.slot ≠ k.slot)
    (hkeys : u.keys = t.keys.filter fun k' => k'.slot ≠ k.slot) : Follows keys visited lost u := by
  obtain ⟨kept, ahead, hahead, hkept, hsublist, hcurrent⟩ := h
  refine ⟨kept.filter fun k' => k'.slot ≠ k.slot, ahead, hahead, ?_,
    List.filter_sublist.trans hsublist, ?_⟩
  · -- What lies ahead has not been answered, so it is all kept.
    have hsplit : ((visited ++ ahead).map Key.slot).Nodup :=
      hnodup.sublist (hahead ▸ List.filter_sublist.map _)
    rw [List.map_append] at hsplit
    have haway (k' : Key) (hk' : k' ∈ ahead) : k'.slot ≠ k.slot := fun heq =>
      List.disjoint_of_nodup_append hsplit hvisited (heq ▸ List.mem_map_of_mem hk')
    rw [hkeys, hkept, List.filter_append,
      List.filter_eq_self.2 fun k' hk' => decide_eq_true (haway k' hk')]
  · rw [← hcurrent] at hlast ⊢
    rcases List.eq_nil_or_concat' kept with rfl | ⟨front, last, rfl⟩
    · rfl
    · have hstays : last.slot ≠ k.slot := hlast last List.getLast?_concat
      rw [List.filter_append, List.filter_cons_of_pos (by simpa using hstays), List.filter_nil,
        List.getLast?_concat, List.getLast?_concat]

/-- A key that has not been answered may be removed, and is lost. -/
theorem Follows.lose (h : Follows keys visited lost t) (hvisited : k.slot ∉ visited.map Key.slot)
    (hkeys : u.keys = t.keys.filter fun k' => k'.slot ≠ k.slot) :
    Follows keys visited (k.slot :: lost) u := by
  obtain ⟨kept, ahead, hahead, hkept, hsublist, hcurrent⟩ := h
  have hstays (ks : List Key) (hks : ks ⊆ visited) :
      (ks.filter fun k' => k'.slot ≠ k.slot) = ks :=
    List.filter_eq_self.2 fun k' hk' => decide_eq_true fun heq =>
      hvisited (heq ▸ List.mem_map_of_mem (hks hk'))
  refine ⟨kept, ahead.filter fun k' => k'.slot ≠ k.slot, ?_, ?_, hsublist, hcurrent⟩
  · have hfewer : remaining (k.slot :: lost) keys =
        (remaining lost keys).filter fun k' => k'.slot ≠ k.slot := by
      simp [remaining, List.filter_filter]
    rw [hfewer, hahead, List.filter_append, hstays visited (List.Subset.refl _)]
  · rw [hkeys, hkept, List.filter_append, hstays kept hsublist.subset]

end Follows

/-- **Every course keeps the keys that lie ahead.** -/
theorem follows_of_traversal (hproper : ∀ k ∈ (s₀.table ref).keys, k.IsProper)
    (h : Traversal ref s₀ visited lost s) :
    Follows (s₀.table ref).keys visited lost (s.table ref) := by
  have hnodup : ((s₀.table ref).keys.map Key.slot).Nodup := by
    rw [Table.keys, List.map_map]
    exact (s₀.table ref).nodup_slots
  induction h with
  | start => exact ⟨[], (s₀.table ref).keys, by simp [remaining], rfl, .refl _, rfl⟩
  | step _ hnext ih =>
    obtain ⟨kept, ahead, hahead, hkeys, hsublist, hlast⟩ := id ih
    rw [next_eq_of_keys (fun k hk => hproper k (ih.mem hk)) hkeys hlast] at hnext
    cases ahead with
    | nil => simp [answer] at hnext
    | cons k' ahead =>
      obtain ⟨hanswer, rfl⟩ := EStateM.Result.ok.inj hnext
      obtain rfl := Key.toValue_inj (List.cons.inj hanswer).1
      exact ih.step hahead
  | give _ hk hv hs ih => exact ih.of_keys_eq (by rw [hs, Table.keys_set hv hk])
  | remove _ _ hvisited hlast hs ih =>
    exact ih.remove hnodup hvisited hlast (by rw [hs, Table.set_nil, Table.keys_erase])
  | lose _ _ hvisited hs ih =>
    exact ih.lose hvisited (by rw [hs, Table.set_nil, Table.keys_erase])
  | other _ hs ih => rwa [hs]

/-- **A traversal answers every key once, in order, unless it is removed before.**  In the
course of steps and changes no step fails: it answers the next one of the keys that remain
with the value that it has then, or it answers `nil` and all of them have been answered.
If the key answered last is removed, the step from it fails. -/
theorem next_survives_changes (hproper : ∀ k ∈ (s₀.table ref).keys, k.IsProper)
    (h : Traversal ref s₀ visited lost s) :
    ((∃ k, next [.table ref, control visited] s = .ok [k.toValue, (s.table ref).get k] s ∧
        (s.table ref).contains k = true ∧
        visited ++ [k] <+: remaining lost (s₀.table ref).keys) ∨
      (next [.table ref, control visited] s = .ok [.nil] s ∧
        visited = remaining lost (s₀.table ref).keys)) ∧
    visited.length ≤ (s₀.table ref).size ∧
    ∀ last ∈ visited.getLast?, ∀ s', s'.table ref = (s.table ref).set last .nil →
      next [.table ref, control visited] s' = .error (.cause .unknownKey) s' := by
  have hfollows := follows_of_traversal hproper h
  have hvisited (k : Key) (hk : k ∈ visited) : k.IsProper := hproper k (hfollows.mem hk)
  obtain ⟨kept, ahead, hahead, hkeys, hsublist, hlast⟩ := hfollows
  have hnext := next_eq_of_keys hvisited hkeys hlast
  refine ⟨?_, ?_, fun last hlast s' hs' => ?_⟩
  · cases ahead with
    | nil =>
      rw [List.append_nil] at hahead
      exact .inr ⟨hnext, hahead.symm⟩
    | cons k ahead =>
      refine .inl ⟨k, hnext, ?_, ahead, ?_⟩
      · rw [Table.contains_iff_mem_keys, hkeys]
        simp
      · rw [hahead, List.append_assoc]
        rfl
  · have hsize : (s₀.table ref).keys.length = (s₀.table ref).size := by
      simp [Table.keys, Table.toList, Table.size]
    calc visited.length
        ≤ (visited ++ ahead).length := by simp
      _ = (remaining lost (s₀.table ref).keys).length := by rw [hahead]
      _ ≤ (s₀.table ref).keys.length := List.length_filter_le _ _
      _ = (s₀.table ref).size := hsize
  · have hgone : (s'.table ref).contains last = false := by
      rw [hs', Table.set_nil, Bool.eq_false_iff, Ne, Table.contains_iff_mem_keys, Table.keys_erase]
      simp
    rw [control, hlast]
    exact next_of_not_contains (hvisited last (List.mem_of_getLast? hlast)) hgone

/-- A store with a table of three entries. -/
def threeTexts : Store :=
  { Store.empty with tables := #[.ofEntries
      [(.text "a", .string "one"), (.text "b", .string "two"), (.text "c", .string "three")]] }

/-- The same store without one of the entries. -/
def withoutText (name : String) : Store :=
  threeTexts.modifyTable ⟨0⟩ fun t => t.set (.text name) .nil

theorem table_withoutText (name : String) :
    (withoutText name).table ⟨0⟩ = (threeTexts.table ⟨0⟩).set (.text name) .nil :=
  Store.table_modifyTable (by decide)

theorem toList_threeTexts : (threeTexts.table ⟨0⟩).toList =
    [(.text "a", .string "one"), (.text "b", .string "two"), (.text "c", .string "three")] :=
  Table.toList_ofEntries (by decide) (by decide)

theorem keys_threeTexts : (threeTexts.table ⟨0⟩).keys = [.text "a", .text "b", .text "c"] :=
  congrArg (List.map Prod.fst) toList_threeTexts

theorem next_threeTexts :
    next [.table ⟨0⟩, .nil] threeTexts = .ok [.string "a", .string "one"] threeTexts := by
  have hone : (threeTexts.table ⟨0⟩).get (.text "a") = .string "one" :=
    Table.get_of_mem (toList_threeTexts ▸ List.mem_cons_self ..)
  rw [← hone]
  exact next_eq_of_keys (List.forall_mem_nil _) keys_threeTexts rfl

/-- The second of three entries is removed behind the first step, and the third one is
answered next. -/
theorem next_survives_loss :
    Traversal ⟨0⟩ threeTexts [.text "a"] [.text "b"] (withoutText "b") ∧
      ∃ v, next [.table ⟨0⟩, .string "a"] (withoutText "b") =
        .ok [.string "c", v] (withoutText "b") := by
  have hcontains : (threeTexts.table ⟨0⟩).contains (.text "b") = true := by
    rw [Table.contains_iff_mem_keys, keys_threeTexts]
    decide
  have hcourse : Traversal ⟨0⟩ threeTexts [.text "a"] [.text "b"] (withoutText "b") :=
    .lose (.step .start next_threeTexts) hcontains (by decide) (table_withoutText "b")
  have hproper : ∀ k ∈ (threeTexts.table ⟨0⟩).keys, k.IsProper := by
    rw [keys_threeTexts]
    simp [Key.IsProper]
  have hleft : remaining [.text "b"] (threeTexts.table ⟨0⟩).keys = [.text "a", .text "c"] := by
    rw [keys_threeTexts]
    decide
  obtain ⟨⟨k, hnext, -, hprefix⟩ | ⟨-, hall⟩, -⟩ := next_survives_changes hproper hcourse
  · rw [hleft] at hprefix
    obtain rfl : k = .text "c" := by simpa using hprefix
    exact ⟨hcourse, _, hnext⟩
  · rw [hleft] at hall
    cases hall

/-- **The step from a key that has been removed fails**, though it is the key that was
answered last. -/
theorem next_of_removed_current :
    next [.table ⟨0⟩, .nil] threeTexts = .ok [.string "a", .string "one"] threeTexts ∧
      (withoutText "a").table ⟨0⟩ = (threeTexts.table ⟨0⟩).set (.text "a") .nil ∧
      next [.table ⟨0⟩, .string "a"] (withoutText "a") =
        .error (.cause .unknownKey) (withoutText "a") := by
  have hgone : ((withoutText "a").table ⟨0⟩).contains (.text "a") = false := by
    rw [table_withoutText, Table.set_nil, Bool.eq_false_iff, Ne, Table.contains_iff_mem_keys,
      Table.keys_erase, keys_threeTexts]
    decide
  have hproper : (Key.text "a").IsProper := trivial
  exact ⟨next_threeTexts, table_withoutText "a", next_of_not_contains hproper hgone⟩

end Library

end ScriptEngine
