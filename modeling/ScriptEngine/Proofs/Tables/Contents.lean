import Mathlib.Data.List.Nodup
import Mathlib.Data.List.Perm.Subperm
import ScriptEngine.Library.Tables
import ScriptEngine.Proofs.Number.Count
import ScriptEngine.Proofs.Number.Equality

/-!
# Contents of tables

Looking keys up before and after a table is changed, the keys `1`, `2`, … up to the
border, and the values under them.  A table is described by its list of entries: two
tables with the same list answer all questions alike, whatever their index is.

## Main definitions

* `Table.Full` — no entry of a table is `nil`.
* `Table.keys` — the keys of a table in the order of their insertion.
* `Table.Reordered` — the values up to the border have been put in some order.

## Main results

* `Key.slot_ofNat_inj` — keys that are integers from `1` on are told apart.
* `Table.nodup_slots` — no slot has two entries.
* `Table.toList_eq_of_keys_eq` — a table is known by its keys and what is found under them.
* `Table.get?_insert`, `Table.keys_insert`, `Table.toList_erase` — what changing the value of
  a key does, and what removing a key does.
* `Table.get_set` — looking a key up after a key has been set.
* `Table.toList_ofEntries` — a table has the entries that it is made of.
* `Table.border_eq` — the border is the last key before the first gap.
* `Table.get_setSequence`, `Table.get_setSequence_of_ne`, `Table.keys_setSequence` — what
  changing the values under the keys from a position on does.
* `Table.sequence_setSequence` — the values up to the border are those that have been put
  there.
* `Table.reordered_setSequence` — so they are, in some order, if that is what is put there.
-/

namespace ScriptEngine

/-! ### Keys that are integers -/

namespace Number

/-- A positive normal number is not a zero. -/
theorem not_beq_zero_ofBits {bits : Nat} (hlow : 2 ^ 52 ≤ bits) (hhigh : bits < 2047 * 2 ^ 52) :
    (Float.ofBits bits.toUInt64 == 0) = false := by
  have hback := toNat_toBits_ofBits hlow hhigh
  rw [← UInt64.toNat_toBitVec] at hback
  obtain ⟨h, hunpack⟩ := unpack_of_normal hback hlow hhigh
  have hzero : (0 : Float).toModel.unpack = .zero .positive := by rfl
  have hbeq : (Float.ofBits bits.toUInt64 == 0) =
      (Float.Model.UnpackedFloat.unpack Float.Model.Format.binary64
        (Float.ofBits bits.toUInt64).toBits.toBitVec).beq (0 : Float).toModel.unpack := rfl
  rw [hbeq, hunpack, hzero]
  rfl

theorem not_beq_zero_ofNat {n : Nat} (hpos : 0 < n) (hn : n < mantissaBound) :
    (ofNat n == 0) = false := by
  obtain ⟨shift, hshift, hlow, hhigh, hbits⟩ := packBits_of_pos hpos hn
  have hhidden : hiddenBit = 2 ^ 52 := rfl
  rw [hhidden] at hlow hhigh hbits
  rw [ofNat, if_pos hn, pack, hbits]
  exact not_beq_zero_ofBits (by omega) (by omega)

end Number

namespace Key

theorem slot_ofNat {n : Nat} (hpos : 0 < n) (hn : n < Number.mantissaBound) :
    (ofNat n).slot = .number (Number.ofNat n).toBits := by
  change Slot.number (if Number.ofNat n == 0 then 0 else (Number.ofNat n).toBits) = _
  rw [Number.not_beq_zero_ofNat hpos hn]
  rfl

/-- **Keys that are integers are told apart**, as long as they are exact. -/
theorem slot_ofNat_inj {m n : Nat} (hm : 0 < m) (hm' : m < Number.mantissaBound) (hn : 0 < n)
    (hn' : n < Number.mantissaBound) : (ofNat m).slot = (ofNat n).slot ↔ m = n := by
  refine ⟨fun h => ?_, fun h => congrArg (fun n => (ofNat n).slot) h⟩
  rw [slot_ofNat hm hm', slot_ofNat hn hn', Slot.number.injEq] at h
  -- A number is read from its bits, and a count can be read back.
  have hread : Number.toCount (Number.ofNat m) = Number.toCount (Number.ofNat n) := by
    unfold Number.toCount Number.read
    rw [h]
  rwa [Number.toCount_ofNat hm', Number.toCount_ofNat hn'] at hread

theorem ofInt_natCast (n : Nat) : ofInt n = ofNat n := rfl

end Key

namespace Table

variable {t u : Table} {k k' : Key} {v : Value} {vs : List Value}

/-! ### Keys of tables -/

/-- The keys of a table, in the order of their insertion. -/
def keys (t : Table) : List Key := t.toList.map Prod.fst

/-- No entry of a table is `nil`. -/
def Full (t : Table) : Prop := ∀ e ∈ t.toList, e.2.isNil = false

theorem nodup_slots (t : Table) : (t.toList.map fun e => e.1.slot).Nodup := by
  have hplace {i : Nat} {slot : Slot} (h : (t.toList.map fun e => e.1.slot)[i]? = some slot) :
      t.places[slot]? = some i := by
    refine (t.isIndex slot i).2 ?_
    rwa [List.getElem?_map, toList, Array.getElem?_toList] at h
  rw [List.nodup_iff_getElem?_ne_getElem?]
  intro i j hij hj heq
  have hslot := List.getElem?_eq_getElem hj
  have hplaces := hplace (heq.trans hslot)
  rw [hplace hslot, Option.some.injEq] at hplaces
  omega

theorem isSome_get?_iff :
    (t.get? k).isSome ↔ k.slot ∈ t.toList.map fun e => e.1.slot := by
  rw [Option.isSome_iff_exists, List.mem_map]
  constructor
  · rintro ⟨v, hv⟩
    obtain ⟨e, he, hslot, -⟩ := get?_eq_some_iff.1 hv
    exact ⟨e, he, hslot⟩
  · rintro ⟨e, he, hslot⟩
    exact ⟨e.2, get?_eq_some_iff.2 ⟨e, he, hslot, rfl⟩⟩

/-- A table finds what another one with the same entries finds. -/
theorem get?_eq_of_toList_eq (h : t.toList = u.toList) (k : Key) : t.get? k = u.get? k := by
  ext v
  rw [get?_eq_some_iff, get?_eq_some_iff, h]

theorem get_eq_of_toList_eq (h : t.toList = u.toList) (k : Key) : t.get k = u.get k := by
  rw [get, get, get?_eq_of_toList_eq h]

theorem contains_eq_isSome_get? : t.contains k = (t.get? k).isSome := by
  unfold contains get?
  cases hplace : t.place? k with
  | none => rfl
  | some i =>
    have hslot := (t.isIndex k.slot i).1 hplace
    rw [slotAt, Option.map_eq_some_iff] at hslot
    obtain ⟨e, he, -⟩ := hslot
    simp [he]

/-- A key finds the entry that it is the key of. -/
theorem get_of_mem {e : Key × Value} (he : e ∈ t.toList) : t.get e.1 = e.2 := by
  rw [get, get?_eq_some_iff.2 ⟨e, he, rfl, rfl⟩]
  rfl

theorem get_eq_of_slot_eq (h : k.slot = k'.slot) : t.get k = t.get k' := by
  rw [get, get, get?, get?, place?, place?, h]

/-- **A table is known by its keys and what is found under them.** -/
theorem toList_eq_of_keys_eq (hkeys : t.keys = u.keys) (hget : ∀ k ∈ t.keys, t.get k = u.get k) :
    t.toList = u.toList := by
  have hlength : t.toList.length = u.toList.length := by
    simpa [keys] using congrArg List.length hkeys
  apply List.ext_getElem hlength
  intro i ht hu
  have hkey : t.toList[i].1 = u.toList[i].1 := by
    have hat : t.keys[i]? = u.keys[i]? := congrArg (·[i]?) hkeys
    simpa [keys, ht, hu] using hat
  refine Prod.ext hkey ?_
  rw [← get_of_mem (List.getElem_mem ht), ← get_of_mem (List.getElem_mem hu), ← hkey]
  exact hget _ (List.mem_map_of_mem (List.getElem_mem ht))

theorem contains_iff_mem_keys : t.contains k = true ↔ k.slot ∈ t.keys.map Key.slot := by
  rw [contains_eq_isSome_get?, isSome_get?_iff, keys, List.map_map]
  rfl

/-- A table has the keys that another one with the same keys has. -/
theorem contains_eq_of_keys_eq (h : t.keys = u.keys) (k : Key) : t.contains k = u.contains k := by
  have hslots : (t.toList.map fun e => e.1.slot) = u.toList.map fun e => e.1.slot := by
    have hmap := congrArg (List.map Key.slot) h
    simpa [keys, List.map_map, Function.comp_def] using hmap
  rw [contains_eq_isSome_get?, contains_eq_isSome_get?, Bool.eq_iff_iff, isSome_get?_iff,
    isSome_get?_iff, hslots]

theorem size_eq_of_keys_eq (h : t.keys = u.keys) : t.size = u.size := by
  have hlength := congrArg List.length h
  simpa [keys, toList, size] using hlength

/-- A value that is not there is looked up as `nil`, so one that is there is not. -/
theorem Full.isNil_get (h : t.Full) (hk : t.contains k = true) : (t.get k).isNil = false := by
  rw [contains_eq_isSome_get?, Option.isSome_iff_exists] at hk
  obtain ⟨v, hv⟩ := hk
  obtain ⟨e, he, -, rfl⟩ := get?_eq_some_iff.1 hv
  rw [get, hv]
  exact h e he

/-! ### Changing a value -/

/-- Looking a key up after a key has been given a value. -/
theorem get?_insert (t : Table) (k k' : Key) (v : Value) :
    (t.insert k v).get? k' = if k.slot = k'.slot then some v else t.get? k' := by
  obtain ⟨entries, places, inv⟩ := t
  unfold insert
  dsimp only
  split
  · next i hi =>
    -- The places are those of before, and the entry at one of them has the new value.
    simp only [get?, place?, Array.getElem?_modify]
    have hbound : i < entries.size := by
      have hslot := (inv _ _).1 hi
      apply Nat.lt_of_not_le
      intro hle
      simp [slotAt, Array.getElem?_eq_none hle] at hslot
    by_cases hslot : k.slot = k'.slot
    · rw [← hslot, hi]
      simp [hbound]
    · cases hj : places[k'.slot]? with
      | none => simp [hslot]
      | some j =>
        have hne : i ≠ j := by
          rintro rfl
          have hboth := ((inv _ _).1 hi).symm.trans ((inv _ _).1 hj)
          exact hslot (Option.some.inj hboth)
        simp [hslot, hne]
  · next hnone =>
    simp only [get?, place?, Std.HashMap.getElem?_insert, beq_iff_eq, Array.getElem?_push]
    by_cases hslot : k.slot = k'.slot
    · simp [hslot]
    · cases hj : places[k'.slot]? with
      | none => simp [hslot]
      | some j =>
        have hbound : j < entries.size := by
          have hplaced := (inv _ _).1 hj
          apply Nat.lt_of_not_le
          intro hle
          simp [slotAt, Array.getElem?_eq_none hle] at hplaced
        have hne : j ≠ entries.size := Nat.ne_of_lt hbound
        simp [hslot, hne]

/-- A key that is there keeps its place when its value changes. -/
theorem keys_insert (h : t.contains k = true) : (t.insert k v).keys = t.keys := by
  obtain ⟨entries, places, inv⟩ := t
  obtain ⟨i, hi⟩ := Option.isSome_iff_exists.1 h
  have hplace : places[k.slot]? = some i := hi
  unfold insert
  dsimp only
  split
  · apply List.ext_getElem?
    intro j
    simp only [keys, toList, List.getElem?_map, Array.getElem?_toList, Array.getElem?_modify]
    split
    · simp [Option.map_map, Function.comp_def]
    · rfl
  · next hnone => rw [hplace] at hnone; cases hnone

/-- A key that is not there comes last when it is given a value. -/
theorem toList_insert_of_not_contains (h : t.contains k = false) :
    (t.insert k v).toList = t.toList ++ [(k, v)] := by
  obtain ⟨entries, places, inv⟩ := t
  have hplace : places[k.slot]? = none := by simpa [contains, place?] using h
  unfold insert
  dsimp only
  split
  · next i hi => rw [hplace] at hi; cases hi
  · simp [toList]

/-- Removing a key leaves the other entries, in their order. -/
theorem toList_erase (t : Table) (k : Key) :
    (t.erase k).toList = t.toList.filter fun e => e.1.slot ≠ k.slot := by
  have hnodup := t.nodup_slots
  obtain ⟨entries, places, inv⟩ := t
  have hslot (i : Nat) : places[k.slot]? = some i ↔ slotAt entries i = some k.slot := inv _ _
  unfold erase
  dsimp only
  split
  · next hnone =>
    refine (List.filter_eq_self.2 fun e he => ?_).symm
    obtain ⟨i, hi⟩ := Array.mem_iff_getElem?.1 (Array.mem_toList_iff.1 he)
    rw [decide_eq_true_iff]
    intro heq
    have hplace := (hslot i).2 (by rw [slotAt, hi, ← heq]; rfl)
    rw [hnone] at hplace
    cases hplace
  · next i hi =>
    obtain ⟨e, he, hek⟩ := Option.map_eq_some_iff.1 ((hslot i).1 hi)
    obtain ⟨hbound, rfl⟩ := Array.getElem?_eq_some_iff.1 he
    have hlist : entries.toList =
        entries.toList.take i ++ entries[i] :: entries.toList.drop (i + 1) := by
      rw [← Array.getElem_toList, List.getElem_cons_drop, List.take_append_drop]
    have herased : (entries.eraseIdxIfInBounds i).toList =
        entries.toList.take i ++ entries.toList.drop (i + 1) := by
      rw [Array.eraseIdxIfInBounds, dif_pos hbound, Array.toList_eraseIdx,
        List.eraseIdx_eq_take_drop_succ]
    change (entries.eraseIdxIfInBounds i).toList = entries.toList.filter _
    change (entries.toList.map fun e => e.1.slot).Nodup at hnodup
    rw [hlist, List.map_append, List.map_cons, List.nodup_middle, List.nodup_cons,
      ← List.map_append] at hnodup
    rw [herased]
    conv_rhs => rw [hlist]
    rw [List.filter_append, List.filter_cons_of_neg (by simpa using hek), ← List.filter_append]
    refine (List.filter_eq_self.2 fun e' he' => ?_).symm
    rw [decide_eq_true_iff]
    intro heq
    exact hnodup.1 (List.mem_map.2 ⟨e', he', heq.trans hek.symm⟩)

theorem keys_erase (t : Table) (k : Key) :
    (t.erase k).keys = t.keys.filter fun k' => k'.slot ≠ k.slot := by
  rw [keys, toList_erase, keys, List.filter_map]
  rfl

/-- Looking a key up after a key has been removed. -/
theorem get?_erase (t : Table) (k k' : Key) :
    (t.erase k).get? k' = if k.slot = k'.slot then none else t.get? k' := by
  ext v
  rw [get?_eq_some_iff, toList_erase]
  split
  · next heq =>
    refine iff_of_false ?_ (by simp)
    rintro ⟨e, he, hslot, -⟩
    have hne := (List.mem_filter.1 he).2
    simp [hslot, heq] at hne
  · next hne =>
    rw [get?_eq_some_iff]
    constructor
    · rintro ⟨e, he, hslot, hv⟩
      exact ⟨e, (List.mem_filter.1 he).1, hslot, hv⟩
    · rintro ⟨e, he, hslot, hv⟩
      exact ⟨e, List.mem_filter.2 ⟨he, by simpa [hslot] using Ne.symm hne⟩, hslot, hv⟩

/-- The values of keys that are there are changed in place. -/
theorem set_eq_insert (h : v.isNil = false) : t.set k v = t.insert k v := by
  rw [set, h]
  rfl

theorem set_nil (t : Table) (k : Key) : t.set k .nil = t.erase k := rfl

theorem keys_set (hv : v.isNil = false) (h : t.contains k = true) : (t.set k v).keys = t.keys := by
  rw [set_eq_insert hv, keys_insert h]

theorem toList_set_of_not_contains (hv : v.isNil = false) (h : t.contains k = false) :
    (t.set k v).toList = t.toList ++ [(k, v)] := by
  rw [set_eq_insert hv, toList_insert_of_not_contains h]

/-- **Looking a key up after a key has been set.** -/
theorem get_set (t : Table) (k k' : Key) (v : Value) :
    (t.set k v).get k' = if k.slot = k'.slot then v else t.get k' := by
  cases v with
  | nil =>
    rw [set_nil, get, get, get?_erase]
    split <;> rfl
  | _ =>
    rw [set_eq_insert rfl, get, get, get?_insert]
    split <;> rfl

/-- A table stays full when a key is set. -/
theorem Full.set (h : t.Full) (k : Key) (v : Value) : (t.set k v).Full := by
  intro e he
  have hget := get?_eq_some_iff.2 ⟨e, he, rfl, rfl⟩
  unfold Table.set at hget he
  cases hv : v.isNil with
  | false =>
    rw [hv, if_neg Bool.false_ne_true, get?_insert] at hget
    split at hget
    · rw [← Option.some.inj hget]
      exact hv
    · obtain ⟨e', he', -, heq⟩ := get?_eq_some_iff.1 hget
      rw [← heq]
      exact h e' he'
  | true =>
    rw [hv, if_pos rfl, toList_erase] at he
    exact h e (List.mem_of_mem_filter he)

/-- **A table that is made by setting keys is full.** -/
theorem full_ofEntries (entries : List (Key × Value)) : (ofEntries entries).Full := by
  have hfold (t : Table) (h : t.Full) : (entries.foldl (fun t e => t.set e.1 e.2) t).Full := by
    induction entries generalizing t with
    | nil => exact h
    | cons e rest ih => exact ih _ (h.set e.1 e.2)
  exact hfold empty (List.forall_mem_nil _)

/-- **A table has the entries that it is made of**, if no two of them have one key. -/
theorem toList_ofEntries {entries : List (Key × Value)} (hfull : ∀ e ∈ entries, e.2.isNil = false)
    (hnodup : (entries.map fun e => e.1.slot).Nodup) : (ofEntries entries).toList = entries := by
  have hfold (t : Table) (h : ((t.toList ++ entries).map fun e => e.1.slot).Nodup) :
      (entries.foldl (fun t e => t.set e.1 e.2) t).toList = t.toList ++ entries := by
    clear hnodup
    induction entries generalizing t with
    | nil => exact (List.append_nil _).symm
    | cons e rest ih =>
      have hfresh : t.contains e.1 = false := by
        rw [List.map_append, List.map_cons, List.nodup_middle, List.nodup_cons] at h
        rw [Bool.eq_false_iff, Ne, contains_eq_isSome_get?, isSome_get?_iff]
        exact fun hmem => h.1 (List.mem_append_left _ hmem)
      have hset : (t.set e.1 e.2).toList = t.toList ++ [e] :=
        toList_set_of_not_contains (hfull e (List.mem_cons_self ..)) hfresh
      rw [List.append_cons, ← hset] at h ⊢
      exact ih (fun e' he' => hfull e' (List.mem_cons_of_mem _ he')) _ h
  exact hfold empty hnodup

/-! ### The border -/

/-- There is no gap below what has been counted. -/
theorem contains_of_le_borderFrom {fuel n i : Nat} (hlow : n < i)
    (hhigh : i ≤ t.borderFrom fuel n) : t.contains (.ofNat i) = true := by
  induction fuel generalizing n with
  | zero => exact absurd hhigh (by rw [borderFrom]; omega)
  | succ fuel ih =>
    rw [borderFrom] at hhigh
    split at hhigh
    · next hnext =>
      rcases Nat.eq_or_lt_of_le (Nat.succ_le_of_lt hlow) with rfl | hlow
      · exact hnext
      · exact ih hlow hhigh
    · omega

theorem contains_of_le_border {i : Nat} (hlow : 0 < i) (hhigh : i ≤ t.border) :
    t.contains (.ofNat i) = true :=
  contains_of_le_borderFrom hlow hhigh

theorem borderFrom_eq_of_keys_eq (h : t.keys = u.keys) (fuel n : Nat) :
    t.borderFrom fuel n = u.borderFrom fuel n := by
  induction fuel generalizing n with
  | zero => rfl
  | succ fuel ih => rw [borderFrom, borderFrom, contains_eq_of_keys_eq h, ih]

/-- The border depends on the keys only. -/
theorem border_eq_of_keys_eq (h : t.keys = u.keys) : t.border = u.border := by
  rw [border, border, size_eq_of_keys_eq h, borderFrom_eq_of_keys_eq h]

/-- Keys `1`, `2`, … that are there are no more than the entries. -/
theorem le_size_of_contains {m : Nat} (hm : m < Number.mantissaBound)
    (h : ∀ i, 0 < i → i ≤ m → t.contains (.ofNat i) = true) : m ≤ t.size := by
  have hnodup : ((List.range' 1 m).map fun i => (Key.ofNat i).slot).Nodup := by
    refine (List.nodup_range' 1).map_on fun i hi j hj hslot => ?_
    rw [List.mem_range'_1] at hi hj
    exact (Key.slot_ofNat_inj (by omega) (by omega) (by omega) (by omega)).1 hslot
  have hsubset : ((List.range' 1 m).map fun i => (Key.ofNat i).slot) ⊆
      t.toList.map fun e => e.1.slot := by
    intro slot hslot
    obtain ⟨i, hi, rfl⟩ := List.mem_map.1 hslot
    rw [List.mem_range'_1] at hi
    rw [← isSome_get?_iff, ← contains_eq_isSome_get?]
    exact h i (by omega) (by omega)
  have hlength := (List.subperm_of_subset hnodup hsubset).length_le
  simpa [toList, size] using hlength

theorem borderFrom_eq {m fuel n : Nat} (hnm : n ≤ m) (hfuel : m ≤ n + fuel)
    (h : ∀ i, n < i → i ≤ m → t.contains (.ofNat i) = true)
    (hnot : t.contains (.ofNat (m + 1)) = false) : t.borderFrom fuel n = m := by
  induction fuel generalizing n with
  | zero => exact Nat.le_antisymm hnm hfuel
  | succ fuel ih =>
    rw [borderFrom]
    rcases Nat.eq_or_lt_of_le hnm with rfl | hlt
    · rw [hnot]
      rfl
    · rw [h (n + 1) (Nat.lt_succ_self n) hlt, if_pos rfl]
      exact ih hlt (by omega) fun i hi => h i (by omega)

/-- **The border is the last key before the first gap.** -/
theorem border_eq {m : Nat} (hm : m < Number.mantissaBound)
    (h : ∀ i, 0 < i → i ≤ m → t.contains (.ofNat i) = true)
    (hnot : t.contains (.ofNat (m + 1)) = false) : t.border = m :=
  borderFrom_eq (Nat.zero_le m) (by rw [Nat.zero_add]; exact le_size_of_contains hm h) h hnot

theorem contains_succ_borderFrom {fuel n : Nat} (h : t.borderFrom fuel n < n + fuel) :
    t.contains (.ofNat (t.borderFrom fuel n + 1)) = false := by
  induction fuel generalizing n with
  | zero => exact absurd h (Nat.lt_irrefl n)
  | succ fuel ih =>
    rw [borderFrom] at h ⊢
    split at h
    · next hnext =>
      rw [if_pos hnext]
      exact ih (by omega)
    · next hnext =>
      rw [if_neg hnext]
      exact Bool.eq_false_iff.2 hnext

/-- The key behind the border is not there. -/
theorem contains_succ_border (h : t.border + 1 < Number.mantissaBound) :
    t.contains (.ofNat (t.border + 1)) = false := by
  rcases Nat.lt_or_ge t.border t.size with hlt | hge
  · exact contains_succ_borderFrom (by rwa [Nat.zero_add])
  · rw [Bool.eq_false_iff]
    intro hnext
    have hsize : t.border + 1 ≤ t.size := le_size_of_contains h fun i hlow hhigh => by
      rcases Nat.eq_or_lt_of_le hhigh with rfl | hlt
      · exact hnext
      · exact contains_of_le_border hlow (Nat.le_of_lt_succ hlt)
    omega

/-! ### Values under consecutive keys -/

theorem sequence_eq (t : Table) :
    t.sequence = (List.range t.border).map fun i => t.get (.ofNat (i + 1)) := by
  unfold sequence valuesFrom
  refine List.map_congr_left fun i _ => ?_
  rw [atInteger, ← Key.ofInt_natCast, Nat.cast_succ, Int.add_comm]

@[simp] theorem length_sequence (t : Table) : t.sequence.length = t.border := by
  rw [sequence_eq, List.length_map, List.length_range]

/-- No value up to the border of a full table is `nil`. -/
theorem Full.isNil_of_mem_sequence (h : t.Full) (hv : v ∈ t.sequence) : v.isNil = false := by
  rw [sequence_eq, List.mem_map] at hv
  obtain ⟨i, hi, rfl⟩ := hv
  rw [List.mem_range] at hi
  exact h.isNil_get (contains_of_le_border (Nat.succ_pos i) hi)

section SetSequence

variable {position : Nat}

/-- Values that are put under keys that are there change no key. -/
theorem keys_setSequence (hvs : ∀ v ∈ vs, v.isNil = false)
    (hkeys : ∀ i < vs.length, t.contains (.ofNat (position + i)) = true) :
    (t.setSequence position vs).keys = t.keys := by
  induction vs generalizing t position with
  | nil => rfl
  | cons v rest ih =>
    have hkey : t.contains (.ofNat position) = true := hkeys 0 (Nat.succ_pos _)
    have hkept : (t.set (.ofNat position) v).keys = t.keys :=
      keys_set (hvs v (List.mem_cons_self ..)) hkey
    rw [setSequence, ih (fun w hw => hvs w (List.mem_cons_of_mem _ hw)) fun i hi => ?_, hkept]
    rw [contains_eq_of_keys_eq hkept, Nat.add_right_comm]
    exact hkeys (i + 1) (Nat.succ_lt_succ hi)

/-- Values that are put under other keys do not change the value of a key. -/
theorem get_setSequence_of_ne (hvs : ∀ v ∈ vs, v.isNil = false)
    (hk : ∀ i < vs.length, (Key.ofNat (position + i)).slot ≠ k.slot) :
    (t.setSequence position vs).get k = t.get k := by
  induction vs generalizing t position with
  | nil => rfl
  | cons v rest ih =>
    have hne : (Key.ofNat position).slot ≠ k.slot := hk 0 (Nat.succ_pos _)
    rw [setSequence, ih (fun w hw => hvs w (List.mem_cons_of_mem _ hw)) fun i hi => ?_]
    · rw [get_set, if_neg hne]
    · rw [Nat.add_right_comm]
      exact hk (i + 1) (Nat.succ_lt_succ hi)

/-- The values that are put under keys are found there. -/
theorem get_setSequence (hvs : ∀ v ∈ vs, v.isNil = false) (hpos : 0 < position)
    (hfits : position + vs.length ≤ Number.mantissaBound) {i : Nat} (hi : i < vs.length) :
    (t.setSequence position vs).get (.ofNat (position + i)) = vs[i] := by
  induction vs generalizing t position i with
  | nil => exact absurd hi (Nat.not_lt_zero i)
  | cons v rest ih =>
    have hrest (w : Value) (hw : w ∈ rest) : w.isNil = false := hvs w (List.mem_cons_of_mem _ hw)
    rw [List.length_cons] at hi hfits
    rw [setSequence]
    cases i with
    | zero =>
      -- The values behind the first one go under other keys.
      change ((t.set (.ofNat position) v).setSequence (position + 1) rest).get (.ofNat position) = v
      rw [get_setSequence_of_ne hrest fun j hj => ?_, get_set, if_pos rfl]
      · rw [Ne, Key.slot_ofNat_inj (by omega) (by omega) hpos (by omega)]
        omega
    | succ i =>
      rw [← Nat.add_assoc, Nat.add_right_comm]
      exact ih hrest (Nat.succ_pos _) (by omega) (Nat.lt_of_succ_lt_succ hi)

end SetSequence

/-- **The values up to the border are those that have been put there**, if they are as
many as there were. -/
theorem sequence_setSequence (hvs : ∀ v ∈ vs, v.isNil = false) (hlength : vs.length = t.border)
    (hfits : t.border < Number.mantissaBound) : (t.setSequence 1 vs).sequence = vs := by
  have hkeys : (t.setSequence 1 vs).keys = t.keys :=
    keys_setSequence hvs fun i hi => contains_of_le_border (by omega) (by omega)
  have hborder : (t.setSequence 1 vs).border = vs.length := by
    rw [border_eq_of_keys_eq hkeys, hlength]
  apply List.ext_getElem
  · rw [length_sequence, hborder]
  · intro i hi hi'
    simp only [sequence_eq, List.getElem_map, List.getElem_range]
    rw [Nat.add_comm]
    exact get_setSequence hvs Nat.one_pos (by omega) hi'

/-! ### Another order of the values -/

/-- The values of a table up to its border have been put in some order: all else is as it
was, and so is the order of the keys. -/
structure Reordered (t u : Table) : Prop where
  perm : u.sequence.Perm t.sequence
  keys : u.keys = t.keys
  others : ∀ k : Key, (∀ i, 0 < i → i ≤ t.border → (Key.ofNat i).slot ≠ k.slot) →
    u.get k = t.get k

section Reordered

variable (hentries : u.toList = t.toList) (hfull : t.Full) (hfits : t.border < Number.mantissaBound)
  (hperm : vs.Perm t.sequence)
include hentries hfull hfits hperm

/-- The values of a full table in some order are its values once they are put there. -/
theorem sequence_setSequence_of_perm : (u.setSequence 1 vs).sequence = vs := by
  have hborder : u.border = t.border :=
    border_eq_of_keys_eq (congrArg (List.map Prod.fst) hentries)
  refine sequence_setSequence (fun v hv => hfull.isNil_of_mem_sequence (hperm.mem_iff.1 hv)) ?_ ?_
  · rw [hperm.length_eq, length_sequence, hborder]
  · rw [hborder]
    exact hfits

theorem reordered_setSequence : t.Reordered (u.setSequence 1 vs) := by
  have hkeys : u.keys = t.keys := congrArg (List.map Prod.fst) hentries
  have hlength : vs.length = t.border := by rw [hperm.length_eq, length_sequence]
  have hvs (v : Value) (hv : v ∈ vs) : v.isNil = false :=
    hfull.isNil_of_mem_sequence (hperm.mem_iff.1 hv)
  refine ⟨?_, ?_, fun k hk => ?_⟩
  · rw [sequence_setSequence_of_perm hentries hfull hfits hperm]
    exact hperm
  · rw [keys_setSequence hvs fun i hi => ?_, hkeys]
    rw [contains_eq_of_keys_eq hkeys]
    exact contains_of_le_border (by omega) (by omega)
  · rw [get_setSequence_of_ne hvs fun i hi => hk (1 + i) (by omega) (by omega),
      get_eq_of_toList_eq hentries]

end Reordered

/-! ### The number of entries -/

theorem borderFrom_le (t : Table) (fuel n : Nat) : t.borderFrom fuel n ≤ n + fuel := by
  induction fuel generalizing n with
  | zero => exact Nat.le_refl _
  | succ fuel ih =>
    rw [borderFrom]
    split
    · have hnext := ih (n + 1)
      omega
    · omega

theorem size_set_le (t : Table) (k : Key) (v : Value) : (t.set k v).size ≤ t.size + 1 := by
  obtain ⟨entries, places, inv⟩ := t
  unfold set
  split
  · unfold erase
    dsimp only
    split
    · exact Nat.le_succ _
    · change (entries.eraseIdxIfInBounds _).size ≤ entries.size + 1
      rw [Array.eraseIdxIfInBounds_eq]
      split
      · rw [Array.size_eraseIdx]
        omega
      · exact Nat.le_succ _
  · unfold insert
    dsimp only
    split
    · change (entries.modify _ _).size ≤ entries.size + 1
      rw [Array.size_modify]
      exact Nat.le_succ _
    · change (entries.push _).size ≤ entries.size + 1
      rw [Array.size_push]

/-- The border of a table that is made of values is no more than their number. -/
theorem border_ofValues_le (values : List Value) : (ofValues values).border ≤ values.length := by
  have hfold (entries : List (Key × Value)) (t : Table) :
      (entries.foldl (fun t e => t.set e.1 e.2) t).size ≤ t.size + entries.length := by
    induction entries generalizing t with
    | nil => exact Nat.le_refl _
    | cons e rest ih =>
      have hset := size_set_le t e.1 e.2
      have hrest := ih (t.set e.1 e.2)
      rw [List.foldl_cons, List.length_cons]
      omega
  have hsize : (ofValues values).size ≤ _ := hfold _ empty
  rw [List.length_map, List.length_zipIdx] at hsize
  calc (ofValues values).border
      ≤ 0 + (ofValues values).size := borderFrom_le _ _ _
    _ ≤ 0 + (empty.size + values.length) := Nat.add_le_add_left hsize 0
    _ = values.length := by rw [Nat.zero_add]; exact Nat.zero_add _

end Table

namespace Store

theorem table_modifyTable {s : Store} {ref : TableRef} {f : Table → Table}
    (h : ref.index < s.tables.size) : (s.modifyTable ref f).table ref = f (s.table ref) := by
  simp [table, modifyTable, Array.getElem?_modify, Array.getElem?_eq_getElem h]

/-- A table whose values up to the border are changed is looked up with the new ones, also
where there is no table and none is changed. -/
theorem table_modifyTable_setSequence {s : Store} {ref : TableRef} {vs : List Value}
    (hlength : vs.length = (s.table ref).border) :
    (s.modifyTable ref fun t => t.setSequence 1 vs).table ref =
      (s.table ref).setSequence 1 vs := by
  unfold table modifyTable at *
  rw [Array.getElem?_modify, if_pos rfl]
  cases htable : s.tables[ref.index]? with
  | some t => rfl
  | none =>
    rw [htable] at hlength
    obtain rfl : vs = [] := List.eq_nil_of_length_eq_zero hlength
    rfl

end Store

end ScriptEngine
