import ScriptEngine.Proofs.Number.Integers
import ScriptEngine.Proofs.Tables.Contents

/-!
# Inserting and removing values of tables

The values of a table under the keys `1`, `2`, … up to its border are a list.  Inserting
moves those from a position on up by one key, the last one first; removing moves those
behind it down, the first one first.  The table may have other keys, some of them behind
a gap, so the border after such a change is not that of before plus or minus one without
more ado; what is stated here is about keys and values, and speaks of the new border only
where a value that has just been inserted is removed again.

## Main definitions

* `Table.InsertedAt`, `Table.RemovedAt` — what a table is like once a value has been
  inserted, or removed.
* `Value.IsPosition` — a value is taken for a position.
* `Library.Atomic` — an action that fails has changed nothing.
* `Library.InsertsAt`, `Library.RemovesAt` — what the calls with a position do.

## Main results

* `Table.get_moveUp`, `Table.get_moveDown` — where values are found that have been moved.
* `Table.insertedAt`, `Table.removedAt` — what inserting does, and what removing does.
* `Table.InsertedAt.toList_eq` — removing undoes inserting.
* `Library.insert_remove` — **inserting and removing are those of lists**, and calls that
  fail change nothing.
-/

namespace ScriptEngine

/-- Keys that are integers next to each other are told apart, up to the first one that is
not exact. -/
theorem Key.slot_ofNat_succ_ne {n : Nat} (hpos : 0 < n) (hn : n < Number.mantissaBound) :
    (ofNat (n + 1)).slot ≠ (ofNat n).slot := by
  rcases Nat.lt_or_ge (n + 1) Number.mantissaBound with hlt | hge
  · rw [Ne, slot_ofNat_inj (Nat.succ_pos n) hlt hpos hn]
    exact Nat.succ_ne_self n
  · obtain rfl : n = Number.mantissaBound - 1 := by omega
    decide +kernel

namespace Table

variable {t u : Table} {k k' : Key} {v : Value} {vs : List Value}

section Shifting

variable {position count i : Nat}

/-! ### Moving values up -/

theorem get_moveUp_of_ne
    (hk : ∀ i, position ≤ i → i < position + count → (Key.ofNat (i + 1)).slot ≠ k.slot) :
    (t.moveUp position count).get k = t.get k := by
  induction count generalizing t with
  | zero => rfl
  | succ count ih =>
    rw [moveUp, ih fun i hlow hhigh => hk i hlow (by omega), get_set,
      if_neg (hk (position + count) (by omega) (by omega))]

/-- **Every value that is moved up is found under the next key.** -/
theorem get_moveUp (hpos : 0 < position) (hfits : position + count < Number.mantissaBound)
    (hlow : position ≤ i) (hhigh : i < position + count) :
    (t.moveUp position count).get (.ofNat (i + 1)) = t.get (.ofNat i) := by
  induction count generalizing t with
  | zero => omega
  | succ count ih =>
    have hslot (j : Nat) (hj : 0 < j) (hle : j ≤ position + count) :
        (Key.ofNat (position + count + 1)).slot ≠ (Key.ofNat j).slot := by
      rw [Ne, Key.slot_ofNat_inj (by omega) (by omega) hj (by omega)]
      omega
    rw [moveUp]
    obtain rfl | hlt : i = position + count ∨ i < position + count := by omega
    · -- The last value is moved first, and its key is not set again.
      rw [get_moveUp_of_ne fun j _ hj => (hslot (j + 1) (by omega) (by omega)).symm, get_set,
        if_pos rfl]
    · rw [ih (by omega) hlt, get_set, if_neg (hslot i (by omega) (by omega))]

theorem Full.moveUp (hfull : t.Full) : (t.moveUp position count).Full := by
  induction count generalizing t with
  | zero => exact hfull
  | succ count ih => exact ih (hfull.set _ _)

theorem keys_moveUp (hfull : t.Full)
    (hkeys : ∀ i, position ≤ i → i ≤ position + count → t.contains (.ofNat i) = true) :
    (t.moveUp position count).keys = t.keys := by
  induction count generalizing t with
  | zero => rfl
  | succ count ih =>
    have hkept := keys_set (hfull.isNil_get (hkeys (position + count) (by omega) (by omega)))
      (hkeys (position + count + 1) (by omega) (by omega))
    rw [moveUp, ih (hfull.set _ _) fun i hlow hhigh => ?_, hkept]
    rw [contains_eq_of_keys_eq hkept]
    exact hkeys i hlow (by omega)

/-! ### Moving values down -/

theorem get_moveDown_of_ne
    (hk : ∀ i, position ≤ i → i < position + count → (Key.ofNat i).slot ≠ k.slot) :
    (t.moveDown position count).get k = t.get k := by
  induction count generalizing t position with
  | zero => rfl
  | succ count ih =>
    rw [moveDown, ih fun i hlow hhigh => hk i (by omega) (by omega), get_set,
      if_neg (hk position (by omega) (by omega))]

/-- **Every value that is moved down is found under the key before.** -/
theorem get_moveDown (hpos : 0 < position) (hfits : position + count < Number.mantissaBound)
    (hlow : position ≤ i) (hhigh : i < position + count) :
    (t.moveDown position count).get (.ofNat i) = t.get (.ofNat (i + 1)) := by
  induction count generalizing t position with
  | zero => omega
  | succ count ih =>
    have hslot (j : Nat) (hj : position < j) (hle : j ≤ position + count + 1) :
        (Key.ofNat position).slot ≠ (Key.ofNat j).slot := by
      rw [Ne, Key.slot_ofNat_inj hpos (by omega) (by omega) (by omega)]
      omega
    rw [moveDown]
    rcases Nat.eq_or_lt_of_le hlow with rfl | hlt
    · -- The first value is moved first, and its key is not set again.
      rw [get_moveDown_of_ne fun j _ hj => (hslot _ (by omega) (by omega)).symm, get_set,
        if_pos rfl]
    · rw [ih (by omega) (by omega) hlt (by omega), get_set,
        if_neg (hslot (i + 1) (by omega) (by omega))]

theorem keys_moveDown (hfull : t.Full)
    (hkeys : ∀ i, position ≤ i → i ≤ position + count → t.contains (.ofNat i) = true) :
    (t.moveDown position count).keys = t.keys := by
  induction count generalizing t position with
  | zero => rfl
  | succ count ih =>
    have hkept := keys_set (hfull.isNil_get (hkeys (position + 1) (by omega) (by omega)))
      (hkeys position (by omega) (by omega))
    rw [moveDown, ih (hfull.set _ _) fun i hlow hhigh => ?_, hkept]
    rw [contains_eq_of_keys_eq hkept]
    exact hkeys i (by omega) (by omega)

end Shifting

/-! ### Inserting and removing -/

/-- A value has been put at a position: those from there on have moved up by one key, all
other entries are as they were, and the one key that is new comes last. -/
structure InsertedAt (t u : Table) (position : Nat) (v : Value) : Prop where
  inserted : u.get (.ofNat position) = v
  moved : ∀ i, position ≤ i → i ≤ t.border → u.get (.ofNat (i + 1)) = t.get (.ofNat i)
  others : ∀ k : Key, (∀ i, position ≤ i → i ≤ t.border + 1 → (Key.ofNat i).slot ≠ k.slot) →
    u.get k = t.get k
  keys : u.keys = t.keys ++ [.ofNat (t.border + 1)]

/-- The value at a position has been taken out: those behind it have moved down by one key,
all other entries are as they were, and the last key of the sequence is gone. -/
structure RemovedAt (t u : Table) (position : Nat) : Prop where
  moved : ∀ i, position ≤ i → i < t.border → u.get (.ofNat i) = t.get (.ofNat (i + 1))
  gone : u.contains (.ofNat t.border) = false
  others : ∀ k : Key, (∀ i, position ≤ i → i ≤ t.border → (Key.ofNat i).slot ≠ k.slot) →
    u.get k = t.get k
  keys : u.keys = t.keys.filter fun k => k.slot ≠ (Key.ofNat t.border).slot

section

variable {position : Nat}

theorem keys_insertAt (hfull : t.Full) (hfits : t.border + 1 < Number.mantissaBound)
    (hpos : 0 < position) (hposition : position ≤ t.border + 1) (hv : v.isNil = false) :
    (t.insertAt position v).keys = t.keys ++ [.ofNat (t.border + 1)] := by
  have hfresh : t.contains (.ofNat (t.border + 1)) = false := contains_succ_border hfits
  have hnew {w : Value} (hw : w.isNil = false) :
      (t.set (.ofNat (t.border + 1)) w).keys = t.keys ++ [.ofNat (t.border + 1)] := by
    rw [keys, toList_set_of_not_contains hw hfresh, List.map_append]
    rfl
  rw [insertAt]
  obtain rfl | hle : position = t.border + 1 ∨ position ≤ t.border := by omega
  · rw [Nat.sub_self]
    exact hnew hv
  · -- Moving the last value makes the new key, and all others are there.
    obtain ⟨count, hcount⟩ := Nat.exists_eq_add_of_le hle
    have hlast := hnew (hfull.isNil_get (contains_of_le_border (by omega) (Nat.le_refl t.border)))
    have hthere (i : Nat) (hlow : position ≤ i) (hhigh : i ≤ position + count) :
        (t.set (.ofNat (t.border + 1)) (t.get (.ofNat t.border))).contains (.ofNat i) = true := by
      rw [contains_iff_mem_keys, hlast, List.map_append, List.mem_append, ← contains_iff_mem_keys]
      exact .inl (contains_of_le_border (by omega) (by omega))
    have hmoved : (t.moveUp position (t.border + 1 - position)).keys =
        t.keys ++ [.ofNat (t.border + 1)] := by
      rw [show t.border + 1 - position = count + 1 by omega, moveUp, ← hcount,
        keys_moveUp (hfull.set _ _) hthere, hlast]
    rw [keys_set hv, hmoved]
    rw [contains_iff_mem_keys, hmoved, ← hlast, ← contains_iff_mem_keys]
    exact hthere position (Nat.le_refl _) (Nat.le_add_right _ _)

theorem Full.insertAt (hfull : t.Full) : (t.insertAt position v).Full :=
  hfull.moveUp.set _ _

/-- **What inserting does.** -/
theorem insertedAt (hfull : t.Full) (hfits : t.border + 1 < Number.mantissaBound)
    (hpos : 0 < position) (hposition : position ≤ t.border + 1) (hv : v.isNil = false) :
    t.InsertedAt (t.insertAt position v) position v where
  inserted := by rw [insertAt, get_set, if_pos rfl]
  moved i hlow hhigh := by
    rw [insertAt, get_set, if_neg, get_moveUp hpos (by omega) hlow (by omega)]
    rw [Key.slot_ofNat_inj hpos (by omega) (by omega) (by omega)]
    omega
  others k hk := by
    rw [insertAt, get_set, if_neg (hk position (Nat.le_refl _) hposition)]
    exact get_moveUp_of_ne fun i hlow hhigh => hk (i + 1) (by omega) (by omega)
  keys := keys_insertAt hfull hfits hpos hposition hv

theorem removeAt_eq (hposition : position ≤ t.border) : t.removeAt position =
    (t.moveDown position (t.border - position)).set (.ofNat t.border) .nil := by
  rw [removeAt, if_pos hposition]

theorem keys_removeAt (hfull : t.Full) (hpos : 0 < position) (hposition : position ≤ t.border) :
    (t.removeAt position).keys = t.keys.filter fun k => k.slot ≠ (Key.ofNat t.border).slot := by
  rw [removeAt_eq hposition, set_nil, keys_erase, keys_moveDown hfull]
  exact fun i hlow hhigh => contains_of_le_border (by omega) (by omega)

/-- **What removing does.** -/
theorem removedAt (hfull : t.Full) (hfits : t.border < Number.mantissaBound) (hpos : 0 < position)
    (hposition : position ≤ t.border) : t.RemovedAt (t.removeAt position) position where
  moved i hlow hhigh := by
    rw [removeAt_eq hposition, get_set, if_neg, get_moveDown hpos (by omega) hlow (by omega)]
    rw [Key.slot_ofNat_inj (by omega) (by omega) (by omega) (by omega)]
    omega
  gone := by
    rw [Bool.eq_false_iff, Ne, contains_iff_mem_keys, keys_removeAt hfull hpos hposition]
    simp
  others k hk := by
    rw [removeAt_eq hposition, get_set, if_neg (hk t.border hposition (Nat.le_refl _))]
    exact get_moveDown_of_ne fun i hlow hhigh => hk i hlow (by omega)
  keys := keys_removeAt hfull hpos hposition

section InsertedAt

variable (hu : t.InsertedAt u position v) (hfits : t.border + 1 < Number.mantissaBound)
  (hgap : t.contains (.ofNat (t.border + 2)) = false)
include hu hfits hgap

/-- The border moves up by one, if no entry joins the sequence with the key that is new. -/
theorem InsertedAt.border : u.border = t.border + 1 := by
  have hmem {k : Key} : u.contains k = true ↔
      t.contains k = true ∨ k.slot = (Key.ofNat (t.border + 1)).slot := by
    rw [contains_iff_mem_keys, hu.keys, List.map_append, List.mem_append, ← contains_iff_mem_keys]
    exact or_congr_right List.mem_singleton
  refine border_eq hfits (fun i hlow hhigh => hmem.2 ?_) ?_
  · obtain rfl | hle : i = t.border + 1 ∨ i ≤ t.border := by omega
    · exact .inr rfl
    · exact .inl (contains_of_le_border hlow hle)
  · rw [Bool.eq_false_iff, Ne, hmem, hgap]
    simpa using Key.slot_ofNat_succ_ne (Nat.succ_pos _) hfits

/-- **Removing undoes inserting.** -/
theorem InsertedAt.toList_eq {w : Table} (hw : u.RemovedAt w position) : w.toList = t.toList := by
  have hborder : u.border = t.border + 1 := hu.border hfits hgap
  have hnew (k : Key) (hk : k ∈ t.keys) : k.slot ≠ (Key.ofNat (t.border + 1)).slot := by
    intro heq
    have hfresh := contains_succ_border hfits
    rw [Bool.eq_false_iff, Ne, contains_iff_mem_keys, ← heq] at hfresh
    exact hfresh (List.mem_map_of_mem hk)
  have hkeys : w.keys = t.keys := by
    rw [hw.keys, hborder, hu.keys, List.filter_append,
      List.filter_eq_self.2 fun k hk => decide_eq_true (hnew k hk)]
    simp
  refine toList_eq_of_keys_eq hkeys fun k hk => ?_
  by_cases h : ∃ i, position ≤ i ∧ i ≤ t.border ∧ (Key.ofNat i).slot = k.slot
  · obtain ⟨i, hlow, hhigh, hslot⟩ := h
    calc w.get k
        = w.get (.ofNat i) := (get_eq_of_slot_eq hslot).symm
      _ = u.get (.ofNat (i + 1)) := hw.moved i hlow (by omega)
      _ = t.get (.ofNat i) := hu.moved i hlow hhigh
      _ = t.get k := get_eq_of_slot_eq hslot
  · have hne (i : Nat) (hlow : position ≤ i) (hhigh : i ≤ t.border + 1) :
        (Key.ofNat i).slot ≠ k.slot := by
      intro hslot
      obtain rfl | hle : i = t.border + 1 ∨ i ≤ t.border := by omega
      · exact hnew k (hkeys ▸ hk) hslot.symm
      · exact h ⟨i, hlow, hle, hslot⟩
    rw [hw.others k (by rwa [hborder]), hu.others k hne]

end InsertedAt

end

end Table

/-- A value that is taken for a position: a number that is this integer, or a string that
spells one. -/
def Value.IsPosition (v : Value) (position : Nat) : Prop :=
  v.toNumber?.bind Number.integer? = some (position : Int)

theorem Value.isPosition_ofNat {n : Nat} (hpos : 0 < n) (hn : n < Number.mantissaBound) :
    (Value.number (Number.ofNat n)).IsPosition n :=
  Number.integer?_ofNat hpos hn

namespace Store

variable {s : Store} {ref : TableRef} {f g : Table → Table}

theorem modifyTable_modifyTable :
    (s.modifyTable ref f).modifyTable ref g = s.modifyTable ref fun t => g (f t) := by
  have htables : (s.tables.modify ref.index f).modify ref.index g =
      s.tables.modify ref.index fun t => g (f t) := by
    apply Array.ext_getElem?
    intro i
    simp only [Array.getElem?_modify]
    split <;> simp [Option.map_map, Function.comp_def]
  rw [modifyTable, modifyTable, modifyTable, htables]

/-- Changing a table is putting another one in its place. -/
theorem modifyTable_eq : s.modifyTable ref f = s.modifyTable ref fun _ => f (s.table ref) := by
  have htables : s.tables.modify ref.index f =
      s.tables.modify ref.index fun _ => f (s.table ref) := by
    apply Array.ext_getElem?
    intro i
    simp only [Array.getElem?_modify]
    split
    · next hi =>
      subst hi
      cases htable : s.tables[ref.index]? with
      | none => rfl
      | some t => rw [table, htable]; rfl
    · rfl
  rw [modifyTable, modifyTable, htables]

end Store

namespace Library

/-! ### Actions that fail unchanged -/

section Atomic

variable {α β : Type}

/-- An action that only reads the store. -/
def Reads (x : Action α) : Prop :=
  ∀ s, (∃ a, x s = .ok a s) ∨ ∃ e, x s = .error e s

/-- An action that fails with nothing changed, if it fails. -/
def Atomic (x : Action α) : Prop :=
  ∀ s e s', x s = .error e s' → s' = s

theorem reads_lift (x : Except Cause α) : Reads (lift x) := by
  intro s
  cases x with
  | ok a => exact .inl ⟨a, rfl⟩
  | error c => exact .inr ⟨.cause c, rfl⟩

theorem reads_border (ref : TableRef) : Reads (border ref) := fun _ => .inl ⟨_, rfl⟩

theorem reads_valueAt (ref : TableRef) (i : Int) : Reads (valueAt ref i) := fun _ => .inl ⟨_, rfl⟩

theorem Atomic.bind {x : Action α} {f : α → Action β} (hx : Reads x) (hf : ∀ a, Atomic (f a)) :
    Atomic (x >>= f) := by
  intro s e s' h
  have hrun : (x >>= f) s = EStateM.bind x f s := rfl
  rw [hrun, EStateM.bind] at h
  rcases hx s with ⟨a, ha⟩ | ⟨e', he⟩
  · rw [ha] at h
    exact hf a s e s' h
  · rw [he] at h
    cases h
    rfl

theorem Atomic.ite {c : Prop} [Decidable c] {x y : Action α} (hx : Atomic x) (hy : Atomic y) :
    Atomic (if c then x else y) := by
  split
  · exact hx
  · exact hy

theorem Atomic.fail_bind {e : Failure} {f : α → Action β} : Atomic (throw e >>= f) := by
  rintro s _ _ ⟨⟩
  rfl

/-- A change to a table does not fail. -/
theorem atomic_changeTable {ref : TableRef} {change : Table → Table} {a : α} :
    Atomic (changeTable ref change >>= fun _ => pure a) := by
  rintro s _ _ ⟨⟩

end Atomic

variable {args : Arguments} {s s' : Store} {ref : TableRef} {position : Value} {p : Nat} {v : Value}

theorem atomic_insert : Atomic (insert args) := by
  unfold insert
  refine .bind (reads_lift _) fun ref => .bind (reads_border ref) fun length => ?_
  split
  · exact atomic_changeTable
  · exact .bind (reads_lift _) fun position => .ite .fail_bind atomic_changeTable
  · exact .fail_bind

theorem atomic_remove : Atomic (remove args) := by
  refine .bind (reads_lift _) fun ref => .bind (reads_border ref) fun length =>
    .bind (reads_lift _) fun position => .ite (by rintro s _ _ ⟨⟩) (.ite .fail_bind ?_)
  exact .bind (reads_valueAt ref position) fun removed => atomic_changeTable

/-! ### Calls at a position -/

theorem integer_of_isPosition {function : String} (hposition : position.IsPosition p)
    (h : args[1]? = some position) : args.integer 1 function = .ok (p : Int) :=
  Arguments.integer_of_isInteger function h hposition

theorem insert_eq (hposition : position.IsPosition p) (hpos : 0 < p)
    (hp : p ≤ (s.table ref).border + 1) :
    insert [.table ref, position, v] s = .ok [] (s.modifyTable ref fun t => t.insertAt p v) := by
  have hrun : insert [.table ref, position, v] s =
      (lift (Arguments.integer [.table ref, position, v] 1 "insert") >>= fun i =>
        if i < 1 ∨ ((s.table ref).border : Int) + 1 < i then
          throw (Failure.cause (.argument 2 "insert" .positionOutOfBounds)) >>= fun _ : Unit =>
            changeTable ref (fun t => t.insertAt i.toNat v) >>= fun _ => pure []
        else changeTable ref (fun t => t.insertAt i.toNat v) >>= fun _ => pure []) s := rfl
  have hinside : ¬ ((p : Int) < 1 ∨ ((s.table ref).border : Int) + 1 < p) := by omega
  rw [hrun, integer_of_isPosition hposition rfl, lift, pure_bind, if_neg hinside]
  rfl

theorem remove_eq (hposition : position.IsPosition p) (hpos : 0 < p)
    (hp : p ≤ (s.table ref).border + 1) :
    remove [.table ref, position] s =
      .ok [(s.table ref).get (.ofNat p)] (s.modifyTable ref fun t => t.removeAt p) := by
  have hinteger : Arguments.integerOr [.table ref, position] 1 "remove" (s.table ref).border =
      .ok (p : Int) := by
    have hnil : position.isNil = false := by
      cases position with
      | nil => cases hposition
      | _ => rfl
    rw [Arguments.integerOr, if_neg (by simpa [Arguments.value] using hnil)]
    exact integer_of_isPosition hposition rfl
  have hrun : remove [.table ref, position] s =
      (lift (Arguments.integerOr [.table ref, position] 1 "remove" (s.table ref).border) >>=
        fun i =>
        if (s.table ref).border = 0 ∧ i = 0 then pure [.nil]
        else if i < 1 ∨ ((s.table ref).border : Int) + 1 < i then
          throw (Failure.cause (.argument 2 "remove" .positionOutOfBounds)) >>= fun _ : Unit =>
            valueAt ref i >>= fun removed =>
              changeTable ref (fun t => t.removeAt i.toNat) >>= fun _ => pure [removed]
        else valueAt ref i >>= fun removed =>
          changeTable ref (fun t => t.removeAt i.toNat) >>= fun _ => pure [removed]) s := rfl
  have hnone : ¬ ((s.table ref).border = 0 ∧ (p : Int) = 0) := by omega
  have hinside : ¬ ((p : Int) < 1 ∨ ((s.table ref).border : Int) + 1 < p) := by omega
  rw [hrun, hinteger, lift, pure_bind, if_neg hnone, if_neg hinside]
  rfl

/-! ### Insertion and removal -/

/-- A call puts a value in at a position, and a call takes it out again, which leaves the
table as it was, unless a key behind the border has joined the sequence meanwhile. -/
def InsertsAt (s : Store) (ref : TableRef) (position : Value) (p : Nat) (v : Value) : Prop :=
  ∃ u, insert [.table ref, position, v] s = .ok [] (s.modifyTable ref fun _ => u) ∧
    (s.table ref).InsertedAt u p v ∧
    ((s.table ref).contains (.ofNat ((s.table ref).border + 2)) = false →
      ∃ w, remove [.table ref, position] (s.modifyTable ref fun _ => u) =
          .ok [v] (s.modifyTable ref fun _ => w) ∧
        w.toList = (s.table ref).toList)

/-- A call takes the value at a position out and answers it. -/
def RemovesAt (s : Store) (ref : TableRef) (position : Value) (p : Nat) : Prop :=
  ∃ u, remove [.table ref, position] s =
      .ok [(s.table ref).get (.ofNat p)] (s.modifyTable ref fun _ => u) ∧
    (s.table ref).RemovedAt u p

theorem insertsAt (href : ref.index < s.tables.size) (hfull : (s.table ref).Full)
    (hfits : (s.table ref).border + 1 < Number.mantissaBound) (hposition : position.IsPosition p)
    (hpos : 0 < p) (hp : p ≤ (s.table ref).border + 1) (hv : v.isNil = false) :
    InsertsAt s ref position p v := by
  have hinserted := Table.insertedAt hfull hfits hpos hp hv
  refine ⟨(s.table ref).insertAt p v, ?_, hinserted, fun hgap => ?_⟩
  · rw [insert_eq hposition hpos hp, Store.modifyTable_eq]
  · have htable : (s.modifyTable ref fun _ => (s.table ref).insertAt p v).table ref =
        (s.table ref).insertAt p v := Store.table_modifyTable href
    have hborder := hinserted.border hfits hgap
    have hfull' : ((s.table ref).insertAt p v).Full := hfull.insertAt
    refine ⟨((s.table ref).insertAt p v).removeAt p, ?_, ?_⟩
    · rw [remove_eq hposition hpos (by rw [htable]; omega), Store.modifyTable_modifyTable, htable,
        hinserted.inserted]
    · exact hinserted.toList_eq hfits hgap
        (Table.removedAt hfull' (by omega) hpos (by omega))

theorem removesAt (hfull : (s.table ref).Full) (hfits : (s.table ref).border < Number.mantissaBound)
    (hposition : position.IsPosition p) (hpos : 0 < p) (hp : p ≤ (s.table ref).border) :
    RemovesAt s ref position p := by
  refine ⟨(s.table ref).removeAt p, ?_, Table.removedAt hfull hfits hpos hp⟩
  rw [remove_eq hposition hpos (by omega), Store.modifyTable_eq]

/-- **Inserting and removing are those of lists, and undo each other.**  A value can be
put in at every position up to one behind the border and taken out from every one up to
the border; what else is in the table stays, in its order, and a call that fails changes
nothing. -/
theorem insert_remove (href : ref.index < s.tables.size) (hfull : (s.table ref).Full)
    (hfits : (s.table ref).border + 1 < Number.mantissaBound) :
    (∀ (position : Value) (p : Nat) (v : Value), position.IsPosition p → 0 < p →
      p ≤ (s.table ref).border + 1 → v.isNil = false → InsertsAt s ref position p v) ∧
    (∀ (position : Value) (p : Nat), position.IsPosition p → 0 < p →
      p ≤ (s.table ref).border → RemovesAt s ref position p) ∧
    ∀ args : Arguments, Atomic (insert args) ∧ Atomic (remove args) :=
  ⟨fun _ _ _ hposition hpos hp hv => insertsAt href hfull hfits hposition hpos hp hv,
    fun _ _ hposition hpos hp => removesAt hfull (Nat.lt_of_succ_lt hfits) hposition hpos hp,
    fun _ => ⟨atomic_insert, atomic_remove⟩⟩

/-- A store with a table of two values in a row and one under another key. -/
def twoInARow : Store :=
  { Store.empty with tables := #[.ofEntries
      [(.ofNat 1, .string "a"), (.ofNat 2, .string "b"), (.text "n", .string "two")]] }

/-- A value that is put in before two others is taken out again. -/
theorem insert_remove_first :
    InsertsAt twoInARow ⟨0⟩ (.number (Number.ofNat 1)) 1 (.string "c") ∧
      RemovesAt twoInARow ⟨0⟩ (.number (Number.ofNat 2)) 2 := by
  have hlist : (twoInARow.table ⟨0⟩).toList =
      [(.ofNat 1, .string "a"), (.ofNat 2, .string "b"), (.text "n", .string "two")] :=
    Table.toList_ofEntries (by decide) (by decide +kernel)
  have hcontains (k : Key) : (twoInARow.table ⟨0⟩).contains k = true ↔
      k.slot ∈ [(Key.ofNat 1).slot, (Key.ofNat 2).slot, (Key.text "n").slot] := by
    rw [Table.contains_iff_mem_keys, Table.keys, hlist]
    rfl
  have hborder : (twoInARow.table ⟨0⟩).border = 2 := by
    refine Table.border_eq (by decide) (fun i hlow hhigh => (hcontains _).2 ?_) ?_
    · obtain rfl | rfl : i = 1 ∨ i = 2 := by omega
      · decide
      · decide
    · rw [Bool.eq_false_iff, Ne, hcontains]
      decide +kernel
  have hone := Value.isPosition_ofNat (n := 1) (by decide) (by decide)
  have htwo := Value.isPosition_ofNat (n := 2) (by decide) (by decide)
  have hfull : (twoInARow.table ⟨0⟩).Full := Table.full_ofEntries _
  have hboth := insert_remove (by decide) hfull (by rw [hborder]; decide)
  exact ⟨hboth.1 _ 1 _ hone (by decide) (by decide) rfl,
    hboth.2.1 _ 2 htwo (by decide) hborder.ge⟩

end Library

end ScriptEngine
