import Std.Data.HashMap.Lemmas
import ScriptEngine.Cause

/-!
# Tables

A table maps keys to values and remembers the order in which its keys were
added.  Keys are numbers other than NaN, and strings; the two zeros are one key.

## Main definitions

* `Key`, `Key.slot` — keys, and what tells two of them apart.
* `Table` — entries in the order of their insertion, with an index from keys to
  places.
* `Table.get`, `Table.set` — the value of a key, and its change; setting `nil`
  removes the key and keeps the order of the others.
* `Table.border` — how many of the keys `1`, `2`, … are there without a gap.
* `Table.next` — the entry behind a key.

## Main results

* `Table.get?_eq_some_iff` — looking a key up finds its entry.
-/

namespace ScriptEngine

/-- A key of a table. -/
inductive Key where
  | number (x : Float)
  | text (s : String)
deriving DecidableEq, Repr

/-- What tells two keys apart: the text of a string, the bits of a number, both
zeros having those of the positive one. -/
inductive Slot where
  | number (bits : UInt64)
  | text (s : String)
deriving DecidableEq, Hashable, Repr

namespace Key

/-- The slot of a key. -/
def slot : Key → Slot
  | number x => .number (if x == 0 then 0 else x.toBits)
  | text s => .text s

/-- The key that is an integer. -/
def ofNat (n : Nat) : Key := .number (Number.ofNat n)

@[inherit_doc ofNat]
def ofInt (i : Int) : Key := .number (Number.ofInt i)

/-- The key that a value is.  The value `nil` is for the caller to deal with,
since reading and writing treat it differently. -/
def ofValue : Value → Except Cause Key
  | .number x => if x.isNaN then .error .nanKey else .ok (.number x)
  | .string s => .ok (.text s)
  | v => .error (.invalidKey v.kind)

/-- The value that a key is. -/
def toValue : Key → Value
  | number x => .number x
  | text s => .string s

end Key

namespace Table

/-! ### The index from slots to places -/

/-- The slot of the entry at a place. -/
def slotAt (entries : Array (Key × Value)) (i : Nat) : Option Slot :=
  (entries[i]?).map fun e => e.1.slot

/-- The index of a list of entries gives each slot its place. -/
def IsIndex (entries : Array (Key × Value)) (places : Std.HashMap Slot Nat) : Prop :=
  ∀ (s : Slot) (i : Nat), places[s]? = some i ↔ slotAt entries i = some s

theorem isIndex_empty : IsIndex #[] ∅ := by simp [IsIndex, slotAt]

/-- A changed value leaves all places as they are. -/
theorem IsIndex.modify {entries : Array (Key × Value)} {places : Std.HashMap Slot Nat}
    (inv : IsIndex entries places) (i : Nat) (v : Value) :
    IsIndex (entries.modify i fun e => (e.1, v)) places := by
  intro s j
  rw [inv, slotAt, slotAt, Array.getElem?_modify]
  split <;> simp [Function.comp_def]

/-- A new entry comes last. -/
theorem IsIndex.push {entries : Array (Key × Value)} {places : Std.HashMap Slot Nat}
    (inv : IsIndex entries places) {k : Key} (h : places[k.slot]? = none) (v : Value) :
    IsIndex (entries.push (k, v)) (places.insert k.slot entries.size) := by
  intro s j
  have fresh : ∀ i, slotAt entries i ≠ some k.slot := by
    intro i hi
    rw [← inv, h] at hi
    cases hi
  have inside : places[s]? ≠ some entries.size := by
    rw [Ne, inv]
    simp [slotAt]
  have pushed : slotAt (entries.push (k, v)) j =
      if j = entries.size then some k.slot else slotAt entries j := by
    rw [slotAt, slotAt, Array.getElem?_push]
    split <;> simp
  rw [Std.HashMap.getElem?_insert, pushed]
  by_cases hs : k.slot = s <;> by_cases hj : j = entries.size
  · subst hs hj
    simp
  · subst hs
    simp [hj, fresh j, Ne.symm hj]
  · subst hj
    simp [hs, inside]
  · simp [hs, hj, inv s j]

/-- Without an entry, those behind it move up by one place. -/
theorem IsIndex.erase {entries : Array (Key × Value)} {places : Std.HashMap Slot Nat}
    (inv : IsIndex entries places) {k : Key} {i : Nat} (h : places[k.slot]? = some i) :
    IsIndex (entries.eraseIdxIfInBounds i)
      ((places.erase k.slot).map fun _ j => if i < j then j - 1 else j) := by
  intro s j
  have unique : ∀ m, slotAt entries m = some k.slot → m = i := by
    intro m hm
    rw [← inv, h] at hm
    exact (Option.some.inj hm).symm
  have bound : i < entries.size := by
    have found := (inv _ _).1 h
    apply Nat.lt_of_not_le
    intro hi
    simp [slotAt, Array.getElem?_eq_none hi] at found
  have erased : slotAt (entries.eraseIdxIfInBounds i) j =
      if j < i then slotAt entries j else slotAt entries (j + 1) := by
    simp only [slotAt, Array.eraseIdxIfInBounds, dif_pos bound, Array.getElem?_eraseIdx]
    split <;> rfl
  rw [Std.HashMap.getElem?_map, Std.HashMap.getElem?_erase, erased]
  by_cases hs : k.slot = s
  · subst hs
    simp only [beq_self_eq_true, if_true, Option.map_none, reduceCtorEq, false_iff]
    intro hj
    split at hj
    · have := unique _ hj; omega
    · have := unique _ hj; omega
  · have away : places[s]? ≠ some i := by
      intro hm
      have h₁ := (inv _ _).1 hm
      have h₂ := (inv _ _).1 h
      rw [h₁] at h₂
      exact hs (Option.some.inj h₂).symm
    simp only [beq_iff_eq, hs, if_false]
    split
    · rw [← inv]
      cases hm : places[s]? with
      | none => simp
      | some m =>
        have : m ≠ i := fun e => away (e ▸ hm)
        simp only [Option.map_some, Option.some.injEq]
        split <;> omega
    · rw [← inv]
      cases hm : places[s]? with
      | none => simp
      | some m =>
        have : m ≠ i := fun e => away (e ▸ hm)
        simp only [Option.map_some, Option.some.injEq]
        split <;> omega

end Table

/-- Entries in the order of their insertion, and the place of each slot. -/
structure Table where
  entries : Array (Key × Value)
  places : Std.HashMap Slot Nat
  isIndex : Table.IsIndex entries places

namespace Table

/-- The table without entries. -/
def empty : Table where
  entries := #[]
  places := ∅
  isIndex := isIndex_empty

instance : Inhabited Table := ⟨empty⟩

/-- The number of entries. -/
def size (t : Table) : Nat := t.entries.size

/-- Where the entry of a key is. -/
def place? (t : Table) (k : Key) : Option Nat := t.places[k.slot]?

/-- The value of a key that is there. -/
def get? (t : Table) (k : Key) : Option Value :=
  match t.place? k with
  | some i => (t.entries[i]?).map (fun e => e.2)
  | none => none

/-- The value of a key, `nil` if it is not there. -/
def get (t : Table) (k : Key) : Value := (t.get? k).getD .nil

/-- Whether a key is there. -/
def contains (t : Table) (k : Key) : Bool := (t.place? k).isSome

/-- Whether there are no entries. -/
def isEmpty (t : Table) : Bool := t.entries.isEmpty

/-- Gives a key a value.  A new key comes last; a key that is there keeps its
place and its spelling. -/
def insert (t : Table) (k : Key) (v : Value) : Table :=
  match t with
  | ⟨entries, places, inv⟩ =>
    match h : places[k.slot]? with
    | some i => ⟨entries.modify i fun e => (e.1, v), places, inv.modify i v⟩
    | none =>
      ⟨entries.push (k, v), places.insert k.slot entries.size, inv.push h v⟩

/-- Removes a key.  The others keep their order. -/
def erase (t : Table) (k : Key) : Table :=
  match t with
  | ⟨entries, places, inv⟩ =>
    match h : places[k.slot]? with
    | none => ⟨entries, places, inv⟩
    | some i =>
      ⟨entries.eraseIdxIfInBounds i,
        (places.erase k.slot).map fun _ j => if i < j then j - 1 else j,
        inv.erase h⟩

/-- Gives a key a value, or removes it if the value is `nil`. -/
def set (t : Table) (k : Key) (v : Value) : Table :=
  if v.isNil then t.erase k else t.insert k v

/-- The table of the entries that a list sets one after another. -/
def ofEntries (entries : List (Key × Value)) : Table :=
  entries.foldl (fun t e => t.set e.1 e.2) empty

/-- The table with some values under the keys `1`, `2`, …. -/
def ofValues (values : List Value) : Table :=
  ofEntries (values.zipIdx.map fun (v, i) => (.ofNat (i + 1), v))

/-- How many keys behind `n` are there without a gap, at most `fuel`. -/
def borderFrom (t : Table) : Nat → Nat → Nat
  | 0, n => n
  | fuel + 1, n => if t.contains (.ofNat (n + 1)) then t.borderFrom fuel (n + 1) else n

/-- The border: how many of the keys `1`, `2`, … are there without a gap. -/
def border (t : Table) : Nat := t.borderFrom t.size 0

/-- The entry behind a key in the order of insertion, the first one behind no
key, and none behind the last. -/
def next (t : Table) (k : Option Key) : Except Cause (Option (Key × Value)) :=
  match k with
  | none => .ok t.entries[0]?
  | some k =>
    match t.place? k with
    | none => .error .unknownKey
    | some i => .ok t.entries[i + 1]?

/-- The entries as a list. -/
def toList (t : Table) : List (Key × Value) := t.entries.toList

/-- Looking a key up finds its entry. -/
theorem get?_eq_some_iff {t : Table} {k : Key} {v : Value} :
    t.get? k = some v ↔ ∃ e ∈ t.toList, e.1.slot = k.slot ∧ e.2 = v := by
  have place (i : Nat) : t.place? k = some i ↔ slotAt t.entries i = some k.slot :=
    t.isIndex k.slot i
  constructor
  · intro h
    unfold get? at h
    split at h
    · next i hi =>
      obtain ⟨e, he, rfl⟩ := Option.map_eq_some_iff.1 h
      have hs := (place i).1 hi
      rw [slotAt, he] at hs
      exact ⟨e, Array.mem_toList_iff.2 (Array.mem_of_getElem? he), Option.some.inj hs, rfl⟩
    · cases h
  · rintro ⟨e, he, hs, rfl⟩
    obtain ⟨i, hi⟩ := Array.mem_iff_getElem?.1 (Array.mem_toList_iff.1 he)
    have hp := (place i).2 (by rw [slotAt, hi, ← hs]; rfl)
    simp [get?, hp, hi]

end Table

end ScriptEngine
