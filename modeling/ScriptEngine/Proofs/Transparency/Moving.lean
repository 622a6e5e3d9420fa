import ScriptEngine.Proofs.Safety.Known

/-!
# Functions that begin elsewhere

In another program, the code of the same functions begins elsewhere.  No operator looks at where
the code of a function begins, except to tell functions apart: values whose functions have been
moved are treated like the values themselves.

## Main definitions

* `Value.moved`, `Table.moved`, `Bindings.moved` — what is left if functions begin elsewhere.

## Main results

* `Store.binary_moved`, `Store.unary_moved` — operators do the same with moved values.
* `Table.get_moved`, `Table.set_moved` — and so do tables.
-/

namespace ScriptEngine

/-- A value whose code, if it is a script function, begins elsewhere. -/
def Value.moved (place : Nat → Nat) : Value → Value
  | .function entry captured => .function (place entry) captured
  | v => v

/-- Variables with moved values. -/
def Bindings.moved (place : Nat → Nat) (b : Bindings) : Bindings :=
  b.map fun e => (e.1, e.2.moved place)

/-- A table with moved values. -/
def Table.moved (place : Nat → Nat) (t : Table) : Table where
  entries := t.entries.map fun e => (e.1, e.2.moved place)
  places := t.places
  isIndex s i := by
    rw [t.isIndex s i, slotAt, slotAt, Array.getElem?_map, Option.map_map]
    rfl

variable {place : Nat → Nat}

/-! ### Values -/

namespace Value

@[simp] theorem moved_nil : nil.moved place = nil := rfl

@[simp] theorem kind_moved (v : Value) : (v.moved place).kind = v.kind := by cases v <;> rfl

@[simp] theorem isNil_moved (v : Value) : (v.moved place).isNil = v.isNil := by cases v <;> rfl

@[simp] theorem isTruthy_moved (v : Value) : (v.moved place).isTruthy = v.isTruthy := by
  cases v <;> rfl

@[simp] theorem toNumber?_moved (v : Value) : (v.moved place).toNumber? = v.toNumber? := by
  cases v <;> rfl

@[simp] theorem toInteger_moved (v : Value) : (v.moved place).toInteger = v.toInteger := by
  simp only [toInteger, toNumber?_moved, kind_moved]

@[simp] theorem toOperand_moved (v : Value) : (v.moved place).toOperand = v.toOperand := by
  simp only [toOperand, toNumber?_moved, kind_moved]

@[simp] theorem toPiece_moved (v : Value) : (v.moved place).toPiece = v.toPiece := by
  cases v <;> rfl

@[simp] theorem lessThan_moved (a b : Value) :
    (a.moved place).lessThan (b.moved place) = a.lessThan b := by
  cases a <;> cases b <;> rfl

@[simp] theorem lessEquals_moved (a b : Value) :
    (a.moved place).lessEquals (b.moved place) = a.lessEquals b := by
  cases a <;> cases b <;> rfl

@[simp] theorem arith_moved (operator : Arith) (a b : Value) :
    arith operator (a.moved place) (b.moved place) = arith operator a b := by
  simp only [arith, toInteger_moved, toOperand_moved]

@[simp] theorem moved_toValue (literal : Literal) :
    literal.toValue.moved place = literal.toValue := by
  cases literal <;> rfl

theorem moved_eq_toValue {v : Value} {literal : Literal} (h : v.moved place = literal.toValue) :
    v = literal.toValue := by
  cases v <;> cases literal <;> first | exact h | cases h

/-- What is no function stays where it is. -/
theorem moved_of_known {v : Value} (h : v.Known fun _ _ => False) : v.moved place = v := by
  cases v with
  | function entry captured => exact h.elim
  | _ => rfl

end Value

@[simp] theorem Key.ofValue_moved (v : Value) : ofValue (v.moved place) = ofValue v := by
  cases v <;> rfl

@[simp] theorem headD_map_moved (vs : List Value) :
    (vs.map (Value.moved place)).headD .nil = (vs.headD .nil).moved place := by
  cases vs <;> rfl

/-! ### Variables and tables -/

namespace Bindings

@[simp] theorem get?_moved (b : Bindings) (name : String) :
    (b.moved place).get? name = (b.get? name).map (Value.moved place) := by
  induction b with
  | nil => rfl
  | cons e rest ih =>
    change Bindings.get? ((e.1, e.2.moved place) :: Bindings.moved place rest) name = _
    rw [get?, get?]
    split
    · rfl
    · exact ih

@[simp] theorem declare_moved (b : Bindings) (name : String) (v : Value) :
    (b.declare name v).moved place = (b.moved place).declare name (v.moved place) := by
  induction b with
  | nil => rfl
  | cons e rest ih =>
    change _ = Bindings.declare ((e.1, e.2.moved place) :: Bindings.moved place rest) name _
    rw [declare, declare]
    split
    · rfl
    · exact congrArg (_ :: ·) ih

@[simp] theorem erase_moved (b : Bindings) (name : String) :
    (b.erase name).moved place = (b.moved place).erase name := by
  rw [erase, erase, moved, moved, List.filter_map]
  rfl

theorem moved_of_known {b : Bindings} (h : b.Known fun _ _ => False) : b.moved place = b := by
  refine (List.map_congr_left fun e he => ?_).trans (List.map_id b)
  rw [Value.moved_of_known (h e he)]
  rfl

end Bindings

namespace Table

/-- Tables with the same entries and the same index are the same. -/
theorem eq_of_parts {t u : Table} (hentries : t.entries = u.entries)
    (hplaces : t.places = u.places) : t = u := by
  cases t
  cases u
  cases hentries
  cases hplaces
  rfl

@[simp] theorem entries_moved (t : Table) :
    (t.moved place).entries = t.entries.map fun e => (e.1, e.2.moved place) := rfl

@[simp] theorem places_moved (t : Table) : (t.moved place).places = t.places := rfl

@[simp] theorem place?_moved (t : Table) (k : Key) :
    (t.moved place).place? k = t.place? k := rfl

@[simp] theorem moved_empty : empty.moved place = empty := eq_of_parts Array.map_empty rfl

@[simp] theorem size_moved (t : Table) : (t.moved place).size = t.size := Array.size_map

@[simp] theorem contains_moved (t : Table) (k : Key) :
    (t.moved place).contains k = t.contains k := rfl

@[simp] theorem get?_moved (t : Table) (k : Key) :
    (t.moved place).get? k = (t.get? k).map (Value.moved place) := by
  rw [get?, get?, place?_moved]
  cases t.place? k with
  | none => rfl
  | some i => simp only [entries_moved, Array.getElem?_map, Option.map_map, Function.comp_def]

@[simp] theorem get_moved (t : Table) (k : Key) :
    (t.moved place).get k = (t.get k).moved place := by
  rw [get, get, get?_moved]
  cases t.get? k <;> rfl

theorem entries_insert (t : Table) (k : Key) (v : Value) :
    (t.insert k v).entries = match t.place? k with
      | some i => t.entries.modify i fun e => (e.1, v)
      | none => t.entries.push (k, v) := by
  obtain ⟨entries, places, inv⟩ := t
  simp only [insert, place?]
  split <;> next h => simp only [h]

theorem places_insert (t : Table) (k : Key) (v : Value) :
    (t.insert k v).places = match t.place? k with
      | some _ => t.places
      | none => t.places.insert k.slot t.entries.size := by
  obtain ⟨entries, places, inv⟩ := t
  simp only [insert, place?]
  split <;> next h => simp only [h]

theorem entries_erase (t : Table) (k : Key) :
    (t.erase k).entries = match t.place? k with
      | some i => t.entries.eraseIdxIfInBounds i
      | none => t.entries := by
  obtain ⟨entries, places, inv⟩ := t
  simp only [erase, place?]
  split <;> next h => simp only [h]

theorem places_erase (t : Table) (k : Key) :
    (t.erase k).places = match t.place? k with
      | some i => (t.places.erase k.slot).map fun _ j => if i < j then j - 1 else j
      | none => t.places := by
  obtain ⟨entries, places, inv⟩ := t
  simp only [erase, place?]
  split <;> next h => simp only [h]

@[simp] theorem insert_moved (t : Table) (k : Key) (v : Value) :
    (t.insert k v).moved place = (t.moved place).insert k (v.moved place) := by
  refine eq_of_parts ?_ ?_
  · rw [entries_moved, entries_insert, entries_insert, place?_moved]
    cases t.place? k with
    | some i =>
      apply Array.ext_getElem?
      intro j
      simp only [entries_moved, Array.getElem?_map, Array.getElem?_modify]
      split <;> simp [Function.comp_def]
    | none => simp
  · rw [places_moved, places_insert, places_insert, place?_moved]
    cases t.place? k <;> simp

@[simp] theorem erase_moved (t : Table) (k : Key) :
    (t.erase k).moved place = (t.moved place).erase k := by
  refine eq_of_parts ?_ ?_
  · rw [entries_moved, entries_erase, entries_erase, place?_moved]
    cases t.place? k with
    | some i =>
      simp only [entries_moved, Array.eraseIdxIfInBounds_eq, Array.size_map]
      split
      · apply Array.ext_getElem?
        intro j
        simp only [Array.getElem?_map, Array.getElem?_eraseIdx]
        split <;> rfl
      · rfl
    | none => rfl
  · rw [places_moved, places_erase, places_erase, place?_moved]
    cases t.place? k <;> rfl

@[simp] theorem set_moved (t : Table) (k : Key) (v : Value) :
    (t.set k v).moved place = (t.moved place).set k (v.moved place) := by
  rw [set, set, Value.isNil_moved]
  split
  · exact erase_moved t k
  · exact insert_moved t k v

theorem moved_of_known {t : Table} (h : t.Known fun _ _ => False) : t.moved place = t := by
  refine eq_of_parts ?_ rfl
  apply Array.ext_getElem?
  intro i
  simp only [entries_moved, Array.getElem?_map]
  cases he : t.entries[i]? with
  | none => rfl
  | some e =>
    rw [Option.map_some, Value.moved_of_known (h e (Array.mem_of_getElem? he))]

theorem border_moved (t : Table) : (t.moved place).border = t.border := by
  have hfrom (fuel n : Nat) : (t.moved place).borderFrom fuel n = t.borderFrom fuel n := by
    induction fuel generalizing n with
    | zero => rfl
    | succ fuel ih => rw [borderFrom, borderFrom, contains_moved, ih]
  rw [border, border, size_moved, hfrom]

end Table

/-! ### Operators -/

namespace Store

variable {s s' : Store}

theorem table_moved (h : s'.tables = s.tables.map (Table.moved place)) (ref : TableRef) :
    s'.table ref = (s.table ref).moved place := by
  rw [table, table, h, Array.getElem?_map]
  cases s.tables[ref.index]? with
  | none => exact Table.moved_empty.symm
  | some t => rfl

theorem equalWith_moved (hplace : Function.Injective place)
    (tablesEqual : TableRef → TableRef → Bool) (a b : Value) :
    equalWith tablesEqual (a.moved place) (b.moved place) = equalWith tablesEqual a b := by
  cases a with
  | function entry captured =>
    cases b with
    | function entry' captured' =>
      rw [Bool.eq_iff_iff]
      simp only [Value.moved, equalWith, beq_iff_eq]
      exact hplace.eq_iff
    | _ => rfl
  | _ => cases b <;> rfl

theorem equalTables_moved (hplace : Function.Injective place)
    (h : s'.tables = s.tables.map (Table.moved place)) (fuel : Nat)
    (opened : List (TableRef × TableRef)) (a b : TableRef) :
    s'.equalTables fuel opened a b = s.equalTables fuel opened a b := by
  induction fuel generalizing opened a b with
  | zero => rfl
  | succ fuel ih =>
    rw [equalTables, equalTables, table_moved h, table_moved h, Table.size_moved, Table.size_moved]
    congr 2
    simp only [Table.moved, Array.all_map]
    congr 1
    funext e
    have hget :
        ((s.table b).moved place).get? e.1 = ((s.table b).get? e.1).map (Value.moved place) :=
      Table.get?_moved _ _
    simp only [Table.moved] at hget
    simp only [Function.comp_def, hget]
    cases (s.table b).get? e.1 with
    | none => rfl
    | some w =>
      simp only [Option.map_some, equalWith_moved hplace]
      congr 1
      funext c d
      exact ih _ c d

theorem equal_moved (hplace : Function.Injective place)
    (h : s'.tables = s.tables.map (Table.moved place)) (a b : Value) :
    s'.equal (a.moved place) (b.moved place) = s.equal a b := by
  have hsize : s'.tables.size = s.tables.size := by rw [h, Array.size_map]
  rw [equal, equal, equalWith_moved hplace, hsize]
  congr 1
  funext c d
  exact equalTables_moved hplace h _ _ c d

/-- **Operators do the same with moved values.** -/
theorem binary_moved (hplace : Function.Injective place)
    (h : s'.tables = s.tables.map (Table.moved place)) (operator : StrictOperator) (a b : Value) :
    s'.binary operator (a.moved place) (b.moved place) = s.binary operator a b := by
  cases operator with
  | arith operator => exact Value.arith_moved operator a b
  | concat => simp only [binary, Value.concat, Value.toPiece_moved]
  | compare operator =>
    cases operator <;> simp [binary, compare, equal_moved hplace h]

theorem unary_moved (h : s'.tables = s.tables.map (Table.moved place)) (operator : UnaryOperator)
    (v : Value) : s'.unary operator (v.moved place) = s.unary operator v := by
  cases operator with
  | not => simp [unary]
  | negate => simp [unary, Value.negate]
  | length =>
    cases v with
    | table ref =>
      simp only [Value.moved, unary, length, table_moved h, Table.border_moved]
    | _ => rfl
  | bitNot => simp [unary, Value.bitNot]

end Store

end ScriptEngine
