import Mathlib.Data.List.Perm.Subperm
import Mathlib.Data.List.ProdSigma
import ScriptEngine.Proofs.Tables.Contents

/-!
# Equality of values is bisimilarity

Tables may share each other and go in circles, so that what a value looks like is
an infinite tree.  Two values are bisimilar if no way down these trees tells them
apart.  This module proves that equality of values decides bisimilarity, although
it takes every pair of tables for equal that it is just comparing.

## Main definitions

* `Corresponds`, `Bisimulation`, `Bisimilar` — relations that no way down tells
  apart.
* `Indistinct` — values that no way of a given length tells apart.
* `Compares` — the comparison of values as a recursion that nothing bounds.
* `Value.isNaN`, `Store.NaNFree` — NaN, and stores whose tables do not hold it.

## Main results

* `compares_equalTables` — the recursion ends, with the answer that equality has.
* `Compares.sound`, `Compares.complete` — an answer of the recursion is right.
* `equal_decides_bisimilarity` — equality of values decides bisimilarity.
-/

namespace ScriptEngine

/-! ### Bisimilar values -/

/-- Two values look alike on their surface, and `R` relates what tables have under
the same keys. -/
def Corresponds (s : Store) (R : Value → Value → Prop) : Value → Value → Prop
  | .nil, .nil => True
  | .boolean a, .boolean b => a = b
  | .number a, .number b => (a == b) = true
  | .string a, .string b => a = b
  | .table a, .table b => ∀ k, Option.Rel R ((s.table a).get? k) ((s.table b).get? k)
  | .function a _, .function b _ => a = b
  | .native a, .native b => a.identity = b.identity
  | _, _ => False

/-- A relation whose pairs correspond. -/
def Bisimulation (s : Store) (R : Value → Value → Prop) : Prop :=
  ∀ {v w}, R v w → Corresponds s R v w

/-- Two values are related by a bisimulation. -/
def Bisimilar (s : Store) (v w : Value) : Prop := ∃ R, Bisimulation s R ∧ R v w

/-- Whether a value is the number that is not equal to itself. -/
def Value.isNaN : Value → Bool
  | .number x => x.isNaN
  | _ => false

/-- No table of a store holds NaN. -/
def Store.NaNFree (s : Store) : Prop :=
  ∀ t ∈ s.tables, ∀ e ∈ t.toList, e.2.isNaN = false

variable {s : Store} {R : Value → Value → Prop} {v w : Value}

theorem Store.NaNFree.get? (hs : s.NaNFree) {ref : TableRef} {k : Key}
    (h : (s.table ref).get? k = some v) : v.isNaN = false := by
  obtain ⟨e, he, -, rfl⟩ := Table.get?_eq_some_iff.1 h
  unfold Store.table at he
  cases ht : s.tables[ref.index]? with
  | none =>
    rw [ht] at he
    cases he
  | some t =>
    rw [ht] at he
    exact hs t (Array.mem_of_getElem? ht) e he

theorem rel_imp {R' : Value → Value → Prop} {x y : Option Value} (hR : ∀ v w, R v w → R' v w)
    (h : Option.Rel R x y) : Option.Rel R' x y := by
  cases h with
  | some hvw => exact .some (hR _ _ hvw)
  | none => exact .none

theorem rel_swap {x y : Option Value} (h : Option.Rel R x y) :
    Option.Rel (fun v w => R w v) y x := by
  cases h with
  | some hvw => exact .some hvw
  | none => exact .none

theorem rel_comp {R' : Value → Value → Prop} {x y z : Option Value} (h : Option.Rel R x y)
    (h' : Option.Rel R' y z) : Option.Rel (fun v u => ∃ w, R v w ∧ R' w u) x z := by
  cases h with
  | some hvw =>
    cases h' with
    | some hwu => exact .some ⟨_, hvw, hwu⟩
  | none =>
    cases h' with
    | none => exact .none

theorem Corresponds.mono {R' : Value → Value → Prop} (hR : ∀ v w, R v w → R' v w)
    (h : Corresponds s R v w) : Corresponds s R' v w := by
  cases v <;> cases w <;> try exact h
  case table.table a b => exact fun k => rel_imp hR (h k)

/-- A value that is not NaN corresponds to itself. -/
theorem corresponds_self (hs : s.NaNFree) (hv : v.isNaN = false)
    (hR : ∀ v : Value, v.isNaN = false → R v v) : Corresponds s R v v := by
  cases v with
  | nil => trivial
  | number x => exact Number.beq_self hv
  | table a =>
    intro k
    cases hget : (s.table a).get? k with
    | none => exact .none
    | some v => exact .some (hR v (hs.get? hget))
  | _ => rfl

theorem Corresponds.symm (h : Corresponds s R v w) : Corresponds s (fun v w => R w v) w v := by
  cases v <;> cases w <;> try exact h.elim
  case nil.nil => trivial
  case number.number x y => exact Number.beq_symm h
  case table.table a b => exact fun k => rel_swap (h k)
  all_goals exact Eq.symm h

theorem Corresponds.trans {R' : Value → Value → Prop} {u : Value} (h : Corresponds s R v w)
    (h' : Corresponds s R' w u) : Corresponds s (fun v u => ∃ w, R v w ∧ R' w u) v u := by
  cases v <;> cases w <;> (try exact h.elim) <;> cases u <;> try exact h'.elim
  case nil.nil.nil => trivial
  case number.number.number x y z => exact Number.beq_trans h h'
  case table.table.table a b c => exact fun k => rel_comp (h k) (h' k)
  all_goals exact Eq.trans h h'

namespace Bisimilar

theorem refl (hs : s.NaNFree) (hv : v.isNaN = false) : Bisimilar s v v := by
  refine ⟨fun v w => v = w ∧ v.isNaN = false, ?_, rfl, hv⟩
  rintro v _ ⟨rfl, hv⟩
  exact corresponds_self hs hv fun v hv => ⟨rfl, hv⟩

theorem symm (h : Bisimilar s v w) : Bisimilar s w v := by
  obtain ⟨R, hR, hvw⟩ := h
  exact ⟨fun v w => R w v, fun hwv => (hR hwv).symm, hvw⟩

theorem trans {u : Value} (h : Bisimilar s v w) (h' : Bisimilar s w u) : Bisimilar s v u := by
  obtain ⟨R, hR, hvw⟩ := h
  obtain ⟨R', hR', hwu⟩ := h'
  refine ⟨fun v u => ∃ w, R v w ∧ R' w u, ?_, w, hvw, hwu⟩
  rintro v u ⟨w, hvw, hwu⟩
  exact (hR hvw).trans (hR' hwu)

end Bisimilar

/-! ### Ways of a given length -/

/-- No way down of a length tells two values apart. -/
def Indistinct (s : Store) : Nat → Value → Value → Prop
  | 0 => fun _ _ => True
  | n + 1 => Corresponds s (Indistinct s n)

theorem Indistinct.pred {n : Nat} (h : Indistinct s (n + 1) v w) : Indistinct s n v w := by
  induction n generalizing v w with
  | zero => trivial
  | succ n ih => exact Corresponds.mono (fun _ _ => ih) h

theorem indistinct_self (hs : s.NaNFree) (hv : v.isNaN = false) (n : Nat) :
    Indistinct s n v v := by
  induction n generalizing v with
  | zero => trivial
  | succ n ih => exact corresponds_self hs hv fun _ hv => ih hv

/-- Values that no way tells apart are bisimilar. -/
theorem bisimilar_of_indistinct (h : ∀ n, Indistinct s n v w) : Bisimilar s v w := by
  refine ⟨fun v w => ∀ n, Indistinct s n v w, fun {v w} hvw => ?_, h⟩
  have hone := hvw 1
  cases v <;> cases w <;> try exact hone
  case table.table a b =>
    intro k
    have hkey (n : Nat) : Option.Rel (Indistinct s n) ((s.table a).get? k) ((s.table b).get? k) :=
      hvw (n + 1) k
    cases ha : (s.table a).get? k with
    | none =>
      cases hb : (s.table b).get? k with
      | none => exact .none
      | some w =>
        have := hkey 0
        rw [ha, hb] at this
        cases this
    | some v =>
      cases hb : (s.table b).get? k with
      | none =>
        have := hkey 0
        rw [ha, hb] at this
        cases this
      | some w =>
        refine .some fun n => ?_
        have := hkey n
        rw [ha, hb] at this
        cases this with
        | some hvw => exact hvw

/-! ### Keys of tables -/

namespace Table

variable {t u : Table}

theorem subperm_slots (h : ∀ e ∈ t.toList, (u.get? e.1).isSome) :
    (t.toList.map fun e => e.1.slot).Subperm (u.toList.map fun e => e.1.slot) := by
  refine List.subperm_of_subset t.nodup_slots fun slot hslot => ?_
  obtain ⟨e, he, rfl⟩ := List.mem_map.1 hslot
  exact isSome_get?_iff.1 (h e he)

/-- A table that has no fewer entries than another one, all of whose keys the other
one has, has all keys of the other one. -/
theorem isSome_get?_of_subset (hsize : u.size ≤ t.size)
    (h : ∀ e ∈ t.toList, (u.get? e.1).isSome) {k : Key} (hk : (u.get? k).isSome) :
    (t.get? k).isSome := by
  have hperm := (subperm_slots h).perm_of_length_le (by simpa [toList, size] using hsize)
  exact isSome_get?_iff.2 (hperm.mem_iff.2 (isSome_get?_iff.1 hk))

/-- Tables with related values under the same keys have the same number of
entries. -/
theorem size_eq_of_rel (h : ∀ k, Option.Rel R (t.get? k) (u.get? k)) : t.size = u.size := by
  have hmem (e : Key × Value) : (t.get? e.1).isSome ↔ (u.get? e.1).isSome := by
    have hkey := h e.1
    revert hkey
    generalize t.get? e.1 = x
    generalize u.get? e.1 = y
    rintro (_ | _) <;> rfl
  have hle {t u : Table} (h : ∀ e ∈ t.toList, (u.get? e.1).isSome) : t.size ≤ u.size := by
    simpa [toList, size] using (subperm_slots h).length_le
  have hself {t : Table} {e : Key × Value} (he : e ∈ t.toList) : (t.get? e.1).isSome :=
    isSome_get?_iff.2 (List.mem_map.2 ⟨e, he, rfl⟩)
  exact Nat.le_antisymm (hle fun e he => (hmem e).1 (hself he))
    (hle fun e he => (hmem e).2 (hself he))

end Table

/-! ### The recursion -/

/-- What a table's entries are compared with: the values that another table has
under their keys. -/
def opposites (s : Store) (a b : TableRef) : List (Value × Option Value) :=
  (s.table a).toList.map fun e => (e.2, (s.table b).get? e.1)

/-- Values are compared with others one after another, and the comparison ends with
an answer.  The pairs of tables in `opened` are being compared further out.  Nothing
bounds the depth of the recursion. -/
inductive Compares (s : Store) :
    List (TableRef × TableRef) → List (Value × Option Value) → Bool → Prop
  | done {opened} : Compares s opened [] true
  | missing {opened v rest} : Compares s opened ((v, none) :: rest) false
  /-- Values of which one is not a table. -/
  | unlike {opened v w rest} (h : Store.equalWith (fun _ _ => true) v w = false) :
      Compares s opened ((v, some w) :: rest) false
  | alike {opened v w rest answer} (hplain : v.asTable? = none ∨ w.asTable? = none)
      (h : Store.equalWith (fun _ _ => true) v w = true) :
      Compares s opened rest answer → Compares s opened ((v, some w) :: rest) answer
  /-- The same table, or a pair that is being compared further out. -/
  | assumed {opened a b rest answer} (h : a = b ∨ (a, b) ∈ opened) :
      Compares s opened rest answer →
        Compares s opened ((.table a, some (.table b)) :: rest) answer
  | unequalSizes {opened a b rest} (hnew : ¬(a = b ∨ (a, b) ∈ opened))
      (h : (s.table a).size ≠ (s.table b).size) :
      Compares s opened ((.table a, some (.table b)) :: rest) false
  | unequal {opened a b rest} (hnew : ¬(a = b ∨ (a, b) ∈ opened))
      (h : (s.table a).size = (s.table b).size) :
      Compares s ((a, b) :: opened) (opposites s a b) false →
        Compares s opened ((.table a, some (.table b)) :: rest) false
  | equal {opened a b rest answer} (hnew : ¬(a = b ∨ (a, b) ∈ opened))
      (h : (s.table a).size = (s.table b).size) :
      Compares s ((a, b) :: opened) (opposites s a b) true → Compares s opened rest answer →
        Compares s opened ((.table a, some (.table b)) :: rest) answer

variable {opened : List (TableRef × TableRef)} {items : List (Value × Option Value)}

/-! #### It ends -/

/-- The answer of the bounded recursion about a value. -/
def itemEqual (s : Store) (fuel : Nat) (opened : List (TableRef × TableRef)) :
    Value × Option Value → Bool
  | (_, none) => false
  | (v, some w) => Store.equalWith (s.equalTables fuel opened) v w

theorem equalTables_succ (s : Store) (fuel : Nat) (opened : List (TableRef × TableRef))
    (a b : TableRef) :
    s.equalTables (fuel + 1) opened a b =
      (decide (a = b ∨ (a, b) ∈ opened) || ((s.table a).size == (s.table b).size &&
        (opposites s a b).all (itemEqual s fuel ((a, b) :: opened)))) := by
  have hentries : (opposites s a b).all (itemEqual s fuel ((a, b) :: opened)) =
      (s.table a).entries.all fun e =>
        itemEqual s fuel ((a, b) :: opened) (e.2, (s.table b).get? e.1) := by
    rw [opposites, List.all_map, Table.toList, Array.all_toList]
    rfl
  have hknown : decide (a = b ∨ (a, b) ∈ opened) = (a == b || opened.contains (a, b)) := by
    simp [beq_eq_decide]
  rw [hentries, hknown, Store.equalTables]
  congr 3
  funext e
  cases (s.table b).get? e.1 <;> rfl

theorem equalWith_of_not_tables (f g : TableRef → TableRef → Bool)
    (h : v.asTable? = none ∨ w.asTable? = none) :
    Store.equalWith f v w = Store.equalWith g v w := by
  cases v <;> cases w <;> try rfl
  simp [Value.asTable?] at h

/-- Pairs of tables that are all different are no more than there are. -/
theorem length_opened_le {n : Nat} (hnodup : opened.Nodup)
    (hrange : ∀ p ∈ opened, p.1.index < n ∧ p.2.index < n) : opened.length ≤ n * n := by
  have hsubset : opened ⊆ (List.range n).map TableRef.mk ×ˢ (List.range n).map TableRef.mk := by
    intro p hp
    obtain ⟨h₁, h₂⟩ := hrange p hp
    exact List.mem_product.2 ⟨List.mem_map.2 ⟨_, List.mem_range.2 h₁, rfl⟩,
      List.mem_map.2 ⟨_, List.mem_range.2 h₂, rfl⟩⟩
  simpa [List.length_product] using (List.subperm_of_subset hnodup hsubset).length_le

/-- Only tables that are there have something to compare. -/
theorem index_lt_of_opposites_ne {a b : TableRef}
    (hsize : (s.table a).size = (s.table b).size) (h : opposites s a b ≠ []) :
    a.index < s.tables.size ∧ b.index < s.tables.size := by
  have hinside (ref : TableRef) (hne : (s.table ref).size ≠ 0) : ref.index < s.tables.size := by
    apply Nat.lt_of_not_le
    intro hle
    rw [Store.table, Array.getElem?_eq_none hle] at hne
    exact hne rfl
  have ha : (s.table a).size ≠ 0 := by
    simpa [opposites, Table.toList, Table.size] using h
  exact ⟨hinside a ha, hinside b (hsize ▸ ha)⟩

/-- **The recursion ends**, with the answer of the one that is bounded by the number
of pairs of tables. -/
theorem compares_equalTables (fuel : Nat) (hnodup : opened.Nodup)
    (hrange : ∀ p ∈ opened, p.1.index < s.tables.size ∧ p.2.index < s.tables.size)
    (hfuel : s.tables.size * s.tables.size + 1 ≤ fuel + opened.length) :
    Compares s opened items (items.all (itemEqual s fuel opened)) := by
  induction fuel generalizing opened items with
  | zero =>
    have := length_opened_le hnodup hrange
    omega
  | succ fuel ih =>
    induction items with
    | nil => exact .done
    | cons item rest ihrest =>
      obtain ⟨v, _ | w⟩ := item
      · exact .missing
      rw [List.all_cons]
      by_cases htables : v.asTable? = none ∨ w.asTable? = none
      · have hitem : itemEqual s (fuel + 1) opened (v, some w) =
            Store.equalWith (fun _ _ => true) v w :=
          equalWith_of_not_tables _ _ htables
        rw [hitem]
        cases hvw : Store.equalWith (fun _ _ => true) v w with
        | false => exact .unlike hvw
        | true => exact .alike htables hvw ihrest
      · obtain ⟨a, rfl⟩ : ∃ a, v = .table a := by
          cases v <;> simp [Value.asTable?] at htables ⊢
        obtain ⟨b, rfl⟩ : ∃ b, w = .table b := by
          cases w <;> simp [Value.asTable?] at htables ⊢
        have hitem : itemEqual s (fuel + 1) opened (.table a, some (.table b)) =
            s.equalTables (fuel + 1) opened a b := rfl
        rw [hitem, equalTables_succ]
        by_cases hknown : a = b ∨ (a, b) ∈ opened
        · rw [decide_eq_true hknown, Bool.true_or, Bool.true_and]
          exact .assumed hknown ihrest
        rw [decide_eq_false hknown, Bool.false_or]
        by_cases hsize : (s.table a).size = (s.table b).size
        · have hinner : Compares s ((a, b) :: opened) (opposites s a b)
              ((opposites s a b).all (itemEqual s fuel ((a, b) :: opened))) := by
            by_cases hempty : opposites s a b = []
            · rw [hempty]
              exact .done
            · obtain ⟨ha, hb⟩ := index_lt_of_opposites_ne hsize hempty
              refine ih (List.nodup_cons.2 ⟨fun hmem => hknown (.inr hmem), hnodup⟩) ?_ ?_
              · exact List.forall_mem_cons.2 ⟨⟨ha, hb⟩, hrange⟩
              · rw [List.length_cons]
                omega
          rw [beq_iff_eq.2 hsize, Bool.true_and]
          cases hall : (opposites s a b).all (itemEqual s fuel ((a, b) :: opened)) with
          | false => exact .unequal hknown hsize (hall ▸ hinner)
          | true => exact .equal hknown hsize (hall ▸ hinner) ihrest
        · rw [beq_eq_false_iff_ne.2 hsize, Bool.false_and, Bool.false_and]
          exact .unequalSizes hknown hsize

theorem compares_equal (s : Store) (v w : Value) :
    Compares s [] [(v, some w)] (s.equal v w) := by
  have h : Compares s [] [(v, some w)]
      ([(v, some w)].all (itemEqual s (s.tables.size * s.tables.size + 1) [])) :=
    compares_equalTables _ List.nodup_nil nofun (Nat.le_refl _)
  rwa [List.all_cons, List.all_nil, Bool.and_true] at h

/-- The recursion has one answer. -/
theorem Compares.unique {answer answer' : Bool} (h : Compares s opened items answer)
    (h' : Compares s opened items answer') : answer = answer' := by
  induction h generalizing answer' with
  | done => cases h'; rfl
  | missing => cases h'; rfl
  | unlike h =>
    cases h' with
    | unlike => rfl
    | alike _ h'' => rw [h] at h''; cases h''
    | _ => cases h
  | alike hplain h _ ih =>
    cases h' with
    | unlike h'' => rw [h] at h''; cases h''
    | alike _ _ hrest => exact ih hrest
    | _ => simp [Value.asTable?] at hplain
  | assumed h _ ih =>
    cases h' with
    | unlike h'' => cases h''
    | alike hplain => simp [Value.asTable?] at hplain
    | assumed _ hrest => exact ih hrest
    | unequalSizes hnew => exact absurd h hnew
    | unequal hnew => exact absurd h hnew
    | equal hnew => exact absurd h hnew
  | unequalSizes hnew h =>
    cases h' with
    | unlike => rfl
    | alike hplain => simp [Value.asTable?] at hplain
    | assumed h'' => exact absurd h'' hnew
    | unequalSizes => rfl
    | unequal => rfl
    | equal _ h'' => exact absurd h'' h
  | unequal hnew h _ ih =>
    cases h' with
    | unlike => rfl
    | alike hplain => simp [Value.asTable?] at hplain
    | assumed h'' => exact absurd h'' hnew
    | unequalSizes => rfl
    | unequal => rfl
    | equal _ _ hinner => exact Bool.noConfusion (ih hinner)
  | equal hnew h _ _ ih ihrest =>
    cases h' with
    | unlike h'' => cases h''
    | alike hplain => simp [Value.asTable?] at hplain
    | assumed h'' => exact absurd h'' hnew
    | unequalSizes _ h'' => exact absurd h h''
    | unequal _ _ hinner => exact Bool.noConfusion (ih hinner)
    | equal _ _ _ hrest => exact ihrest hrest

/-! #### Its answer is right -/

/-- Values that are told apart on their surface do not correspond. -/
theorem equalWith_of_corresponds (h : Corresponds s R v w) :
    Store.equalWith (fun _ _ => true) v w = true := by
  cases v <;> cases w <;> first | exact h.elim | rfl | exact h | exact beq_iff_eq.2 h

theorem corresponds_of_equalWith (hplain : v.asTable? = none ∨ w.asTable? = none)
    (h : Store.equalWith (fun _ _ => true) v w = true) : Corresponds s R v w := by
  cases v <;> cases w <;> first | cases h; done | trivial | exact h | exact beq_iff_eq.1 h | skip
  simp [Value.asTable?] at hplain

/-- **An answer of `false` is right**: values that a bisimulation relates are found
equal. -/
theorem Compares.complete {answer : Bool} (h : Compares s opened items answer)
    (hR : Bisimulation s R) (hitems : ∀ item ∈ items, ∃ w, item.2 = some w ∧ R item.1 w) :
    answer = true := by
  induction h with
  | done => rfl
  | missing =>
    obtain ⟨w, hw, -⟩ := hitems _ List.mem_cons_self
    cases hw
  | unlike h =>
    obtain ⟨w, hw, hvw⟩ := hitems _ List.mem_cons_self
    cases hw
    rw [equalWith_of_corresponds (hR hvw)] at h
    cases h
  | alike _ _ _ ih => exact ih fun item hitem => hitems item (List.mem_cons_of_mem _ hitem)
  | assumed _ _ ih => exact ih fun item hitem => hitems item (List.mem_cons_of_mem _ hitem)
  | unequalSizes hnew h =>
    obtain ⟨w, hw, hvw⟩ := hitems _ List.mem_cons_self
    cases hw
    exact absurd (Table.size_eq_of_rel (hR hvw)) h
  | unequal hnew h _ ih =>
    obtain ⟨w, hw, hvw⟩ := hitems _ List.mem_cons_self
    cases hw
    refine ih fun item hitem => ?_
    obtain ⟨e, he, rfl⟩ := List.mem_map.1 hitem
    have hget := Table.get?_eq_some_iff.2 ⟨e, he, rfl, rfl⟩
    have hkey := hR hvw e.1
    rw [hget] at hkey
    generalize hother : (s.table _).get? e.1 = x at hkey ⊢
    cases hkey with
    | some hvw => exact ⟨_, hother ▸ rfl, hvw⟩
  | equal hnew h _ _ ih ihrest =>
    exact ihrest fun item hitem => hitems item (List.mem_cons_of_mem _ hitem)

/-- What an answer of `true` says about one of the values. -/
theorem Compares.item {answer : Bool} (h : Compares s opened items answer)
    (htrue : answer = true) {x : Option Value} (hitem : (v, x) ∈ items) :
    ∃ w, x = some w ∧ ((v.asTable? = none ∨ w.asTable? = none) ∧
        Store.equalWith (fun _ _ => true) v w = true ∨
      ∃ a b, v = .table a ∧ w = .table b ∧ (a = b ∨ (a, b) ∈ opened ∨
        (s.table a).size = (s.table b).size ∧
          Compares s ((a, b) :: opened) (opposites s a b) true)) := by
  induction h with
  | done => cases hitem
  | alike hplain h _ ih =>
    rcases List.mem_cons.1 hitem with heq | hitem
    · cases heq
      exact ⟨_, rfl, .inl ⟨hplain, h⟩⟩
    · exact ih htrue hitem
  | @assumed opened a b _ _ h _ ih =>
    rcases List.mem_cons.1 hitem with heq | hitem
    · cases heq
      exact ⟨_, rfl, .inr ⟨a, b, rfl, rfl, h.imp_right .inl⟩⟩
    · exact ih htrue hitem
  | @equal opened a b _ _ hnew h hinner _ _ ih =>
    rcases List.mem_cons.1 hitem with heq | hitem
    · cases heq
      exact ⟨_, rfl, .inr ⟨a, b, rfl, rfl, .inr (.inr ⟨h, hinner⟩)⟩⟩
    · exact ih htrue hitem
  | _ => cases htrue

/-- **An answer of `true` is right**: if no way of a length tells the tables apart
that are being compared further out, then none tells the values apart. -/
theorem Compares.sound (hs : s.NaNFree) {n : Nat} (h : Compares s opened items true)
    (hopened : ∀ p ∈ opened, Indistinct s n (.table p.1) (.table p.2))
    {x : Option Value} (hitem : (v, x) ∈ items) (hv : v.isNaN = false) :
    ∃ w, x = some w ∧ Indistinct s n v w := by
  -- The shortest way that tells the values apart goes through tables that no shorter one
  -- tells apart, so that the pair itself may be assumed further down.
  induction n using Nat.strongRecOn generalizing opened items v x with
  | _ n ih =>
    obtain ⟨w, rfl, hcase⟩ := h.item rfl hitem
    refine ⟨w, rfl, ?_⟩
    cases n with
    | zero => trivial
    | succ n =>
      have hshorter : Indistinct s n v w := by
        obtain ⟨w', hw', hindistinct⟩ := ih n (Nat.lt_succ_self n) h
          (fun p hp => (hopened p hp).pred) hitem hv
        cases hw'
        exact hindistinct
      rcases hcase with ⟨hplain, hequal⟩ | ⟨a, b, rfl, rfl, rfl | hassumed | ⟨hsize, hinner⟩⟩
      · exact corresponds_of_equalWith hplain hequal
      · exact indistinct_self hs hv (n + 1)
      · exact hopened _ hassumed
      have hopened' : ∀ p ∈ (a, b) :: opened, Indistinct s n (.table p.1) (.table p.2) :=
        List.forall_mem_cons.2 ⟨hshorter, fun p hp => (hopened p hp).pred⟩
      have hentry (e : Key × Value) (he : e ∈ (s.table a).toList) :
          ∃ w, (s.table b).get? e.1 = some w ∧ Indistinct s n e.2 w := by
        have hget := Table.get?_eq_some_iff.2 ⟨e, he, rfl, rfl⟩
        exact ih n (Nat.lt_succ_self n) hinner hopened' (List.mem_map.2 ⟨e, he, rfl⟩)
          (hs.get? hget)
      intro k
      cases ha : (s.table a).get? k with
      | some v =>
        obtain ⟨e, he, hslot, rfl⟩ := Table.get?_eq_some_iff.1 ha
        obtain ⟨w, hw, hindistinct⟩ := hentry e he
        have hk : (s.table b).get? k = some w := by
          rw [Table.get?_eq_some_iff] at hw ⊢
          obtain ⟨e', he', hslot', hval⟩ := hw
          exact ⟨e', he', hslot'.trans hslot, hval⟩
        rw [hk]
        exact .some hindistinct
      | none =>
        cases hb : (s.table b).get? k with
        | none => exact .none
        | some w =>
          have hsome : ((s.table a).get? k).isSome := by
            refine Table.isSome_get?_of_subset (Nat.le_of_eq hsize.symm) (fun e he => ?_)
              (by rw [hb]; rfl)
            obtain ⟨w, hw, -⟩ := hentry e he
            rw [hw]
            rfl
          rw [ha] at hsome
          cases hsome

/-! ### Equality of values -/

/-- Equal values are bisimilar, and bisimilar values are equal. -/
theorem equal_iff (hs : s.NaNFree) (hv : v.isNaN = false) :
    s.equal v w = true ↔ Bisimilar s v w := by
  constructor
  · intro h
    refine bisimilar_of_indistinct fun n => ?_
    have hrun := compares_equal s v w
    rw [h] at hrun
    obtain ⟨w', hw', hindistinct⟩ := hrun.sound hs nofun (List.mem_singleton_self _) hv (n := n)
    cases hw'
    exact hindistinct
  · rintro ⟨R, hR, hvw⟩
    refine (compares_equal s v w).complete hR fun item hitem => ?_
    rw [List.mem_singleton.1 hitem]
    exact ⟨w, rfl, hvw⟩

/-! #### Tables in a ring -/

theorem Table.toList_singleton {k : Key} {v : Value} (h : v.isNil = false) :
    (Table.ofEntries [(k, v)]).toList = [(k, v)] := by
  simp only [ofEntries, List.foldl_cons, List.foldl_nil, set, h, Bool.false_eq_true, if_false,
    insert, empty, toList]
  split
  · next hplace => simp at hplace
  · rfl

/-- Two tables that hold each other under the same key. -/
def Store.ring : Store :=
  { Store.empty with
    tables := #[.ofEntries [(.text "next", .table ⟨1⟩)], .ofEntries [(.text "next", .table ⟨0⟩)]] }

theorem toList_ring {i : Nat} (h : i < 2) :
    (Store.ring.table ⟨i⟩).toList = [(.text "next", .table ⟨1 - i⟩)] := by
  match i, h with
  | 0, _ => exact Table.toList_singleton (v := .table _) rfl
  | 1, _ => exact Table.toList_singleton (v := .table _) rfl

theorem naNFree_ring : Store.ring.NaNFree := by
  intro t ht e he
  obtain ⟨i, hi⟩ := Array.mem_iff_getElem?.1 ht
  have htable : Store.ring.table ⟨i⟩ = t := by rw [Store.table, hi]; rfl
  have hlt : i < 2 := (Array.getElem?_eq_some_iff.1 hi).1
  rw [← htable, toList_ring hlt] at he
  rw [List.mem_singleton.1 he]
  rfl

theorem bisimulation_ring :
    Bisimulation Store.ring fun v w => ∃ i j, i < 2 ∧ j < 2 ∧ v = .table ⟨i⟩ ∧ w = .table ⟨j⟩ := by
  rintro _ _ ⟨i, j, hi, hj, rfl, rfl⟩ k
  have hget {i : Nat} (hi : i < 2) : (Store.ring.table ⟨i⟩).get? k =
      if k.slot = (Key.text "next").slot then some (.table ⟨1 - i⟩) else none := by
    apply Option.ext
    intro v
    rw [Table.get?_eq_some_iff, toList_ring hi]
    split
    · next hk => simp [hk, eq_comm]
    · next hk => simp [Ne.symm hk]
  rw [hget hi, hget hj]
  split
  · exact .some ⟨1 - i, 1 - j, by omega, by omega, rfl, rfl⟩
  · exact .none

/-! #### The decision -/

/-- **Equality of values decides bisimilarity**, if there is no NaN: the recursion that
compares values ends with exactly one answer, which is `true` if and only if the values
are bisimilar, so that equality is an equivalence. -/
theorem equal_decides_bisimilarity (s : Store) (hs : s.NaNFree) :
    (∀ v w answer, Compares s [] [(v, some w)] answer ↔ answer = s.equal v w) ∧
    (∀ v w : Value, v.isNaN = false → w.isNaN = false →
      (s.equal v w = true ↔ Bisimilar s v w)) ∧
    Equivalence fun v w : { v : Value // v.isNaN = false } => s.equal v w = true := by
  refine ⟨fun v w answer => ⟨fun h => h.unique (compares_equal s v w), ?_⟩, ?_, ?_⟩
  · rintro rfl
    exact compares_equal s v w
  · exact fun v w hv _ => equal_iff hs hv
  · constructor
    · exact fun v => (equal_iff hs v.2).2 (.refl hs v.2)
    · intro v w h
      exact (equal_iff hs w.2).2 ((equal_iff hs v.2).1 h).symm
    · intro v w u hvw hwu
      exact (equal_iff hs v.2).2 (((equal_iff hs v.2).1 hvw).trans ((equal_iff hs w.2).1 hwu))

/-- Tables that hold each other are equal, although no comparison gets to their end. -/
theorem equal_ring : Store.ring.NaNFree ∧ Store.ring.equal (.table ⟨0⟩) (.table ⟨1⟩) = true :=
  ⟨naNFree_ring, ((equal_decides_bisimilarity _ naNFree_ring).2.1 _ _ rfl rfl).2
    ⟨_, bisimulation_ring, 0, 1, by decide, by decide, rfl, rfl⟩⟩
end ScriptEngine
