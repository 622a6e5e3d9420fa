import Mathlib.Data.String.Basic
import Mathlib.Tactic.Ring
import ScriptEngine.Engine
import ScriptEngine.Proofs.Number.Order
import ScriptEngine.Proofs.Tables.Contents

/-!
# Sorting tables

Sorting inserts the values of a table one after another, each as far back as it comes
before others.  Comparisons are computations on the store: they may fail, and what they
answer need not be an order.  So a run is described by the comparisons that have been
made.  If one of them fails, the run fails as it does and the table is what it was;
if none fails, their number is bounded, the values are those of before in some order, and
if the answers are those of a strict weak order, that order is kept and is stable.

Stability is stated about values together with their places before sorting, since a list
can hold one value twice.

## Main definitions

* `Comparison`, `Compared`, `FailsAfter` — comparisons made one after another, and one that
  fails.
* `WeaklyOrders` — a relation is a strict weak order of some values.
* `InOrder`, `StablySorted` — values are sorted, those that are not ordered standing as
  they stood before.
* `LeavesTable` — comparing the values of a table does not change it.
* `StopsUnchanged`, `SortsStably` — the two ways in which a run of sorting ends.

## Main results

* `sink_cases`, `sortOnto_cases`, `sortWith_cases` — what inserting a value comes to, and
  inserting many.
* `lessThan_numbers`, `lessThan_strings` — the order of numbers and of strings.
* `leavesTable_nil` — comparing without a comparison function changes nothing.
* `sort_stable_or_unchanged` — **sorting is stable and atomic**.
-/

namespace ScriptEngine.Library

/-! ### Comparisons -/

/-- A comparison of two values, with the answer whether the left one comes first. -/
structure Comparison where
  lhs : Value
  rhs : Value
  answer : Bool

/-- Comparisons among some values, made one after another, have their answers. -/
inductive Compared (before : Value → Value → Action Bool) (values : List Value) :
    Store → List Comparison → Store → Prop
  | done (s : Store) : Compared before values s [] s
  | next {s s₁ s₂ : Store} {c : Comparison} {made : List Comparison} :
      c.lhs ∈ values → c.rhs ∈ values → before c.lhs c.rhs s = .ok c.answer s₁ →
        Compared before values s₁ made s₂ → Compared before values s (c :: made) s₂

/-- A comparison among some values fails after others have been made. -/
def FailsAfter (before : Value → Value → Action Bool) (values : List Value) (s : Store)
    (made : List Comparison) (e : Failure) (s₂ : Store) : Prop :=
  ∃ s₁, Compared before values s made s₁ ∧
    ∃ lhs ∈ values, ∃ rhs ∈ values, before lhs rhs s₁ = .error e s₂

/-- The comparisons that have been made are answered by a relation. -/
def AnsweredBy (lt : Value → Value → Prop) (made : List Comparison) : Prop :=
  ∀ c ∈ made, c.answer = true ↔ lt c.lhs c.rhs

section Comparisons

variable {before : Value → Value → Action Bool} {values : List Value} {s s₁ s₂ : Store}
  {made made' : List Comparison} {e : Failure} {lt : Value → Value → Prop}

theorem Compared.append (h : Compared before values s made s₁)
    (h' : Compared before values s₁ made' s₂) : Compared before values s (made ++ made') s₂ := by
  induction h with
  | done => exact h'
  | next hlhs hrhs hanswer _ ih => exact .next hlhs hrhs hanswer (ih h')

theorem Compared.failsAfter (h : Compared before values s made s₁)
    (h' : FailsAfter before values s₁ made' e s₂) :
    FailsAfter before values s (made ++ made') e s₂ := by
  obtain ⟨s₃, hmade, hfails⟩ := h'
  exact ⟨s₃, h.append hmade, hfails⟩

theorem AnsweredBy.left (h : AnsweredBy lt (made ++ made')) : AnsweredBy lt made :=
  fun c hc => h c (List.mem_append_left _ hc)

theorem AnsweredBy.right (h : AnsweredBy lt (made ++ made')) : AnsweredBy lt made' :=
  fun c hc => h c (List.mem_append_right _ hc)

/-- Comparisons that all have the answers of a relation are answered by it. -/
theorem Compared.answeredBy (h : Compared before values s made s₁)
    (hlt : ∀ v ∈ values, ∀ w ∈ values, ∀ s b s', before v w s = .ok b s' → (b = true ↔ lt v w)) :
    AnsweredBy lt made := by
  induction h with
  | done => exact List.forall_mem_nil _
  | next hlhs hrhs hanswer _ ih =>
    intro c hc
    rcases List.mem_cons.1 hc with rfl | hc
    · exact hlt _ hlhs _ hrhs _ _ _ hanswer
    · exact ih c hc

end Comparisons

/-! ### Orders -/

/-- A relation is a strict weak order of some values: it is irreflexive and transitive, and
so is that neither of two values comes first. -/
structure WeaklyOrders (lt : Value → Value → Prop) (values : List Value) : Prop where
  irrefl : ∀ v ∈ values, ¬ lt v v
  trans : ∀ u ∈ values, ∀ v ∈ values, ∀ w ∈ values, lt u v → lt v w → lt u w
  unordered_trans : ∀ u ∈ values, ∀ v ∈ values, ∀ w ∈ values, ¬ lt u v → ¬ lt v u →
    ¬ lt v w → ¬ lt w v → ¬ lt u w

/-- A value stands before another one with right: the other one does not come first, and if
neither does, the other one stood behind. -/
def InOrder (lt : Value → Value → Prop) (a b : Value × Nat) : Prop :=
  ¬ lt b.1 a.1 ∧ (lt a.1 b.1 ∨ a.2 < b.2)

/-- A list has the values of another one, sorted, and those that are not ordered in the
order of before. -/
def StablySorted (lt : Value → Value → Prop) (values sorted : List Value) : Prop :=
  ∃ placed : List (Value × Nat), placed.Perm values.zipIdx ∧ placed.map Prod.fst = sorted ∧
    placed.Pairwise (InOrder lt)

section Orders

variable {lt : Value → Value → Prop} {values : List Value} {u v w : Value}

theorem WeaklyOrders.asymm (h : WeaklyOrders lt values) (hu : u ∈ values) (hv : v ∈ values)
    (huv : lt u v) : ¬ lt v u :=
  fun hvu => h.irrefl u hu (h.trans u hu v hv u hu huv hvu)

/-- A value that is not before a second one, itself not before a third one, is not before
the third one. -/
theorem WeaklyOrders.not_trans (h : WeaklyOrders lt values) (hu : u ∈ values) (hv : v ∈ values)
    (hw : w ∈ values) (huv : ¬ lt u v) (hvw : ¬ lt v w) : ¬ lt u w := by
  intro huw
  by_cases hvu : lt v u
  · exact hvw (h.trans v hv u hu w hw hvu huw)
  · by_cases hwv : lt w v
    · exact huv (h.trans u hu w hw v hv huw hwv)
    · exact h.unordered_trans u hu v hv w hw huv hvu hvw hwv huw

/-- Values that are ordered as their ranks in a linear order are weakly ordered. -/
theorem weaklyOrders_of_rank {α : Type} [LinearOrder α] (rank : Value → α)
    (hrank : ∀ v ∈ values, ∀ w ∈ values, lt v w ↔ rank v < rank w) : WeaklyOrders lt values where
  irrefl v hv := by
    rw [hrank v hv v hv]
    exact lt_irrefl _
  trans u hu v hv w hw := by
    rw [hrank u hu v hv, hrank v hv w hw, hrank u hu w hw]
    exact lt_trans
  unordered_trans u hu v hv w hw := by
    rw [hrank u hu v hv, hrank v hv u hu, hrank v hv w hw, hrank w hw v hv, hrank u hu w hw]
    simp only [not_lt]
    exact fun hvu _ hwv _ => hwv.trans hvu

end Orders

/-! ### Insertion -/

section Insertion

variable {before : Value → Value → Action Bool} {values sorted vs : List Value} {v : Value}
  {placed : List (Value × Nat)}

variable (before) in
/-- **What inserting a value comes to**: some comparison of it fails, or it comes to stand
behind those that it does not come before. -/
theorem sink_cases (hv : v ∈ values) (hsorted : ∀ w ∈ sorted, w ∈ values) (s : Store) :
    (∃ made e s₂, sink before v sorted s = .error e s₂ ∧ FailsAfter before values s made e s₂ ∧
      made.length ≤ sorted.length) ∨
    ∃ made s₂ passed rest, sink before v sorted s = .ok (passed ++ v :: rest) s₂ ∧
      Compared before values s made s₂ ∧ made.length ≤ sorted.length ∧ sorted = passed ++ rest ∧
      (∀ w ∈ passed, ⟨v, w, true⟩ ∈ made) ∧ ∀ w ∈ rest.head?, ⟨v, w, false⟩ ∈ made := by
  induction sorted generalizing s with
  | nil => exact .inr ⟨[], s, [], [], rfl, .done s, Nat.le_refl _, rfl, nofun, nofun⟩
  | cons last rest ih =>
    have hlast : last ∈ values := hsorted last (List.mem_cons_self ..)
    cases hcompare : before v last s with
    | error e s₂ =>
      refine .inl ⟨[], e, s₂, ?_, ⟨s, .done s, v, hv, last, hlast, hcompare⟩, Nat.zero_le _⟩
      simp only [sink, bind, EStateM.bind, hcompare]
    | ok answer s₁ =>
      have hmade : Compared before values s [⟨v, last, answer⟩] s₁ :=
        .next hv hlast hcompare (.done s₁)
      cases answer with
      | false =>
        refine .inr ⟨_, s₁, [], last :: rest, ?_, hmade, Nat.succ_le_succ (Nat.zero_le _), rfl,
          nofun, ?_⟩
        · simp only [sink, bind, EStateM.bind, hcompare]
          rfl
        · rintro w ⟨⟩
          exact List.mem_singleton_self _
      | true =>
        have hsink : sink before v (last :: rest) s =
            EStateM.bind (sink before v rest) (fun sunk => pure (last :: sunk)) s₁ := by
          simp only [sink, bind, EStateM.bind, hcompare]
          rfl
        rcases ih (fun w hw => hsorted w (List.mem_cons_of_mem _ hw)) s₁ with
          ⟨made, e, s₂, hrun, hfails, hlength⟩ |
          ⟨made, s₂, passed, kept, hrun, hcompared, hlength, rfl, hpassed, hkept⟩
        · refine .inl ⟨_, e, s₂, ?_, hmade.failsAfter hfails, Nat.succ_le_succ hlength⟩
          rw [hsink, EStateM.bind, hrun]
        · refine .inr ⟨_, s₂, last :: passed, kept, ?_, hmade.append hcompared,
            Nat.succ_le_succ hlength, rfl, ?_, ?_⟩
          · rw [hsink, EStateM.bind, hrun]
            rfl
          · intro w hw
            rcases List.mem_cons.1 hw with rfl | hw
            · exact List.mem_cons_self ..
            · exact List.mem_cons_of_mem _ (hpassed w hw)
          · exact fun w hw => List.mem_cons_of_mem _ (hkept w hw)

/-- Values that are in order are so with one more among them that stood behind them all: it
comes before those that it has passed, and not before the next one. -/
theorem inOrder_insert {lt : Value → Value → Prop} (hlt : WeaklyOrders lt values)
    {passed rest : List (Value × Nat)} {place : Nat} (hv : v ∈ values)
    (hvalues : ∀ p ∈ passed ++ rest, p.1 ∈ values) (hplace : ∀ p ∈ passed ++ rest, p.2 < place)
    (hpassed : ∀ p ∈ passed, lt v p.1) (hrest : ∀ p ∈ rest.head?, ¬ lt v p.1)
    (horder : (passed ++ rest).Pairwise fun b a => InOrder lt a b) :
    (passed ++ (v, place) :: rest).Pairwise fun b a => InOrder lt a b := by
  rw [List.pairwise_append] at horder ⊢
  obtain ⟨horder, horder', hacross⟩ := horder
  have hbehind (p : Value × Nat) (hp : p ∈ rest) : InOrder lt p (v, place) := by
    refine ⟨?_, .inr (hplace p (List.mem_append_right _ hp))⟩
    cases rest with
    | nil => cases hp
    | cons q rest =>
      have hq : ¬ lt v q.1 := hrest q rfl
      rcases List.mem_cons.1 hp with rfl | hp'
      · exact hq
      · -- The next one is not before those further back, so this one is not either.
        have hqp : ¬ lt q.1 p.1 := (List.rel_of_pairwise_cons horder' hp').1
        exact hlt.not_trans hv (hvalues q (List.mem_append_right _ (List.mem_cons_self ..)))
          (hvalues p (List.mem_append_right _ hp)) hq hqp
  have hahead (p : Value × Nat) (hp : p ∈ passed) : InOrder lt (v, place) p :=
    ⟨hlt.asymm hv (hvalues p (List.mem_append_left _ hp)) (hpassed p hp), .inl (hpassed p hp)⟩
  refine ⟨horder, List.pairwise_cons.2 ⟨hbehind, horder'⟩, ?_⟩
  intro p hp q hq
  rcases List.mem_cons.1 hq with rfl | hq
  · exact hahead p hp
  · exact hacross p hp q hq

variable (before) in
/-- **What inserting many values comes to.**  The values that are sorted already are given
with their places, and so are those of the result. -/
theorem sortOnto_cases (hplaced : ∀ p ∈ placed, p.1 ∈ values ∧ p.2 < placed.length)
    (hvs : ∀ v ∈ vs, v ∈ values) (s : Store) :
    (∃ made e s₂, sortOnto before (placed.map Prod.fst) vs s = .error e s₂ ∧
      FailsAfter before values s made e s₂) ∨
    ∃ made s₂, ∃ placed' : List (Value × Nat),
      sortOnto before (placed.map Prod.fst) vs s = .ok (placed'.map Prod.fst) s₂ ∧
      Compared before values s made s₂ ∧
      2 * made.length + vs.length + placed.length * placed.length ≤
        (placed.length + vs.length) * (placed.length + vs.length) ∧
      placed'.Perm (placed ++ vs.zipIdx placed.length) ∧
      ∀ lt, WeaklyOrders lt values → AnsweredBy lt made →
        (placed.Pairwise fun b a => InOrder lt a b) →
          placed'.Pairwise fun b a => InOrder lt a b := by
  induction vs generalizing placed s with
  | nil =>
    refine .inr ⟨[], s, placed, rfl, .done s, ?_, ?_, fun _ _ _ h => h⟩
    · simp
    · simp
  | cons v rest ih =>
    have hv : v ∈ values := hvs v (List.mem_cons_self ..)
    have hrest (w : Value) (hw : w ∈ rest) : w ∈ values := hvs w (List.mem_cons_of_mem _ hw)
    have hsorted (w : Value) (hw : w ∈ placed.map Prod.fst) : w ∈ values := by
      obtain ⟨p, hp, rfl⟩ := List.mem_map.1 hw
      exact (hplaced p hp).1
    rcases sink_cases before hv hsorted s with ⟨made, e, s₂, hrun, hfails, -⟩ |
      ⟨made, s₁, passed, kept, hrun, hcompared, hlength, hsplit, hpassed, hkept⟩
    · refine .inl ⟨made, e, s₂, ?_, hfails⟩
      simp only [sortOnto, bind, EStateM.bind, hrun]
    · obtain ⟨front, back, rfl, rfl, rfl⟩ := List.map_eq_append_iff.1 hsplit
      -- The value that has been inserted stood behind all that had been sorted.
      let inserted := front ++ (v, (front ++ back).length) :: back
      have hinserted : inserted.Perm ((v, (front ++ back).length) :: (front ++ back)) :=
        List.perm_middle
      have hsize : inserted.length = (front ++ back).length + 1 := hinserted.length_eq
      have hrest' : sortOnto before ((front ++ back).map Prod.fst) (v :: rest) s =
          sortOnto before (inserted.map Prod.fst) rest s₁ := by
        simp only [sortOnto, bind, EStateM.bind]
        rw [hrun]
        simp only [inserted, List.map_append, List.map_cons]
      have hplaced' (p : Value × Nat) (hp : p ∈ inserted) :
          p.1 ∈ values ∧ p.2 < inserted.length := by
        rw [hsize]
        rcases List.mem_cons.1 (hinserted.mem_iff.1 hp) with rfl | hp
        · exact ⟨hv, Nat.lt_succ_self _⟩
        · exact ⟨(hplaced p hp).1, Nat.lt_succ_of_lt (hplaced p hp).2⟩
      have hperm : (inserted ++ rest.zipIdx inserted.length).Perm
          ((front ++ back) ++ (v :: rest).zipIdx (front ++ back).length) := by
        rw [hsize, List.zipIdx_cons]
        exact (hinserted.append_right _).trans List.perm_middle.symm
      rw [hrest']
      rcases ih hplaced' hrest s₁ with ⟨made', e, s₂, hrun', hfails⟩ |
        ⟨made', s₂, placed', hrun', hcompared', hbound, hperm', horder⟩
      · exact .inl ⟨made ++ made', e, s₂, hrun', hcompared.failsAfter hfails⟩
      · refine .inr ⟨made ++ made', s₂, placed', hrun', hcompared.append hcompared', ?_,
          hperm'.trans hperm, fun lt hlt hanswers hbefore => horder lt hlt hanswers.right ?_⟩
        · rw [List.length_map] at hlength
          have hsquare : inserted.length * inserted.length =
              (front ++ back).length * (front ++ back).length + 2 * (front ++ back).length + 1 := by
            rw [hsize]
            ring
          have htotal : inserted.length + rest.length =
              (front ++ back).length + (v :: rest).length := by
            rw [hsize, List.length_cons]
            omega
          have hcount : (made ++ made').length = made.length + made'.length := List.length_append
          rw [hsquare, htotal] at hbound
          rw [hcount, List.length_cons]
          rw [List.length_cons] at hbound
          omega
        · refine inOrder_insert hlt hv (fun p hp => (hplaced p hp).1)
            (fun p hp => (hplaced p hp).2) ?_ ?_ hbefore
          · intro p hp
            exact (hanswers.left _ (hpassed p.1 (List.mem_map_of_mem hp))).1 rfl
          · intro p hp hlt'
            refine Bool.false_ne_true ((hanswers.left _ (hkept p.1 ?_)).2 hlt')
            rw [List.head?_map]
            exact Option.mem_map_of_mem _ hp

/-- **What sorting values comes to**: some comparison fails, or they are put in an order
that is stable if the answers are those of a strict weak order. -/
theorem sortWith_cases (before : Value → Value → Action Bool) (values : List Value) (s : Store) :
    (∃ made e s₂, sortWith before values s = .error e s₂ ∧
      FailsAfter before values s made e s₂) ∨
    ∃ made s₂ sorted, sortWith before values s = .ok sorted s₂ ∧
      Compared before values s made s₂ ∧
      made.length ≤ values.length * (values.length - 1) / 2 ∧ sorted.Perm values ∧
      ∀ lt, WeaklyOrders lt values → AnsweredBy lt made → StablySorted lt values sorted := by
  have hnone : ∀ p ∈ ([] : List (Value × Nat)), p.1 ∈ values ∧
      p.2 < ([] : List (Value × Nat)).length :=
    nofun
  rcases sortOnto_cases before hnone (fun v hv => hv) s with
    ⟨made, e, s₂, hrun, hfails⟩ | ⟨made, s₂, placed, hrun, hcompared, hbound, hperm, horder⟩
  · refine .inl ⟨made, e, s₂, ?_, hfails⟩
    rw [List.map_nil] at hrun
    simp only [sortWith, bind, EStateM.bind, hrun]
  · rw [List.map_nil] at hrun
    have hperm' : placed.reverse.Perm values.zipIdx := (List.reverse_perm _).trans hperm
    refine .inr ⟨made, s₂, placed.reverse.map Prod.fst, ?_, hcompared, ?_, ?_,
      fun lt hlt hanswers => ⟨placed.reverse, hperm', rfl, ?_⟩⟩
    · rw [List.map_reverse]
      simp only [sortWith, bind, EStateM.bind, hrun]
      rfl
    · simp only [List.length_nil, Nat.zero_mul, Nat.add_zero, Nat.zero_add] at hbound
      rw [Nat.le_div_iff_mul_le Nat.two_pos, Nat.mul_sub_one]
      omega
    · rw [← List.zipIdx_map_fst 0 values]
      exact hperm'.map Prod.fst
    · rw [List.pairwise_reverse]
      exact horder lt hlt hanswers List.Pairwise.nil

end Insertion

/-! ### The order of values -/

section Values

variable {values : List Value}

/-- Some values are numbers other than NaN. -/
def AllNumbers (values : List Value) : Prop := ∀ v ∈ values, ∃ x, v = .number x ∧ x.isNaN = false

/-- Some values are strings. -/
def AllStrings (values : List Value) : Prop := ∀ v ∈ values, ∃ text, v = .string text

/-- The rank of a value that is a number.  That of other values has no meaning. -/
def numericRank : Value → Int ×ₗ Int ×ₗ Int
  | .number x => Number.rank x.toModel.unpack
  | _ => toLex (0, toLex (0, 0))

/-- The text of a value that is a string.  That of other values has no meaning. -/
def ownText : Value → String
  | .string text => text
  | _ => ""

theorem lessThan_numbers (h : AllNumbers values) :
    WeaklyOrders (fun v w => v.lessThan w = .ok true) values ∧
      ∀ v ∈ values, ∀ w ∈ values, ∃ b, v.lessThan w = .ok b := by
  constructor
  · refine weaklyOrders_of_rank numericRank fun v hv w hw => ?_
    obtain ⟨x, rfl, hx⟩ := h v hv
    obtain ⟨y, rfl, hy⟩ := h w hw
    have hless : Value.lessThan (.number x) (.number y) = .ok (decide (x < y)) := rfl
    rw [hless, Except.ok.injEq, decide_eq_true_iff]
    exact Number.lt_iff_rank hx hy
  · intro v hv w hw
    obtain ⟨x, rfl, -⟩ := h v hv
    obtain ⟨y, rfl, -⟩ := h w hw
    exact ⟨decide (x < y), rfl⟩

theorem lessThan_strings (h : AllStrings values) :
    WeaklyOrders (fun v w => v.lessThan w = .ok true) values ∧
      ∀ v ∈ values, ∀ w ∈ values, ∃ b, v.lessThan w = .ok b := by
  constructor
  · refine weaklyOrders_of_rank ownText fun v hv w hw => ?_
    obtain ⟨a, rfl⟩ := h v hv
    obtain ⟨b, rfl⟩ := h w hw
    have hless : Value.lessThan (.string a) (.string b) = .ok (decide (a < b)) := rfl
    rw [hless, Except.ok.injEq, decide_eq_true_iff]
    exact Iff.rfl
  · intro v hv w hw
    obtain ⟨a, rfl⟩ := h v hv
    obtain ⟨b, rfl⟩ := h w hw
    exact ⟨decide (a < b), rfl⟩

end Values

/-! ### Sorting a table -/

section SortTable

variable {reenter : Reentry} {args : Arguments} {s : Store} {ref : TableRef}
  {before : Value → Value → Action Bool}

/-- Comparing the values of a table with one another does not change it. -/
structure LeavesTable (before : Value → Value → Action Bool) (ref : TableRef) (s : Store) :
    Prop where
  compared : ∀ {made s₁}, Compared before (s.table ref).sequence s made s₁ →
    (s₁.table ref).toList = (s.table ref).toList
  failed : ∀ {made e s₂}, FailsAfter before (s.table ref).sequence s made e s₂ →
    (s₂.table ref).toList = (s.table ref).toList

/-- A run of sorting a table stops at a comparison that fails, as that one does, and the
table is as it was. -/
def StopsUnchanged (before : Value → Value → Action Bool) (ref : TableRef) (s : Store)
    (r : EStateM.Result Failure Store (List Value)) : Prop :=
  ∃ made e s', FailsAfter before (s.table ref).sequence s made e s' ∧ r = .error e s' ∧
    (s'.table ref).toList = (s.table ref).toList

/-- A run of sorting a table ends behind comparisons that all have succeeded and are no
more than there are pairs of values.  Nothing changes after them but the order of the
values up to the border, which is that of the answers if those are a strict weak order. -/
def SortsStably (before : Value → Value → Action Bool) (ref : TableRef) (s : Store)
    (r : EStateM.Result Failure Store (List Value)) : Prop :=
  ∃ made s₁ s', Compared before (s.table ref).sequence s made s₁ ∧
    made.length ≤ (s.table ref).border * ((s.table ref).border - 1) / 2 ∧
    r = .ok [] s' ∧ (∃ change, s' = s₁.modifyTable ref change) ∧
    (s.table ref).Reordered (s'.table ref) ∧
    ∀ lt, WeaklyOrders lt (s.table ref).sequence → AnsweredBy lt made →
      StablySorted lt (s.table ref).sequence (s'.table ref).sequence

theorem sort_eq (hargs : args.table 0 "sort" = .ok ref) :
    sort reenter args s =
      match sortWith (sortsBefore reenter (args.value 1)) (s.table ref).sequence s with
      | .ok sorted s₁ => .ok [] (s₁.modifyTable ref fun t => t.setSequence 1 sorted)
      | .error e s₁ => .error e s₁ := by
  unfold sort
  rw [hargs]
  simp only [lift, contents, changeTable, bind, EStateM.bind, pure, EStateM.pure]
  cases sortWith (sortsBefore reenter (args.value 1)) (s.table ref).sequence s with
  | ok sorted s₁ => rfl
  | error e s₁ => rfl

/-! ### Comparing without a comparison function -/

theorem sortsBefore_nil (reenter : Reentry) (v w : Value) :
    sortsBefore reenter .nil v w = lift (v.lessThan w) := rfl

/-- Values that are all comparable have been compared without a change to the store, and
have been answered by their order. -/
theorem compared_nil {values : List Value} {made : List Comparison} {s₁ : Store}
    (h : Compared (sortsBefore reenter .nil) values s made s₁) :
    s₁ = s ∧ AnsweredBy (fun v w => v.lessThan w = .ok true) made := by
  have hanswer {v w : Value} {s s' : Store} {b : Bool}
      (h : sortsBefore reenter .nil v w s = .ok b s') : s' = s ∧ v.lessThan w = .ok b := by
    rw [sortsBefore_nil] at h
    cases hless : v.lessThan w with
    | ok b' =>
      rw [hless] at h
      cases h
      exact ⟨rfl, rfl⟩
    | error c =>
      rw [hless] at h
      cases h
  constructor
  · induction h with
    | done => rfl
    | next _ _ h _ ih => exact ih.trans (hanswer h).1
  · refine h.answeredBy fun v _ w _ s b s' h => ?_
    rw [(hanswer h).2, Except.ok.injEq]

theorem failsAfter_nil {values : List Value} {made : List Comparison} {e : Failure} {s₂ : Store}
    (h : FailsAfter (sortsBefore reenter .nil) values s made e s₂) : s₂ = s := by
  obtain ⟨s₁, hcompared, v, -, w, -, hfails⟩ := h
  obtain ⟨rfl, -⟩ := compared_nil hcompared
  rw [sortsBefore_nil] at hfails
  cases hless : v.lessThan w with
  | ok b =>
    rw [hless] at hfails
    cases hfails
  | error c =>
    rw [hless] at hfails
    cases hfails
    rfl

/-- Values that are compared without a comparison function leave every table as it is. -/
theorem leavesTable_nil (reenter : Reentry) (ref : TableRef) (s : Store) :
    LeavesTable (sortsBefore reenter .nil) ref s where
  compared h := by rw [(compared_nil h).1]
  failed h := by rw [failsAfter_nil h]

/-! ### Runs of sorting -/

/-- **Sorting a table stops without having changed it, or sorts it stably.** -/
theorem sort_cases (hargs : args.table 0 "sort" = .ok ref) (hfull : (s.table ref).Full)
    (hfits : (s.table ref).border < Number.mantissaBound)
    (hleaves : args.value 1 ≠ .nil → LeavesTable (sortsBefore reenter (args.value 1)) ref s) :
    StopsUnchanged (sortsBefore reenter (args.value 1)) ref s (sort reenter args s) ∨
      SortsStably (sortsBefore reenter (args.value 1)) ref s (sort reenter args s) := by
  have hleaves : LeavesTable (sortsBefore reenter (args.value 1)) ref s := by
    by_cases hnil : args.value 1 = .nil
    · rw [hnil]
      exact leavesTable_nil reenter ref s
    · exact hleaves hnil
  rw [sort_eq hargs]
  rcases sortWith_cases (sortsBefore reenter (args.value 1)) (s.table ref).sequence s with
    ⟨made, e, s₂, hrun, hfails⟩ | ⟨made, s₁, sorted, hrun, hcompared, hbound, hperm, hsorted⟩
  · rw [hrun]
    exact .inl ⟨made, e, s₂, hfails, rfl, hleaves.failed hfails⟩
  · rw [hrun]
    have hkept := hleaves.compared hcompared
    have hlength : sorted.length = (s.table ref).border := by
      rw [hperm.length_eq, Table.length_sequence]
    have hborder : (s₁.table ref).border = (s.table ref).border :=
      Table.border_eq_of_keys_eq (congrArg (List.map Prod.fst) hkept)
    have htable : (s₁.modifyTable ref fun t => t.setSequence 1 sorted).table ref =
        (s₁.table ref).setSequence 1 sorted :=
      Store.table_modifyTable_setSequence (hlength.trans hborder.symm)
    have hreordered : (s.table ref).Reordered ((s₁.table ref).setSequence 1 sorted) :=
      Table.reordered_setSequence hkept hfull hfits hperm
    rw [Table.length_sequence] at hbound
    refine .inr ⟨made, s₁, _, hcompared, hbound, rfl, ⟨_, rfl⟩, ?_, fun lt hlt hanswers => ?_⟩
    · rw [htable]
      exact hreordered
    · rw [htable, Table.sequence_setSequence_of_perm hkept hfull hfits hperm]
      exact hsorted lt hlt hanswers

/-- Numbers other than NaN, and strings, are sorted stably by their order. -/
theorem sort_nil (hargs : args.table 0 "sort" = .ok ref) (hfull : (s.table ref).Full)
    (hfits : (s.table ref).border < Number.mantissaBound)
    (hnil : args.value 1 = .nil)
    (hvalues : AllNumbers (s.table ref).sequence ∨ AllStrings (s.table ref).sequence) :
    ∃ s', sort reenter args s = .ok [] s' ∧ (∃ change, s' = s.modifyTable ref change) ∧
      (s.table ref).Reordered (s'.table ref) ∧
      StablySorted (fun v w => v.lessThan w = .ok true) (s.table ref).sequence
        (s'.table ref).sequence := by
  obtain ⟨hlt, hcomparable⟩ := hvalues.elim lessThan_numbers lessThan_strings
  have hleaves : args.value 1 ≠ .nil → LeavesTable (sortsBefore reenter (args.value 1)) ref s :=
    fun h => absurd hnil h
  rcases sort_cases hargs hfull hfits hleaves with
    ⟨made, e, s', ⟨s₁, -, v, hv, w, hw, hfails⟩, -⟩ |
    ⟨made, s₁, s', hcompared, -, hrun, ⟨change, hs'⟩, hreordered, hsorted⟩
  · obtain ⟨b, hb⟩ := hcomparable v hv w hw
    rw [hnil, sortsBefore_nil, hb] at hfails
    cases hfails
  · rw [hnil] at hcompared
    obtain ⟨rfl, hanswers⟩ := compared_nil hcompared
    exact ⟨s', hrun, ⟨change, hs'⟩, hreordered, hsorted _ hlt hanswers⟩

/-- **Sorting is stable and atomic.**  It stops at the first comparison that fails and
leaves the table as it was; or it ends after a bounded number of comparisons, the values
up to the border are those of before in another order, all other entries and the order of
the keys are as they were, and the values are sorted and their sorting is stable if the
comparisons answer as a strict weak order does.  Without a comparison function numbers and
strings are always sorted so. -/
theorem sort_stable_or_unchanged (hargs : args.table 0 "sort" = .ok ref)
    (hfull : (s.table ref).Full) (hfits : (s.table ref).border < Number.mantissaBound)
    (hleaves : args.value 1 ≠ .nil → LeavesTable (sortsBefore reenter (args.value 1)) ref s) :
    (StopsUnchanged (sortsBefore reenter (args.value 1)) ref s (sort reenter args s) ∨
      SortsStably (sortsBefore reenter (args.value 1)) ref s (sort reenter args s)) ∧
    (args.value 1 = .nil →
      AllNumbers (s.table ref).sequence ∨ AllStrings (s.table ref).sequence →
      ∃ s', sort reenter args s = .ok [] s' ∧ (∃ change, s' = s.modifyTable ref change) ∧
        (s.table ref).Reordered (s'.table ref) ∧
        StablySorted (fun v w => v.lessThan w = .ok true) (s.table ref).sequence
          (s'.table ref).sequence) :=
  ⟨sort_cases hargs hfull hfits hleaves, sort_nil hargs hfull hfits⟩

end SortTable

/-- A store with a table of some strings. -/
def someTexts : Store :=
  { Store.empty with tables := #[.ofValues [.string "pear", .string "fig", .string "apple"]] }

/-- A call back into an engine that has just been made. -/
def callBack : Reentry := (Engine.new .standard).setting.callFrom 1 .nowhere 0

/-- The function `type`, whose answers all count as yes. -/
def typeFunction : Value := .native ⟨1, "type", .base .type⟩

theorem sortsBefore_typeFunction (v w : Value) (s : Store) :
    sortsBefore callBack typeFunction v w s = .ok true s := by
  cases v <;> rfl

/-- A comparison function that always answers yes is not an order, and sorting by it ends
all the same. -/
theorem sort_by_always_yes :
    ∃ s', sort callBack [.table ⟨0⟩, typeFunction] someTexts = .ok [] s' ∧
      (someTexts.table ⟨0⟩).Reordered (s'.table ⟨0⟩) := by
  have hstill {values : List Value} {s s₁ : Store} {made : List Comparison}
      (h : Compared (sortsBefore callBack typeFunction) values s made s₁) : s₁ = s := by
    induction h with
    | done => rfl
    | next _ _ h _ ih =>
      rw [sortsBefore_typeFunction] at h
      exact ih.trans (EStateM.Result.ok.inj h).2.symm
  have hnever {values : List Value} {s s₂ : Store} {made : List Comparison} {e : Failure}
      (h : FailsAfter (sortsBefore callBack typeFunction) values s made e s₂) : False := by
    obtain ⟨_, _, _, _, _, _, hfails⟩ := h
    rw [sortsBefore_typeFunction] at hfails
    cases hfails
  have hborder : (someTexts.table ⟨0⟩).border < Number.mantissaBound :=
    Nat.lt_of_le_of_lt (Table.border_ofValues_le _) (by decide)
  have hargs : Arguments.table [.table ⟨0⟩, typeFunction] 0 "sort" = .ok ⟨0⟩ := rfl
  have hleaves : LeavesTable (sortsBefore callBack typeFunction) ⟨0⟩ someTexts :=
    ⟨fun h => congrArg (fun s => (s.table ⟨0⟩).toList) (hstill h), fun h => (hnever h).elim⟩
  have hfull : (someTexts.table ⟨0⟩).Full := Table.full_ofEntries _
  rcases (sort_stable_or_unchanged hargs hfull hborder fun _ => hleaves).1 with
    ⟨_, _, _, hfails, -⟩ | ⟨_, _, s', -, -, hrun, -, hreordered, -⟩
  · exact (hnever hfails).elim
  · exact ⟨s', hrun, hreordered⟩

end ScriptEngine.Library
