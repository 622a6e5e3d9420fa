import Mathlib.Data.Prod.Lex
import ScriptEngine.Proofs.Number.Equality

/-!
# The order of numbers

Numbers other than NaN are ordered as their ranks are: by their class (negative
infinity, negative numbers, zeros, positive numbers, infinity), then by their exponent
and then by their mantissa, both turned round for negative numbers.  Ranks are linearly
ordered, and only the two zeros share one.

## Main definitions

* `Number.rank` — the rank of an unpacked number.

## Main results

* `Number.lt_iff_rank` — a number is less than another if its rank is.
-/

namespace ScriptEngine.Number

open Float.Model

/-- The rank of an unpacked number: its class, its exponent and its mantissa.  The rank of
NaN has no meaning. -/
def rank : UnpackedFloat → Int ×ₗ Int ×ₗ Int
  | .infinity .negative => toLex (-2, toLex (0, 0))
  | .finite .negative m e _ => toLex (-1, toLex (-e, -(m : Int)))
  | .zero _ => toLex (0, toLex (0, 0))
  | .finite .positive m e _ => toLex (1, toLex (e, (m : Int)))
  | .infinity .positive => toLex (2, toLex (0, 0))
  | .notANumber => toLex (3, toLex (0, 0))

theorem rank_lt_rank_of_finite {s t : UnpackedFloat.Sign} {m n : Nat} {e f : Int}
    {hm : 0 < m} {hn : 0 < n} :
    (UnpackedFloat.finite s m e hm).lt (.finite t n f hn) = true ↔
      rank (.finite s m e hm) < rank (.finite t n f hn) := by
  cases s <;> cases t <;> dsimp only [UnpackedFloat.lt, UnpackedFloat.compare, rank]
  · simp [Prod.Lex.toLex_lt_toLex, Ordering.swap_eq_lt, Ordering.then_eq_gt,
      compare_gt_iff_gt]
  · simp [Prod.Lex.toLex_lt_toLex]
  · simp [Prod.Lex.toLex_lt_toLex]
  · simp [Prod.Lex.toLex_lt_toLex, Ordering.then_eq_lt, compare_lt_iff_lt]

theorem unpacked_lt_iff_rank {u v : UnpackedFloat} (hu : u.isNaN = false)
    (hv : v.isNaN = false) : u.lt v = true ↔ rank u < rank v := by
  cases u with
  | notANumber => cases hu
  | infinity s =>
    cases v with
    | notANumber => cases hv
    | infinity t => cases s <;> cases t <;> decide
    | zero t => cases s <;> cases t <;> decide
    | finite t =>
      cases s <;> cases t <;> dsimp only [UnpackedFloat.lt, UnpackedFloat.compare, rank] <;>
        simp [Prod.Lex.toLex_lt_toLex]
  | zero s =>
    cases v with
    | notANumber => cases hv
    | infinity t => cases s <;> cases t <;> decide
    | zero t => cases s <;> cases t <;> decide
    | finite t =>
      cases t <;> dsimp only [UnpackedFloat.lt, UnpackedFloat.compare, rank] <;>
        simp [Prod.Lex.toLex_lt_toLex]
  | finite s =>
    cases v with
    | notANumber => cases hv
    | finite t => exact rank_lt_rank_of_finite
    | infinity t =>
      cases s <;> cases t <;> dsimp only [UnpackedFloat.lt, UnpackedFloat.compare, rank] <;>
        simp [Prod.Lex.toLex_lt_toLex]
    | zero t =>
      cases s <;> dsimp only [UnpackedFloat.lt, UnpackedFloat.compare, rank] <;>
        simp [Prod.Lex.toLex_lt_toLex]

/-- **A number is less than another** if its rank is, neither being NaN. -/
theorem lt_iff_rank {x y : Float} (hx : x.isNaN = false) (hy : y.isNaN = false) :
    x < y ↔ rank x.toModel.unpack < rank y.toModel.unpack := by
  rw [← unpacked_lt_iff_rank hx hy]
  exact ⟨of_decide_eq_true, decide_eq_true⟩

end ScriptEngine.Number
