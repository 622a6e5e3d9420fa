import ScriptEngine.Number.Binary64

/-!
# Equality of numbers

Two numbers are equal if they are the same and not NaN, or if both are zeros.  So
equality of numbers is symmetric and transitive, and NaN is the only number that is
not equal to itself.

## Main results

* `Number.beq_iff` — when two numbers are equal.
* `Number.beq_self`, `Number.beq_symm`, `Number.beq_trans` — the laws of equality.
-/

namespace ScriptEngine.Number

open Float.Model

/-- An unpacked number is a zero. -/
def IsZero (u : UnpackedFloat) : Prop := ∃ sign, u = .zero sign

theorem sign_compare_eq_iff {s t : UnpackedFloat.Sign} : compare s t = .eq ↔ s = t := by
  cases s <;> cases t <;> simp [compare]

theorem not_isZero_finite {s : UnpackedFloat.Sign} {m : Nat} {e : Int} {h : 0 < m} :
    ¬ IsZero (.finite s m e h) := by
  rintro ⟨_, ⟨⟩⟩

theorem not_isZero_infinity {s : UnpackedFloat.Sign} : ¬ IsZero (.infinity s) := by
  rintro ⟨_, ⟨⟩⟩

theorem unpacked_beq_iff {u v : UnpackedFloat} :
    u.beq v = true ↔ u.isNaN = false ∧ (u = v ∨ IsZero u ∧ IsZero v) := by
  cases u with
  | notANumber => exact iff_of_false Bool.false_ne_true fun h => Bool.noConfusion h.1
  | infinity s =>
    have hnan : (UnpackedFloat.infinity s).isNaN = false := rfl
    rw [and_iff_right hnan, or_iff_left fun h => not_isZero_infinity h.1]
    cases v with
    | infinity t =>
      change (some (compare s t) == some .eq) = true ↔ _
      simp [sign_compare_eq_iff]
    | _ => cases s <;> exact iff_of_false Bool.false_ne_true (by rintro ⟨⟩)
  | zero s =>
    -- Only a number that is finite or infinite has its sign looked at.
    have hnan : (UnpackedFloat.zero s).isNaN = false := rfl
    rw [and_iff_right hnan]
    cases v with
    | zero t => exact iff_of_true rfl (.inr ⟨⟨s, rfl⟩, ⟨t, rfl⟩⟩)
    | notANumber => exact iff_of_false Bool.false_ne_true (by rintro (⟨⟨⟩⟩ | ⟨-, _, ⟨⟩⟩))
    | infinity t | finite t =>
      cases t <;> exact iff_of_false Bool.false_ne_true (by rintro (⟨⟨⟩⟩ | ⟨-, _, ⟨⟩⟩))
  | finite s m e h =>
    have hnan : (UnpackedFloat.finite s m e h).isNaN = false := rfl
    rw [and_iff_right hnan, or_iff_left fun h => not_isZero_finite h.1]
    cases v with
    | finite t n f k =>
      rw [UnpackedFloat.finite.injEq]
      unfold UnpackedFloat.beq UnpackedFloat.compare
      cases s <;> cases t <;> dsimp only <;> simp [and_comm]
    | infinity t => cases s <;> cases t <;> exact iff_of_false Bool.false_ne_true (by rintro ⟨⟩)
    | _ => cases s <;> exact iff_of_false Bool.false_ne_true (by rintro ⟨⟩)

/-- **Two numbers are equal** if they are the same and not NaN, or both zeros. -/
theorem beq_iff {x y : Float} :
    (x == y) = true ↔ x.isNaN = false ∧ (x.toModel.unpack = y.toModel.unpack ∨
      IsZero x.toModel.unpack ∧ IsZero y.toModel.unpack) :=
  unpacked_beq_iff

theorem beq_self {x : Float} (h : x.isNaN = false) : (x == x) = true :=
  beq_iff.2 ⟨h, .inl rfl⟩

theorem isNaN_of_isZero {u : UnpackedFloat} (h : IsZero u) : u.isNaN = false := by
  obtain ⟨sign, rfl⟩ := h
  rfl

theorem beq_symm {x y : Float} (h : (x == y) = true) : (y == x) = true := by
  obtain ⟨hx, hxy | ⟨hzero, hzero'⟩⟩ := beq_iff.1 h
  · refine beq_iff.2 ⟨?_, .inl hxy.symm⟩
    change y.toModel.unpack.isNaN = false
    rw [← hxy]
    exact hx
  · exact beq_iff.2 ⟨isNaN_of_isZero hzero', .inr ⟨hzero', hzero⟩⟩

theorem beq_trans {x y z : Float} (hxy : (x == y) = true) (hyz : (y == z) = true) :
    (x == z) = true := by
  obtain ⟨hx, hxy⟩ := beq_iff.1 hxy
  obtain ⟨-, hyz⟩ := beq_iff.1 hyz
  refine beq_iff.2 ⟨hx, ?_⟩
  rcases hxy with hxy | ⟨hzero, hzero'⟩
  · rw [hxy]
    exact hyz
  · rcases hyz with hyz | ⟨-, hzero''⟩
    · exact .inr ⟨hzero, hyz ▸ hzero'⟩
    · exact .inr ⟨hzero, hzero''⟩

end ScriptEngine.Number
