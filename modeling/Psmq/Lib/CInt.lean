import Mathlib.Algebra.Order.Ring.Int
import Mathlib.Data.Int.ModEq
import Mathlib.Tactic.Positivity

/-!
# C integers

The integer types of C, signed or not, of any width, and the arithmetic on
them. The operands of an operation are converted to a common type (`usual`),
and its result is stored in a variable. Conversions are modulo the size of the
type they are made to, as is unsigned arithmetic; a result out of the range of
a signed type is undefined (`none`).

The arithmetic may also be *checked*: a result is then `none` as soon as it is
out of the range of the type it is computed in, signed or not, or of the one it
is stored in.

* `assign_eq`: a compound assignment is exact as soon as its variable has room
  for the result, as all that is lost on the way is a multiple of the size of a
  type that is not narrower;
* `assign_exact`: so it is when checked, if no value is negative.
-/

namespace CInt

/-- An integer type. -/
structure IntType where
  signed : Bool
  width : ℕ
  width_pos : 0 < width
  deriving DecidableEq

namespace IntType

variable {T U : IntType} {x y : ℤ} {checked : Bool} {f : ℤ → ℤ → ℤ}

/-- The bits of the values, the sign excepted. -/
def bits (T : IntType) : ℕ := if T.signed then T.width - 1 else T.width

def min (T : IntType) : ℤ := if T.signed then -2 ^ T.bits else 0

def max (T : IntType) : ℤ := 2 ^ T.bits - 1

/-- The value is one of the type. -/
def Has (T : IntType) (x : ℤ) : Prop := T.min ≤ x ∧ x ≤ T.max

instance (T : IntType) (x : ℤ) : Decidable (T.Has x) := inferInstanceAs (Decidable (_ ∧ _))

/-- The conversion of a value to the type. -/
def conv (T : IntType) (x : ℤ) : ℤ :=
  if T.signed then x.bmod (2 ^ T.width) else x % 2 ^ T.width

/-- The common type of two operands: the wider one, or the unsigned one if both
    are as wide. -/
def usual (T U : IntType) : IntType :=
  if T.width < U.width then U
  else if U.width < T.width then T
  else ⟨T.signed && U.signed, T.width, T.width_pos⟩

/-- The result of an operation in the type. -/
def arith (checked : Bool) (T : IntType) (x : ℤ) : Option ℤ :=
  if T.Has x then some x else if T.signed ∨ checked then none else some (T.conv x)

/-- A value stored in a variable of the type. -/
def store (checked : Bool) (T : IntType) (x : ℤ) : Option ℤ :=
  if T.Has x then some x else if checked then none else some (T.conv x)

/-- The value of a variable of type `T` after a compound assignment, of an
    operand of type `U`. -/
def assign (checked : Bool) (f : ℤ → ℤ → ℤ) (T U : IntType) (x y : ℤ) : Option ℤ :=
  let C := T.usual U
  (C.arith checked (f (C.conv x) (C.conv y))).bind (T.store checked)

/-! ## Ranges -/

theorem has_iff : T.Has x ↔ (if T.signed then -2 ^ T.bits else 0) ≤ x ∧ x < 2 ^ T.bits := by
  rw [Has, min, max, Int.le_sub_one_iff]

/-- A small value is in all the types with enough bits. -/
theorem has_of_lt_pow {n : ℕ} (hn : n ≤ T.bits) (hx : 0 ≤ x) (hlt : x < 2 ^ n) : T.Has x := by
  have hpow : (2 : ℤ) ^ n ≤ 2 ^ T.bits := pow_le_pow_right₀ (by decide) hn
  have hpos : (0 : ℤ) ≤ 2 ^ T.bits := by positivity
  rw [has_iff]
  split <;> omega

/-- A type has the values of a type with less bits: those that are not negative,
    if it is unsigned. -/
theorem Has.mono (h : T.Has x) (hbits : T.bits ≤ U.bits) (hx : 0 ≤ x ∨ U.signed) : U.Has x := by
  have hpow : (2 : ℤ) ^ T.bits ≤ 2 ^ U.bits := pow_le_pow_right₀ (by decide) hbits
  rw [has_iff] at h ⊢
  refine ⟨?_, h.2.trans_le hpow⟩
  rcases hx with hx | hU
  · have hpos : (0 : ℤ) ≤ 2 ^ U.bits := by positivity
    split <;> omega
  · rw [if_pos hU]
    split at h <;> omega

theorem usual_comm : T.usual U = U.usual T := by
  rcases lt_trichotomy T.width U.width with h | h | h
  · simp [usual, h, h.not_gt]
  · simp [usual, h, Bool.and_comm]
  · simp [usual, h, h.not_gt]

theorem width_le_usual : T.width ≤ (T.usual U).width := by
  unfold usual
  split
  · omega
  · split <;> exact le_refl _

theorem bits_le_usual : T.bits ≤ (T.usual U).bits := by
  unfold usual
  split_ifs with hlt hgt
  · unfold bits
    split <;> split <;> omega
  · exact le_refl _
  · unfold bits
    cases T.signed <;> cases U.signed <;> simp

theorem has_usual_left (h : T.Has x) (hx : 0 ≤ x ∨ (T.usual U).signed) : (T.usual U).Has x :=
  h.mono bits_le_usual hx

theorem has_usual_right (h : U.Has x) (hx : 0 ≤ x ∨ (T.usual U).signed) : (T.usual U).Has x := by
  rw [usual_comm] at hx ⊢
  exact has_usual_left h hx

/-! ## Conversions -/

/-- A conversion only loses a multiple of the size of the type. -/
theorem conv_modEq (T : IntType) (x : ℤ) : T.conv x ≡ x [ZMOD 2 ^ T.width] := by
  unfold conv
  split
  · have h := Int.bmod_emod (x := x) (m := 2 ^ T.width)
    push_cast at h
    exact h
  · exact Int.mod_modEq x _

theorem conv_congr (h : x ≡ y [ZMOD 2 ^ T.width]) : T.conv x = T.conv y := by
  unfold conv
  split
  · have h' : x % ((2 ^ T.width : ℕ) : ℤ) = y % ((2 ^ T.width : ℕ) : ℤ) := by
      push_cast
      exact h
    rw [← Int.emod_bmod, h', Int.emod_bmod]
  · exact h

/-- A value of the type is kept. -/
theorem conv_eq (h : T.Has x) : T.conv x = x := by
  obtain ⟨hmin, hmax⟩ := has_iff.1 h
  unfold conv
  unfold bits at hmin hmax
  split at hmin
  · next hT =>
    have hpow : (2 : ℤ) ^ T.width = 2 * 2 ^ (T.width - 1) := by
      rw [← pow_succ', Nat.sub_add_cancel T.width_pos]
    rw [if_pos hT] at hmax ⊢
    refine Int.bmod_eq_of_le ?_ ?_ <;> push_cast <;> omega
  · next hT =>
    rw [if_neg hT] at hmax ⊢
    exact Int.emod_eq_of_lt hmin hmax

/-! ## Compound assignments -/

/-- The operation respects congruences, as those of a ring do. -/
def Modular (f : ℤ → ℤ → ℤ) : Prop :=
  ∀ n x x' y y', x ≡ x' [ZMOD n] → y ≡ y' [ZMOD n] → f x y ≡ f x' y' [ZMOD n]

theorem modular_add : Modular (· + ·) := fun _ _ _ _ _ hx hy => hx.add hy

theorem modular_sub : Modular (· - ·) := fun _ _ _ _ _ hx hy => hx.sub hy

theorem modular_mul : Modular (· * ·) := fun _ _ _ _ _ hx hy => hx.mul hy

theorem arith_of_has (h : T.Has x) : T.arith checked x = some x := if_pos h

theorem store_of_has (h : T.Has x) : T.store checked x = some x := if_pos h

theorem arith_of_unsigned (hT : T.signed = false) : T.arith false x = some (T.conv x) := by
  unfold arith
  split
  · next h => rw [conv_eq h]
  · rw [if_neg (by simp [hT])]

theorem store_false : T.store false x = some (T.conv x) := by
  unfold store
  split
  · next h => rw [conv_eq h]
  · rw [if_neg (by decide)]

/-- An assignment is exact if the common type has all the values. -/
theorem assign_of_has (hx : (T.usual U).Has x) (hy : (T.usual U).Has y)
    (hf : (T.usual U).Has (f x y)) (h : T.Has (f x y)) :
    assign checked f T U x y = some (f x y) := by
  rw [assign, conv_eq hx, conv_eq hy, arith_of_has hf]
  exact store_of_has h

/-- An assignment is exact if its variable has room for the result. -/
theorem assign_eq (hf : Modular f) (hx : T.Has x) (hy : U.Has y) (h : T.Has (f x y)) :
    assign false f T U x y = some (f x y) := by
  by_cases hC : (T.usual U).signed
  · exact assign_of_has (has_usual_left hx (.inr hC)) (has_usual_right hy (.inr hC))
      (has_usual_left h (.inr hC)) h
  · have hz : (T.usual U).conv (f ((T.usual U).conv x) ((T.usual U).conv y)) ≡ f x y
        [ZMOD 2 ^ (T.usual U).width] :=
      (conv_modEq _ _).trans (hf _ _ _ _ _ (conv_modEq _ x) (conv_modEq _ y))
    rw [assign, arith_of_unsigned (Bool.not_eq_true _ ▸ hC), Option.bind_some, store_false,
      conv_congr (hz.of_dvd (pow_dvd_pow 2 width_le_usual)), conv_eq h]

/-- The same assignment is exact when it is checked, if nothing is negative. -/
theorem assign_exact (hf : Modular f) (hx : T.Has x) (hy : U.Has y) (h : T.Has (f x y))
    (hpos : checked = true → 0 ≤ x ∧ 0 ≤ y ∧ 0 ≤ f x y) :
    assign checked f T U x y = some (f x y) := by
  cases checked with
  | false => exact assign_eq hf hx hy h
  | true =>
    obtain ⟨hx₀, hy₀, h₀⟩ := hpos rfl
    exact assign_of_has (has_usual_left hx (.inl hx₀)) (has_usual_right hy (.inl hy₀))
      (has_usual_left h (.inl h₀)) h

end IntType
end CInt
