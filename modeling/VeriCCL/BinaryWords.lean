import Mathlib.Algebra.BigOperators.Group.List.Basic
import Mathlib.Data.Nat.Bitwise
import Mathlib.Tactic

/-! # Numbers by their bits

The number that some bits spell, least significant first (`bitsValue`), and its comparison with a
constant bit by bit from the top, by a running "less" and a running "equal" (`compareBits`). -/
namespace VeriCCL.BinaryWords

/-- The number whose bits below `width` are given. -/
def bitsValue (bits : ℕ → Bool) : ℕ → ℕ
  | 0 => 0
  | width + 1 => bitsValue bits width + if bits width = true then 2 ^ width else 0

variable {bits : ℕ → Bool}

/-- As a sum over the places. -/
theorem bitsValue_eq_sum (bits : ℕ → Bool) (width : ℕ) :
    bitsValue bits width =
      ((List.range width).map fun bit => if bits bit = true then 2 ^ bit else 0).sum := by
  induction width with
  | zero => rfl
  | succ width ih => rw [bitsValue, ih, List.range_succ, List.map_append, List.sum_append]; simp

theorem bitsValue_lt (bits : ℕ → Bool) (width : ℕ) : bitsValue bits width < 2 ^ width := by
  induction width with
  | zero => simp [bitsValue]
  | succ width ih =>
    rw [bitsValue, pow_succ]
    split <;> omega

theorem testBit_bitsValue (bits : ℕ → Bool) {width bit : ℕ} (h : bit < width) :
    (bitsValue bits width).testBit bit = bits bit := by
  induction width with
  | zero => omega
  | succ width ih =>
    have hlt := bitsValue_lt bits width
    rw [bitsValue]
    by_cases hbit : bit = width
    · subst hbit
      cases hb : bits bit with
      | true => simp [Nat.add_comm, Nat.testBit_two_pow_add_eq, Nat.testBit_lt_two_pow hlt]
      | false => simp [Nat.testBit_lt_two_pow hlt]
    · have hbelow : bit < width := by omega
      cases hb : bits width with
      | true =>
        rw [if_pos rfl, Nat.add_comm, Nat.testBit_two_pow_add_gt hbelow, ih hbelow]
      | false => simpa using ih hbelow

/-- **The bits of a number spell it.** -/
theorem bitsValue_eq_iff {width value : ℕ} (hvalue : value < 2 ^ width) :
    bitsValue bits width = value ↔ ∀ bit < width, bits bit = value.testBit bit := by
  constructor
  · rintro rfl bit hbit
    exact (testBit_bitsValue bits hbit).symm
  · intro h
    refine Nat.eq_of_testBit_eq fun bit => ?_
    by_cases hbit : bit < width
    · rw [testBit_bitsValue bits hbit, h bit hbit]
    · have hpow : 2 ^ width ≤ 2 ^ bit := Nat.pow_le_pow_right (by decide) (by omega)
      rw [Nat.testBit_lt_two_pow ((bitsValue_lt bits width).trans_le hpow),
        Nat.testBit_lt_two_pow (hvalue.trans_le hpow)]

theorem bitsValue_congr {bits' : ℕ → Bool} {width : ℕ} (h : ∀ bit < width, bits bit = bits' bit) :
    bitsValue bits width = bitsValue bits' width :=
  (bitsValue_eq_iff (bitsValue_lt bits' width)).mpr fun bit hbit => by
    rw [testBit_bitsValue bits' hbit, h bit hbit]

/-- The running comparison of some bits with a number, from the top down to the place `low`. -/
def compareBits (bits : ℕ → Bool) (size width : ℕ) : ℕ → Prop × Prop
  | 0 => (False, True)
  | steps + 1 =>
    let high := compareBits bits size width steps
    let bit := width - 1 - steps
    if size.testBit bit = true then (high.1 ∨ (high.2 ∧ bits bit = false), high.2 ∧ bits bit = true)
    else (high.1, high.2 ∧ bits bit = false)

/-- What the comparison knows after some places: how the leading bits compare. -/
theorem compareBits_spec {size width steps : ℕ} (hsize : size < 2 ^ width) (hsteps : steps ≤ width) :
    ((compareBits bits size width steps).1 ↔
      bitsValue bits width / 2 ^ (width - steps) < size / 2 ^ (width - steps)) ∧
    ((compareBits bits size width steps).2 ↔
      bitsValue bits width / 2 ^ (width - steps) = size / 2 ^ (width - steps)) := by
  induction steps with
  | zero =>
    rw [Nat.sub_zero, Nat.div_eq_of_lt (bitsValue_lt bits width), Nat.div_eq_of_lt hsize]
    simp [compareBits]
  | succ steps ih =>
    obtain ⟨hless, hequal⟩ := ih (by omega)
    set bit := width - 1 - steps with hbit
    have hplace : width - steps = bit + 1 := by omega
    have hplace' : width - (steps + 1) = bit := by omega
    -- the leading bits up to `bit` are those before it and the bit itself
    have hsplit : ∀ n : ℕ, n / 2 ^ bit = 2 * (n / 2 ^ (bit + 1)) + (n.testBit bit).toNat := by
      intro n
      rw [pow_succ, ← Nat.div_div_eq_div_mul, Nat.toNat_testBit]
      omega
    rw [hplace] at hless hequal
    rw [hplace', hsplit (bitsValue bits width), hsplit size, testBit_bitsValue bits (by omega)]
    rw [compareBits]
    simp only [← hbit]
    cases hb : bits bit <;> cases hs : size.testBit bit <;>
      simp [hless, hequal] <;> omega

/-- **At the end the comparison is "less".** -/
theorem compareBits_lt {size width : ℕ} (hsize : size < 2 ^ width) :
    (compareBits bits size width width).1 ↔ bitsValue bits width < size := by
  simpa using (compareBits_spec hsize le_rfl).1

end VeriCCL.BinaryWords
