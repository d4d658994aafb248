import Sidle.Word.Field

/-!
# The digits of a machine word

A word that packs small numbers of one size is a sequence of *digits*: `digit b i w` is the number
in the `i`-th group of `b` bits of `w`.  Shifts by whole digits, masks of whole digits and the
bitwise operations act on the digits one by one.

## Main definitions

* `digit` — the digits of a word.

## Main results

* `digit_shiftLeft`, `digit_shiftRight`, `digit_and_band`, `digit_and_not_band` — what shifts and
  masks do to them.
* `digit_add_one`, `digit_sub_one` — counting in the lowest digit.
-/

namespace Word

variable {n b : ℕ}

/-- The `i`-th digit of `b` bits. -/
def digit (b i : ℕ) (w : BitVec n) : ℕ := field (b * i) b w

theorem digit_lt (i : ℕ) (w : BitVec n) : digit b i w < 2 ^ b := field_lt _ _ w

theorem testBit_digit (i j : ℕ) (w : BitVec n) :
    (digit b i w).testBit j = (decide (j < b) && w.getLsbD (b * i + j)) := testBit_field _ _ w j

/-- Digits with the same bits are the same. -/
theorem digit_congr {v w : BitVec n} {i k : ℕ}
    (h : ∀ j < b, v.getLsbD (b * i + j) = w.getLsbD (b * k + j)) : digit b i v = digit b k w := by
  apply Nat.eq_of_testBit_eq
  intro j
  rw [testBit_digit, testBit_digit]
  by_cases hj : j < b
  · rw [h j hj]
  · simp [hj]

theorem digit_eq_zero {w : BitVec n} {i : ℕ} (h : ∀ j < b, w.getLsbD (b * i + j) = false) :
    digit b i w = 0 := by
  apply Nat.eq_of_testBit_eq
  intro j
  rw [testBit_digit, Nat.zero_testBit]
  by_cases hj : j < b
  · simp [h j hj]
  · simp [hj]

/-- There are no digits outside the word. -/
theorem digit_of_le {w : BitVec n} {i : ℕ} (h : n ≤ b * i) : digit b i w = 0 := by
  apply digit_eq_zero
  intro j _
  exact BitVec.getLsbD_of_ge w _ (by omega)

/-- A bit belongs to the digit that its number says. -/
theorem digit_index {i j k : ℕ} (hj : j < b) : b * i + j < b * k ↔ i < k := by
  constructor
  · intro h
    by_contra hik
    have hle : b * k ≤ b * i := Nat.mul_le_mul_left b (Nat.le_of_not_lt hik)
    omega
  · intro h
    have hle : b * (i + 1) ≤ b * k := Nat.mul_le_mul_left b h
    rw [Nat.mul_succ] at hle
    omega

/-! ### Bitwise operations -/

theorem digit_or (i : ℕ) (v w : BitVec n) : digit b i (v ||| w) = digit b i v ||| digit b i w := by
  apply Nat.eq_of_testBit_eq
  intro j
  rw [Nat.testBit_or, testBit_digit, testBit_digit, testBit_digit, BitVec.getLsbD_or]
  by_cases hj : j < b <;> simp [hj]

theorem digit_xor (i : ℕ) (v w : BitVec n) : digit b i (v ^^^ w) = digit b i v ^^^ digit b i w := by
  apply Nat.eq_of_testBit_eq
  intro j
  rw [Nat.testBit_xor, testBit_digit, testBit_digit, testBit_digit, BitVec.getLsbD_xor]
  by_cases hj : j < b <;> simp [hj]

/-- The bits of the `c` digits from the digit `a` upwards. -/
theorem getLsbD_band {a c i j : ℕ} (hj : j < b) :
    (mask n (b * c) <<< (b * a)).getLsbD (b * i + j) =
      (decide (b * i + j < n) && decide (a ≤ i ∧ i < a + c)) := by
  rw [BitVec.getLsbD_shiftLeft, getLsbD_mask]
  by_cases ha : a ≤ i
  · have hge : ¬b * i + j < b * a := mt (digit_index hj).mp (Nat.not_lt.mpr ha)
    have hsub : b * i + j - b * a = b * (i - a) + j := by
      rw [Nat.mul_sub]
      have hle : b * a ≤ b * i := Nat.mul_le_mul_left b ha
      omega
    have hc : b * (i - a) + j < b * c ↔ i < a + c := by
      rw [digit_index hj]
      omega
    by_cases hn : b * i + j < n
    · have hn' : b * (i - a) + j < n := by omega
      simp [hsub, hge, hn, hn', hc, ha]
    · simp [hn]
  · have hlt : b * i + j < b * a := (digit_index hj).mpr (Nat.lt_of_not_le ha)
    simp [hlt, ha]

/-- Only the `c` digits from the digit `a` upwards are kept. -/
theorem digit_and_band {a c i : ℕ} (w : BitVec n) :
    digit b i (w &&& (mask n (b * c) <<< (b * a))) =
      if a ≤ i ∧ i < a + c then digit b i w else 0 := by
  split
  · rename_i hi
    apply digit_congr
    intro j hj
    rw [BitVec.getLsbD_and, getLsbD_band hj]
    by_cases hn : b * i + j < n
    · simp [hn, hi]
    · simp [BitVec.getLsbD_of_ge w _ (Nat.le_of_not_lt hn)]
  · rename_i hi
    apply digit_eq_zero
    intro j hj
    rw [BitVec.getLsbD_and, getLsbD_band hj, decide_eq_false hi]
    simp

/-- The `c` digits from the digit `a` upwards are dropped. -/
theorem digit_and_not_band {a c i : ℕ} (w : BitVec n) :
    digit b i (w &&& ~~~(mask n (b * c) <<< (b * a))) =
      if a ≤ i ∧ i < a + c then 0 else digit b i w := by
  split
  · rename_i hi
    apply digit_eq_zero
    intro j hj
    rw [BitVec.getLsbD_and, BitVec.getLsbD_not, getLsbD_band hj]
    by_cases hn : b * i + j < n
    · simp [hn, hi]
    · simp [hn]
  · rename_i hi
    apply digit_congr
    intro j hj
    rw [BitVec.getLsbD_and, BitVec.getLsbD_not, getLsbD_band hj, decide_eq_false hi]
    by_cases hn : b * i + j < n
    · simp [hn]
    · simp [BitVec.getLsbD_of_ge w _ (Nat.le_of_not_lt hn)]

/-- The lowest `k` digits are kept. -/
theorem digit_and_mask (i k : ℕ) (w : BitVec n) :
    digit b i (w &&& mask n (b * k)) = if i < k then digit b i w else 0 := by
  have hband := digit_and_band (b := b) (a := 0) (c := k) (i := i) w
  rw [Nat.mul_zero, BitVec.shiftLeft_zero] at hband
  simpa using hband

/-- The lowest `k` digits are dropped. -/
theorem digit_and_not_mask (i k : ℕ) (w : BitVec n) :
    digit b i (w &&& ~~~mask n (b * k)) = if i < k then 0 else digit b i w := by
  have hband := digit_and_not_band (b := b) (a := 0) (c := k) (i := i) w
  rw [Nat.mul_zero, BitVec.shiftLeft_zero] at hband
  simpa using hband

/-! ### Shifts by whole digits -/

/-- The digits move up; those that leave the word are lost. -/
theorem digit_shiftLeft {i k : ℕ} (w : BitVec n) (hi : b * (i + 1) ≤ n) :
    digit b i (w <<< (b * k)) = if i < k then 0 else digit b (i - k) w := by
  split
  · rename_i hik
    apply digit_eq_zero
    intro j hj
    have hlt := (digit_index hj).mpr hik
    rw [BitVec.getLsbD_shiftLeft]
    simp [hlt]
  · rename_i hik
    apply digit_congr
    intro j hj
    have hge := mt (digit_index hj).mp hik
    have hn : b * i + j < n := Nat.lt_of_lt_of_le ((digit_index hj).mpr (Nat.lt_succ_self i)) hi
    have hsub : b * i + j - b * k = b * (i - k) + j := by
      rw [Nat.mul_sub]
      have hle : b * k ≤ b * i := Nat.mul_le_mul_left b (Nat.le_of_not_lt hik)
      omega
    rw [BitVec.getLsbD_shiftLeft, hsub]
    simp only [hge, hn, decide_true, decide_false, Bool.not_false, Bool.true_and]

/-- The digits move down. -/
theorem digit_shiftRight (i k : ℕ) (w : BitVec n) :
    digit b i (w >>> (b * k)) = digit b (i + k) w := by
  apply digit_congr
  intro j _
  rw [BitVec.getLsbD_ushiftRight, Nat.mul_add]
  congr 1
  omega

/-- A number that fits into one digit is the lowest digit of its word. -/
theorem digit_ofNat {i v : ℕ} (hv : v < 2 ^ b) (hb : b ≤ n) :
    digit b i (BitVec.ofNat n v) = if i = 0 then v else 0 := by
  split
  · rename_i h0
    subst h0
    apply Nat.eq_of_testBit_eq
    intro j
    rw [testBit_digit, Nat.mul_zero, Nat.zero_add, BitVec.getLsbD_ofNat]
    by_cases hj : j < b
    · simp [hj, Nat.lt_of_lt_of_le hj hb]
    · rw [Nat.testBit_lt_two_pow (Nat.lt_of_lt_of_le hv
        (Nat.pow_le_pow_right (by decide) (Nat.le_of_not_lt hj)))]
      simp
  · rename_i h0
    apply digit_eq_zero
    intro j hj
    have hle : b * 1 ≤ b * i := Nat.mul_le_mul_left b (Nat.pos_of_ne_zero h0)
    rw [BitVec.getLsbD_ofNat, Nat.testBit_lt_two_pow (Nat.lt_of_lt_of_le hv
      (Nat.pow_le_pow_right (by decide) (by omega)))]
    simp

/-! ### Counting in the lowest digit -/

/-- An addition to a digit that is not full changes only it. -/
theorem digit_add_one {i : ℕ} (w : BitVec n) (hb : b ≤ n) (h : digit b 0 w + 1 < 2 ^ b) :
    digit b i (w + 1#n) = if i = 0 then digit b 0 w + 1 else digit b i w := by
  have hincr : w + 1#n = incrField 0 w := by rw [incrField, bit, BitVec.shiftLeft_zero]
  have hfull : field 0 b w + 1 < 2 ^ b := by simpa [digit] using h
  rw [hincr]
  split
  · rename_i h0
    subst h0
    have hnext := field_incrField (by omega) hfull
    simpa [digit] using hnext
  · rename_i h0
    have hle : b * 1 ≤ b * i := Nat.mul_le_mul_left b (Nat.pos_of_ne_zero h0)
    exact field_incrField_of_apart (by omega) hfull (Or.inl (by omega))

/-- A subtraction from a digit that is not zero changes only it. -/
theorem digit_sub_one {i : ℕ} (w : BitVec n) (hb : b ≤ n) (h : 0 < digit b 0 w) :
    digit b i (w - 1#n) = if i = 0 then digit b 0 w - 1 else digit b i w := by
  have hb0 : b ≠ 0 := by
    rintro rfl
    simp [digit, field, Nat.mod_one] at h
  -- the word before the addition of one that leads to `w`
  have hw : w = (w - 1#n) + 1#n := (BitVec.sub_add_cancel w 1#n).symm
  have hlow (v : BitVec n) : digit b 0 v = v.toNat % 2 ^ b := by simp [digit, field]
  have hpos : 0 < w.toNat := by
    rw [hlow] at h
    rcases Nat.eq_zero_or_pos w.toNat with h0 | h0
    · rw [h0, Nat.zero_mod] at h
      exact absurd h (Nat.lt_irrefl 0)
    · exact h0
  have hone : (1#n).toNat = 1 := by
    rw [BitVec.toNat_ofNat, Nat.mod_eq_of_lt (Nat.one_lt_two_pow (by omega))]
  have hsub : (w - 1#n).toNat = w.toNat - 1 := by
    rw [BitVec.toNat_sub_of_le (by rw [BitVec.le_def, hone]; exact hpos), hone]
  have hbefore : digit b 0 (w - 1#n) = digit b 0 w - 1 := by
    rw [hlow, hlow, hsub]
    rw [hlow] at h
    have hdiv := Nat.div_add_mod w.toNat (2 ^ b)
    have hlt := Nat.mod_lt w.toNat (Nat.two_pow_pos b)
    have heq : w.toNat - 1 = 2 ^ b * (w.toNat / 2 ^ b) + (w.toNat % 2 ^ b - 1) := by omega
    rw [heq, Nat.mul_add_mod, Nat.mod_eq_of_lt (by omega)]
  have hfull : digit b 0 (w - 1#n) + 1 < 2 ^ b := by
    have hlt := digit_lt (b := b) 0 w
    omega
  have hnext := digit_add_one (i := i) (w - 1#n) hb hfull
  rw [← hw] at hnext
  split
  · rename_i h0
    rw [h0, hbefore]
  · rename_i h0
    rw [hnext, if_neg h0]

end Word
