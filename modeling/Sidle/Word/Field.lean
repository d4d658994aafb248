import Mathlib.Algebra.Group.Nat.Defs
import Mathlib.Tactic.Common
import Mathlib.Data.Nat.Notation

/-!
# Fields of a machine word

A machine word that packs several counters and flags is read through its *fields*:
`field lo len w` is the number in the `len` bits of `w` from bit `lo` upwards.  The
three ways of updating such a word in place — replacing a field, raising or clearing
a flag, incrementing a field by an addition to the whole word — are given with the
field they change and, for every field apart from it, that they leave it alone.

## Main results

* `field_setField`, `field_setField_of_apart` — replacing a field.
* `field_setFlag`, `field_clearFlag` — flags, and their `_of_apart` forms.
* `field_incrField`, `field_incrField_of_apart` — incrementing a field that is not full.
-/

namespace Word

variable {n : ℕ}

/-- The number in the `len` bits of `w` from bit `lo` upwards. -/
def field (lo len : ℕ) (w : BitVec n) : ℕ := (w.toNat >>> lo) % 2 ^ len

/-- Two bit ranges `[lo, lo + len)` and `[lo', lo' + len')` do not meet. -/
def Apart (lo len lo' len' : ℕ) : Prop := lo + len ≤ lo' ∨ lo' + len' ≤ lo

instance (lo len lo' len' : ℕ) : Decidable (Apart lo len lo' len') :=
  inferInstanceAs (Decidable (_ ∨ _))

theorem testBit_field (lo len : ℕ) (w : BitVec n) (i : ℕ) :
    (field lo len w).testBit i = (decide (i < len) && w.getLsbD (lo + i)) := by
  simp [field, BitVec.testBit_toNat]

theorem field_lt (lo len : ℕ) (w : BitVec n) : field lo len w < 2 ^ len :=
  Nat.mod_lt _ (Nat.two_pow_pos len)

/-- A field only depends on its bits. -/
theorem field_congr {lo len : ℕ} {v w : BitVec n}
    (h : ∀ i, lo ≤ i → i < lo + len → v.getLsbD i = w.getLsbD i) :
    field lo len v = field lo len w := by
  refine Nat.eq_of_testBit_eq fun i => ?_
  rw [testBit_field, testBit_field]
  by_cases hi : i < len
  · rw [h (lo + i) (by omega) (by omega)]
  · simp [hi]

/-! ### Replacing a field -/

/-- The word whose lowest `len` bits are set. -/
def mask (n len : ℕ) : BitVec n := BitVec.ofNat n (2 ^ len - 1)

theorem getLsbD_mask (len i : ℕ) :
    (mask n len).getLsbD i = (decide (i < n) && decide (i < len)) := by
  simp [mask, BitVec.getLsbD_ofNat]

/-- `(w & ~(mask << lo)) | (x << lo)`: the field `[lo, lo + len)` of `w` is replaced by `x`. -/
def setField (lo len : ℕ) (w x : BitVec n) : BitVec n :=
  (w &&& ~~~(mask n len <<< lo)) ||| (x <<< lo)

theorem getLsbD_setField {lo len : ℕ} {w x : BitVec n} {i : ℕ} (hi : i < n) :
    (setField lo len w x).getLsbD i =
      if lo ≤ i ∧ i < lo + len then x.getLsbD (i - lo)
      else (w.getLsbD i || decide (lo ≤ i) && x.getLsbD (i - lo)) := by
  simp only [setField, BitVec.getLsbD_or, BitVec.getLsbD_and, BitVec.getLsbD_not,
    BitVec.getLsbD_shiftLeft, getLsbD_mask]
  by_cases h₁ : lo ≤ i <;> by_cases h₂ : i < lo + len
  · have h₃ : i - lo < len := by omega
    have h₄ : i - lo < n := by omega
    simp [hi, h₁, h₂, h₃, h₄, Nat.not_lt.mpr h₁]
  · have h₃ : ¬ i - lo < len := by omega
    simp [hi, h₁, h₂, h₃, Nat.not_lt.mpr h₁]
  · simp [hi, h₁, Nat.lt_of_not_le h₁]
  · simp [hi, h₁, Nat.lt_of_not_le h₁]

theorem getLsbD_of_lt_two_pow {x : BitVec n} {len i : ℕ} (hx : x.toNat < 2 ^ len) (hi : len ≤ i) :
    x.getLsbD i = false := by
  rw [← BitVec.testBit_toNat]
  exact Nat.testBit_lt_two_pow (Nat.lt_of_lt_of_le hx (Nat.pow_le_pow_right (by omega) hi))

theorem field_setField {lo len : ℕ} {w x : BitVec n} (hn : lo + len ≤ n) (hx : x.toNat < 2 ^ len) :
    field lo len (setField lo len w x) = x.toNat := by
  refine Nat.eq_of_testBit_eq fun i => ?_
  rw [testBit_field, BitVec.testBit_toNat]
  by_cases hi : i < len
  · rw [getLsbD_setField (by omega), if_pos ⟨by omega, by omega⟩]
    simp [hi]
  · simp [hi, getLsbD_of_lt_two_pow hx (Nat.le_of_not_lt hi)]

theorem getLsbD_setField_of_apart {lo len i : ℕ} {w x : BitVec n} (hx : x.toNat < 2 ^ len)
    (hi : Apart lo len i 1) : (setField lo len w x).getLsbD i = w.getLsbD i := by
  by_cases hn : i < n
  · rw [getLsbD_setField hn]
    rcases hi with h | h
    · rw [if_neg (by omega), getLsbD_of_lt_two_pow hx (by omega)]
      simp
    · rw [if_neg (by omega)]
      simp [show ¬ lo ≤ i by omega]
  · rw [BitVec.getLsbD_of_ge _ _ (Nat.le_of_not_lt hn),
      BitVec.getLsbD_of_ge _ _ (Nat.le_of_not_lt hn)]

theorem field_setField_of_apart {lo len lo' len' : ℕ} {w x : BitVec n} (hx : x.toNat < 2 ^ len)
    (h : Apart lo len lo' len') : field lo' len' (setField lo len w x) = field lo' len' w :=
  field_congr fun i _ _ => getLsbD_setField_of_apart hx (by unfold Apart at *; omega)

/-- A value that is too long for its field spills upwards only. -/
theorem field_setField_of_below {lo len lo' len' : ℕ} {w x : BitVec n} (hn : lo' + len' ≤ n)
    (h : lo' + len' ≤ lo) : field lo' len' (setField lo len w x) = field lo' len' w :=
  field_congr fun i _ hi => by
    rw [getLsbD_setField (by omega), if_neg (by omega)]
    simp [show ¬ lo ≤ i by omega]

/-! ### Flags -/

/-- `1 << k`. -/
def bit (n k : ℕ) : BitVec n := 1#n <<< k

theorem getLsbD_bit (k i : ℕ) : (bit n k).getLsbD i = (decide (i < n) && decide (i = k)) := by
  simp only [bit, BitVec.getLsbD_shiftLeft, BitVec.getLsbD_one]
  by_cases h₁ : i < n <;> by_cases h₂ : i = k <;> simp [h₁, h₂]
  all_goals omega

/-- The flag at bit `k`, as the test `w & (1 << k)`. -/
def flag (k : ℕ) (w : BitVec n) : Bool := w &&& bit n k != 0#n

theorem flag_eq {k : ℕ} (hk : k < n) (w : BitVec n) : flag k w = w.getLsbD k := by
  unfold flag
  cases hw : w.getLsbD k with
  | true =>
    rw [bne_iff_ne]
    intro h
    have hbit : (w &&& bit n k).getLsbD k = true := by
      rw [BitVec.getLsbD_and, getLsbD_bit, hw]; simp [hk]
    rw [h] at hbit
    simp at hbit
  | false =>
    rw [bne_eq_false_iff_eq]
    refine BitVec.eq_of_getLsbD_eq fun i hi => ?_
    rw [BitVec.getLsbD_and, getLsbD_bit]
    by_cases hik : i = k <;> simp [hik, hw]

/-- A flag is a field of one bit. -/
theorem flag_eq_field {k : ℕ} (hk : k < n) (w : BitVec n) :
    flag k w = decide (field k 1 w = 1) := by
  have hf : field k 1 w = (w.getLsbD k).toNat := by
    refine Nat.eq_of_testBit_eq fun i => ?_
    rw [testBit_field]
    cases i with
    | zero => cases w.getLsbD k <;> rfl
    | succ i => cases w.getLsbD k <;> simp [Nat.testBit_succ]
  rw [flag_eq hk, hf]
  cases w.getLsbD k <;> rfl

theorem flag_congr {k : ℕ} (hk : k < n) {v w : BitVec n} (h : field k 1 v = field k 1 w) :
    flag k v = flag k w := by rw [flag_eq_field hk, flag_eq_field hk, h]

/-- `w | (1 << k)`. -/
def setFlag (k : ℕ) (w : BitVec n) : BitVec n := w ||| bit n k

/-- `w & ~(1 << k)`. -/
def clearFlag (k : ℕ) (w : BitVec n) : BitVec n := w &&& ~~~bit n k

theorem getLsbD_setFlag (k i : ℕ) (w : BitVec n) :
    (setFlag k w).getLsbD i = (w.getLsbD i || decide (i < n) && decide (i = k)) := by
  rw [setFlag, BitVec.getLsbD_or, getLsbD_bit]

theorem getLsbD_clearFlag (k i : ℕ) (w : BitVec n) :
    (clearFlag k w).getLsbD i = (w.getLsbD i && !decide (i = k)) := by
  rw [clearFlag, BitVec.getLsbD_and, BitVec.getLsbD_not, getLsbD_bit]
  by_cases hi : i < n
  · simp [hi]
  · rw [BitVec.getLsbD_of_ge _ _ (Nat.le_of_not_lt hi)]; simp

theorem flag_setFlag {k : ℕ} (hk : k < n) (w : BitVec n) : flag k (setFlag k w) = true := by
  rw [flag_eq hk, getLsbD_setFlag]; simp [hk]

theorem flag_clearFlag {k : ℕ} (hk : k < n) (w : BitVec n) : flag k (clearFlag k w) = false := by
  rw [flag_eq hk, getLsbD_clearFlag]; simp

theorem field_setFlag_of_apart {k lo len : ℕ} (w : BitVec n) (h : Apart k 1 lo len) :
    field lo len (setFlag k w) = field lo len w :=
  field_congr fun i _ _ => by
    rw [getLsbD_setFlag]; simp [show i ≠ k by unfold Apart at h; omega]

theorem field_clearFlag_of_apart {k lo len : ℕ} (w : BitVec n) (h : Apart k 1 lo len) :
    field lo len (clearFlag k w) = field lo len w :=
  field_congr fun i _ _ => by
    rw [getLsbD_clearFlag]; simp [show i ≠ k by unfold Apart at h; omega]

theorem clearFlag_of_flag {k : ℕ} {w : BitVec n} (hk : k < n) (h : flag k w = false) :
    clearFlag k w = w := by
  refine BitVec.eq_of_getLsbD_eq fun i hi => ?_
  rw [flag_eq hk] at h
  rw [getLsbD_clearFlag]
  by_cases hik : i = k <;> simp [hik, h]

theorem clearFlag_setFlag {k : ℕ} {w : BitVec n} (hk : k < n) (h : flag k w = false) :
    clearFlag k (setFlag k w) = w := by
  refine BitVec.eq_of_getLsbD_eq fun i hi => ?_
  rw [flag_eq hk] at h
  rw [getLsbD_clearFlag, getLsbD_setFlag]
  by_cases hik : i = k <;> simp [hik, h]

theorem flag_setFlag_of_ne {k j : ℕ} (hj : j < n) (w : BitVec n) (h : j ≠ k) :
    flag j (setFlag k w) = flag j w := by
  rw [flag_eq hj, flag_eq hj, getLsbD_setFlag]; simp [h]

theorem flag_clearFlag_of_ne {k j : ℕ} (hj : j < n) (w : BitVec n) (h : j ≠ k) :
    flag j (clearFlag k w) = flag j w := by
  rw [flag_eq hj, flag_eq hj, getLsbD_clearFlag]; simp [h]

theorem flag_and {k : ℕ} (hk : k < n) (v w : BitVec n) :
    flag k (v &&& w) = (flag k v && flag k w) := by
  rw [flag_eq hk, flag_eq hk, flag_eq hk, BitVec.getLsbD_and]

/-! ### Incrementing a field -/

/-- `w + (1 << lo)`: the field from bit `lo` upwards is incremented by an addition to
the whole word. -/
def incrField (lo : ℕ) (w : BitVec n) : BitVec n := w + bit n lo

/-- Adding `2 ^ lo` to a number whose digits `[lo, lo + len)` are not all ones: only
these digits change. -/
private theorem shiftRight_add_two_pow {x lo len : ℕ} (h : (x >>> lo) % 2 ^ len + 1 < 2 ^ len)
    {lo' len' : ℕ} (ha : Apart lo len lo' len') :
    ((x + 2 ^ lo) >>> lo') % 2 ^ len' = (x >>> lo') % 2 ^ len' := by
  simp only [Nat.shiftRight_eq_div_pow] at *
  rcases ha with ha | ha
  · -- the digits above: no carry leaves `[lo, lo + len)`
    obtain ⟨d, rfl⟩ : ∃ d, lo' = lo + len + d := ⟨lo' - (lo + len), by omega⟩
    have hcarry : (x / 2 ^ lo + 1) / 2 ^ len = x / 2 ^ lo / 2 ^ len := by
      have hx := Nat.div_add_mod (x / 2 ^ lo) (2 ^ len)
      rw [Nat.div_eq_of_lt_le]
      · rw [Nat.mul_comm]; omega
      · rw [Nat.succ_mul, Nat.mul_comm]; omega
    have hdiv : (x + 2 ^ lo) / 2 ^ (lo + len + d) = x / 2 ^ (lo + len + d) := by
      rw [Nat.pow_add, Nat.pow_add, ← Nat.div_div_eq_div_mul, ← Nat.div_div_eq_div_mul,
        Nat.add_div_right _ (Nat.two_pow_pos lo), hcarry,
        ← Nat.div_div_eq_div_mul, ← Nat.div_div_eq_div_mul]
    rw [hdiv]
  · -- the digits below: what is added is a multiple of `2 ^ (lo' + len')`
    obtain ⟨d, rfl⟩ : ∃ d, lo = lo' + (len' + d) := ⟨lo - (lo' + len'), by omega⟩
    rw [Nat.pow_add 2 lo', Nat.add_mul_div_left _ _ (Nat.two_pow_pos lo'), Nat.pow_add 2 len',
      Nat.add_mul_mod_self_left]

theorem toNat_incrField {lo len : ℕ} {w : BitVec n} (hn : lo + len ≤ n)
    (h : field lo len w + 1 < 2 ^ len) : (incrField lo w).toNat = w.toNat + 2 ^ lo := by
  have hlen : len ≠ 0 := by rintro rfl; simp at h
  have hbit : (bit n lo).toNat = 2 ^ lo := by
    simp only [bit, BitVec.toNat_shiftLeft, BitVec.toNat_ofNat, Nat.shiftLeft_eq]
    rw [Nat.mod_eq_of_lt (Nat.one_lt_two_pow (by omega)), Nat.one_mul,
      Nat.mod_eq_of_lt (Nat.pow_lt_pow_right (by omega) (by omega))]
  rw [incrField, BitVec.toNat_add, hbit, Nat.mod_eq_of_lt]
  -- no carry leaves the word
  have hd := @shiftRight_add_two_pow w.toNat lo len h (lo + len) n (Or.inl (Nat.le_refl _))
  have hlt := w.isLt
  by_contra hge
  have h1 : 2 ^ n ≤ w.toNat + 2 ^ lo := Nat.le_of_not_lt hge
  have hsmall : w.toNat + 2 ^ lo < 2 ^ (lo + len) * 2 ^ n := by
    have : 2 ^ lo ≤ 2 ^ n := Nat.pow_le_pow_right (by omega) (by omega)
    have : 2 * 2 ^ n ≤ 2 ^ (lo + len) * 2 ^ n :=
      Nat.mul_le_mul_right _ (Nat.le_self_pow (by omega) 2)
    omega
  simp only [Nat.shiftRight_eq_div_pow] at hd
  rw [Nat.mod_eq_of_lt (Nat.div_lt_of_lt_mul hsmall),
    Nat.mod_eq_of_lt (Nat.lt_of_le_of_lt (Nat.div_le_self _ _) hlt)] at hd
  have h2 : 2 ^ n / 2 ^ (lo + len) ≤ (w.toNat + 2 ^ lo) / 2 ^ (lo + len) := Nat.div_le_div_right h1
  have h3 : w.toNat / 2 ^ (lo + len) < 2 ^ n / 2 ^ (lo + len) := by
    rw [Nat.pow_div hn (by omega)]
    refine Nat.div_lt_of_lt_mul ?_
    rwa [← Nat.pow_add, show lo + len + (n - (lo + len)) = n by omega]
  omega

theorem field_incrField {lo len : ℕ} {w : BitVec n} (hn : lo + len ≤ n)
    (h : field lo len w + 1 < 2 ^ len) : field lo len (incrField lo w) = field lo len w + 1 := by
  unfold field at *
  rw [toNat_incrField hn h]
  simp only [Nat.shiftRight_eq_div_pow] at *
  rw [Nat.add_div_right _ (Nat.two_pow_pos lo), Nat.add_mod, Nat.mod_eq_of_lt (a := 1) (by omega),
    Nat.mod_eq_of_lt h]

/-- An overflow of the field is carried out of it. -/
theorem field_incrField_mod {lo len : ℕ} (w : BitVec n) (hn : lo + len ≤ n) (hlen : 0 < len) :
    field lo len (incrField lo w) = (field lo len w + 1) % 2 ^ len := by
  have hbit : (bit n lo).toNat = 2 ^ lo := by
    simp only [bit, BitVec.toNat_shiftLeft, BitVec.toNat_ofNat, Nat.shiftLeft_eq]
    rw [Nat.mod_eq_of_lt (Nat.one_lt_two_pow (by omega)), Nat.one_mul,
      Nat.mod_eq_of_lt (Nat.pow_lt_pow_right (by omega) (by omega))]
  obtain ⟨d, rfl⟩ : ∃ d, n = lo + (len + d) := ⟨n - lo - len, by omega⟩
  unfold field
  rw [incrField, BitVec.toNat_add, hbit, Nat.shiftRight_eq_div_pow, Nat.shiftRight_eq_div_pow,
    Nat.pow_add 2 lo, Nat.mod_mul_right_div_self, Nat.pow_add 2 len, Nat.mod_mul_right_mod,
    Nat.add_div_right _ (Nat.two_pow_pos lo), Nat.mod_add_mod]

theorem field_incrField_of_apart {lo len lo' len' : ℕ} {w : BitVec n} (hn : lo + len ≤ n)
    (h : field lo len w + 1 < 2 ^ len) (ha : Apart lo len lo' len') :
    field lo' len' (incrField lo w) = field lo' len' w := by
  have ht := toNat_incrField hn h
  unfold field at *
  rw [ht, shiftRight_add_two_pow h ha]

theorem flag_incrField_of_apart {lo len k : ℕ} {w : BitVec n} (hk : k < n) (hn : lo + len ≤ n)
    (h : field lo len w + 1 < 2 ^ len) (ha : Apart lo len k 1) :
    flag k (incrField lo w) = flag k w :=
  flag_congr hk (field_incrField_of_apart hn h ha)

/-- A field is two fields side by side. -/
theorem field_add (lo a b : ℕ) (w : BitVec n) :
    field lo (a + b) w = field lo a w + 2 ^ a * field (lo + a) b w := by
  simp only [field, Nat.pow_add, Nat.mod_mul, Nat.shiftRight_eq_div_pow, Nat.div_div_eq_div_mul]

/-- An addition to a field that is full is carried into the bit above it. -/
theorem flag_incrField_of_full {lo len : ℕ} {w : BitVec n} (hn : lo + len < n)
    (h : field lo len w + 1 = 2 ^ len) :
    flag (lo + len) (incrField lo w) = !flag (lo + len) w := by
  have hbit : (bit n lo).toNat = 2 ^ lo := by
    simp only [bit, BitVec.toNat_shiftLeft, BitVec.toNat_ofNat, Nat.shiftLeft_eq]
    rw [Nat.mod_eq_of_lt (Nat.one_lt_two_pow (by omega)), Nat.one_mul,
      Nat.mod_eq_of_lt (Nat.pow_lt_pow_right (by omega) (by omega))]
  -- the digits from `lo + len` upwards are those of the next number
  have hcarry : (w.toNat + 2 ^ lo) / 2 ^ (lo + len) = w.toNat / 2 ^ (lo + len) + 1 := by
    have hx := Nat.div_add_mod (w.toNat / 2 ^ lo) (2 ^ len)
    simp only [field, Nat.shiftRight_eq_div_pow] at h
    rw [Nat.pow_add, ← Nat.div_div_eq_div_mul, ← Nat.div_div_eq_div_mul,
      Nat.add_div_right _ (Nat.two_pow_pos lo),
      show w.toNat / 2 ^ lo + 1 = 2 ^ len * (w.toNat / 2 ^ lo / 2 ^ len) + 2 ^ len by omega,
      Nat.add_div_right _ (Nat.two_pow_pos len), Nat.mul_div_cancel_left _ (Nat.two_pow_pos len)]
  rw [flag_eq hn, flag_eq hn, ← BitVec.testBit_toNat, ← BitVec.testBit_toNat, incrField,
    BitVec.toNat_add, hbit, Nat.testBit_mod_two_pow, Nat.testBit_eq_decide_div_mod_eq,
    Nat.testBit_eq_decide_div_mod_eq, hcarry]
  simp only [hn, decide_true, Bool.true_and]
  rcases Nat.mod_two_eq_zero_or_one (w.toNat / 2 ^ (lo + len)) with h0 | h1
  · have : (w.toNat / 2 ^ (lo + len) + 1) % 2 = 1 := by omega
    simp [h0, this]
  · have : (w.toNat / 2 ^ (lo + len) + 1) % 2 = 0 := by omega
    simp [h1, this]

/-- `(w & ~mask) | ((w + 1) & mask)`: the lowest `len` bits are incremented in place, an
overflow is dropped. -/
def incrLow (len : ℕ) (w : BitVec n) : BitVec n :=
  (w &&& ~~~mask n len) ||| ((w + 1#n) &&& mask n len)

theorem getLsbD_incrLow_of_ge {len i : ℕ} {w : BitVec n} (h : len ≤ i) :
    (incrLow len w).getLsbD i = w.getLsbD i := by
  by_cases hi : i < n
  · simp only [incrLow, BitVec.getLsbD_or, BitVec.getLsbD_and, BitVec.getLsbD_not, getLsbD_mask]
    simp [hi, Nat.not_lt.mpr h]
  · rw [BitVec.getLsbD_of_ge _ _ (Nat.le_of_not_lt hi),
      BitVec.getLsbD_of_ge _ _ (Nat.le_of_not_lt hi)]

theorem field_incrLow_of_ge {len lo' len' : ℕ} {w : BitVec n} (h : len ≤ lo') :
    field lo' len' (incrLow len w) = field lo' len' w :=
  field_congr fun _ hi _ => getLsbD_incrLow_of_ge (Nat.le_trans h hi)

theorem flag_incrLow_of_ge {len k : ℕ} {w : BitVec n} (hk : k < n) (h : len ≤ k) :
    flag k (incrLow len w) = flag k w := by
  rw [flag_eq hk, flag_eq hk, getLsbD_incrLow_of_ge h]

theorem field_incrLow {len : ℕ} {w : BitVec n} (hn : len ≤ n) :
    field 0 len (incrLow len w) = (field 0 len w + 1) % 2 ^ len := by
  have hlow : field 0 len (incrLow len w) = field 0 len (w + 1#n) := by
    refine field_congr fun i _ hi => ?_
    have hin : i < n := by omega
    simp only [incrLow, BitVec.getLsbD_or, BitVec.getLsbD_and, BitVec.getLsbD_not, getLsbD_mask]
    simp [hin, show i < len by omega]
  have hdvd : 2 ^ len ∣ 2 ^ n := Nat.pow_dvd_pow 2 hn
  rw [hlow]
  simp only [field, Nat.shiftRight_zero, BitVec.toNat_add, BitVec.toNat_ofNat,
    Nat.mod_mod_of_dvd _ hdvd, Nat.add_mod_mod, Nat.mod_add_mod]

end Word
