import Mathlib.Data.List.Nodup
import Mathlib.Data.List.Perm.Basic
import Sidle.Masstree.Key
import Sidle.Prog.Trace
import Sidle.Word.Digit

/-!
# The permutation of a leaf in its word

`kpermuter<15>` packs the order of a leaf into a 64-bit word of sixteen digits: the number of slots
in use is the lowest, and the slots follow in order, those in use before the free ones.  The
operations shift and mask whole groups of digits.

## Main definitions

* `KPermuter` — the word, with the operations of `kpermuter.hh`.
* `KPermuter.view` — the permutation that the word stands for.
* `PermuterOp`, `permuterStep` — the operations, each where it is allowed.

## Main results

* `view_insertFromBack`, `view_remove`, … — each operation does to the permutation what it should.
* `run_permuter` — **every run on the word is a run on the permutation**, in which no slot is ever
  lost or doubled.
-/

namespace Sidle.Masstree

open Word

/-- The word of `kpermuter<15>`. -/
abbrev KPermuter := BitVec 64

namespace KPermuter

/-! ### The word -/

/-- `make_empty`. -/
def makeEmpty : KPermuter := 0x0123456789ABCDE0#64 &&& ~~~15#64

/-- `make_sorted`. -/
def makeSorted (n : ℕ) : KPermuter :=
  let mask := (if n = width then 0#64 else 16#64 <<< (n <<< 2)) - 1#64
  (makeEmpty <<< (n <<< 2)) ||| (0xEDCBA98765432100#64 &&& mask) ||| BitVec.ofNat 64 n

variable (x : KPermuter)

/-- `size`. -/
def size : ℕ := (x &&& 15#64).toNat

/-- `operator[]`. -/
def slot (i : ℕ) : ℕ := ((x >>> ((i <<< 2) + 4)) &&& 15#64).toNat

/-- `back`. -/
def back : ℕ := slot x (width - 1)

/-- `value_from`. -/
def valueFrom (i : ℕ) : KPermuter := x >>> ((i + 1) <<< 2)

/-- `set_size`. -/
def setSize (n : ℕ) : KPermuter := (x &&& ~~~15#64) ||| BitVec.ofNat 64 n

/-- `insert_from_back`. -/
def insertFromBack (i : ℕ) : KPermuter :=
  ((x + 1#64) &&& ((16#64 <<< (i <<< 2)) - 1#64)) |||
    (BitVec.ofNat 64 (back x) <<< ((i <<< 2) + 4)) |||
    ((x <<< 4) &&& ~~~((256#64 <<< (i <<< 2)) - 1#64))

/-- `remove`. -/
def remove (i : ℕ) : KPermuter :=
  if size x = i + 1 then x - 1#64
  else
    let rotAmount := (size x - i - 1) <<< 2
    let rotMask := ((16#64 <<< rotAmount) - 1#64) <<< ((i + 1) <<< 2)
    ((x - 1#64) &&& ~~~rotMask) ||| (((x &&& rotMask) >>> 4) &&& rotMask) |||
      (((x &&& rotMask) <<< rotAmount) &&& rotMask)

/-- `remove_to_back`. -/
def removeToBack (i : ℕ) : KPermuter :=
  let mask := ~~~((16#64 <<< (i <<< 2)) - 1#64)
  -- for the width 15 the shift drops the bit, and no slot is unused
  let x := x &&& ((16#64 <<< (width <<< 2)) - 1#64)
  ((x - 1#64) &&& ~~~mask) ||| ((x >>> 4) &&& mask) ||| ((x &&& mask) <<< ((width - i - 1) <<< 2))

/-- `exchange`. -/
def exchange (i j : ℕ) : KPermuter :=
  let diff := ((x >>> (i <<< 2)) ^^^ (x >>> (j <<< 2))) &&& 240#64
  x ^^^ ((diff <<< (i <<< 2)) ||| (diff <<< (j <<< 2)))

/-- The permutation that the word stands for. -/
def view : Permuter := ⟨size x, (List.range width).map (slot x)⟩

/-! ### Its digits -/

variable {x}

/-- The lowest four bits. -/
theorem toNat_and_fifteen (y : BitVec 64) : (y &&& 15#64).toNat = y.toNat % 2 ^ 4 := by
  rw [BitVec.toNat_and]
  exact Nat.and_two_pow_sub_one_eq_mod y.toNat 4

theorem size_eq (x : KPermuter) : size x = digit 4 0 x := toNat_and_fifteen x

theorem slot_eq (x : KPermuter) (i : ℕ) : slot x i = digit 4 (i + 1) x := by
  have hshift : (i <<< 2) + 4 = 4 * (i + 1) := by
    rw [Nat.shiftLeft_eq]
    omega
  rw [slot, toNat_and_fifteen, hshift]
  rfl

theorem slot_lt (x : KPermuter) (i : ℕ) : slot x i < 2 ^ 4 := by
  rw [slot_eq]
  exact digit_lt _ x

/-- Two bits for each of the four bits of a digit. -/
theorem shiftLeft_two (i : ℕ) : i <<< 2 = 4 * i := by
  rw [Nat.shiftLeft_eq]
  omega

/-- `((value_type) 16 << (i << 2)) - 1` is the mask of the size and of the slots up to `i`. -/
theorem sixteen_mask {i : ℕ} (hi : i < 16) :
    (16#64 <<< (i <<< 2)) - 1#64 = mask 64 (4 * (i + 1)) := by
  revert i
  decide

/-- `((value_type) 256 << (i << 2)) - 1` is the mask with one slot more. -/
theorem twoFiftySix_mask {i : ℕ} (hi : i < 15) :
    (256#64 <<< (i <<< 2)) - 1#64 = mask 64 (4 * (i + 2)) := by
  revert i
  decide

/-- A permutation is that of a word if the sizes and the slots agree. -/
theorem view_eq {p : Permuter} (hlen : p.slots.length = width) (hsize : size x = p.size)
    (h : ∀ k < width, slot x k = p.slot k) : view x = p := by
  have hslots : (List.range width).map (slot x) = p.slots := by
    apply List.ext_getElem
    · simp [hlen]
    · intro k hk hk'
      have hslot := h k (by simpa using hk)
      simpa [Permuter.slot, hk'] using hslot
  rw [view, hsize, hslots]

theorem length_view (x : KPermuter) : (view x).slots.length = width := by simp [view]

theorem slot_view (x : KPermuter) {k : ℕ} (hk : k < width) : (view x).slot k = slot x k := by
  simp [view, Permuter.slot, hk]

theorem back_view (x : KPermuter) : (view x).back = back x := slot_view x (by decide)

end KPermuter

/-! ### The operations on the list of slots -/

namespace Permuter

variable {p : Permuter} {i j k : ℕ}

theorem slot_insertFromBack (hlen : p.slots.length = width) (hi : i < width) (hk : k < width) :
    (p.insertFromBack i).slot k =
      if k < i then p.slot k else if k = i then p.back else p.slot (k - 1) := by
  simp only [width] at *
  simp only [slot, insertFromBack, List.getD_eq_getElem?_getD, List.getElem?_insertIdx,
    List.getElem?_dropLast, List.length_dropLast, hlen]
  split
  · rw [if_pos (by omega)]
  · split
    · rw [if_pos (by omega)]
      rfl
    · rw [if_pos (by omega)]

theorem slot_remove (hlen : p.slots.length = width) (hi : i < p.size) (hsize : p.size ≤ width)
    (hk : k < width) :
    (p.remove i).slot k =
      if k < i then p.slot k
      else if k + 1 < p.size then p.slot (k + 1)
      else if k + 1 = p.size then p.slot i else p.slot k := by
  simp only [width] at *
  simp only [slot, remove, List.getD_eq_getElem?_getD, List.getElem?_insertIdx,
    List.getElem?_eraseIdx, List.length_eraseIdx, hlen]
  rw [if_pos (show i < 15 by omega)]
  rcases Nat.lt_trichotomy k (p.size - 1) with hlt | heq | hgt
  · -- below the slot that is removed nothing moves, and those behind it move down
    rw [if_pos hlt, if_pos (show k + 1 < p.size by omega)]
    split <;> rfl
  · subst heq
    rw [if_neg (Nat.lt_irrefl _), if_pos rfl, if_pos (by omega), if_neg (by omega),
      if_neg (by omega), if_pos (by omega)]
    rfl
  · rw [if_neg (by omega), if_neg (by omega), if_neg (show ¬k - 1 < i by omega),
      if_neg (by omega), if_neg (by omega), if_neg (by omega), show k - 1 + 1 = k by omega]

theorem slot_removeToBack (hlen : p.slots.length = width) (hi : i < width) (hk : k < width) :
    (p.removeToBack i).slot k =
      if k < i then p.slot k else if k + 1 < width then p.slot (k + 1) else p.slot i := by
  simp only [width] at *
  simp only [slot, removeToBack, List.getD_eq_getElem?_getD, List.getElem?_append,
    List.getElem?_eraseIdx, List.length_eraseIdx, hlen]
  rw [if_pos hi]
  by_cases hlast : k + 1 < 15
  · rw [if_pos (by omega), if_pos hlast]
    split <;> rfl
  · obtain rfl : k = 14 := by omega
    rw [if_neg (by decide), if_neg (by omega), if_neg (by decide)]
    rfl

theorem slot_exchange (hlen : p.slots.length = width) (hi : i < width) (hj : j < width)
    (hk : k < width) :
    (p.exchange i j).slot k = if k = j then p.slot i else if k = i then p.slot j else p.slot k := by
  simp only [width] at *
  simp only [slot, exchange, List.getD_eq_getElem?_getD, List.getElem?_set, List.length_set, hlen]
  rcases eq_or_ne k j with rfl | hkj
  · simp [hk]
  · rcases eq_or_ne k i with rfl | hki
    · simp [hk, hkj, Ne.symm hkj]
    · simp [hkj, hki, Ne.symm hkj, Ne.symm hki]

end Permuter

/-! ### The operations on the word -/

namespace KPermuter

variable {x : KPermuter} {i j k : ℕ}

theorem dig_insertFromBack (hi : i < width) (hx : size x < width) (hk : k < 16) :
    digit 4 k (insertFromBack x i) =
      if k = 0 then size x + 1
      else if k ≤ i then digit 4 k x
      else if k = i + 1 then back x else digit 4 (k - 1) x := by
  simp only [width] at *
  have hback : back x < 2 ^ 4 := slot_lt x _
  have hfull : digit 4 0 x + 1 < 2 ^ 4 := by
    rw [← size_eq]
    omega
  have hadd := digit_add_one (i := k) x (by decide) hfull
  rw [insertFromBack, sixteen_mask (by omega), twoFiftySix_mask hi, shiftLeft_two,
    show 4 * i + 4 = 4 * (i + 1) by omega]
  rw [digit_or, digit_or, digit_and_mask, digit_and_not_mask, hadd, digit_shiftLeft _ (by omega),
    digit_ofNat hback (by decide), digit_shiftLeft (k := 1) x (by omega), size_eq]
  rcases Nat.eq_zero_or_pos k with rfl | hk0
  · simp
  · rcases Nat.lt_trichotomy k (i + 1) with hlt | rfl | hgt
    · simp [show k ≠ 0 by omega, hlt, show k < i + 2 by omega, show k ≤ i by omega]
    · simp
    · simp [show k ≠ 0 by omega, show ¬k < i + 1 by omega, show ¬k < i + 2 by omega,
        show ¬k ≤ i by omega, show k ≠ i + 1 by omega, show k - (i + 1) ≠ 0 by omega]

/-- **A slot is taken from the back.** -/
theorem view_insertFromBack (hi : i < width) (hx : size x < width) :
    view (insertFromBack x i) = (view x).insertFromBack i := by
  apply view_eq
  · simp [Permuter.insertFromBack, view, List.length_insertIdx, width] at *
    omega
  · rw [size_eq, dig_insertFromBack hi hx (by decide)]
    rfl
  · intro k hk
    rw [Permuter.slot_insertFromBack (length_view x) hi hk, back_view, slot_eq,
      dig_insertFromBack hi hx (by simp only [width] at hk; omega), if_neg (Nat.succ_ne_zero k)]
    rcases Nat.lt_trichotomy k i with hlt | rfl | hgt
    · rw [if_pos (by omega), if_pos hlt, slot_view x hk, slot_eq]
    · rw [if_neg (by omega), if_pos rfl, if_neg (Nat.lt_irrefl _), if_pos rfl]
    · rw [if_neg (by omega), if_neg (by omega), if_neg (by omega), if_neg (by omega),
        slot_view x (by omega), slot_eq, show k - 1 + 1 = k + 1 - 1 by omega]

theorem dig_remove (hi : i < size x) (hx : size x ≤ width) (hk : k < 16) :
    digit 4 k (remove x i) =
      if k = 0 then size x - 1
      else if k ≤ i then digit 4 k x
      else if k < size x then digit 4 (k + 1) x
      else if k = size x then digit 4 (i + 1) x else digit 4 k x := by
  simp only [width] at *
  have hpos : 0 < digit 4 0 x := by
    rw [← size_eq]
    omega
  have hsub := digit_sub_one (i := k) x (by decide) hpos
  unfold remove
  split
  · -- the last slot stays where it is
    rename_i hlast
    rw [hsub, ← size_eq]
    rcases Nat.eq_zero_or_pos k with rfl | hk0
    · simp
    · rw [if_neg (by omega), if_neg (by omega)]
      split
      · rfl
      · rw [if_neg (by omega)]
        split
        · rename_i hks
          rw [hks, hlast]
        · rfl
  · obtain ⟨r, hr⟩ : ∃ r, size x = i + 1 + r := ⟨size x - i - 1, by omega⟩
    dsimp only
    rw [hr, show i + 1 + r - i - 1 = r by omega, sixteen_mask (by omega), shiftLeft_two,
      shiftLeft_two, digit_or, digit_or, digit_and_not_band, digit_and_band, digit_and_band,
      digit_shiftRight k 1, digit_shiftLeft _ (by omega), digit_and_band, digit_and_band, hsub,
      ← size_eq, hr]
    have hdown : (if i + 1 ≤ k ∧ k < i + 1 + (r + 1) then
        if i + 1 ≤ k + 1 ∧ k + 1 < i + 1 + (r + 1) then digit 4 (k + 1) x else 0 else 0) =
        if i + 1 ≤ k ∧ k < i + 1 + r then digit 4 (k + 1) x else 0 := by
      by_cases hband : i + 1 ≤ k ∧ k < i + 1 + r
      · rw [if_pos (by omega), if_pos (by omega), if_pos hband]
      · rw [if_neg hband]
        split
        · rw [if_neg (by omega)]
        · rfl
    have hup : (if i + 1 ≤ k ∧ k < i + 1 + (r + 1) then if k < r then 0 else
        if i + 1 ≤ k - r ∧ k - r < i + 1 + (r + 1) then digit 4 (k - r) x else 0 else 0) =
        if k = i + 1 + r then digit 4 (i + 1) x else 0 := by
      by_cases hlast : k = i + 1 + r
      · subst hlast
        rw [if_pos (by omega), if_neg (by omega), if_pos (by omega), if_pos rfl,
          Nat.add_sub_cancel]
      · rw [if_neg hlast]
        split
        · split
          · rfl
          · rw [if_neg (by omega)]
        · rfl
    rw [hdown, hup]
    rcases Nat.eq_zero_or_pos k with rfl | hk0
    · simp [show ¬0 = i + 1 + r by omega]
    · by_cases hlow : k ≤ i
      · simp [show k ≠ 0 by omega, hlow, show ¬i + 1 ≤ k by omega, show k ≠ i + 1 + r by omega]
      · by_cases hmid : k < i + 1 + r
        · simp [show k ≠ 0 by omega, hlow, hmid, show i + 1 ≤ k by omega,
            show k < i + 1 + (r + 1) by omega, show k ≠ i + 1 + r by omega]
        · by_cases heq : k = i + 1 + r
          · subst heq
            simp [show ¬i + 1 + r ≤ i by omega]
          · simp [show k ≠ 0 by omega, hlow, hmid, heq, show ¬k < i + 1 + (r + 1) by omega]

/-- **A slot becomes the first of those that are free.** -/
theorem view_remove (hi : i < size x) (hx : size x ≤ width) :
    view (remove x i) = (view x).remove i := by
  have hi' : i < width := Nat.lt_of_lt_of_le hi hx
  apply view_eq
  · simp only [width] at *
    simp [Permuter.remove, view, List.length_insertIdx, List.length_eraseIdx, width, hi']
    omega
  · rw [size_eq, dig_remove hi hx (by decide)]
    rfl
  · intro k hk
    rw [Permuter.slot_remove (length_view x) hi hx hk, slot_eq,
      dig_remove hi hx (by simp only [width] at hk; omega), if_neg (Nat.succ_ne_zero k)]
    change _ = if k < i then _ else if k + 1 < size x then _ else if k + 1 = size x then _ else _
    by_cases hlow : k < i
    · rw [if_pos (by omega), if_pos hlow, slot_view x hk, slot_eq]
    · rw [if_neg (by omega), if_neg hlow]
      by_cases hmid : k + 1 < size x
      · rw [if_pos hmid, if_pos hmid, slot_view x (by omega), slot_eq]
      · rw [if_neg hmid, if_neg hmid]
        split
        · rw [slot_view x hi', slot_eq]
        · rw [slot_view x hk, slot_eq]

theorem dig_removeToBack (hi : i < width) (hx : 0 < size x) (hk : k < 16) :
    digit 4 k (removeToBack x i) =
      if k = 0 then size x - 1
      else if k ≤ i then digit 4 k x
      else if k < 15 then digit 4 (k + 1) x else digit 4 (i + 1) x := by
  simp only [width] at *
  have hsub := digit_sub_one (i := k) x (by decide) (size_eq x ▸ hx)
  have hall : x &&& mask 64 (4 * (15 + 1)) = x := by
    have hones : mask 64 (4 * (15 + 1)) = BitVec.allOnes 64 := by decide
    rw [hones, BitVec.and_allOnes]
  unfold removeToBack
  simp only [width]
  rw [sixteen_mask (by decide), hall, sixteen_mask (by omega), BitVec.not_not, shiftLeft_two,
    digit_or, digit_or, digit_and_mask, digit_and_not_mask, digit_shiftRight k 1,
    digit_shiftLeft _ (by omega), digit_and_not_mask, hsub, ← size_eq]
  have hback : (if k < 15 - i - 1 then 0 else
      if k - (15 - i - 1) < i + 1 then 0 else digit 4 (k - (15 - i - 1)) x) =
      if k = 15 then digit 4 (i + 1) x else 0 := by
    by_cases hlast : k = 15
    · subst hlast
      rw [if_neg (by omega), if_neg (by omega), if_pos rfl, show 15 - (15 - i - 1) = i + 1 by omega]
    · rw [if_neg hlast]
      split
      · rfl
      · rw [if_pos (by omega)]
  rw [hback]
  rcases Nat.eq_zero_or_pos k with rfl | hk0
  · simp
  · by_cases hlow : k ≤ i
    · simp [show k ≠ 0 by omega, hlow, show k < i + 1 by omega, show k ≠ 15 by omega]
    · by_cases hmid : k < 15
      · simp [show k ≠ 0 by omega, hlow, hmid, show ¬k < i + 1 by omega, show k ≠ 15 by omega]
      · obtain rfl : k = 15 := by omega
        have hnone : digit 4 (15 + 1) x = 0 := digit_of_le (by decide)
        simp [hlow, show ¬15 < i + 1 by omega, hnone]

/-- **A slot becomes the next to be handed out.** -/
theorem view_removeToBack (hi : i < width) (hx : 0 < size x) :
    view (removeToBack x i) = (view x).removeToBack i := by
  apply view_eq
  · simp only [width] at *
    simp [Permuter.removeToBack, view, List.length_eraseIdx, width, hi]
  · rw [size_eq, dig_removeToBack hi hx (by decide)]
    rfl
  · intro k hk
    rw [Permuter.slot_removeToBack (length_view x) hi hk, slot_eq,
      dig_removeToBack hi hx (by simp only [width] at hk; omega), if_neg (Nat.succ_ne_zero k)]
    change (if k + 1 ≤ i then _ else if k + 1 < width then _ else _) = _
    by_cases hlow : k < i
    · rw [if_pos (by omega), if_pos hlow, slot_view x hk, slot_eq]
    · rw [if_neg (by omega), if_neg hlow]
      by_cases hmid : k + 1 < width
      · rw [if_pos hmid, if_pos hmid, slot_view x hmid, slot_eq]
      · rw [if_neg hmid, if_neg hmid, slot_view x hi, slot_eq]

theorem dig_exchange (hi : i < width) (hk : k < 16) :
    digit 4 k (exchange x i j) =
      if k = j + 1 then digit 4 (i + 1) x else if k = i + 1 then digit 4 (j + 1) x
      else digit 4 k x := by
  simp only [width] at *
  have hmask : 240#64 = mask 64 (4 * 1) <<< (4 * 1) := by decide
  -- the second digit of the difference is that of the two slots, the others are zero
  have hdiff (m : ℕ) : digit 4 m (((x >>> (4 * i)) ^^^ (x >>> (4 * j))) &&& 240#64) =
      if m = 1 then digit 4 (i + 1) x ^^^ digit 4 (j + 1) x else 0 := by
    rw [hmask, digit_and_band, digit_xor, digit_shiftRight, digit_shiftRight]
    by_cases hm : m = 1
    · subst hm
      simp [Nat.add_comm]
    · rw [if_neg (by omega), if_neg hm]
  have hmoved (m : ℕ) (y : BitVec 64) : digit 4 k (y <<< (4 * m)) =
      if k < m then 0 else digit 4 (k - m) y := digit_shiftLeft y (by omega)
  unfold exchange
  dsimp only
  rw [shiftLeft_two, shiftLeft_two, digit_xor, digit_or, hmoved, hmoved, hdiff, hdiff]
  have hat (m : ℕ) (d : ℕ) : (if k < m then 0 else if k - m = 1 then d else 0) =
      if k = m + 1 then d else 0 := by
    split
    · rw [if_neg (by omega)]
    · split
      · rw [if_pos (by omega)]
      · rw [if_neg (by omega)]
  rw [hat, hat]
  by_cases hkj : k = j + 1
  · subst hkj
    by_cases hij : j = i
    · subst hij
      simp
    · rw [if_neg (by omega), if_pos rfl, if_pos rfl, Nat.zero_or,
        Nat.xor_comm (digit 4 (i + 1) x), ← Nat.xor_assoc, Nat.xor_self, Nat.zero_xor]
  · by_cases hki : k = i + 1
    · subst hki
      rw [if_pos rfl, if_neg hkj, if_neg hkj, if_pos rfl, Nat.or_zero, ← Nat.xor_assoc]
      simp
    · simp [hkj, hki]

/-- **Two slots change places.** -/
theorem view_exchange (hi : i < width) (hj : j < width) :
    view (exchange x i j) = (view x).exchange i j := by
  apply view_eq
  · simp [Permuter.exchange, view]
  · rw [size_eq, dig_exchange hi (by decide), if_neg (by omega), if_neg (by omega), ← size_eq]
    rfl
  · intro k hk
    rw [Permuter.slot_exchange (length_view x) hi hj hk, slot_eq,
      dig_exchange hi (by simp only [width] at hk; omega), slot_view x hi, slot_view x hj,
      slot_view x hk, slot_eq, slot_eq, slot_eq]
    simp only [Nat.add_right_cancel_iff]

/-- **The size is set.** -/
theorem view_setSize {m : ℕ} (hm : m < 16) : view (setSize x m) = (view x).setSize m := by
  have hmask : 15#64 = mask 64 (4 * 1) := by decide
  have hdig (k : ℕ) : digit 4 k (setSize x m) = if k = 0 then m else digit 4 k x := by
    rw [setSize, hmask, digit_or, digit_and_not_mask, digit_ofNat hm (by decide)]
    rcases Nat.eq_zero_or_pos k with rfl | hk0
    · simp
    · simp [show k ≠ 0 by omega]
  apply view_eq
  · simp [Permuter.setSize, view]
  · rw [size_eq, hdig, if_pos rfl]
    rfl
  · intro k hk
    rw [slot_eq, hdig, if_neg (Nat.succ_ne_zero k), ← slot_eq]
    exact (slot_view x hk).symm

/-- **The slots in order.** -/
theorem view_makeSorted {m : ℕ} (hm : m ≤ width) :
    view (makeSorted m) = Permuter.makeSorted m := by
  have hall : ∀ m ≤ 15, view (makeSorted m) = Permuter.makeSorted m := by decide
  exact hall m hm

/-- What the loop of a split reads from `value_from`: the slots from position `i` on. -/
theorem toNat_valueFrom (x : KPermuter) (i k : ℕ) :
    ((valueFrom x i >>> (4 * k)) &&& 15#64).toNat = slot x (i + k) := by
  rw [toNat_and_fifteen, slot_eq, valueFrom, shiftLeft_two]
  have hdigit : digit 4 0 ((x >>> (4 * (i + 1))) >>> (4 * k)) = digit 4 (i + k + 1) x := by
    rw [digit_shiftRight, digit_shiftRight]
    congr 1
    omega
  rw [← hdigit]
  rfl

end KPermuter

/-! ### Runs -/

/-- The operations that change a permutation. -/
inductive PermuterOp
  | insertFromBack (i : ℕ)
  | remove (i : ℕ)
  | removeToBack (i : ℕ)
  | setSize (n : ℕ)
  | exchange (i j : ℕ)
  deriving DecidableEq, Repr

/-- What the operations presuppose of a permutation with `size` slots in use. -/
def PermuterOp.Allowed (size : ℕ) : PermuterOp → Prop
  | insertFromBack i => i < width ∧ size < width
  | remove i | removeToBack i => i < size
  | setSize n => n ≤ width
  | exchange i j => i < width ∧ j < width

instance (size : ℕ) : (op : PermuterOp) → Decidable (op.Allowed size)
  | .insertFromBack _ | .exchange _ _ => inferInstanceAs (Decidable (_ ∧ _))
  | .remove i | .removeToBack i => inferInstanceAs (Decidable (i < size))
  | .setSize n => inferInstanceAs (Decidable (n ≤ width))

/-- An operation on the word. -/
def PermuterOp.applyWord (x : KPermuter) : PermuterOp → KPermuter
  | insertFromBack i => x.insertFromBack i
  | remove i => x.remove i
  | removeToBack i => x.removeToBack i
  | setSize n => x.setSize n
  | exchange i j => x.exchange i j

/-- An operation on the list of slots. -/
def PermuterOp.apply (p : Permuter) : PermuterOp → Permuter
  | insertFromBack i => p.insertFromBack i
  | remove i => p.remove i
  | removeToBack i => p.removeToBack i
  | setSize n => p.setSize n
  | exchange i j => p.exchange i j

/-- A step on the word. -/
def wordStep (x : KPermuter) (op : PermuterOp) : Option KPermuter :=
  if op.Allowed x.size then some (op.applyWord x) else none

/-- A step on the list of slots. -/
def permuterStep (p : Permuter) (op : PermuterOp) : Option Permuter :=
  if op.Allowed p.size then some (op.apply p) else none

/-- Every slot is there once, and no more are in use than there are. -/
structure Permuter.Full (p : Permuter) : Prop where
  perm : p.slots.Perm (List.range width)
  size : p.size ≤ width

namespace Permuter

variable {p q : Permuter} {op : PermuterOp}

theorem Full.length (h : p.Full) : p.slots.length = width := by
  rw [h.perm.length_eq, List.length_range]

theorem slot_eq_getElem (h : p.slots.length = width) {i : ℕ} (hi : i < width) :
    p.slot i = p.slots[i] := by
  simp [slot, h, hi]

/-- No operation loses a slot or doubles one. -/
theorem Full.step (h : p.Full) (hstep : permuterStep p op = some q) : q.Full := by
  have hlen := h.length
  unfold permuterStep at hstep
  split at hstep
  · rename_i hallowed
    cases hstep
    cases op with
    | insertFromBack i =>
      refine ⟨?_, hallowed.2⟩
      have hne : p.slots ≠ [] := by
        intro h0
        rw [h0] at hlen
        cases hlen
      have hback : p.back = p.slots.getLast hne := by
        rw [back, slot_eq_getElem hlen (by decide), List.getLast_eq_getElem]
        simp only [hlen]
      have hinsert : (p.slots.dropLast.insertIdx i p.back).Perm (p.back :: p.slots.dropLast) := by
        apply List.perm_insertIdx
        rw [List.length_dropLast, hlen]
        exact Nat.le_pred_of_lt hallowed.1
      have hlast : (p.back :: p.slots.dropLast).Perm (p.slots.dropLast ++ [p.back]) :=
        (List.perm_append_singleton _ _).symm
      have hall : p.slots.dropLast ++ [p.back] = p.slots := by
        rw [hback]
        exact List.dropLast_append_getLast hne
      rw [hall] at hlast
      exact (hinsert.trans hlast).trans h.perm
    | remove i =>
      have hi : i < width := Nat.lt_of_lt_of_le hallowed h.size
      refine ⟨?_, Nat.le_trans (Nat.sub_le _ _) h.size⟩
      have hinsert : ((p.slots.eraseIdx i).insertIdx (p.size - 1) (p.slot i)).Perm
          (p.slot i :: p.slots.eraseIdx i) := by
        apply List.perm_insertIdx
        rw [List.length_eraseIdx_of_lt (hlen ▸ hi), hlen]
        exact Nat.sub_le_sub_right h.size 1
      rw [slot_eq_getElem hlen hi] at hinsert
      have hcons := List.getElem_cons_eraseIdx_perm (hlen ▸ hi : i < p.slots.length)
      rw [← slot_eq_getElem hlen hi] at hinsert hcons
      exact (hinsert.trans hcons).trans h.perm
    | removeToBack i =>
      have hi : i < width := Nat.lt_of_lt_of_le hallowed h.size
      refine ⟨?_, Nat.le_trans (Nat.sub_le _ _) h.size⟩
      have hcons := List.getElem_cons_eraseIdx_perm (hlen ▸ hi : i < p.slots.length)
      rw [← slot_eq_getElem hlen hi] at hcons
      exact ((List.perm_append_singleton _ _).trans hcons).trans h.perm
    | setSize n => exact ⟨h.perm, hallowed⟩
    | exchange i j =>
      refine ⟨?_, h.size⟩
      have hswap := @List.set_set_perm _ p.slots i j (hlen ▸ hallowed.1) (hlen ▸ hallowed.2)
      rw [← slot_eq_getElem hlen hallowed.1, ← slot_eq_getElem hlen hallowed.2] at hswap
      exact hswap.trans h.perm
  · cases hstep

theorem full_makeSorted {n : ℕ} (hn : n ≤ width) : (makeSorted n).Full := by
  have hall : ∀ n ≤ 15, (makeSorted n).slots.Perm (List.range 15) := by decide
  exact ⟨hall n hn, hn⟩

theorem Full.slot_inj (h : p.Full) {j k : ℕ} (hj : j < width) (hk : k < width)
    (heq : p.slot j = p.slot k) : j = k := by
  have hnodup : p.slots.Nodup := h.perm.nodup_iff.mpr List.nodup_range
  rw [slot_eq_getElem h.length hj, slot_eq_getElem h.length hk] at heq
  exact (List.Nodup.getElem_inj_iff hnodup).mp heq

theorem Full.mem_used (h : p.Full) {q : ℕ} : q ∈ p.used ↔ ∃ k < p.size, p.slot k = q := by
  have hlen : p.used.length = p.size := by
    rw [used, List.length_take, h.length]
    exact min_eq_left h.size
  have hget {k : ℕ} (hk : k < p.used.length) : p.used[k] = p.slot k := by
    have hw : k < width := Nat.lt_of_lt_of_le (hlen ▸ hk) h.size
    rw [slot_eq_getElem h.length hw]
    simp [used]
  rw [List.mem_iff_getElem]
  constructor
  · rintro ⟨k, hk, heq⟩
    exact ⟨k, hlen ▸ hk, (hget hk).symm.trans heq⟩
  · rintro ⟨k, hk, heq⟩
    exact ⟨k, hlen.symm ▸ hk, (hget (hlen.symm ▸ hk)).trans heq⟩

/-- The slot that is handed out next is free. -/
theorem Full.back_notMem_used (h : p.Full) (hsize : p.size < width) : p.back ∉ p.used := by
  intro hmem
  obtain ⟨k, hk, heq⟩ := h.mem_used.mp hmem
  have hkw : k < width := Nat.lt_trans hk hsize
  have hback : k = width - 1 := h.slot_inj hkw (by decide) heq
  simp only [width] at hsize hback
  omega

end Permuter

/-- A step on the word is a step on the permutation that it stands for. -/
theorem permuterStep_view {x : KPermuter} (op : PermuterOp) (hx : x.size ≤ width) :
    permuterStep x.view op = (wordStep x op).map KPermuter.view := by
  have hsize : x.view.size = x.size := rfl
  unfold permuterStep wordStep
  rw [hsize]
  split
  · rename_i hallowed
    rw [Option.map_some]
    congr 1
    cases op with
    | insertFromBack i => exact (KPermuter.view_insertFromBack hallowed.1 hallowed.2).symm
    | remove i => exact (KPermuter.view_remove hallowed hx).symm
    | removeToBack i =>
      have hi : i < width := Nat.lt_of_lt_of_le hallowed hx
      exact (KPermuter.view_removeToBack hi (Nat.zero_lt_of_lt hallowed)).symm
    | setSize n => exact (KPermuter.view_setSize (Nat.lt_succ_of_le hallowed)).symm
    | exchange i j => exact (KPermuter.view_exchange hallowed.1 hallowed.2).symm
  · rfl

/-- **The word keeps a permutation.**  From the sorted word with `n` slots in use on, the runs on
the word are the runs on the list of slots, and at every time each of the fifteen slots is there
once. -/
theorem run_permuter {n : ℕ} (hn : n ≤ width) (ops : List PermuterOp) :
    Trace.run permuterStep (Permuter.makeSorted n) ops =
        (Trace.run wordStep (KPermuter.makeSorted n) ops).map KPermuter.view ∧
      Trace.Always wordStep (fun x => x.view.Full) (KPermuter.makeSorted n) ops := by
  have hfull : (KPermuter.makeSorted n).view.Full := by
    rw [KPermuter.view_makeSorted hn]
    exact Permuter.full_makeSorted hn
  rw [← KPermuter.view_makeSorted hn]
  generalize KPermuter.makeSorted n = x at hfull
  induction ops generalizing x with
  | nil => exact ⟨rfl, Trace.always_nil.mpr hfull⟩
  | cons op ops ih =>
    have hstep := permuterStep_view op hfull.size
    rw [Trace.run_cons, Trace.run_cons, hstep]
    cases hword : wordStep x op with
    | none => exact ⟨rfl, (Trace.always_cons_of_none hword).mpr hfull⟩
    | some y =>
      rw [hword] at hstep
      have hnext : y.view.Full := hfull.step hstep
      obtain ⟨hrun, halways⟩ := ih y hnext
      exact ⟨hrun, (Trace.always_cons_of_step hword).mpr ⟨hfull, halways⟩⟩

/-- A leaf that takes three keys, removes one of them and is split. -/
theorem run_permuter_split :
    Trace.run permuterStep (Permuter.makeSorted 0) [.insertFromBack 0, .insertFromBack 0,
        .insertFromBack 1, .remove 1, .setSize 1, .exchange 1 14] =
      (Trace.run wordStep (KPermuter.makeSorted 0) [.insertFromBack 0, .insertFromBack 0,
        .insertFromBack 1, .remove 1, .setSize 1, .exchange 1 14]).map KPermuter.view :=
  (run_permuter (Nat.zero_le width) _).1

end Sidle.Masstree
