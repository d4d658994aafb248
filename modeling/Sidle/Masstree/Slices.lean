import Sidle.Masstree.Key

/-!
# The slices of a key

A layer of the tree orders its keys by a slice, the next eight bytes as a number.  A key that ends
within the slice is filled up with zeros, so that it is its slice and its length together that say
which key it is.

## Main results

* `slice_makeComparable` — the bytes of a slice are those of the key.
* `take_eq_of_makeComparable`, `eq_of_makeComparable` — what two keys with the same slice share.
-/

namespace Sidle.Masstree

variable {s t w : Str}

theorem makeComparable_eq (s : Str) : makeComparable s =
    ((((((((s.getD 0 0).toNat * 256 + (s.getD 1 0).toNat) * 256 + (s.getD 2 0).toNat) * 256 +
      (s.getD 3 0).toNat) * 256 + (s.getD 4 0).toNat) * 256 + (s.getD 5 0).toNat) * 256 +
        (s.getD 6 0).toNat) * 256 + (s.getD 7 0).toNat) := by
  have hrange : List.range 8 = [0, 1, 2, 3, 4, 5, 6, 7] := rfl
  simp only [makeComparable, hrange, List.foldl_cons, List.foldl_nil, Nat.zero_mul, Nat.zero_add]

theorem makeComparable_lt (s : Str) : makeComparable s < 2 ^ 64 := by
  have hlt (i : ℕ) : (s.getD i 0).toNat < 256 := UInt8.toNat_lt _
  have h₀ := hlt 0
  have h₁ := hlt 1
  have h₂ := hlt 2
  have h₃ := hlt 3
  have h₄ := hlt 4
  have h₅ := hlt 5
  have h₆ := hlt 6
  have h₇ := hlt 7
  rw [makeComparable_eq]
  omega

/-- The bytes of the slice are those of the key, and zeros behind its end. -/
theorem slice_makeComparable (s : Str) :
    slice (makeComparable s) = (List.range 8).map fun i => s.getD i 0 := by
  have hbyte {n : ℕ} {b : UInt8} (h : n % 256 = b.toNat) : UInt8.ofNat n = b := by
    apply UInt8.toNat_inj.mp
    rw [UInt8.toNat_ofNat', h]
  have hrange : List.range 8 = [0, 1, 2, 3, 4, 5, 6, 7] := rfl
  rw [makeComparable_eq, slice, hrange]
  simp only [List.map_cons, List.map_nil, Nat.reduceSub, Nat.reducePow, Nat.div_one]
  generalize s.getD 0 0 = b₀, s.getD 1 0 = b₁, s.getD 2 0 = b₂, s.getD 3 0 = b₃, s.getD 4 0 = b₄,
    s.getD 5 0 = b₅, s.getD 6 0 = b₆, s.getD 7 0 = b₇
  have h₀ := b₀.toNat_lt
  have h₁ := b₁.toNat_lt
  have h₂ := b₂.toNat_lt
  have h₃ := b₃.toNat_lt
  have h₄ := b₄.toNat_lt
  have h₅ := b₅.toNat_lt
  have h₆ := b₆.toNat_lt
  have h₇ := b₇.toNat_lt
  rw [hbyte (b := b₀) (by omega), hbyte (b := b₁) (by omega), hbyte (b := b₂) (by omega),
    hbyte (b := b₃) (by omega), hbyte (b := b₄) (by omega), hbyte (b := b₅) (by omega),
    hbyte (b := b₆) (by omega), hbyte (b := b₇) (by omega)]

/-- Behind its end a key is filled up with zeros. -/
theorem slice_makeComparable_eq_append (s : Str) :
    slice (makeComparable s) = s.take 8 ++ List.replicate (8 - s.length) 0 := by
  rw [slice_makeComparable]
  apply List.ext_getElem?
  intro i
  rw [List.getElem?_map, List.getElem?_append, List.length_take, List.getElem?_replicate,
    List.getElem?_take]
  by_cases hi : i < 8
  · rw [List.getElem?_range hi, Option.map_some, List.getD_eq_getElem?_getD]
    by_cases hs : i < s.length
    · rw [if_pos (by omega), if_pos hi, List.getElem?_eq_getElem hs, Option.getD_some]
    · rw [if_neg (by omega), List.getElem?_eq_none (Nat.le_of_not_lt hs), if_pos (by omega)]
      rfl
  · rw [List.getElem?_eq_none (by simpa using hi), if_neg (by omega), if_neg (by omega)]
    rfl

/-- A whole slice is the first eight bytes of the key. -/
theorem slice_makeComparable_of_le (h : ikeySize ≤ s.length) :
    slice (makeComparable s) = s.take 8 := by
  have hzero : 8 - s.length = 0 := Nat.sub_eq_zero_of_le h
  rw [slice_makeComparable_eq_append, hzero, List.replicate_zero, List.append_nil]

/-- Two keys that go beyond the same slice start with the same bytes. -/
theorem take_eq_of_makeComparable (heq : makeComparable s = makeComparable t)
    (hs : ikeySize ≤ s.length) (ht : ikeySize ≤ t.length) : s.take 8 = t.take 8 := by
  rw [← slice_makeComparable_of_le hs, heq, slice_makeComparable_of_le ht]

/-- Two keys with the same slice that end within it, and are of the same length, are the same. -/
theorem eq_of_makeComparable (heq : makeComparable s = makeComparable t)
    (hlen : s.length = t.length) (hs : s.length ≤ ikeySize) : s = t := by
  have hslice := congrArg slice heq
  rw [slice_makeComparable_eq_append, slice_makeComparable_eq_append, hlen,
    List.append_cancel_right_eq] at hslice
  have ht : t.length ≤ 8 := hlen ▸ hs
  rwa [List.take_of_length_le (show s.length ≤ 8 from hs), List.take_of_length_le ht] at hslice

/-- Only the first eight bytes make up the slice. -/
theorem makeComparable_append (h : ikeySize ≤ w.length) (s : Str) :
    makeComparable (w ++ s) = makeComparable w := by
  have hget {i : ℕ} (hi : i < 8) : (w ++ s).getD i 0 = w.getD i 0 := by
    have hw : i < w.length := Nat.lt_of_lt_of_le hi h
    rw [List.getD_eq_getElem?_getD, List.getD_eq_getElem?_getD, List.getElem?_append_left hw]
  rw [makeComparable_eq, makeComparable_eq, hget (by decide), hget (by decide), hget (by decide),
    hget (by decide), hget (by decide), hget (by decide), hget (by decide), hget (by decide)]

/-- Two keys that start with the same eight bytes have the same slice. -/
theorem makeComparable_eq_of_take (hs : ikeySize ≤ s.length) (ht : ikeySize ≤ t.length)
    (h : s.take 8 = t.take 8) : makeComparable s = makeComparable t := by
  have hlen {u : Str} (hu : ikeySize ≤ u.length) : ikeySize ≤ (u.take 8).length := by
    rw [List.length_take]
    exact le_min (Nat.le_refl _) hu
  rw [← List.take_append_drop 8 s, ← List.take_append_drop 8 t, makeComparable_append (hlen hs),
    makeComparable_append (hlen ht), h]

end Sidle.Masstree
