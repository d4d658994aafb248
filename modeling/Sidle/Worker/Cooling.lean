import Mathlib.Tactic.Push
import Sidle.Worker.Histogram

/-!
# Cooling

The cooler halves the access count of every leaf and then ages the histogram, which it
does not build anew: the buckets move down by one, and the thresholds are halved.  The two
agree on a leaf whose halved count belongs one bucket below the old one.  This is so for
most counts.  It is not so for the lowest bucket, which is overwritten, nor at three kinds
of edges: bucket zero takes the count one although `get_idx` would not, the bucket of
`2 ^ k - 2` is that of its half, and the increment in `get_idx` wraps around.

## Main definitions

* `coolDown` — `cool_down_cb` on the count of one leaf.
* `SidleHistogram.build` — the histogram of a list of counts, by `update` and `refresh`.
* `SidleHistogram.adjustForCooling` — `adjust_for_cooling`.
* `AgesEvenly` — the counts on which the two ways to age agree.

## Main results

* `adjustForCooling_build_iff` — the aged histogram is the histogram of the halved counts,
  and counts every leaf, just when every count ages evenly.
-/

namespace Sidle

/-- `cool_down_cb`: the access count of a leaf is halved. -/
def coolDown (accessTime : ℕ) : ℕ := accessTime >>> 1

/-- The loop of `adjust_for_cooling` from bucket `i` on, `rounds` buckets far: every bucket
takes over the count of the next one. -/
def shiftLoop : (rounds i : ℕ) → i + rounds ≤ 15 → (Fin 16 → ℕ) → Fin 16 → ℕ
  | 0, _, _, counts => counts
  | rounds + 1, i, h, counts =>
    shiftLoop rounds (i + 1) (by omega)
      (Function.update counts ⟨i, by omega⟩ (counts ⟨i + 1, by omega⟩))

namespace SidleHistogram

/-- The histogram of one round over a list of access counts. -/
def build (h : SidleHistogram) (counts : List ℕ) : SidleHistogram :=
  (counts.foldl (fun h c => (h.update c).2) h).refresh counts.length counts.sum

/-- `adjust_for_cooling`. -/
def adjustForCooling (h : SidleHistogram) : SidleHistogram :=
  { h with
    histogram := Function.update (shiftLoop 15 0 (by decide) h.histogram) 15 0
    hotThreshold := h.hotThreshold >>> 1
    coldThreshold := h.coldThreshold >>> 1 }

end SidleHistogram

/-- The halved count belongs into the bucket below that of the count: it is in neither of
the lowest buckets nor at one of the edges where halving skips a bucket, stays in its
bucket, or the increment of `get_idx` wraps around. -/
def AgesEvenly (c : ℕ) : Prop :=
  2 ≤ c ∧ c ≠ 3 ∧ c + 1 ≠ 2 ^ 16 ∧ ∀ k, 3 ≤ k → c + 2 ≠ 2 ^ k

/-! ### The shifted buckets -/

theorem shiftLoop_apply {rounds i : ℕ} (h : i + rounds ≤ 15) (counts : Fin 16 → ℕ) (j : Fin 16) :
    shiftLoop rounds i h counts j =
      if hj : i ≤ j.val ∧ j.val < i + rounds then counts ⟨j.val + 1, by omega⟩ else counts j := by
  induction rounds generalizing i counts with
  | zero => rw [dif_neg (by omega)]; rfl
  | succ rounds ih =>
    rw [shiftLoop, ih (by omega)]
    by_cases hij : j.val = i
    · -- the bucket that this round writes is not touched again
      subst hij
      rw [dif_neg (by omega), dif_pos (by omega)]
      exact Function.update_self ..
    · by_cases hj : i + 1 ≤ j.val ∧ j.val < i + 1 + rounds
      · rw [dif_pos hj, dif_pos (by omega), Function.update_of_ne]
        exact fun heq => absurd (congrArg Fin.val heq) (by simp only; omega)
      · rw [dif_neg hj, dif_neg (by omega), Function.update_of_ne]
        exact fun heq => hij (congrArg Fin.val heq)

theorem adjustForCooling_histogram (h : SidleHistogram) (j : Fin 16) :
    h.adjustForCooling.histogram j =
      if hj : j.val < 15 then h.histogram ⟨j.val + 1, by omega⟩ else 0 := by
  change Function.update (shiftLoop 15 0 (by decide) h.histogram) 15 0 j = _
  by_cases hj : j.val < 15
  · have hne : j ≠ 15 := by
      rintro rfl
      exact absurd hj (by decide)
    rw [dif_pos hj, Function.update_of_ne hne, shiftLoop_apply, dif_pos (by omega)]
  · obtain rfl : j = 15 := Fin.ext (show j.val = 15 by omega)
    rw [dif_neg hj, Function.update_self]

theorem tail_seventeen (counts : Fin 16 → ℕ) : tail counts 17 = 0 := by
  have hanti := tail_anti counts (Nat.le_succ 16)
  rw [tail_sixteen] at hanti
  exact Nat.le_zero.mp hanti

/-- The buckets from `i` on hold after the cooling what those from `i + 1` on held. -/
theorem tail_adjustForCooling (h : SidleHistogram) {i : ℕ} (hi : i ≤ 16) :
    tail h.adjustForCooling.histogram i = tail h.histogram (i + 1) := by
  induction hi using Nat.decreasingInduction with
  | self =>
    rw [tail_sixteen, tail_seventeen]
  | of_succ i hi ih =>
    rw [tail_eq _ hi, ih, adjustForCooling_histogram]
    by_cases h15 : i < 15
    · rw [dif_pos h15, tail_eq h.histogram (i := i + 1) (by omega)]
    · obtain rfl : i = 15 := by omega
      rw [dif_neg h15, Nat.zero_add, tail_sixteen, tail_seventeen]

/-- The counts that the buckets from `i` on hold in the histogram of a list. -/
theorem tail_build {h : SidleHistogram} (hnext : h.nextHistogram = fun _ => 0) (counts : List ℕ)
    (i : ℕ) :
    tail (h.build counts).histogram i = counts.countP fun c => decide (i ≤ (bucket c).val) := by
  have hzero : tail (fun _ => 0) i = 0 := Finset.sum_eq_zero fun _ _ => rfl
  rw [← Nat.zero_add (counts.countP _), ← hzero, ← hnext]
  exact tail_foldl_update h counts i

theorem eq_of_tail_eq {f g : Fin 16 → ℕ} (h : ∀ i ≤ 15, tail f i = tail g i) : f = g := by
  funext ⟨j, hj⟩
  have hhere := h j (by omega)
  have hnext : tail f (j + 1) = tail g (j + 1) := by
    by_cases hj15 : j = 15
    · subst hj15
      rw [tail_sixteen, tail_sixteen]
    · exact h (j + 1) (by omega)
  rw [tail_eq f hj, tail_eq g hj] at hhere
  omega

theorem sum_eq_tail (f : Fin 16 → ℕ) : ∑ j, f j = tail f 0 := by
  unfold tail
  rw [Finset.filter_true_of_mem fun j _ => Nat.zero_le j.val]

/-! ### Counts that age evenly -/

/-- A class that is contained in another one and has as many members of the list is the
same on the list. -/
theorem imp_of_countP_eq {p q : ℕ → Prop} [DecidablePred p] [DecidablePred q] {l : List ℕ}
    (himp : ∀ c ∈ l, p c → q c)
    (hcount : l.countP (fun c => decide (p c)) = l.countP fun c => decide (q c)) :
    ∀ c ∈ l, q c → p c := by
  induction l with
  | nil => exact fun c hc => absurd hc List.not_mem_nil
  | cons a l ih =>
    have hle : l.countP (fun c => decide (p c)) ≤ l.countP fun c => decide (q c) :=
      List.countP_mono_left fun c hc hpc =>
        decide_eq_true (himp c (List.mem_cons_of_mem a hc) (of_decide_eq_true hpc))
    have hhead := himp a List.mem_cons_self
    rw [List.countP_cons, List.countP_cons] at hcount
    simp only [decide_eq_true_eq] at hcount
    have hrest : l.countP (fun c => decide (p c)) = l.countP fun c => decide (q c) := by
      split at hcount <;> split at hcount <;> grind
    intro c hc hqc
    cases List.mem_cons.mp hc with
    | inl heq =>
      subst heq
      by_contra hpc
      rw [hrest, if_neg hpc, if_pos hqc] at hcount
      omega
    | inr hmem => exact ih (fun c hc => himp c (List.mem_cons_of_mem a hc)) hrest c hmem hqc

theorem le_bucket_sixteen {c i : ℕ} (hi : i ≤ 16) (hc : c + 1 < 2 ^ 16) :
    i ≤ (bucket c).val ↔ bucketFloor i ≤ c := by
  by_cases h16 : i = 16
  · subst h16
    have hlt := (bucket c).isLt
    have hfloor : bucketFloor 16 = 2 ^ 16 - 1 := by decide
    exact iff_of_false (by omega) (by omega)
  · exact le_bucket (by omega) hc

theorem bucket_wrapped : bucket (2 ^ 16 - 1) = 0 := by decide

/-- The lowest bucket, which the cooling drops. -/
theorem one_le_bucket {c : ℕ} (hc : c < 2 ^ 16) : 1 ≤ (bucket c).val ↔ 2 ≤ c ∧ c + 1 ≠ 2 ^ 16 := by
  by_cases hwrap : c + 1 = 2 ^ 16
  · obtain rfl : c = 2 ^ 16 - 1 := by omega
    rw [bucket_wrapped]
    exact iff_of_false (by simp) (by omega)
  · rw [le_bucket_sixteen (by decide) (by omega)]
    simp only [bucketFloor, ↓reduceIte]
    omega

section Levels

variable {c : ℕ} (hc : c + 1 < 2 ^ 16)
include hc

/-- At the edge of bucket one the halved count falls too far. -/
theorem level_one : 2 ≤ (bucket c).val ↔ 1 ≤ (bucket (coolDown c)).val ∨ c = 3 := by
  rw [coolDown, Nat.shiftRight_one, le_bucket_sixteen (by decide) hc,
    le_bucket_sixteen (by decide) (by omega), show bucketFloor 2 = 3 by decide,
    show bucketFloor 1 = 2 by decide]
  omega

/-- At the edge of a higher bucket the halved count does not fall at all. -/
theorem level_succ {i : ℕ} (h2 : 2 ≤ i) (hi : i ≤ 15) :
    i ≤ (bucket (coolDown c)).val ↔ i + 1 ≤ (bucket c).val ∨ c + 2 = 2 ^ (i + 1) := by
  have hpos : 0 < 2 ^ i := Nat.two_pow_pos i
  rw [coolDown, Nat.shiftRight_one, le_bucket_sixteen (by omega) hc,
    le_bucket_sixteen (by omega) (by omega)]
  simp only [bucketFloor]
  rw [if_neg (by omega), if_neg (by omega), Nat.pow_succ]
  omega

end Levels

/-- The halved count is in bucket `i` or above just when the count is above it. -/
theorem levels_of_agesEvenly {c i : ℕ} (hc : c < 2 ^ 16) (h : AgesEvenly c) (hi : i ≤ 15) :
    i + 1 ≤ (bucket c).val ↔ i ≤ (bucket (coolDown c)).val := by
  obtain ⟨h2, h3, hwrap, hpow⟩ := h
  match i, hi with
  | 0, _ => exact iff_of_true ((one_le_bucket hc).mpr ⟨h2, hwrap⟩) (Nat.zero_le _)
  | 1, _ =>
    rw [level_one (by omega)]
    simp [h3]
  | i + 2, hi =>
    rw [level_succ (by omega) (by omega) hi]
    simp [hpow (i + 2 + 1) (by omega)]

/-- **Cooling.**  The aged histogram of a list of access counts is the histogram of the
halved counts, and counts every leaf, just when every count ages evenly. -/
theorem adjustForCooling_build_iff (h : SidleHistogram) (hnext : h.nextHistogram = fun _ => 0)
    (counts : List ℕ) (hc : ∀ c ∈ counts, c < 2 ^ 16) :
    ((h.build counts).adjustForCooling.histogram = (h.build (counts.map coolDown)).histogram ∧
        ∑ j, (h.build counts).adjustForCooling.histogram j = counts.length) ↔
      ∀ c ∈ counts, AgesEvenly c := by
  have haged : ∀ i ≤ 15, tail (h.build counts).adjustForCooling.histogram i =
      counts.countP fun c => decide (i + 1 ≤ (bucket c).val) := fun i hi => by
    rw [tail_adjustForCooling _ (by omega), tail_build hnext]
  have hhalved : ∀ i, tail (h.build (counts.map coolDown)).histogram i =
      counts.countP fun c => decide (i ≤ (bucket (coolDown c)).val) := fun i => by
    rw [tail_build hnext, List.countP_map]
    rfl
  constructor
  · rintro ⟨heq, -⟩
    have hlevel : ∀ i ≤ 15, (counts.countP fun c => decide (i + 1 ≤ (bucket c).val)) =
        counts.countP fun c => decide (i ≤ (bucket (coolDown c)).val) := fun i hi => by
      rw [← haged i hi, heq, hhalved]
    -- the lowest bucket: no count may be lost
    have hlow := imp_of_countP_eq (fun _ _ _ => Nat.zero_le _) (hlevel 0 (by decide))
    have hbig : ∀ c ∈ counts, 2 ≤ c ∧ c + 1 ≠ 2 ^ 16 := fun c hmem =>
      (one_le_bucket (hc c hmem)).mp (hlow c hmem (Nat.zero_le _))
    have hc' : ∀ c ∈ counts, c + 1 < 2 ^ 16 := fun c hmem => by
      have := hc c hmem
      have := (hbig c hmem).2
      omega
    intro c hmem
    refine ⟨(hbig c hmem).1, fun h3 => ?_, (hbig c hmem).2, fun k hk hpow => ?_⟩
    · -- three is above bucket one, its half is in bucket zero
      have himp := imp_of_countP_eq
        (fun c hmem hle => (level_one (hc' c hmem)).mpr (.inl hle)) (hlevel 1 (by decide)).symm
      have hle := himp c hmem ((level_one (hc' c hmem)).mpr (.inr h3))
      subst h3
      exact absurd hle (by decide)
    · obtain ⟨i, rfl⟩ : ∃ i, k = i + 1 := ⟨k - 1, by omega⟩
      have hi : i ≤ 15 := by
        by_contra hgt
        have := Nat.pow_le_pow_right (n := 2) (by omega) (show 17 ≤ i + 1 by omega)
        have := hc' c hmem
        omega
      have himp := imp_of_countP_eq
        (fun c hmem hle => (level_succ (hc' c hmem) (by omega) hi).mpr (.inl hle)) (hlevel i hi)
      have hle := himp c hmem ((level_succ (hc' c hmem) (by omega) hi).mpr (.inr hpow))
      rw [le_bucket_sixteen (by omega) (hc' c hmem)] at hle
      simp only [bucketFloor] at hle
      rw [if_neg (by omega)] at hle
      omega
  · intro heven
    have hlevel : ∀ i ≤ 15, tail (h.build counts).adjustForCooling.histogram i =
        tail (h.build (counts.map coolDown)).histogram i := fun i hi => by
      rw [haged i hi, hhalved]
      refine List.countP_congr fun c hmem => ?_
      simp only [decide_eq_true_eq]
      exact levels_of_agesEvenly (hc c hmem) (heven c hmem) hi
    refine ⟨eq_of_tail_eq hlevel, ?_⟩
    rw [sum_eq_tail, hlevel 0 (by decide), hhalved, List.countP_eq_length]
    exact fun c _ => decide_eq_true (Nat.zero_le _)

/-- The histogram of the counts two, five and nine ages as the counts do. -/
theorem adjustForCooling_build_two_five_nine :
    (SidleHistogram.initial.build [2, 5, 9]).adjustForCooling.histogram =
        (SidleHistogram.initial.build [1, 2, 4]).histogram ∧
      ∑ j, (SidleHistogram.initial.build [2, 5, 9]).adjustForCooling.histogram j = 3 := by
  refine (adjustForCooling_build_iff SidleHistogram.initial rfl [2, 5, 9] (by decide)).mpr ?_
  have hpow : ∀ k, 3 ≤ k → 2 ^ 3 ∣ 2 ^ k := fun k hk => Nat.pow_dvd_pow 2 hk
  intro c hc
  have hcases : c = 2 ∨ c = 5 ∨ c = 9 := by simpa using hc
  refine ⟨by omega, by omega, by omega, fun k hk heq => ?_⟩
  have := hpow k hk
  omega

/-- A leaf that was never accessed leaves the histogram when it is aged. -/
theorem untouched_leaf_dropped :
    ¬ ∀ counts : List ℕ, (∀ c ∈ counts, c < 2 ^ 16) →
      (SidleHistogram.initial.build counts).adjustForCooling.histogram =
          (SidleHistogram.initial.build (counts.map coolDown)).histogram ∧
        ∑ j, (SidleHistogram.initial.build counts).adjustForCooling.histogram j =
          counts.length := by
  intro h
  exact absurd (h [0] (by decide)).2 (by decide)

end Sidle
