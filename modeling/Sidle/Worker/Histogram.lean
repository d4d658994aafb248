import Mathlib.Algebra.BigOperators.Fin
import Mathlib.Algebra.Order.BigOperators.Group.Finset
import Mathlib.Data.Int.Notation
import Mathlib.Data.List.Count

/-!
# The access histogram

The migration trigger sorts the access counts of the leaves into sixteen buckets, the
`i`-th of which stands for the counts with about `2 ^ i` accesses, and derives from them
the two thresholds by which it tells hot from warm and cold leaves.  The counters of the
source are 64 bits wide and never exceed the number of leaves; they are natural numbers
here, as are the percentages and the 16-bit access counts.

## Main definitions

* `SidleHistogram`, `update`, `refresh`, `adjustThreshold` — `sidle_histogram`.
* `triggerRound` — what one round of the migration trigger does to the histogram.
* `share` — the number of counts that fall into a class.
* `BoundaryMet` — more than the cold watermark is passed at the least count of a bucket.

## Main results

* `scan_spec` — the scan finds the highest buckets at which the two bounds are exceeded.
* `shares_bounded_iff` — when the shares of the hot and the cold leaves are bounded by
  the watermarks.
* `thresholds_ordered` — **the thresholds are in order**.
-/

namespace Sidle

/-- `sidle_histogram::type`. -/
inductive Hotness
  | hot
  | warm
  | cold
  deriving DecidableEq, Repr, Inhabited

/-! ### The buckets -/

/-- The loop of `get_idx`: `rounds` bounds the halvings of a 16-bit number. -/
def getIdxLoop : (rounds num cnt : ℕ) → ℕ
  | 0, _, cnt => cnt
  | rounds + 1, num, cnt =>
    if num >>> 1 ≠ 0 then
      if cnt + 1 = 15 then cnt + 1 else getIdxLoop rounds (num >>> 1) (cnt + 1)
    else cnt

/-- `get_idx`; the increment of its 16-bit argument wraps around. -/
def getIdx (num : ℕ) : ℕ := getIdxLoop 16 ((num + 1) % 2 ^ 16) 0

theorem getIdxLoop_lt (rounds num : ℕ) {cnt : ℕ} (h : cnt < 15) :
    getIdxLoop rounds num cnt < 16 := by
  induction rounds generalizing num cnt with
  | zero => exact Nat.lt_succ_of_lt h
  | succ rounds ih =>
    unfold getIdxLoop
    split
    · split
      · omega
      · exact ih _ (by omega)
    · omega

theorem getIdx_lt (num : ℕ) : getIdx num < 16 := getIdxLoop_lt 16 _ (by decide)

theorem self_le_getIdxLoop (rounds num cnt : ℕ) : cnt ≤ getIdxLoop rounds num cnt := by
  induction rounds generalizing num cnt with
  | zero => exact Nat.le_refl _
  | succ rounds ih =>
    unfold getIdxLoop
    split
    · split
      · omega
      · have := ih (num >>> 1) (cnt + 1)
        omega
    · exact Nat.le_refl _

/-- The loop counts the halvings that leave a number other than zero. -/
theorem le_getIdxLoop {rounds num cnt i : ℕ} (hr : 15 ≤ cnt + rounds) (hc : cnt < 15)
    (hi : i ≤ 15) (hci : cnt ≤ i) (hnum : 0 < num) :
    i ≤ getIdxLoop rounds num cnt ↔ 2 ^ (i - cnt) ≤ num := by
  induction rounds generalizing num cnt with
  | zero => omega
  | succ rounds ih =>
    cases Nat.eq_or_lt_of_le hci with
    | inl heq =>
      subst heq
      rw [Nat.sub_self, Nat.pow_zero]
      exact iff_of_true (self_le_getIdxLoop _ _ _) hnum
    | inr hlt =>
      obtain ⟨d, rfl⟩ : ∃ d, i = cnt + 1 + d := ⟨i - (cnt + 1), by omega⟩
      have hpow : 2 ^ (cnt + 1 + d - cnt) ≤ num ↔ 2 ^ d ≤ num / 2 := by
        rw [show cnt + 1 + d - cnt = d + 1 by omega, Nat.pow_succ, Nat.le_div_iff_mul_le (by omega)]
      have hpos : 0 < 2 ^ d := Nat.two_pow_pos d
      rw [hpow, getIdxLoop, Nat.shiftRight_one]
      split
      · rename_i hne
        split
        · have hd : d = 0 := by omega
          subst hd
          rw [Nat.pow_zero]
          exact iff_of_true (by omega) (by omega)
        · rw [ih (by omega) (by omega) (by omega) (by omega),
            show cnt + 1 + d - (cnt + 1) = d by omega]
      · omega

theorem le_getIdx {num i : ℕ} (hi : i ≤ 15) (hnum : num + 1 < 2 ^ 16) :
    i ≤ getIdx num ↔ 2 ^ i ≤ num + 1 := by
  rw [getIdx, Nat.mod_eq_of_lt hnum]
  exact le_getIdxLoop (by decide) (by decide) hi (Nat.zero_le i) (Nat.succ_pos num)

instance neZeroSixteen : NeZero 16 := ⟨by decide⟩

/-- The bucket of an access count. -/
def bucket (accessCount : ℕ) : Fin 16 :=
  if accessCount ≤ 1 then 0 else ⟨getIdx accessCount, getIdx_lt accessCount⟩

/-- The least access count of a bucket. -/
def bucketFloor (i : ℕ) : ℕ := if i = 1 then 2 else 2 ^ i - 1

theorem le_bucket {c i : ℕ} (hi : i ≤ 15) (hc : c + 1 < 2 ^ 16) :
    i ≤ (bucket c).val ↔ bucketFloor i ≤ c := by
  unfold bucket bucketFloor
  by_cases hc1 : c ≤ 1
  · rw [if_pos hc1]
    by_cases h1 : i = 1
    · subst h1
      simp
      omega
    · rw [if_neg h1]
      change i ≤ 0 ↔ _
      cases i with
      | zero => simp
      | succ i =>
        cases i with
        | zero => exact absurd rfl h1
        | succ i =>
          have hpos : 0 < 2 ^ i := Nat.two_pow_pos i
          rw [Nat.pow_succ, Nat.pow_succ]
          omega
  · rw [if_neg hc1]
    change i ≤ getIdx c ↔ _
    rw [le_getIdx hi hc]
    by_cases h1 : i = 1
    · subst h1
      simp
      omega
    · rw [if_neg h1]
      omega

/-! ### The histogram -/

/-- `sidle_histogram`: the counts of the last round, those of the round that is under
way, and the thresholds. -/
structure SidleHistogram where
  histogram : Fin 16 → ℕ
  nextHistogram : Fin 16 → ℕ
  hotThreshold : ℕ
  coldThreshold : ℕ
  totalNumber : ℕ
  totalAccessCount : ℕ

/-- The histogram that the constructor makes. -/
def SidleHistogram.initial : SidleHistogram := ⟨fun _ => 0, fun _ => 0, 128, 4, 0, 0⟩

/-- `++counts[i]`. -/
def increment (counts : Fin 16 → ℕ) (i : Fin 16) : Fin 16 → ℕ :=
  Function.update counts i (counts i + 1)

/-- The state of the scan in `adjust_threshold`. -/
structure Scan where
  activeCount : ℕ
  hotIndex : ℤ
  coldIndex : ℤ
  deriving DecidableEq, Repr

/-- The scan of `adjust_threshold` through the buckets below `index`, from the top. -/
def scan (histogram : Fin 16 → ℕ) (activeLowerBound inactiveUpperBound : ℕ) :
    (index : ℕ) → index ≤ 16 → Scan → Scan
  | 0, _, s => s
  | index + 1, h, s =>
    let count := s.activeCount + histogram ⟨index, h⟩
    let hotIndex := if count > activeLowerBound ∧ s.hotIndex = -1 then (index : ℤ) else s.hotIndex
    if count > inactiveUpperBound ∧ s.coldIndex = -1 then
      { s with hotIndex := hotIndex, coldIndex := index }
    else
      scan histogram activeLowerBound inactiveUpperBound index (Nat.le_of_succ_le h)
        { s with activeCount := count, hotIndex := hotIndex }

namespace SidleHistogram

variable (h : SidleHistogram)

/-- `update`: the class of a leaf by the thresholds of the last round, and the leaf
counted for the next one. -/
def update (accessCount : ℕ) : Hotness × SidleHistogram :=
  let h' := { h with nextHistogram := increment h.nextHistogram (bucket accessCount) }
  if accessCount > h.hotThreshold then (.hot, h')
  else if accessCount < h.coldThreshold then (.cold, h')
  else (.warm, h')

/-- `refresh`. -/
def refresh (totalNumber totalAccessCount : ℕ) : SidleHistogram :=
  { h with
    totalNumber := totalNumber
    totalAccessCount := totalAccessCount
    histogram := h.nextHistogram
    nextHistogram := fun _ => 0 }

/-- The two indices that `adjust_threshold` shifts by: where the scan of the buckets has stopped. -/
def shiftIndices (hotWatermark coldWatermark : ℕ) : ℤ × ℤ :=
  let activeLowerBound := hotWatermark * h.totalNumber / 100
  let inactiveUpperBound := (100 - coldWatermark) * h.totalNumber / 100
  let s := scan h.histogram activeLowerBound inactiveUpperBound 16 (Nat.le_refl 16) ⟨0, -1, -1⟩
  (if s.hotIndex ≠ 15 then s.hotIndex + 1 else s.hotIndex,
    if s.coldIndex = -1 then 0 else s.coldIndex)

/-- `adjust_threshold`, once no cooling is under way.  The thresholds have 16 bits. -/
def adjustThreshold (hotWatermark coldWatermark : ℕ) : SidleHistogram :=
  if h.totalNumber = 0 then h
  else
    { h with
      hotThreshold := (1 <<< (h.shiftIndices hotWatermark coldWatermark).1.toNat) % 2 ^ 16
      coldThreshold := (1 <<< (h.shiftIndices hotWatermark coldWatermark).2.toNat) % 2 ^ 16 }

theorem adjustThreshold_eq (hotWatermark coldWatermark : ℕ) (hn : h.totalNumber ≠ 0) :
    h.adjustThreshold hotWatermark coldWatermark =
      { h with
        hotThreshold := (1 <<< (h.shiftIndices hotWatermark coldWatermark).1.toNat) % 2 ^ 16
        coldThreshold := (1 <<< (h.shiftIndices hotWatermark coldWatermark).2.toNat) % 2 ^ 16 } :=
  if_neg hn

/-- One round of the migration trigger: every leaf is counted, then the histogram is
refreshed and the thresholds are adjusted. -/
def triggerRound (hotWatermark coldWatermark : ℕ) (counts : List ℕ) : SidleHistogram :=
  ((counts.foldl (fun h c => (h.update c).2) h).refresh counts.length counts.sum).adjustThreshold
    hotWatermark coldWatermark

/-- How many of the counts `update` puts into a class. -/
def share (counts : List ℕ) (class_ : Hotness) : ℕ :=
  counts.countP fun c => decide ((h.update c).1 = class_)

end SidleHistogram

/-! ### Tails of the histogram -/

/-- The number of leaves in the buckets from `i` upwards. -/
def tail (counts : Fin 16 → ℕ) (i : ℕ) : ℕ := ∑ j with i ≤ j.val, counts j

theorem tail_sixteen (counts : Fin 16 → ℕ) : tail counts 16 = 0 := by
  apply Finset.sum_eq_zero
  intro j hj
  have hle := (Finset.mem_filter.mp hj).2
  omega

theorem tail_eq (counts : Fin 16 → ℕ) {i : ℕ} (hi : i < 16) :
    tail counts i = counts ⟨i, hi⟩ + tail counts (i + 1) := by
  have hset : Finset.univ.filter (fun j : Fin 16 => i ≤ j.val) =
      insert ⟨i, hi⟩ (Finset.univ.filter fun j : Fin 16 => i + 1 ≤ j.val) := by
    ext j
    simp only [Finset.mem_filter, Finset.mem_univ, true_and, Finset.mem_insert, Fin.ext_iff]
    omega
  rw [tail, hset, Finset.sum_insert (by simp)]
  rfl

theorem tail_anti (counts : Fin 16 → ℕ) {i j : ℕ} (hij : i ≤ j) :
    tail counts j ≤ tail counts i := by
  apply Finset.sum_le_sum_of_subset
  intro k hk
  have hle := (Finset.mem_filter.mp hk).2
  exact Finset.mem_filter.mpr ⟨Finset.mem_univ k, by omega⟩

theorem tail_increment (counts : Fin 16 → ℕ) (b : Fin 16) (i : ℕ) :
    tail (increment counts b) i = tail counts i + if i ≤ b.val then 1 else 0 := by
  have hpoint : increment counts b = fun j => counts j + if b = j then 1 else 0 := by
    funext j
    unfold increment
    by_cases hj : b = j
    · subst hj
      simp
    · simp [Function.update_of_ne (Ne.symm hj), hj]
  rw [hpoint, tail, Finset.sum_add_distrib, Finset.sum_ite_eq]
  simp [tail]

/-- The counts that have been sorted into the buckets from `i` upwards. -/
theorem tail_foldl_update (h : SidleHistogram) (counts : List ℕ) (i : ℕ) :
    tail (counts.foldl (fun h c => (h.update c).2) h).nextHistogram i =
      tail h.nextHistogram i + counts.countP fun c => decide (i ≤ (bucket c).val) := by
  induction counts generalizing h with
  | nil => rfl
  | cons c counts ih =>
    have hnext : (h.update c).2.nextHistogram = increment h.nextHistogram (bucket c) := by
      unfold SidleHistogram.update
      split
      · rfl
      · split <;> rfl
    rw [List.foldl_cons, ih, hnext, tail_increment, List.countP_cons]
    simp only [decide_eq_true_eq]
    omega

/-! ### The scan -/

/-- `index` is the highest bucket from which on more than `bound` leaves are found, or
`-1` if there is none among the buckets from `i` upwards. -/
def IsTop (counts : Fin 16 → ℕ) (bound i : ℕ) (index : ℤ) : Prop :=
  (index = -1 ∧ tail counts i ≤ bound) ∨
    ∃ k : ℕ, index = k ∧ i ≤ k ∧ k < 16 ∧ bound < tail counts k ∧ tail counts (k + 1) ≤ bound

/-- One step of the scan: the bucket `i` is looked at when no higher one was found. -/
theorem IsTop.step {counts : Fin 16 → ℕ} {bound i : ℕ} {index : ℤ} (hi : i < 16)
    (h : IsTop counts bound (i + 1) index) :
    IsTop counts bound i
      (if tail counts i > bound ∧ index = -1 then (i : ℤ) else index) := by
  cases h with
  | inl hnone =>
    obtain ⟨rfl, hle⟩ := hnone
    by_cases hgt : tail counts i > bound
    · rw [if_pos ⟨hgt, rfl⟩]
      exact Or.inr ⟨i, rfl, Nat.le_refl i, hi, hgt, hle⟩
    · rw [if_neg fun hc => hgt hc.1]
      exact Or.inl ⟨rfl, Nat.le_of_not_lt hgt⟩
  | inr hsome =>
    obtain ⟨k, rfl, hik, hk, hgt, hle⟩ := hsome
    rw [if_neg fun hc => by omega]
    exact Or.inr ⟨k, rfl, by omega, hk, hgt, hle⟩

/-- Once the bound is exceeded, the buckets further down do not matter. -/
theorem IsTop.of_exceeded {counts : Fin 16 → ℕ} {bound i j : ℕ} {index : ℤ}
    (h : IsTop counts bound i index) (hgt : bound < tail counts i) (hj : j ≤ i) :
    IsTop counts bound j index := by
  cases h with
  | inl hnone => exact absurd hgt (Nat.not_lt.mpr hnone.2)
  | inr hsome =>
    obtain ⟨k, hk, hik, hrest⟩ := hsome
    exact Or.inr ⟨k, hk, by omega, hrest⟩

/-- **The scan** finds the highest buckets at which the bounds are exceeded.  It stops
early, at the second of them. -/
theorem scan_spec {counts : Fin 16 → ℕ} {lower upper : ℕ} (hbounds : lower ≤ upper) :
    ∀ (i : ℕ) (hi : i ≤ 16) (s : Scan), s.activeCount = tail counts i →
      IsTop counts lower i s.hotIndex → s.coldIndex = -1 → tail counts i ≤ upper →
      IsTop counts lower 0 (scan counts lower upper i hi s).hotIndex ∧
        IsTop counts upper 0 (scan counts lower upper i hi s).coldIndex := by
  intro i
  induction i with
  | zero =>
    intro _ s _ hhot hcold hle
    exact ⟨hhot, Or.inl ⟨hcold, hle⟩⟩
  | succ i ih =>
    intro hi s hact hhot hcold hle
    have hcount : s.activeCount + counts ⟨i, hi⟩ = tail counts i := by
      rw [hact, tail_eq counts hi, Nat.add_comm]
    have hhot' := hhot.step hi
    unfold scan
    simp only [hcount, hcold, and_true]
    split
    · rename_i hgt
      constructor
      · -- the lower bound has been exceeded as well
        exact hhot'.of_exceeded (by omega) (Nat.zero_le i)
      · exact Or.inr ⟨i, rfl, Nat.zero_le i, hi, hgt, hle⟩
    · rename_i hgt
      exact ih (Nat.le_of_succ_le hi) _ rfl hhot' rfl (Nat.le_of_not_lt hgt)

/-- The index of the hot threshold: the bucket above the one that was found. -/
theorem IsTop.hotIndex_spec {counts : Fin 16 → ℕ} {lower : ℕ} {index : ℤ}
    (h : IsTop counts lower 0 index) :
    ∃ m : ℕ, (if index ≠ 15 then index + 1 else index) = m ∧ m ≤ 15 ∧
      (m = 15 ∨ tail counts m ≤ lower) := by
  cases h with
  | inl hnone =>
    obtain ⟨rfl, hle⟩ := hnone
    exact ⟨0, rfl, by omega, Or.inr hle⟩
  | inr hsome =>
    obtain ⟨j, rfl, -, hj, -, hle⟩ := hsome
    by_cases h15 : j = 15
    · subst h15
      exact ⟨15, rfl, Nat.le_refl 15, Or.inl rfl⟩
    · exact ⟨j + 1, by rw [if_pos (by omega)]; rfl, by omega, Or.inr hle⟩

/-- The index of the cold threshold: the bucket that was found, or the lowest one. -/
theorem IsTop.coldIndex_spec {counts : Fin 16 → ℕ} {upper : ℕ} {index : ℤ}
    (h : IsTop counts upper 0 index) :
    ∃ k : ℕ, (if index = -1 then 0 else index) = k ∧ k ≤ 15 ∧ (k = 0 ∨ upper < tail counts k) ∧
      tail counts (k + 1) ≤ upper := by
  cases h with
  | inl hnone =>
    obtain ⟨rfl, hle⟩ := hnone
    exact ⟨0, rfl, by omega, Or.inl rfl, Nat.le_trans (tail_anti counts (Nat.zero_le 1)) hle⟩
  | inr hsome =>
    obtain ⟨k, rfl, -, hk, hgt, hle⟩ := hsome
    exact ⟨k, by rw [if_neg (by omega)], by omega, Or.inr hgt, hle⟩

private theorem shiftLeft_mod {i : ℕ} (hi : i ≤ 15) : (1 <<< (i : ℤ).toNat) % 2 ^ 16 = 2 ^ i := by
  have hlt : 2 ^ i < 2 ^ 16 := Nat.pow_lt_pow_right (by omega) (by omega)
  rw [Int.toNat_natCast, Nat.one_shiftLeft, Nat.mod_eq_of_lt hlt]

/-- What `adjust_threshold` makes of the two indices: the thresholds are powers of two,
from the hot one on at most the hot share of the leaves is found, and the cold one is the
highest from which on more than what is not cold is found. -/
theorem adjustThreshold_spec {h : SidleHistogram} {hotWatermark coldWatermark : ℕ}
    (hn : h.totalNumber ≠ 0) (hw : hotWatermark + coldWatermark ≤ 100) :
    ∃ m k : ℕ, k ≤ m ∧ m ≤ 15 ∧
      (h.adjustThreshold hotWatermark coldWatermark).hotThreshold = 2 ^ m ∧
      (h.adjustThreshold hotWatermark coldWatermark).coldThreshold = 2 ^ k ∧
      (m = 15 ∨ tail h.histogram m ≤ hotWatermark * h.totalNumber / 100) ∧
      (k = 0 ∨ (100 - coldWatermark) * h.totalNumber / 100 < tail h.histogram k) ∧
      tail h.histogram (k + 1) ≤ (100 - coldWatermark) * h.totalNumber / 100 := by
  have hbounds : hotWatermark * h.totalNumber / 100 ≤ (100 - coldWatermark) * h.totalNumber / 100 :=
    Nat.div_le_div_right (Nat.mul_le_mul_right _ (by omega))
  have hzero : tail h.histogram 16 ≤ hotWatermark * h.totalNumber / 100 := by
    rw [tail_sixteen]
    exact Nat.zero_le _
  obtain ⟨hhot, hcold⟩ := scan_spec hbounds 16 (Nat.le_refl 16) ⟨0, -1, -1⟩
    (tail_sixteen h.histogram).symm (Or.inl ⟨rfl, hzero⟩) rfl (Nat.le_trans hzero hbounds)
  rw [h.adjustThreshold_eq hotWatermark coldWatermark hn]
  simp only [SidleHistogram.shiftIndices]
  generalize hotWatermark * h.totalNumber / 100 = lower at *
  generalize (100 - coldWatermark) * h.totalNumber / 100 = upper at *
  obtain ⟨m, hm, hm15, hmhot⟩ := hhot.hotIndex_spec
  obtain ⟨k, hk, hk15, hkcold, hknext⟩ := hcold.coldIndex_spec
  have hkm : k ≤ m := by
    cases hkcold with
    | inl hk0 => omega
    | inr hgt =>
      by_contra hlt
      cases hmhot with
      | inl hm' => omega
      | inr hle =>
        have hanti := tail_anti h.histogram (Nat.le_of_not_le hlt)
        omega
  refine ⟨m, k, hkm, hm15, ?_, ?_, hmhot, hkcold, hknext⟩
  · rw [hm]
    exact shiftLeft_mod hm15
  · rw [hk]
    exact shiftLeft_mod hk15

/-! ### The shares after a round -/

/-- More than `coldWatermark` percent of the counts are passed at the least count
`2 ^ i - 1` of a bucket, which lies below the threshold `2 ^ i` that stands for it. -/
def BoundaryMet (counts : List ℕ) (coldWatermark i : ℕ) : Prop :=
  i ≠ 1 ∧
    (i = 0 ∨ 100 * counts.countP (fun c => decide (c < 2 ^ i - 1)) < coldWatermark *
      counts.length) ∧
    coldWatermark * counts.length < 100 * counts.countP (fun c => decide (c < 2 ^ i))

instance (counts : List ℕ) (coldWatermark i : ℕ) : Decidable (BoundaryMet counts coldWatermark i) :=
  inferInstanceAs (Decidable (_ ∧ _ ∧ _))

variable {counts : List ℕ}

/-- The tails of the histogram of a list of counts. -/
theorem tail_counts {h : SidleHistogram} (hnext : h.nextHistogram = fun _ => 0)
    (hcounts : ∀ c ∈ counts, c ≤ 2 ^ 15) {i : ℕ} (hi : i ≤ 15) :
    tail (counts.foldl (fun h c => (h.update c).2) h).nextHistogram i +
      counts.countP (fun c => decide (c < bucketFloor i)) = counts.length := by
  have hzero : tail (fun _ => 0) i = 0 := Finset.sum_eq_zero fun _ _ => rfl
  rw [tail_foldl_update, hnext, hzero, Nat.zero_add, List.length_eq_countP_add_countP
    (p := fun c => decide (i ≤ (bucket c).val))]
  congr 1
  apply List.countP_congr
  intro c hc
  have hlt : c + 1 < 2 ^ 16 := by
    have := hcounts c hc
    omega
  have hle := le_bucket hi hlt
  simp only [decide_eq_true_eq, hle, Nat.not_le]

/-- The rounded bounds of the source, as comparisons of the exact shares. -/
private theorem div_lt_tail {n t b cold : ℕ} (hcold : cold ≤ 100) (hsum : t + b = n) :
    (100 - cold) * n / 100 < t ↔ 100 * b < cold * n := by
  have hmul : (100 - cold) * n + cold * n = 100 * n := by
    rw [← Nat.add_mul, Nat.sub_add_cancel hcold]
  rw [Nat.div_lt_iff_lt_mul (by decide)]
  omega

theorem countP_lt_mono (counts : List ℕ) {a b : ℕ} (hab : a ≤ b) :
    counts.countP (fun c => decide (c < a)) ≤ counts.countP (fun c => decide (c < b)) := by
  apply List.countP_mono_left
  intro c _ hc
  rw [decide_eq_true_eq] at hc ⊢
  omega

/-- The counts above the hot threshold `2 ^ m` lie in the buckets from `m` upwards. -/
theorem hot_bounded {hotWatermark m t : ℕ} (hm : m ≤ 15) (hcounts : ∀ c ∈ counts, c ≤ 2 ^ 15)
    (htail : t + counts.countP (fun c => decide (c < bucketFloor m)) = counts.length)
    (hfound : m = 15 ∨ t ≤ hotWatermark * counts.length / 100) :
    100 * counts.countP (fun c => decide (2 ^ m < c)) ≤ hotWatermark * counts.length := by
  cases hfound with
  | inl h15 =>
    subst h15
    rw [List.countP_eq_zero.mpr]
    · exact Nat.zero_le _
    · intro c hc
      have := hcounts c hc
      simp only [decide_eq_true_eq]
      omega
  | inr hle =>
    have hfloor : bucketFloor m ≤ 2 ^ m := by
      unfold bucketFloor
      split
      · rename_i h1
        rw [h1]
        decide
      · exact Nat.sub_le _ _
    have hcount : counts.countP (fun c => decide (2 ^ m < c)) ≤ t := by
      have hsplit := List.length_eq_countP_add_countP (l := counts)
        (p := fun c => decide (c < bucketFloor m))
      have hmono : counts.countP (fun c => decide (2 ^ m < c)) ≤
          counts.countP (fun c => decide ¬ decide (c < bucketFloor m) = true) := by
        apply List.countP_mono_left
        intro c _ hc
        simp only [decide_eq_true_eq] at hc ⊢
        omega
      omega
    have hdiv := Nat.div_mul_le_self (hotWatermark * counts.length) 100
    omega

/-- The counts below the cold threshold `2 ^ k` are too many exactly when the bound is
passed at the least count of a bucket. -/
theorem cold_bounded_iff {coldWatermark k : ℕ} (hk : k ≤ 15)
    (hfound : k = 0 ∨ 100 * counts.countP (fun c => decide (c < bucketFloor k)) <
      coldWatermark * counts.length)
    (hnext : k + 1 ≤ 15 → coldWatermark * counts.length ≤
      100 * counts.countP (fun c => decide (c < bucketFloor (k + 1)))) :
    100 * counts.countP (fun c => decide (c < 2 ^ k)) ≤ coldWatermark * counts.length ↔
      ∀ i, i ≤ 15 → ¬ BoundaryMet counts coldWatermark i := by
  constructor
  · intro hle i hi hmet
    obtain ⟨hi1, hbelow, hpass⟩ := hmet
    by_cases hik : i ≤ k
    · have hmono := countP_lt_mono counts (Nat.pow_le_pow_right (by decide : 0 < 2) hik)
      omega
    · -- above the bucket that was found the bound has been passed already
      have hfloor : bucketFloor (k + 1) ≤ 2 ^ i - 1 := by
        have hpow : 2 ^ (k + 1) ≤ 2 ^ i := Nat.pow_le_pow_right (by decide) (by omega)
        have htwo : 2 ^ 2 ≤ 2 ^ i := Nat.pow_le_pow_right (by decide) (by omega)
        unfold bucketFloor
        split <;> omega
      have hmono := countP_lt_mono counts hfloor
      have := hnext (by omega)
      omega
  · intro hnone
    by_contra hgt
    by_cases hk1 : k = 1
    · -- the second bucket begins at the threshold that stands for it
      subst hk1
      have hlt := hfound.resolve_left (by decide)
      exact hgt (Nat.le_of_lt hlt)
    · apply hnone k hk
      refine ⟨hk1, ?_, Nat.lt_of_not_le hgt⟩
      cases hfound with
      | inl h0 => exact Or.inl h0
      | inr hlt =>
        unfold bucketFloor at hlt
        rw [if_neg hk1] at hlt
        exact Or.inr hlt

/-- The class of a leaf, when the cold threshold is not above the hot one. -/
theorem hotness_update (h : SidleHistogram) (hle : h.coldThreshold ≤ h.hotThreshold) (c : ℕ) :
    ((h.update c).1 = .hot ↔ h.hotThreshold < c) ∧
    ((h.update c).1 = .cold ↔ c < h.coldThreshold) := by
  unfold SidleHistogram.update
  by_cases hhot : c > h.hotThreshold
  · simp [hhot]
    omega
  · by_cases hcold : c < h.coldThreshold <;> simp [hhot, hcold]

theorem share_eq {h : SidleHistogram} (hle : h.coldThreshold ≤ h.hotThreshold) (counts : List ℕ) :
    h.share counts .hot = counts.countP (fun c => decide (h.hotThreshold < c)) ∧
      h.share counts .cold = counts.countP (fun c => decide (c < h.coldThreshold)) := by
  constructor
  · apply List.countP_congr
    intro c _
    simp only [decide_eq_true_eq, (hotness_update h hle c).1]
  · apply List.countP_congr
    intro c _
    simp only [decide_eq_true_eq, (hotness_update h hle c).2]

/-- **The shares after a trigger round** stay within the watermarks exactly when the cold
watermark is not passed at the least count of a bucket. -/
theorem shares_bounded_iff (h : SidleHistogram) (hotWatermark coldWatermark : ℕ) (counts : List ℕ)
    (hnext : h.nextHistogram = fun _ => 0) (hw : hotWatermark + coldWatermark ≤ 100)
    (hcounts : ∀ c ∈ counts, c ≤ 2 ^ 15) :
    (100 * (h.triggerRound hotWatermark coldWatermark counts).share counts .hot ≤
        hotWatermark * counts.length ∧
      100 * (h.triggerRound hotWatermark coldWatermark counts).share counts .cold ≤
        coldWatermark * counts.length) ↔
      ∀ i, i ≤ 15 → ¬ BoundaryMet counts coldWatermark i := by
  by_cases hlen : counts.length = 0
  · rw [List.length_eq_zero_iff] at hlen
    subst hlen
    simp [SidleHistogram.share, BoundaryMet]
  · obtain ⟨m, k, hkm, hm15, hhot, hcold, hmhot, hkcold, hknext⟩ := adjustThreshold_spec
      (h := (counts.foldl (fun h c => (h.update c).2) h).refresh counts.length counts.sum) hlen hw
    have hle : (h.triggerRound hotWatermark coldWatermark counts).coldThreshold ≤
        (h.triggerRound hotWatermark coldWatermark counts).hotThreshold := by
      unfold SidleHistogram.triggerRound
      rw [hhot, hcold]
      exact Nat.pow_le_pow_right (by decide) hkm
    have hshare := share_eq hle counts
    have htail {i : ℕ} (hi : i ≤ 15) := tail_counts hnext hcounts hi
    have hcw : coldWatermark ≤ 100 := by omega
    rw [hshare.1, hshare.2]
    unfold SidleHistogram.triggerRound
    rw [hhot, hcold]
    have hhotBound :
        100 * counts.countP (fun c => decide (2 ^ m < c)) ≤ hotWatermark * counts.length :=
      hot_bounded hm15 hcounts (htail hm15) hmhot
    rw [and_iff_right hhotBound]
    apply cold_bounded_iff (by omega)
    · exact hkcold.imp_right (div_lt_tail hcw (htail (by omega))).mp
    · intro hk
      apply Nat.le_of_not_lt
      intro hlt
      have := (div_lt_tail hcw (htail hk)).mpr hlt
      exact absurd hknext (Nat.not_le.mpr this)

/-- With all counts at the least count 3 of their bucket the whole population is cold. -/
theorem all_three_cold :
    (SidleHistogram.initial.triggerRound 5 80 (List.replicate 10 3)).share
    (List.replicate 10 3) .cold =
        10 ∧
      ¬ 100 * (SidleHistogram.initial.triggerRound 5 80 (List.replicate 10 3)).share
        (List.replicate 10 3) .cold ≤ 80 * 10 := by
  decide

theorem shares_bounded_iff_of_three :
    (100 * (SidleHistogram.initial.triggerRound 5 80 [1, 2, 200]).share [1, 2, 200] .hot ≤ 5 * 3 ∧
      100 * (SidleHistogram.initial.triggerRound 5 80 [1, 2, 200]).share [1, 2, 200]
        .cold ≤ 80 * 3) ↔
      ∀ i, i ≤ 15 → ¬ BoundaryMet [1, 2, 200] 80 i :=
  shares_bounded_iff .initial 5 80 [1, 2, 200] rfl (by decide) (by decide)

/-! ### The order of the thresholds -/

/-- The scan never finds an index below `-1`. -/
theorem neg_one_le_scan (counts : Fin 16 → ℕ) (lower upper : ℕ) :
    ∀ (i : ℕ) (hi : i ≤ 16) (s : Scan), -1 ≤ s.hotIndex → -1 ≤ s.coldIndex →
      -1 ≤ (scan counts lower upper i hi s).hotIndex ∧
        -1 ≤ (scan counts lower upper i hi s).coldIndex := by
  intro i
  induction i with
  | zero =>
    intro _ s hhot hcold
    exact ⟨hhot, hcold⟩
  | succ i ih =>
    intro hi s hhot hcold
    have hhot' (c : Prop) [Decidable c] : -1 ≤ if c then (i : ℤ) else s.hotIndex := by
      split
      · omega
      · exact hhot
    unfold scan
    simp only
    split
    · exact ⟨hhot' _, by simp only; omega⟩
    · exact ih _ _ (hhot' _) hcold

/-- No shift of `adjust_threshold` is by a negative index. -/
theorem shiftIndices_nonneg (h : SidleHistogram) (hotWatermark coldWatermark : ℕ) :
    0 ≤ (h.shiftIndices hotWatermark coldWatermark).1 ∧
      0 ≤ (h.shiftIndices hotWatermark coldWatermark).2 := by
  obtain ⟨hhot, hcold⟩ := neg_one_le_scan h.histogram (hotWatermark * h.totalNumber / 100)
    ((100 - coldWatermark) * h.totalNumber / 100) 16 (Nat.le_refl 16) ⟨0, -1, -1⟩
    (Int.le_refl _) (Int.le_refl _)
  unfold SidleHistogram.shiftIndices
  simp only
  constructor
  · split <;> omega
  · split <;> omega

/-- **The thresholds are in order** after `adjust_threshold`, and so are the counts that they
tell apart. -/
theorem thresholds_ordered (h : SidleHistogram) (hotWatermark coldWatermark : ℕ)
    (hn : 0 < h.totalNumber) (hw : hotWatermark + coldWatermark ≤ 100) :
    1 ≤ (h.adjustThreshold hotWatermark coldWatermark).coldThreshold ∧
      (h.adjustThreshold hotWatermark coldWatermark).coldThreshold ≤
        (h.adjustThreshold hotWatermark coldWatermark).hotThreshold ∧
      (h.adjustThreshold hotWatermark coldWatermark).hotThreshold ≤ 2 ^ 15 ∧
      0 ≤ (h.shiftIndices hotWatermark coldWatermark).1 ∧
      0 ≤ (h.shiftIndices hotWatermark coldWatermark).2 ∧
      ∀ hotCount coldCount,
        ((h.adjustThreshold hotWatermark coldWatermark).update hotCount).1 = .hot →
        ((h.adjustThreshold hotWatermark coldWatermark).update coldCount).1 = .cold →
        ¬ hotCount < coldCount := by
  obtain ⟨m, k, hkm, hm, hhot, hcold, -⟩ := adjustThreshold_spec (Nat.ne_of_gt hn) hw
  have hle : (h.adjustThreshold hotWatermark coldWatermark).coldThreshold ≤
      (h.adjustThreshold hotWatermark coldWatermark).hotThreshold := by
    rw [hhot, hcold]
    exact Nat.pow_le_pow_right (by decide) hkm
  obtain ⟨hshot, hscold⟩ := shiftIndices_nonneg h hotWatermark coldWatermark
  refine ⟨?_, hle, ?_, hshot, hscold, ?_⟩
  · rw [hcold]
    exact Nat.two_pow_pos k
  · rw [hhot]
    exact Nat.pow_le_pow_right (by decide) hm
  · intro hotCount coldCount hhotCount hcoldCount
    have habove := (hotness_update _ hle hotCount).1.mp hhotCount
    have hbelow := (hotness_update _ hle coldCount).2.mp hcoldCount
    omega

/-- The thresholds after a round with one leaf. -/
theorem thresholds_ordered_of_one :
    let h : SidleHistogram := ⟨fun i => if i = 7 then 1 else 0, fun _ => 0, 128, 4, 1, 200⟩
    1 ≤ (h.adjustThreshold 5 80).coldThreshold ∧
      (h.adjustThreshold 5 80).coldThreshold ≤ (h.adjustThreshold 5 80).hotThreshold ∧
      (h.adjustThreshold 5 80).hotThreshold ≤ 2 ^ 15 ∧
      0 ≤ (h.shiftIndices 5 80).1 ∧ 0 ≤ (h.shiftIndices 5 80).2 ∧
      ∀ hotCount coldCount, ((h.adjustThreshold 5 80).update hotCount).1 = .hot →
        ((h.adjustThreshold 5 80).update coldCount).1 = .cold → ¬ hotCount < coldCount :=
  thresholds_ordered _ 5 80 (by decide) (by decide)

end Sidle
