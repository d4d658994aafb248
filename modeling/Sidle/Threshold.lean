import Sidle.Policy
import Sidle.Prog.Trace

/-!
# The bounds of the thresholds

`sidle_threshold` keeps three depths and six watermarks in bytes and moves them up and down,
each operation with a clamp of its own.  The depths stay in bounds until the demotion depth,
corrected to zero by a leaf of depth one, is made smaller: the subtraction wraps around before
it is clamped.  The watermarks of the hot and the cold leaves together stay within a hundred
when the constructor has set them, and also after `set_hotness_watermarks` unless the hot
watermark is so large that the branch without a margin is taken.

## Main definitions

* `SidleThreshold.create` — a `sidle_threshold` with its demotion depths set.
* `ThresholdCall`, `SidleThreshold.Bounded`, `SidleThreshold.Wraps` — runs of the depths.
* `HotnessWatermarks` — the watermarks, their two initialisers and `adjust_hotness_watermark`.

## Main results

* `thresholds_bounded_iff` — **the depths stay in bounds** unless zero is made smaller.
* `watermarks_sum_le_iff` — **the watermarks stay within a hundred** unless the hot one
  starts too high.
-/

namespace Sidle

open Trace

/-! ### The depths -/

namespace SidleThreshold

/-- `set_demotion_depth_threshold`. -/
def setDemotionDepthThreshold (t : SidleThreshold) : SidleThreshold :=
  let demotionDepthThreshold :=
    if t.localAllocationLayerThreshold > 0 then t.localAllocationLayerThreshold - 1 else 0
  { t with
    demotionDepthThreshold := demotionDepthThreshold
    defaultDemotionDepthThreshold :=
      if demotionDepthThreshold > 1 then demotionDepthThreshold - 1 else 0 }

/-- The constructors, for a local allocation threshold that has been computed. -/
def create (localAllocationLayerThreshold : ℕ) : SidleThreshold :=
  setDemotionDepthThreshold ⟨localAllocationLayerThreshold, 0, 0⟩

end SidleThreshold

/-- The calls that move the depths.  A leaf depth is a byte other than zero. -/
inductive ThresholdCall
  | adjustLocalAllocationThreshold (isShrink : Bool)
  | adjustDemotionDepthThreshold (isShrink : Bool)
  | correctThresholdWithLeafDepth (leafDepth : ℕ) (h : 1 ≤ leafDepth ∧ leafDepth < 256)
  deriving DecidableEq

namespace SidleThreshold

/-- A call. -/
def call (t : SidleThreshold) : ThresholdCall → SidleThreshold
  | .adjustLocalAllocationThreshold isShrink => t.adjustLocalAllocationThreshold isShrink
  | .adjustDemotionDepthThreshold isShrink => t.adjustDemotionDepthThreshold isShrink
  | .correctThresholdWithLeafDepth leafDepth _ => t.correctThresholdWithLeafDepth leafDepth

/-- The bounds of the depths. -/
structure Bounded (t : SidleThreshold) : Prop where
  one_le : 1 ≤ t.localAllocationLayerThreshold
  le_maxLocalDepth : t.localAllocationLayerThreshold ≤ maxLocalDepth
  default_le : t.defaultDemotionDepthThreshold ≤ leafDepth
  demotion_le : t.demotionDepthThreshold ≤ leafDepth

instance : DecidablePred Bounded := fun t =>
  decidable_of_iff (1 ≤ t.localAllocationLayerThreshold ∧
    t.localAllocationLayerThreshold ≤ maxLocalDepth ∧
    t.defaultDemotionDepthThreshold ≤ leafDepth ∧ t.demotionDepthThreshold ≤ leafDepth)
    ⟨fun ⟨h₁, h₂, h₃, h₄⟩ => ⟨h₁, h₂, h₃, h₄⟩, fun ⟨h₁, h₂, h₃, h₄⟩ => ⟨h₁, h₂, h₃, h₄⟩⟩

/-- The call makes an addition or a subtraction whose value is not a byte. -/
def Wraps (t : SidleThreshold) : ThresholdCall → Prop
  | .adjustLocalAllocationThreshold true =>
    t.localAllocationLayerThreshold > 1 ∧ t.localAllocationLayerThreshold < 1
  | .adjustLocalAllocationThreshold false => 256 ≤ t.localAllocationLayerThreshold + 1
  | .adjustDemotionDepthThreshold true => t.demotionDepthThreshold < 1
  | .adjustDemotionDepthThreshold false =>
    t.demotionDepthThreshold ≠ leafDepth ∧ 256 ≤ t.demotionDepthThreshold + 1
  | .correctThresholdWithLeafDepth leafDepth _ => leafDepth < 1

/-- The demotion depth is made smaller although it is zero. -/
def ShrinksZero (t : SidleThreshold) (c : ThresholdCall) : Prop :=
  c = .adjustDemotionDepthThreshold true ∧ t.demotionDepthThreshold = 0

instance (t : SidleThreshold) (c : ThresholdCall) : Decidable (t.ShrinksZero c) :=
  inferInstanceAs (Decidable (_ ∧ _))

variable {t : SidleThreshold}

theorem bounded_create {l : ℕ} (hl : 1 ≤ l ∧ l ≤ 8) : (create l).Bounded := by
  obtain ⟨h₁, h₈⟩ := hl
  constructor
  · exact h₁
  · exact h₈
  all_goals
    simp only [create, setDemotionDepthThreshold, leafDepth]
    split_ifs
    all_goals omega

theorem Bounded.adjustLocalAllocationThreshold (h : t.Bounded) (isShrink : Bool) :
    (t.adjustLocalAllocationThreshold isShrink).Bounded := by
  obtain ⟨h₁, h₂, h₃, h₄⟩ := h
  simp only [maxLocalDepth] at h₂
  cases isShrink with
  | true =>
    refine ⟨?_, ?_, h₃, h₄⟩
    all_goals
      simp only [SidleThreshold.adjustLocalAllocationThreshold, if_true, maxLocalDepth]
      split
      · omega
      · omega
  | false =>
    refine ⟨?_, ?_, h₃, h₄⟩
    all_goals
      simp only [SidleThreshold.adjustLocalAllocationThreshold, Bool.false_eq_true, if_false,
        maxLocalDepth]
      omega

theorem Bounded.correctThresholdWithLeafDepth (h : t.Bounded) {d : ℕ} (hd : 1 ≤ d ∧ d < 256) :
    (t.correctThresholdWithLeafDepth d).Bounded := by
  obtain ⟨h₁, h₂, h₃, h₄⟩ := h
  constructor
  · exact Nat.le_min.mpr ⟨h₁, hd.1⟩
  · exact Nat.le_trans (Nat.min_le_left _ _) h₂
  · exact h₃
  · exact Nat.le_trans (Nat.min_le_left _ _) h₄

/-- Making the demotion depth smaller keeps it in bounds just when it is not zero. -/
theorem Bounded.adjustDemotionDepthThreshold_iff (h : t.Bounded) (isShrink : Bool) :
    (t.adjustDemotionDepthThreshold isShrink).Bounded ↔
      ¬(isShrink = true ∧ t.demotionDepthThreshold = 0) := by
  obtain ⟨h₁, h₂, h₃, h₄⟩ := h
  simp only [leafDepth] at h₃ h₄
  cases isShrink with
  | true =>
    constructor
    · rintro hb ⟨-, hzero⟩
      -- the wrapped byte is the larger of the two
      have hle := hb.demotion_le
      simp only [SidleThreshold.adjustDemotionDepthThreshold, if_true, hzero, leafDepth] at hle
      omega
    · intro hne
      have hpos : t.demotionDepthThreshold ≠ 0 := fun hzero => hne ⟨rfl, hzero⟩
      refine ⟨h₁, h₂, h₃, ?_⟩
      simp only [SidleThreshold.adjustDemotionDepthThreshold, if_true, leafDepth]
      omega
  | false =>
    apply iff_of_true
    · refine ⟨h₁, h₂, h₃, ?_⟩
      simp only [SidleThreshold.adjustDemotionDepthThreshold, Bool.false_eq_true, if_false]
      by_cases h₈ : t.demotionDepthThreshold = leafDepth
      · exact Nat.le_of_eq (if_pos h₈)
      · rw [if_neg h₈]
        unfold leafDepth at h₈ ⊢
        omega
    · rintro ⟨hfalse, -⟩
      cases hfalse

/-- One call keeps the depths in bounds unless it makes zero smaller. -/
theorem Bounded.call_iff (h : t.Bounded) (c : ThresholdCall) :
    (t.call c).Bounded ↔ ¬t.ShrinksZero c := by
  cases c with
  | adjustLocalAllocationThreshold isShrink =>
    apply iff_of_true (h.adjustLocalAllocationThreshold isShrink)
    rintro ⟨hc, -⟩
    cases hc
  | adjustDemotionDepthThreshold isShrink =>
    rw [show t.call _ = t.adjustDemotionDepthThreshold isShrink from rfl,
      h.adjustDemotionDepthThreshold_iff, ShrinksZero]
    cases isShrink <;> simp
  | correctThresholdWithLeafDepth d hd =>
    apply iff_of_true (h.correctThresholdWithLeafDepth hd)
    rintro ⟨hc, -⟩
    cases hc

/-- Within the bounds nothing else wraps around. -/
theorem Bounded.not_wraps (h : t.Bounded) {c : ThresholdCall} (hc : ¬t.ShrinksZero c) :
    ¬t.Wraps c := by
  obtain ⟨h₁, h₂, h₃, h₄⟩ := h
  simp only [maxLocalDepth, leafDepth] at h₂ h₄
  cases c with
  | adjustLocalAllocationThreshold isShrink =>
    cases isShrink with
    | true =>
      rintro ⟨hgt, hlt⟩
      omega
    | false =>
      intro hw
      simp only [Wraps] at hw
      omega
  | adjustDemotionDepthThreshold isShrink =>
    cases isShrink with
    | true => exact fun hw => hc ⟨rfl, by simp only [Wraps] at hw; omega⟩
    | false =>
      rintro ⟨-, hw⟩
      omega
  | correctThresholdWithLeafDepth d hd =>
    intro hw
    simp only [Wraps] at hw
    omega

end SidleThreshold

open SidleThreshold

/-- One call as a step of a trace. -/
def thresholdStep (t : SidleThreshold) (c : ThresholdCall) : Option SidleThreshold :=
  some (t.call c)

/-- **The depths stay in bounds**, and no addition or subtraction wraps around, exactly as
long as the demotion depth is not made smaller when it is zero. -/
theorem thresholds_bounded_iff (l : ℕ) (hl : 1 ≤ l ∧ l ≤ 8) (cs : List ThresholdCall) :
    (Always thresholdStep Bounded (create l) cs ∧
      EachStep thresholdStep (fun t c _ => ¬t.Wraps c) (create l) cs) ↔
      EachStep thresholdStep (fun t c _ => ¬t.ShrinksZero c) (create l) cs := by
  have hiff : Always thresholdStep Bounded (create l) cs ↔
      EachStep thresholdStep (fun t c _ => ¬t.ShrinksZero c) (create l) cs := by
    apply always_iff_eachStep (bounded_create hl)
    rintro t c u ht ⟨⟩
    exact ht.call_iff c
  constructor
  · intro h
    exact hiff.mp h.1
  · intro h
    have halways := hiff.mpr h
    refine ⟨halways, ?_⟩
    have hwraps : ∀ t c u, t.Bounded → thresholdStep t c = some u → u.Bounded → ¬t.Wraps c := by
      rintro t c u ht ⟨⟩ hu
      exact ht.not_wraps ((ht.call_iff c).mp hu)
    exact eachStep_of_always halways hwraps

/-- A correction to a leaf of depth two before the demotion depth is made smaller. -/
theorem thresholds_bounded_of_correction :
    Always thresholdStep Bounded (create 8)
        [.correctThresholdWithLeafDepth 2 (by decide), .adjustDemotionDepthThreshold true] ∧
      EachStep thresholdStep (fun t c _ => ¬t.Wraps c) (create 8)
        [.correctThresholdWithLeafDepth 2 (by decide), .adjustDemotionDepthThreshold true] :=
  (thresholds_bounded_iff 8 (by decide) _).mpr (by decide)

/-- A correction to a leaf of depth one before a shortage. -/
theorem thresholds_not_bounded :
    ¬Always thresholdStep Bounded (create 8)
      [.correctThresholdWithLeafDepth 1 (by decide), .adjustDemotionDepthThreshold true] := by
  decide

/-! ### The watermarks -/

/-- The watermarks of `sidle_threshold`: the percentages of leaves that are to be hot and
cold, the values that a restore goes back to, and the upper bounds. -/
structure HotnessWatermarks where
  hotWatermark : ℕ
  originalHotWatermark : ℕ
  hotWatermarkUpperBound : ℕ
  coldWatermark : ℕ
  originalColdWatermark : ℕ
  coldWatermarkUpperBound : ℕ
  deriving DecidableEq, Repr

namespace HotnessWatermarks

/-- The second constructor, for a percentage; every value is a byte. -/
def ofCxlPercentage (cxlPercentage : ℕ) : HotnessWatermarks :=
  let hot := (100 - cxlPercentage) / 5
  let hotUpper := min (hot + hot) (100 - cxlPercentage)
  let cold := min cxlPercentage (100 - hotUpper)
  ⟨hot, hot, hotUpper, cold, cold, min (cold + hot) (100 - hotUpper)⟩

/-- `set_hotness_watermarks`, for a percentage; every value is a byte. -/
def setHotnessWatermarks (hotWatermarkLowerBound : ℕ) : HotnessWatermarks :=
  let hot := hotWatermarkLowerBound
  let cold := if hot + 15 < 100 then 100 - hot - 15 else 100 - hot
  ⟨hot, hot, hot + 5, cold, cold, cold + 10⟩

/-- The watermarks at the start: those of the constructor, or those that the command line
sets. -/
def start (cxlPercentage : ℕ) (hotWatermarkLowerBound : Option ℕ) : HotnessWatermarks :=
  match hotWatermarkLowerBound with
  | none => ofCxlPercentage cxlPercentage
  | some h => setHotnessWatermarks h

/-- `adjust_hotness_watermark`. -/
def adjustHotnessWatermark (w : HotnessWatermarks) (isRestore hotter : Bool) : HotnessWatermarks :=
  if isRestore then
    { w with hotWatermark := w.originalHotWatermark, coldWatermark := w.originalColdWatermark }
  else if hotter then
    { w with
      hotWatermark := min ((w.hotWatermark + 1) % 256) w.hotWatermarkUpperBound
      coldWatermark := w.originalColdWatermark }
  else
    { w with
      hotWatermark := w.originalHotWatermark
      coldWatermark := min ((w.coldWatermark + 1) % 256) w.coldWatermarkUpperBound }

/-- One call as a step of a trace. -/
def step (w : HotnessWatermarks) (c : Bool × Bool) : Option HotnessWatermarks :=
  some (w.adjustHotnessWatermark c.1 c.2)

/-- The two watermarks stay within a hundred. -/
def SumLe (w : HotnessWatermarks) : Prop := w.hotWatermark + w.coldWatermark ≤ 100

instance : DecidablePred SumLe := fun w =>
  inferInstanceAs (Decidable (w.hotWatermark + w.coldWatermark ≤ 100))

/-- Where the calls can lead: one of the watermarks is at its original value, and the other
between its original value and its upper bound. -/
structure Inv (w : HotnessWatermarks) : Prop where
  hot_le : w.hotWatermark ≤ w.hotWatermarkUpperBound
  cold_le : w.coldWatermark ≤ w.coldWatermarkUpperBound
  original : w.hotWatermark = w.originalHotWatermark ∨ w.coldWatermark = w.originalColdWatermark
  originalHot_le : w.originalHotWatermark ≤ w.hotWatermarkUpperBound
  originalCold_le : w.originalColdWatermark ≤ w.coldWatermarkUpperBound
  hot_sum : w.hotWatermarkUpperBound + w.originalColdWatermark ≤ 100
  cold_sum : w.originalHotWatermark + w.coldWatermarkUpperBound ≤ 100

theorem Inv.sumLe {w : HotnessWatermarks} (h : w.Inv) : w.SumLe := by
  obtain ⟨hhot, hcold, horig, -, -, hsum, hsum'⟩ := h
  unfold SumLe
  cases horig with
  | inl heq => omega
  | inr heq => omega

theorem Inv.adjustHotnessWatermark {w : HotnessWatermarks} (h : w.Inv) (isRestore hotter : Bool) :
    (w.adjustHotnessWatermark isRestore hotter).Inv := by
  obtain ⟨hhot, hcold, horig, horigHot, horigCold, hsum, hsum'⟩ := h
  unfold HotnessWatermarks.adjustHotnessWatermark
  split
  · exact ⟨horigHot, horigCold, Or.inl rfl, horigHot, horigCold, hsum, hsum'⟩
  · split
    · exact ⟨Nat.min_le_right _ _, horigCold, Or.inr rfl, horigHot, horigCold, hsum, hsum'⟩
    · exact ⟨horigHot, Nat.min_le_right _ _, Or.inl rfl, horigHot, horigCold, hsum, hsum'⟩

theorem inv_ofCxlPercentage {p : ℕ} (hp : p ≤ 100) : (ofCxlPercentage p).Inv := by
  refine ⟨?_, ?_, Or.inl rfl, ?_, ?_, ?_, ?_⟩
  all_goals
    simp only [ofCxlPercentage]
    omega

theorem inv_setHotnessWatermarks {h : ℕ} (hh : h < 85) : (setHotnessWatermarks h).Inv := by
  have hlt : h + 15 < 100 := by omega
  refine ⟨?_, ?_, Or.inl rfl, ?_, ?_, ?_, ?_⟩
  all_goals
    simp only [setHotnessWatermarks, if_pos hlt]
    omega

/-- Without a margin the first step towards the hot watermark's bound goes too far. -/
theorem not_sumLe_hotter {h : ℕ} (hge : 85 ≤ h) (hle : h ≤ 100) :
    ¬((setHotnessWatermarks h).adjustHotnessWatermark false true).SumLe := by
  have hnot : ¬h + 15 < 100 := by omega
  simp only [SumLe, HotnessWatermarks.adjustHotnessWatermark, setHotnessWatermarks, if_neg hnot,
    Bool.false_eq_true, if_false, if_true]
  omega

end HotnessWatermarks

open HotnessWatermarks

/-- **The watermarks stay within a hundred** in every sequence of adjustments exactly when the
hot one has not been set to `85` or more. -/
theorem watermarks_sum_le_iff (p : ℕ) (hp : p ≤ 100) (h : Option ℕ) (hh : ∀ x ∈ h, x ≤ 100) :
    (∀ cs, Always HotnessWatermarks.step SumLe (start p h) cs) ↔ ∀ x ∈ h, x < 85 := by
  constructor
  · intro hall x hx
    by_contra hge
    obtain rfl : h = some x := hx
    have hlast := (hall [(false, true)]).last rfl
    exact not_sumLe_hotter (Nat.le_of_not_lt hge) (hh x rfl) hlast
  · intro hlt cs
    have hstart : (start p h).Inv := by
      cases h with
      | none => exact inv_ofCxlPercentage hp
      | some x => exact inv_setHotnessWatermarks (hlt x rfl)
    have hinv : Always HotnessWatermarks.step Inv (start p h) cs := by
      apply always_of_step hstart
      rintro w c u hw ⟨⟩
      exact hw.adjustHotnessWatermark c.1 c.2
    exact hinv.imp fun w => Inv.sumLe

/-- The watermarks that the constructor chooses for four fifths of remote memory. -/
theorem watermarks_sum_le_of_default :
    (∀ cs, Always HotnessWatermarks.step SumLe (start 80 none) cs) ↔
      ∀ x ∈ (none : Option ℕ), x < 85 :=
  watermarks_sum_le_iff 80 (by decide) none (by simp)

/-- A hot watermark of ninety percent. -/
theorem watermarks_sum_not_le :
    ¬Always HotnessWatermarks.step SumLe (start 80 (some 90)) [(false, true)] := by
  decide

end Sidle
