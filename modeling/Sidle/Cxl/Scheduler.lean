import Mathlib.Data.Nat.ModEq
import Mathlib.Tactic.LinearCombination
import Mathlib.Tactic.Positivity
import Mathlib.Data.Rat.Cast.Order
import Sidle.Cxl.Stride

/-!
# The stride scheduler of the allocator

`stride_scheduler` decides whether an allocation goes to the CXL device.  Each thread keeps two
tickets, which grow by the strides that `cxl_init` has computed from a percentage; the smaller
ticket is served, and a ticket that would overflow resets both.

## Main definitions

* `Strides`, `cxlInit` — the strides.
* `Tickets`, `strideScheduler` — the scheduler of one thread.
* `Resets` — a call resets the tickets.

## Main results

* `strideScheduler_lead` — a call that does not reset is a move of the stride arbitration.
* `scheduler_ratio` — **the share of the device**.
-/

namespace Sidle.Cxl

/-- `SIZE_MAX`. -/
def sizeMax : UInt64 := 18446744073709551615

/-- `enum DEVICE_TYPE`. -/
inductive DeviceType
  | cxlDev
  | localDev
  | unknownDev
  deriving DecidableEq, Repr

/-- `gcd`. -/
def gcd (a b : ℕ) : ℕ := if b ≠ 0 then gcd b (a % b) else a
termination_by b
decreasing_by exact Nat.mod_lt a (Nat.pos_of_ne_zero ‹_›)

/-- `local_stride` and `cxl_stride`. -/
structure Strides where
  local_ : ℕ
  cxl : ℕ
  deriving DecidableEq, Repr

/-- `percentage_on_cxl` as `cxl_init` sets it, from its initial value `0`. -/
def percentageOnCxl (percentage : ℤ) : ℕ :=
  if percentage ≥ 100 then 100 else if percentage > 0 then percentage.toNat else 0

/-- The strides that `cxl_init` computes. -/
def cxlInit (percentage : ℤ) : Strides :=
  let p := percentageOnCxl percentage
  if p = 100 then ⟨1, 0⟩
  else if p = 0 then ⟨0, 1⟩
  else
    let multipleResult := p * (100 - p) / gcd p (100 - p)
    ⟨multipleResult / (100 - p), multipleResult / p⟩

/-- `local_ticket` and `cxl_ticket` of a thread. -/
structure Tickets where
  local_ : UInt64
  cxl : UInt64
  deriving DecidableEq, Repr

/-- The tickets of a new thread. -/
def Tickets.zero : Tickets := ⟨0, 0⟩

/-- The choice of `stride_scheduler`. -/
def chooseDevice (st : Strides) (t : Tickets) : DeviceType :=
  if st.cxl = 0 then .cxlDev
  else if st.local_ = 0 then .localDev
  else if t.cxl < t.local_ then .cxlDev else .localDev

/-- The check that the ticket of the chosen device would overflow. -/
def Resets (st : Strides) (t : Tickets) : Prop :=
  match chooseDevice st t with
  | .cxlDev => sizeMax - t.cxl < UInt64.ofNat st.cxl
  | .localDev => sizeMax - t.local_ < UInt64.ofNat st.local_
  | .unknownDev => False

instance (st : Strides) (t : Tickets) : Decidable (Resets st t) := by
  unfold Resets
  split <;> infer_instance

/-- The tickets after the check. -/
def checkTickets (st : Strides) (t : Tickets) : Tickets := if Resets st t then ⟨0, 0⟩ else t

/-- `stride_scheduler`. -/
def strideScheduler (st : Strides) (t : Tickets) : DeviceType × Tickets :=
  let result := chooseDevice st t
  let t := checkTickets st t
  (result,
    match result with
    | .cxlDev => { t with cxl := t.cxl + UInt64.ofNat st.cxl }
    | .localDev => { t with local_ := t.local_ + UInt64.ofNat st.local_ }
    | .unknownDev => t)

/-- The tickets after `n` calls. -/
def ticketsAfter (st : Strides) : ℕ → Tickets → Tickets
  | 0, t => t
  | n + 1, t => ticketsAfter st n (strideScheduler st t).2

/-- The number of answers `CXL_DEV` in `n` calls. -/
def cxlAnswers (st : Strides) : ℕ → Tickets → ℕ
  | 0, _ => 0
  | n + 1, t =>
    (if (strideScheduler st t).1 = .cxlDev then 1 else 0) + cxlAnswers st n (strideScheduler st t).2

/-- None of the next `n` calls resets the tickets. -/
def NoReset (st : Strides) (n : ℕ) (t : Tickets) : Prop :=
  ∀ i < n, ¬ Resets st (ticketsAfter st i t)

variable {st : Strides} {t : Tickets} {n k : ℕ} {p : ℤ}

theorem ticketsAfter_succ :
    ticketsAfter st (n + 1) t = ticketsAfter st n (strideScheduler st t).2 := rfl

theorem ticketsAfter_add : ticketsAfter st (k + n) t = ticketsAfter st n (ticketsAfter st k t) := by
  induction k generalizing t with
  | zero => rw [Nat.zero_add]; rfl
  | succ k ih => rw [Nat.succ_add, ticketsAfter_succ, ih, ticketsAfter_succ]

theorem noReset_succ :
    NoReset st (n + 1) t ↔ ¬ Resets st t ∧ NoReset st n (strideScheduler st t).2 := by
  constructor
  · exact fun h => ⟨h 0 (Nat.succ_pos n), fun i hi => h (i + 1) (Nat.succ_lt_succ hi)⟩
  · rintro ⟨h₀, h⟩ i hi
    cases i with
    | zero => exact h₀
    | succ i => exact h i (Nat.lt_of_succ_lt_succ hi)

theorem NoReset.add (h : NoReset st (k + n) t) : NoReset st n (ticketsAfter st k t) :=
  fun i hi => by
  rw [← ticketsAfter_add]
  exact h (k + i) (by omega)

/-! ### The strides -/

theorem gcd_eq (a b : ℕ) : gcd a b = Nat.gcd a b := by
  induction b using Nat.strong_induction_on generalizing a with
  | _ b ih =>
    unfold gcd
    split
    · rw [ih (a % b) (Nat.mod_lt a (by omega)), Nat.gcd_comm b, Nat.gcd_comm a, ← Nat.gcd_rec]
    · rw [show b = 0 by omega, Nat.gcd_zero_right]

/-- The strides of a percentage are its two parts, without their common factor, exchanged. -/
theorem cxlInit_eq {p : ℕ} (hp : 1 ≤ p ∧ p ≤ 99) :
    cxlInit p = ⟨p / Nat.gcd p (100 - p), (100 - p) / Nat.gcd p (100 - p)⟩ := by
  have hper : percentageOnCxl p = p := by
    unfold percentageOnCxl
    rw [if_neg (by omega), if_pos (by omega), Int.toNat_natCast]
  have hmul (a b g : ℕ) (hb : 0 < b) (hg : g ∣ a) : a * b / g / b = a / g := by
    rw [Nat.mul_comm, Nat.mul_div_assoc b hg, Nat.mul_div_cancel_left _ hb]
  unfold cxlInit
  simp only [hper, gcd_eq]
  rw [if_neg (by omega), if_neg (by omega), hmul p (100 - p) _ (by omega) (Nat.gcd_dvd_left ..),
    Nat.mul_comm p, hmul (100 - p) p _ (by omega) (Nat.gcd_dvd_right ..)]

/-- What the proofs need of the strides: they are small, and they share a hundred. -/
structure Strides.Share (st : Strides) (p : ℕ) : Prop where
  local_pos : 0 < st.local_
  cxl_pos : 0 < st.cxl
  sum_le : st.local_ + st.cxl ≤ 100
  ratio : 100 * st.local_ = p * (st.local_ + st.cxl)

theorem share_cxlInit {p : ℕ} (hp : 1 ≤ p ∧ p ≤ 99) : (cxlInit p).Share p := by
  obtain ⟨a, ha⟩ := Nat.gcd_dvd_left p (100 - p)
  obtain ⟨b, hb⟩ := Nat.gcd_dvd_right p (100 - p)
  have hg : 0 < Nat.gcd p (100 - p) := Nat.gcd_pos_of_pos_left _ (by omega)
  rw [cxlInit_eq hp]
  generalize Nat.gcd p (100 - p) = g at ha hb hg
  have hda : p / g = a := by rw [ha, Nat.mul_div_cancel_left _ hg]
  have hdb : (100 - p) / g = b := by rw [hb, Nat.mul_div_cancel_left _ hg]
  have hsum : g * (a + b) = 100 := by rw [Nat.mul_add]; omega
  rw [hda, hdb]
  refine ⟨?_, ?_, ?_, ?_⟩
  · refine Nat.pos_of_ne_zero fun (h : a = 0) => ?_
    rw [h, Nat.mul_zero] at ha
    omega
  · refine Nat.pos_of_ne_zero fun (h : b = 0) => ?_
    rw [h, Nat.mul_zero] at hb
    omega
  · exact Nat.le_of_dvd (by decide) ⟨g, by rw [Nat.mul_comm, hsum]⟩
  · calc 100 * a = g * (a + b) * a := by rw [hsum]
      _ = g * a * (a + b) := by ring
      _ = p * (a + b) := by rw [← ha]

theorem local_cxlInit {p : ℕ} (hp : 1 ≤ p ∧ p ≤ 99) :
    (cxlInit p).local_ = p / Nat.gcd p (100 - p) := by rw [cxlInit_eq hp]

/-- The percentage needs as many calls as the two strides make. -/
theorem period_cxlInit {p : ℕ} (hp : 1 ≤ p ∧ p ≤ 99) :
    ((100 / Nat.gcd p (100 - p) : ℕ) : ℤ) = (cxlInit p).cxl + (cxlInit p).local_ := by
  have hsum : (100 - p) / Nat.gcd p (100 - p) + p / Nat.gcd p (100 - p) =
      100 / Nat.gcd p (100 - p) := by
    rw [← Nat.add_div_of_dvd_right (Nat.gcd_dvd_right ..), Nat.sub_add_cancel (by omega)]
  rw [cxlInit_eq hp, ← hsum]
  push_cast
  rfl

/-- A bound on the share in terms of the percentage. -/
theorem Strides.Share.abs_sub_le {p x n : ℕ} (h : st.Share p)
    (habs : |(x : ℤ) * (st.cxl + st.local_) - n * st.local_| ≤ st.cxl + st.local_) :
    |(x : ℚ) - n * p / 100| ≤ 1 := by
  have hpos : (0 : ℚ) < st.cxl + st.local_ := by
    have := h.cxl_pos
    positivity
  have hratio : (100 : ℚ) * st.local_ = p * (st.local_ + st.cxl) := by exact_mod_cast h.ratio
  have hmul : ((x : ℚ) - n * p / 100) * (st.cxl + st.local_) =
      x * (st.cxl + st.local_) - n * st.local_ := by
    linear_combination (n : ℚ) / 100 * hratio
  have habs' : |(x : ℚ) * (st.cxl + st.local_) - n * st.local_| ≤ st.cxl + st.local_ := by
    exact_mod_cast habs
  rw [← hmul, abs_mul, abs_of_pos hpos] at habs'
  exact le_of_mul_le_mul_right (by linarith) hpos

theorem Strides.Share.pos {p : ℕ} (h : st.Share p) : (0 : ℤ) < st.local_ ∧ (0 : ℤ) < st.cxl :=
  ⟨Int.natCast_pos.mpr h.local_pos, Int.natCast_pos.mpr h.cxl_pos⟩

/-! ### One call -/

/-- The lead of the device over the local memory. -/
def Tickets.lead (t : Tickets) : ℤ := (t.cxl.toNat : ℤ) - t.local_.toNat

/-- Neither addition of a call wraps around. -/
def NoWrap (st : Strides) (t : Tickets) : Prop :=
  match chooseDevice st t with
  | .cxlDev => (checkTickets st t).cxl.toNat + st.cxl < 2 ^ 64
  | .localDev => (checkTickets st t).local_.toNat + st.local_ < 2 ^ 64
  | .unknownDev => True

theorem toNat_sizeMax_sub (x : UInt64) : (sizeMax - x).toNat = 2 ^ 64 - 1 - x.toNat := by
  have hx := x.toNat_lt
  have hle : x ≤ sizeMax := UInt64.le_iff_toNat_le.mpr
    (by simp only [sizeMax, UInt64.toNat_ofNat]; omega)
  rw [UInt64.toNat_sub_of_le _ _ hle]
  rfl

section Share

variable {p : ℕ} (h : st.Share p)

include h

theorem Strides.Share.toNat_cxl : (UInt64.ofNat st.cxl).toNat = st.cxl := by
  rw [UInt64.toNat_ofNat', Nat.mod_eq_of_lt (by have := h.sum_le; omega)]

theorem Strides.Share.toNat_local : (UInt64.ofNat st.local_).toNat = st.local_ := by
  rw [UInt64.toNat_ofNat', Nat.mod_eq_of_lt (by have := h.sum_le; omega)]

/-- The device is served when its ticket is behind. -/
theorem chooseDevice_eq (t : Tickets) :
    chooseDevice st t = if t.lead < 0 then .cxlDev else .localDev := by
  have hc := h.cxl_pos
  have hl := h.local_pos
  have hiff : t.cxl < t.local_ ↔ t.lead < 0 := by
    rw [UInt64.lt_iff_toNat_lt, Tickets.lead]
    omega
  unfold chooseDevice
  rw [if_neg (by omega), if_neg (by omega)]
  simp only [hiff]

/-- The check leaves room for the addition. -/
theorem noWrap (t : Tickets) : NoWrap st t := by
  have hsum := h.sum_le
  have hct := t.cxl.toNat_lt
  have hlt := t.local_.toNat_lt
  unfold NoWrap
  cases hch : chooseDevice st t with
  | cxlDev =>
    by_cases hr : Resets st t
    · rw [checkTickets, if_pos hr]
      simp only [UInt64.toNat_zero]
      omega
    · rw [checkTickets, if_neg hr]
      unfold Resets at hr
      rw [hch] at hr
      change ¬ sizeMax - t.cxl < UInt64.ofNat st.cxl at hr
      rw [UInt64.lt_iff_toNat_lt, h.toNat_cxl, toNat_sizeMax_sub] at hr
      omega
  | localDev =>
    by_cases hr : Resets st t
    · rw [checkTickets, if_pos hr]
      simp only [UInt64.toNat_zero]
      omega
    · rw [checkTickets, if_neg hr]
      unfold Resets at hr
      rw [hch] at hr
      change ¬ sizeMax - t.local_ < UInt64.ofNat st.local_ at hr
      rw [UInt64.lt_iff_toNat_lt, h.toNat_local, toNat_sizeMax_sub] at hr
      omega
  | unknownDev => trivial

/-- A call adds a stride to one of the checked tickets. -/
theorem toNat_strideScheduler (t : Tickets) :
    (strideScheduler st t).2.cxl.toNat =
        (checkTickets st t).cxl.toNat + (if t.lead < 0 then st.cxl else 0) ∧
      (strideScheduler st t).2.local_.toNat =
        (checkTickets st t).local_.toNat + (if t.lead < 0 then 0 else st.local_) := by
  have hwrap := noWrap h t
  have hchoose := chooseDevice_eq h t
  unfold NoWrap at hwrap
  by_cases hlt : t.lead < 0
  · rw [if_pos hlt] at hchoose
    rw [hchoose] at hwrap
    simp only [if_pos hlt, strideScheduler, hchoose, UInt64.toNat_add, h.toNat_cxl]
    exact ⟨Nat.mod_eq_of_lt hwrap, rfl⟩
  · rw [if_neg hlt] at hchoose
    rw [hchoose] at hwrap
    simp only [if_neg hlt, strideScheduler, hchoose, UInt64.toNat_add, h.toNat_local]
    exact ⟨rfl, Nat.mod_eq_of_lt hwrap⟩

/-- A call moves the lead of the checked tickets. -/
theorem lead_strideScheduler (t : Tickets) :
    (strideScheduler st t).2.lead =
      (checkTickets st t).lead + if t.lead < 0 then (st.cxl : ℤ) else -st.local_ := by
  obtain ⟨hc, hl⟩ := toNat_strideScheduler h t
  rw [Tickets.lead, hc, hl]
  split
  · simp only [Tickets.lead]
    omega
  · simp only [Tickets.lead]
    omega

/-- **A call that does not reset** is a move of the stride arbitration. -/
theorem strideScheduler_lead (hr : ¬ Resets st t) :
    (strideScheduler st t).2.lead = Stride.next st.cxl st.local_ t.lead := by
  rw [lead_strideScheduler h, checkTickets, if_neg hr, Stride.next]
  split
  · rfl
  · ring

/-- A call keeps the lead in its range, whether it resets or not. -/
theorem strideScheduler_mem (ht : -st.local_ ≤ t.lead ∧ t.lead ≤ st.cxl) :
    -st.local_ ≤ (strideScheduler st t).2.lead ∧ (strideScheduler st t).2.lead ≤ st.cxl := by
  have hc := h.cxl_pos
  have hl := h.local_pos
  by_cases hr : Resets st t
  · rw [lead_strideScheduler h, checkTickets, if_pos hr]
    have hzero : Tickets.lead ⟨0, 0⟩ = 0 := rfl
    rw [hzero]
    split <;> omega
  · rw [strideScheduler_lead h hr]
    have hnext := Stride.next_mem (by omega : (0 : ℤ) < st.cxl) (by omega : (0 : ℤ) < st.local_) ht
    exact ⟨hnext.1, hnext.2.le⟩

/-! ### Runs -/

/-- The lead stays in its range in every run. -/
theorem ticketsAfter_mem (ht : -st.local_ ≤ t.lead ∧ t.lead ≤ st.cxl) :
    -st.local_ ≤ (ticketsAfter st n t).lead ∧ (ticketsAfter st n t).lead ≤ st.cxl := by
  induction n generalizing t with
  | zero => exact ht
  | succ n ih => exact ih (strideScheduler_mem h ht)

/-- A run without a reset is a run of the stride arbitration. -/
theorem lead_ticketsAfter (hr : NoReset st n t) :
    (ticketsAfter st n t).lead = Stride.lead st.cxl st.local_ n t.lead := by
  induction n generalizing t with
  | zero => rfl
  | succ n ih =>
    obtain ⟨hr₀, hr⟩ := noReset_succ.mp hr
    rw [ticketsAfter_succ, ih hr, strideScheduler_lead h hr₀, Stride.lead_succ]

theorem cxlAnswers_eq (hr : NoReset st n t) :
    cxlAnswers st n t = Stride.turns st.cxl st.local_ n t.lead := by
  induction n generalizing t with
  | zero => rfl
  | succ n ih =>
    obtain ⟨hr₀, hr⟩ := noReset_succ.mp hr
    have hans : (strideScheduler st t).1 = chooseDevice st t := rfl
    rw [cxlAnswers, ih hr, strideScheduler_lead h hr₀, Stride.turns_succ, hans, chooseDevice_eq h]
    congr 1
    split <;> simp

/-- Each call adds at most a hundred to a ticket. -/
theorem ticketsAfter_le :
    (ticketsAfter st n t).cxl.toNat ≤ t.cxl.toNat + 100 * n ∧
      (ticketsAfter st n t).local_.toNat ≤ t.local_.toNat + 100 * n := by
  have hsum := h.sum_le
  induction n generalizing t with
  | zero => exact ⟨Nat.le_refl _, Nat.le_refl _⟩
  | succ n ih =>
    obtain ⟨hc, hl⟩ := toNat_strideScheduler h t
    have hcheck : (checkTickets st t).cxl.toNat ≤ t.cxl.toNat ∧
        (checkTickets st t).local_.toNat ≤ t.local_.toNat := by
      unfold checkTickets
      split
      · exact ⟨Nat.zero_le _, Nat.zero_le _⟩
      · exact ⟨Nat.le_refl _, Nat.le_refl _⟩
    obtain ⟨hcn, hln⟩ := ih (t := (strideScheduler st t).2)
    rw [ticketsAfter_succ]
    split at hc
    · rw [if_pos ‹_›] at hl
      omega
    · rw [if_neg ‹_›] at hl
      omega

/-- The first calls of a thread do not reset. -/
theorem noReset_zero (hn : 100 * (n + 1) < 2 ^ 64) : NoReset st n .zero := by
  have hsum := h.sum_le
  intro i hi hr
  obtain ⟨hc, hl⟩ := ticketsAfter_le (n := i) (t := .zero) h
  have hz : (Tickets.zero.cxl.toNat = 0) ∧ (Tickets.zero.local_.toNat = 0) := ⟨rfl, rfl⟩
  rw [Resets] at hr
  split at hr
  · rw [UInt64.lt_iff_toNat_lt, h.toNat_cxl, toNat_sizeMax_sub] at hr
    omega
  · rw [UInt64.lt_iff_toNat_lt, h.toNat_local, toNat_sizeMax_sub] at hr
    omega
  · exact hr

end Share

/-! ### The main result -/

/-- **The share of the device.**  In every state that the scheduler of a thread can reach, the next
call does not wrap a ticket around, and the lead of the device is within the strides.  In every
window of calls without a reset the device gets its percentage, up to one call.  As long as the
tickets have not been reset, it gets exactly its percentage in as many calls as the percentage
needs, and the first so many calls do not reset. -/
theorem scheduler_ratio {p : ℕ} (hp : 1 ≤ p ∧ p ≤ 99) (k : ℕ) :
    NoWrap (cxlInit p) (ticketsAfter (cxlInit p) k .zero) ∧
      (-((cxlInit p).local_ : ℤ) ≤ (ticketsAfter (cxlInit p) k .zero).lead ∧
        (ticketsAfter (cxlInit p) k .zero).lead ≤ (cxlInit p).cxl) ∧
      (∀ n, NoReset (cxlInit p) n (ticketsAfter (cxlInit p) k .zero) →
        |(cxlAnswers (cxlInit p) n (ticketsAfter (cxlInit p) k .zero) : ℚ) - n * p / 100| ≤ 1) ∧
      (NoReset (cxlInit p) (k + 100 / Nat.gcd p (100 - p)) .zero →
        cxlAnswers (cxlInit p) (100 / Nat.gcd p (100 - p)) (ticketsAfter (cxlInit p) k .zero) =
          p / Nat.gcd p (100 - p)) ∧
      NoReset (cxlInit p) (100 / Nat.gcd p (100 - p)) .zero := by
  have h := share_cxlInit hp
  obtain ⟨hl, hc⟩ := h.pos
  have hzero : Tickets.zero.lead = 0 := rfl
  have hmem := ticketsAfter_mem (n := k) (t := .zero) h (by omega)
  refine ⟨noWrap h _, hmem, fun n hn => ?_, fun hn => ?_, noReset_zero h ?_⟩
  · have habs := Stride.abs_turns_sub_le hc hl hmem n
    rw [← cxlAnswers_eq h hn] at habs
    exact h.abs_sub_le habs
  · have hk : NoReset (cxlInit p) k .zero := fun i hi => hn i (Nat.lt_add_right _ hi)
    have hlead := Stride.lead_lt (n := k) hc hl (d := 0) (by omega)
    rw [← hzero, ← lead_ticketsAfter h hk] at hlead
    have hturns := Stride.turns_period hc hl ⟨hmem.1, hlead⟩ (period_cxlInit hp)
    rw [← cxlAnswers_eq h hn.add] at hturns
    rw [← local_cxlInit hp]
    exact Int.ofNat_inj.mp hturns
  · have := Nat.div_le_self 100 (Nat.gcd p (100 - p))
    omega

/-- Three in ten. -/
theorem scheduler_ratio_of_thirty :
    cxlAnswers (cxlInit 30) 10 (ticketsAfter (cxlInit 30) 7 .zero) = 3 := by
  have h := scheduler_ratio (p := 30) (by decide) 7
  exact h.2.2.2.1 (noReset_zero (share_cxlInit (p := 30) (by decide)) (by decide))

end Sidle.Cxl
