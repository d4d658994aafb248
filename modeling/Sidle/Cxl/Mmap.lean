import Mathlib.Data.Fintype.Defs
import Mathlib.Data.Set.Pairwise.Basic
import Mathlib.Order.CompletePartialOrder
import Mathlib.Order.Interval.Set.Basic
import Sidle.Cxl.Scheduler
import Sidle.Prog.Trace

/-!
# Mappings on the device

`mmap_with_cxl` and `mmap_on_cxl` map the device at the offset that the shared `cxl_offset` has
reached, and then add the length to it.  The read of the offset and the addition are two atomic
steps, so that two threads can map the same part of the device; and `mmap_with_cxl` adds lengths
that are no multiples of the device alignment.

## Main definitions

* `CallPc`, `MmapState`, `MmapEvent`, `mmapStep` — the transition system.
* `RangesRight` — the mapped ranges are disjoint, and the offsets are aligned.
* `Separated` — what keeps them so.

## Main results

* `MmapInv.step` — what one step preserves.
* `ranges_right_of_run` — **when the ranges are right**.
-/

namespace Sidle.Cxl

/-- `CXL_MAX_SIZE`. -/
def cxlMaxSize : UInt64 := 1024 * 1024 * 1024 * 30

/-- `CXL_MIN_SIZE`, the alignment of the device. -/
def cxlMinSize : UInt64 := 2 * 1024 * 1024

/-- The length that `mmap_on_cxl` maps. -/
def roundLength (length : UInt64) : UInt64 := (length + cxlMinSize - 1) / cxlMinSize * cxlMinSize

/-- Where a thread is in a call. -/
inductive CallPc
  | idle
  /-- Before the read of `cxl_offset`. -/
  | reading (length : UInt64)
  /-- Before `mmap`. -/
  | mapping (length offset : UInt64)
  /-- Before `atomic_fetch_add`, with the success of `mmap`. -/
  | adding (length : UInt64) (ok : Bool)
  deriving DecidableEq, Repr

/-- The offset, the tickets and the calls of the threads, the offsets that have been passed to
`mmap`, and the ranges `(offset, length)` that it has mapped. -/
structure MmapState (τ : Type) where
  cxlOffset : UInt64
  tickets : τ → Tickets
  pc : τ → CallPc
  used : List UInt64
  mapped : List (UInt64 × UInt64)

/-- The steps of a run. -/
inductive MmapEvent (τ : Type)
  | mmapWithCxl (i : τ) (length : UInt64)
  | mmapOnCxl (i : τ) (length : UInt64)
  /-- The read of `cxl_offset`. -/
  | read (i : τ)
  /-- `mmap` on the device. -/
  | mmap (i : τ) (ok : Bool)
  /-- `atomic_fetch_add`. -/
  | add (i : τ)

section Step

variable {τ : Type} [DecidableEq τ]

/-- Move a thread. -/
def MmapState.setPc (s : MmapState τ) (i : τ) (pc : CallPc) : MmapState τ :=
  { s with pc := Function.update s.pc i pc }

/-- The transition function, with the strides and `cxl_kind != NULL`. -/
def mmapStep (st : Strides) (cxlKind : Bool) (s : MmapState τ) : MmapEvent τ → Option (MmapState τ)
  | .mmapWithCxl i length =>
    if s.pc i = .idle then
      if cxlKind then
        let (dev, t) := strideScheduler st (s.tickets i)
        let s := { s with tickets := Function.update s.tickets i t }
        some (if dev = .cxlDev then s.setPc i (.reading length) else s)
      else some s
    else none
  | .mmapOnCxl i length =>
    if s.pc i = .idle then some (s.setPc i (.reading (roundLength length))) else none
  | .read i =>
    match s.pc i with
    | .reading length => some (s.setPc i (.mapping length s.cxlOffset))
    | _ => none
  | .mmap i ok =>
    match s.pc i with
    | .mapping length offset =>
      some
        { s.setPc i (.adding length ok) with
          used := offset :: s.used
          mapped := if ok then (offset, length) :: s.mapped else s.mapped }
    | _ => none
  | .add i =>
    match s.pc i with
    | .adding length _ => some { s.setPc i .idle with cxlOffset := s.cxlOffset + length }
    | _ => none

end Step

/-- Nothing has been mapped yet. -/
def MmapState.initial (τ : Type) : MmapState τ :=
  ⟨cxlMaxSize, fun _ => .zero, fun _ => .idle, [], []⟩

/-- The part of the device that a mapping covers. -/
def device (r : UInt64 × UInt64) : Set ℕ := Set.Ico r.1.toNat (r.1.toNat + r.2.toNat)

/-- **The ranges are right.**  They are pairwise disjoint, and every offset is aligned. -/
def RangesRight {τ : Type} (s : MmapState τ) : Prop :=
  s.mapped.Pairwise (fun r r' => Disjoint (device r) (device r')) ∧
    ∀ o ∈ s.used, cxlMinSize.toNat ∣ o.toNat

/-- The call has an offset that it may map or has mapped, and has not added its length yet. -/
def CallPc.Claims : CallPc → Prop
  | .idle | .reading _ => False
  | .mapping _ _ => True
  | .adding _ ok => ok = true

instance : (pc : CallPc) → Decidable pc.Claims
  | .idle | .reading _ => isFalse id
  | .mapping _ _ => isTrue trivial
  | .adding _ ok => inferInstanceAs (Decidable (ok = true))

/-- What keeps the ranges right: `mmap_with_cxl` is called with aligned lengths when it comes to the
device, no call reads the offset while another one claims a part of the device, and no addition
wraps around. -/
def Separated {τ : Type} (st : Strides) (cxlKind : Bool) (s : MmapState τ) : MmapEvent τ → Prop
  | .mmapWithCxl i length => cxlKind = true →
    (strideScheduler st (s.tickets i)).1 = .cxlDev → cxlMinSize.toNat ∣ length.toNat
  | .read i => ∀ j, j ≠ i → ¬ (s.pc j).Claims
  | .add i => ∀ length ok, s.pc i = .adding length ok → s.cxlOffset.toNat + length.toNat < 2 ^ 64
  | .mmapOnCxl _ _ | .mmap _ _ => True

/-! ### The invariant -/

/-- The length of a call is aligned. -/
def CallPc.Aligned : CallPc → Prop
  | .idle => True
  | .reading length | .adding length _ => cxlMinSize.toNat ∣ length.toNat
  | .mapping length offset => cxlMinSize.toNat ∣ length.toNat ∧ cxlMinSize.toNat ∣ offset.toNat

/-- All that has been mapped lies below the address `o`. -/
def MappedBelow {τ : Type} (s : MmapState τ) (o : ℕ) : Prop :=
  ∀ r ∈ s.mapped, r.1.toNat + r.2.toNat ≤ o

/-- What a call knows of the ranges. -/
def CallOk {τ : Type} (s : MmapState τ) : CallPc → Prop
  | .idle | .reading _ => True
  | .mapping _ offset => offset.toNat ≤ s.cxlOffset.toNat ∧ MappedBelow s offset.toNat
  | .adding length ok => ok = true → MappedBelow s (s.cxlOffset.toNat + length.toNat)

/-- The invariant of a run. -/
structure MmapInv {τ : Type} (s : MmapState τ) : Prop where
  right : RangesRight s
  offset : cxlMinSize.toNat ∣ s.cxlOffset.toNat
  aligned : ∀ i, (s.pc i).Aligned
  claims : ∀ i j, (s.pc i).Claims → (s.pc j).Claims → i = j
  call : ∀ i, CallOk s (s.pc i)
  free : (∀ i, ¬ (s.pc i).Claims) → MappedBelow s s.cxlOffset.toNat

variable {τ : Type} {st : Strides} {cxlKind : Bool} {s s' : MmapState τ} {i : τ} {pc : CallPc}

theorem MmapInv.initial : MmapInv (MmapState.initial τ) where
  right := ⟨List.Pairwise.nil, fun _ h => by cases h⟩
  offset := show cxlMinSize.toNat ∣ cxlMaxSize.toNat by decide
  aligned _ := trivial
  claims _ _ h := h.elim
  call _ := trivial
  free _ _ h := by cases h

/-- The length of `mmap_on_cxl` is aligned, even when the rounding wraps around. -/
theorem dvd_roundLength (length : UInt64) : cxlMinSize.toNat ∣ (roundLength length).toNat := by
  have hdvd : cxlMinSize.toNat ∣ 2 ^ 64 := by decide
  rw [roundLength, UInt64.toNat_mul]
  exact (Nat.dvd_mod_iff hdvd).mpr (Nat.dvd_mul_left ..)

theorem toNat_add_of_lt {x y : UInt64} (h : x.toNat + y.toNat < 2 ^ 64) :
    (x + y).toNat = x.toNat + y.toNat := by rw [UInt64.toNat_add, Nat.mod_eq_of_lt h]

theorem MappedBelow.mono {o o' : ℕ} (h : MappedBelow s o) (hle : o ≤ o') : MappedBelow s o' :=
  fun r hr => (h r hr).trans hle

/-- A call that claims nothing knows nothing of the ranges. -/
theorem callOk_of_not_claims (h : ¬ pc.Claims) : CallOk s pc := by
  cases pc with
  | idle | reading => trivial
  | mapping => exact absurd trivial h
  | adding => exact fun hok => absurd hok h

/-- The only call that claims something. -/
theorem MmapInv.not_claims (h : MmapInv s) (hi : (s.pc i).Claims) {j : τ} (hj : j ≠ i) :
    ¬ (s.pc j).Claims := fun hc => hj (h.claims j i hc hi)

theorem MmapInv.setTickets (h : MmapInv s) (f : τ → Tickets) : MmapInv { s with tickets := f } :=
  ⟨h.right, h.offset, h.aligned, h.claims, h.call, h.free⟩

/-! ### The steps -/

variable [DecidableEq τ]

@[simp] theorem MmapState.setPc_pc_self : (s.setPc i pc).pc i = pc := Function.update_self ..

theorem MmapState.setPc_pc_of_ne {j : τ} (h : j ≠ i) : (s.setPc i pc).pc j = s.pc j :=
  Function.update_of_ne h ..

/-- A thread moves, and nothing is mapped. -/
theorem MmapInv.setPc (h : MmapInv s) (hal : pc.Aligned) (hcall : CallOk s pc)
    (hclaims : pc.Claims → ∀ j, j ≠ i → ¬ (s.pc j).Claims)
    (hfree : ¬ pc.Claims → (∀ j, j ≠ i → ¬ (s.pc j).Claims) → MappedBelow s s.cxlOffset.toNat) :
    MmapInv (s.setPc i pc) where
  right := h.right
  offset := h.offset
  aligned j := by
    by_cases hj : j = i
    · rwa [hj, MmapState.setPc_pc_self]
    · rw [MmapState.setPc_pc_of_ne hj]
      exact h.aligned j
  claims j k hcj hck := by
    by_cases hj : j = i <;> by_cases hk : k = i
    · rw [hj, hk]
    · rw [hj, MmapState.setPc_pc_self] at hcj
      rw [MmapState.setPc_pc_of_ne hk] at hck
      exact absurd hck (hclaims hcj k hk)
    · rw [MmapState.setPc_pc_of_ne hj] at hcj
      rw [hk, MmapState.setPc_pc_self] at hck
      exact absurd hcj (hclaims hck j hj)
    · rw [MmapState.setPc_pc_of_ne hj] at hcj
      rw [MmapState.setPc_pc_of_ne hk] at hck
      exact h.claims j k hcj hck
  call j := by
    by_cases hj : j = i
    · rw [hj, MmapState.setPc_pc_self]
      exact hcall
    · rw [MmapState.setPc_pc_of_ne hj]
      exact h.call j
  free hnone := by
    refine hfree ?_ fun j hj => ?_
    · have := hnone i
      rwa [MmapState.setPc_pc_self] at this
    · have := hnone j
      rwa [MmapState.setPc_pc_of_ne hj] at this

/-- A call that begins. -/
theorem MmapInv.begin (h : MmapInv s) (hidle : s.pc i = .idle) {length : UInt64}
    (hlen : cxlMinSize.toNat ∣ length.toNat) : MmapInv (s.setPc i (.reading length)) := by
  refine h.setPc hlen trivial (fun hc => hc.elim) fun _ hothers => h.free fun j => ?_
  by_cases hj : j = i
  · rw [hj, hidle]
    exact id
  · exact hothers j hj

/-- The read of the offset, when nobody else claims anything. -/
theorem MmapInv.read (h : MmapInv s) {length : UInt64} (hpc : s.pc i = .reading length)
    (hothers : ∀ j, j ≠ i → ¬ (s.pc j).Claims) :
    MmapInv (s.setPc i (.mapping length s.cxlOffset)) := by
  have hal := h.aligned i
  rw [hpc] at hal
  have hbelow : MappedBelow s s.cxlOffset.toNat := h.free fun j => by
    by_cases hj : j = i
    · rw [hj, hpc]
      exact id
    · exact hothers j hj
  exact h.setPc ⟨hal, h.offset⟩ ⟨Nat.le_refl _, hbelow⟩ (fun _ => hothers) fun _ _ => hbelow

/-- `mmap` at the offset that has been read. -/
theorem MmapInv.mmap (h : MmapInv s) {length offset : UInt64}
    (hpc : s.pc i = .mapping length offset)
    (ok : Bool) :
    MmapInv { s.setPc i (.adding length ok) with
      used := offset :: s.used
      mapped := if ok then (offset, length) :: s.mapped else s.mapped } := by
  have hal := h.aligned i
  have hcall := h.call i
  rw [hpc] at hal hcall
  obtain ⟨hlen, hoff⟩ := hal
  obtain ⟨hle, hbelow⟩ := hcall
  have hothers (j : τ) (hj : j ≠ i) : ¬ (s.pc j).Claims :=
    h.not_claims (by rw [hpc]; trivial) hj
  have hused : ∀ o ∈ offset :: s.used, cxlMinSize.toNat ∣ o.toNat := by
    intro o ho
    rcases List.mem_cons.mp ho with rfl | ho
    · exact hoff
    · exact h.right.2 o ho
  cases ok with
  | false =>
    have hset : MmapInv (s.setPc i (.adding length false)) :=
      h.setPc hlen (fun hok => by cases hok) (fun hc => by cases hc) fun _ _ => hbelow.mono hle
    exact ⟨⟨h.right.1, hused⟩, hset.offset, hset.aligned, hset.claims, hset.call, hset.free⟩
  | true =>
    have hmapped : ∀ r ∈ (offset, length) :: s.mapped,
        r.1.toNat + r.2.toNat ≤ s.cxlOffset.toNat + length.toNat := by
      intro r hr
      rcases List.mem_cons.mp hr with rfl | hr
      · exact Nat.add_le_add_right hle _
      · exact (hbelow r hr).trans (hle.trans (Nat.le_add_right ..))
    refine ⟨⟨?_, hused⟩, h.offset, fun j => ?_, fun j k hcj hck => ?_, fun j => ?_, fun hnone => ?_⟩
    · -- everything that has been mapped lies below the new range
      refine List.pairwise_cons.mpr ⟨fun r hr => ?_, h.right.1⟩
      rw [Set.disjoint_left]
      rintro x ⟨hx, -⟩ ⟨-, hx'⟩
      have := hbelow r hr
      simp only at hx
      omega
    · by_cases hj : j = i
      · rw [hj]
        simp only [MmapState.setPc_pc_self]
        exact hlen
      · simpa [MmapState.setPc_pc_of_ne hj] using h.aligned j
    · have heq {l : τ} (hc : ((s.setPc i (.adding length true)).pc l).Claims) : l = i := by
        by_contra hl
        rw [MmapState.setPc_pc_of_ne hl] at hc
        exact hothers l hl hc
      rw [heq hcj, heq hck]
    · by_cases hj : j = i
      · rw [hj]
        simp only [MmapState.setPc_pc_self]
        exact fun _ => hmapped
      · simp only [MmapState.setPc_pc_of_ne hj]
        exact callOk_of_not_claims (hothers j hj)
    · have := hnone i
      simp only [MmapState.setPc_pc_self] at this
      exact absurd rfl this

/-- The addition, when it does not wrap around. -/
theorem MmapInv.add (h : MmapInv s) {length : UInt64} {ok : Bool} (hpc : s.pc i = .adding length ok)
    (hlt : s.cxlOffset.toNat + length.toNat < 2 ^ 64) :
    MmapInv { s.setPc i .idle with cxlOffset := s.cxlOffset + length } := by
  have hsum := toNat_add_of_lt hlt
  have hal := h.aligned i
  have hcall := h.call i
  rw [hpc] at hal hcall
  have hle : s.cxlOffset.toNat ≤ (s.cxlOffset + length).toNat := hsum ▸ Nat.le_add_right ..
  refine ⟨h.right, ?_, fun j => ?_, fun j k hcj hck => ?_, fun j => ?_, fun hnone => ?_⟩
  · simp only [hsum]
    exact Nat.dvd_add h.offset hal
  · by_cases hj : j = i
    · rw [hj]
      simp only [MmapState.setPc_pc_self]
      trivial
    · simp only [MmapState.setPc_pc_of_ne hj]
      exact h.aligned j
  · have hold {l : τ} (hc : ((s.setPc i .idle).pc l).Claims) : (s.pc l).Claims := by
      by_cases hl : l = i
      · rw [hl, MmapState.setPc_pc_self] at hc
        exact hc.elim
      · rwa [MmapState.setPc_pc_of_ne hl] at hc
    exact h.claims j k (hold hcj) (hold hck)
  · by_cases hj : j = i
    · rw [hj]
      simp only [MmapState.setPc_pc_self]
      trivial
    · simp only [MmapState.setPc_pc_of_ne hj]
      have hcj := h.call j
      cases hpj : s.pc j with
      | idle | reading => trivial
      | mapping l o =>
        rw [hpj] at hcj
        exact ⟨hcj.1.trans hle, hcj.2⟩
      | adding l ok =>
        rw [hpj] at hcj
        exact fun hok => (hcj hok).mono (Nat.add_le_add_right hle _)
  · have hothers (j : τ) (hj : j ≠ i) : ¬ (s.pc j).Claims := by
      have := hnone j
      simpa only [MmapState.setPc_pc_of_ne hj] using this
    have hbelow : MappedBelow s (s.cxlOffset.toNat + length.toNat) := by
      cases ok with
      | true => exact hcall rfl
      | false =>
        refine (h.free fun j => ?_).mono (Nat.le_add_right ..)
        by_cases hj : j = i
        · rw [hj, hpc]
          exact fun hok => by cases hok
        · exact hothers j hj
    simp only [hsum]
    exact hbelow

/-- **What one step preserves.** -/
theorem MmapInv.step (h : MmapInv s) {e : MmapEvent τ} (hstep : mmapStep st cxlKind s e = some s')
    (hsep : Separated st cxlKind s e) : MmapInv s' := by
  cases e with
  | mmapWithCxl i length =>
    simp only [mmapStep] at hstep
    split at hstep
    · split at hstep
      · rename_i hkind
        obtain rfl := Option.some.inj hstep
        split
        · exact (h.setTickets (Function.update s.tickets i _)).begin ‹s.pc i = .idle›
            (hsep hkind ‹_›)
        · exact h.setTickets _
      · obtain rfl := Option.some.inj hstep
        exact h
    · cases hstep
  | mmapOnCxl i length =>
    simp only [mmapStep] at hstep
    split at hstep
    · obtain rfl := Option.some.inj hstep
      exact h.begin ‹_› (dvd_roundLength length)
    · cases hstep
  | read i =>
    simp only [mmapStep] at hstep
    split at hstep
    · obtain rfl := Option.some.inj hstep
      exact h.read ‹_› hsep
    · cases hstep
  | mmap i ok =>
    simp only [mmapStep] at hstep
    split at hstep
    · obtain rfl := Option.some.inj hstep
      exact h.mmap ‹_› ok
    · cases hstep
  | add i =>
    simp only [mmapStep] at hstep
    split at hstep
    · rename_i length ok hpc
      obtain rfl := Option.some.inj hstep
      exact h.add hpc (hsep length ok hpc)
    · cases hstep

/-! ### The main results -/

/-- **When the ranges are right.**  In every run in which `mmap_with_cxl` is called with aligned
lengths, no call reads the offset while another one claims a part of the device, and no addition
wraps around. -/
theorem ranges_right_of_run {es : List (MmapEvent τ)}
    (hes : Trace.EachStep (mmapStep st cxlKind) (fun s e _ => Separated st cxlKind s e)
      (.initial τ) es) :
    Trace.Always (mmapStep st cxlKind) RangesRight (.initial τ) es :=
  (Trace.always_of_eachStep MmapInv.initial (fun _ _ _ _ hstep hsep => MmapInv.step ‹_› hstep hsep)
    hes).imp fun _ h => h.right

instance [Fintype τ] (s : MmapState τ) :
    (e : MmapEvent τ) → Decidable (Separated st cxlKind s e)
  | .mmapWithCxl i length => inferInstanceAs (Decidable (_ → _ → _))
  | .read i => inferInstanceAs (Decidable (∀ j, j ≠ i → ¬ (s.pc j).Claims))
  | .add i =>
    match hpc : s.pc i with
    | .adding length ok =>
      decidable_of_iff (s.cxlOffset.toNat + length.toNat < 2 ^ 64) (by simp [Separated, hpc])
    | .idle | .reading _ | .mapping _ _ => isTrue (by simp [Separated, hpc])
  | .mmapOnCxl _ _ | .mmap _ _ => isTrue trivial

/-- Two threads map one after the other, the first one in vain. -/
theorem ranges_right_of_two : Trace.Always (mmapStep (cxlInit 50) true) RangesRight (.initial Bool)
    [.mmapOnCxl false 1, .mmapWithCxl true 4096, .mmapOnCxl true 5000000, .read false,
      .mmap false false, .read true, .mmap true true, .add false, .add true] :=
  ranges_right_of_run (by decide +kernel)

/-- Two calls that overlap. -/
def overlappingCalls : List (MmapEvent Bool) :=
  [.mmapOnCxl false 1, .mmapOnCxl true 1, .read false, .read true, .mmap false true,
    .mmap true true]

theorem run_overlappingCalls :
    (Trace.run (mmapStep (cxlInit 50) true) (.initial Bool) overlappingCalls).map MmapState.mapped =
      some [(cxlMaxSize, cxlMinSize), (cxlMaxSize, cxlMinSize)] := by
  decide +kernel

/-- A page, and then another mapping. -/
def pageFirst : List (MmapEvent Bool) :=
  [.mmapWithCxl false 4096, .read false, .mmap false true, .add false, .mmapOnCxl false 1,
    .read false,
    .mmap false true]

theorem run_pageFirst :
    (Trace.run (mmapStep (cxlInit 100) true) (.initial Bool) pageFirst).map MmapState.used =
      some [cxlMaxSize + 4096, cxlMaxSize] := by
  decide +kernel

/-- **Two calls that overlap** map the same range, and the length of a page misaligns the offset. -/
theorem ranges_wrong :
    ¬ Trace.Always (mmapStep (cxlInit 50) true) RangesRight (.initial Bool) overlappingCalls ∧
      ¬ Trace.Always (mmapStep (cxlInit 100) true) RangesRight (.initial Bool) pageFirst := by
  constructor
  · intro hall
    obtain ⟨s, hs, hmapped⟩ := Option.map_eq_some_iff.mp run_overlappingCalls
    have hright := (hall overlappingCalls [] s (List.append_nil _).symm hs).1
    rw [hmapped, List.pairwise_cons] at hright
    have hdis := Set.disjoint_left.mp (hright.1 _ List.mem_cons_self)
    have hmem : cxlMaxSize.toNat ∈ device (cxlMaxSize, cxlMinSize) := ⟨Nat.le_refl _, by decide⟩
    exact hdis hmem hmem
  · intro hall
    obtain ⟨s, hs, hused⟩ := Option.map_eq_some_iff.mp run_pageFirst
    have hright := (hall pageFirst [] s (List.append_nil _).symm hs).2
    rw [hused] at hright
    exact absurd (hright _ List.mem_cons_self) (by decide)

end Sidle.Cxl
