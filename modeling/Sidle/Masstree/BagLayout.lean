import Mathlib.Algebra.Group.Nat.Defs
import Sidle.Masstree.Struct

/-!
# The bytes of a string bag

A `stringbag` is one block of memory: its size and its capacity, the position and the length of
the string of each slot, and then the strings one behind another.  A string is written where the
last one of its slot lies if it fits there, and otherwise behind all strings.  The positions are
offsets of one or two bytes.

## Main definitions

* `ByteBag` — `stringbag`, with its bytes.
* `ByteBag.Valid` — the strings lie behind the header, within the capacity, and apart.

## Main results

* `ByteBag.Valid.assign` — one assignment to the bytes is one to the strings.
* `run_byteBag` — **the bytes keep the strings**, exactly as long as the size is an offset.
-/

namespace Sidle.Masstree

/-- `max_size` for offsets of `offsetSize` bytes. -/
def maxSize (offsetSize : ℕ) : ℕ := 256 ^ offsetSize

/-- `stringbag`, whose fields are offsets of `offsetSize` bytes. -/
structure ByteBag (offsetSize : ℕ) where
  /-- `size_`. -/
  size : ℕ
  /-- `capacity_ + 1`. -/
  capacity : ℕ
  /-- `info_`. -/
  pos : Fin width → ℕ
  len : Fin width → ℕ
  /-- `s_`. -/
  bytes : ℕ → UInt8

namespace ByteBag

variable {offsetSize : ℕ}

/-- The constructor, in a block with the given bytes: `none` where its assertion fails. -/
def make (offsetSize capacity : ℕ) (bytes : ℕ → UInt8) : Option (ByteBag offsetSize) :=
  if Stringbag.overhead offsetSize ≤ capacity ∧ capacity ≤ maxSize offsetSize then
    some
      { size := Stringbag.overhead offsetSize % maxSize offsetSize
        capacity := (capacity - 1) % maxSize offsetSize + 1
        pos := fun _ => 0
        len := fun _ => 0
        bytes := bytes }
  else none

variable (b : ByteBag offsetSize)

/-- `get`. -/
def get (p : Fin width) : Str := (List.range (b.len p)).map fun i => b.bytes (b.pos p + i)

/-- `memcpy(s_ + pos, s, len)`, and the new `info_[p]`. -/
def write (p : Fin width) (pos : ℕ) (s : Str) : ByteBag offsetSize :=
  { b with
    pos := Function.update b.pos p (pos % maxSize offsetSize)
    len := Function.update b.len p (s.length % maxSize offsetSize)
    bytes := fun i => if pos ≤ i ∧ i < pos + s.length then s.getD (i - pos) 0 else b.bytes i }

/-- `assign`. -/
def assign (p : Fin width) (s : Str) : ByteBag offsetSize × Bool :=
  if s.length ≤ b.len p then (b.write p (b.pos p) s, true)
  else if b.size + max s.length 8 ≤ b.capacity then
    ({ b.write p b.size s with size := (b.size + s.length) % maxSize offsetSize }, true)
  else (b, false)

/-- A sequence of assignments, and which of them have succeeded. -/
def run (b : ByteBag offsetSize) : List (Fin width × Str) → ByteBag offsetSize × List Bool
  | [] => (b, [])
  | (p, s) :: ops =>
    ((run (b.assign p s).1 ops).1, (b.assign p s).2 :: (run (b.assign p s).1 ops).2)

/-- The strings lie behind the header, within the capacity, and apart. -/
structure Valid : Prop where
  header : Stringbag.overhead offsetSize ≤ b.size
  size : b.size ≤ b.capacity
  capacity : b.capacity ≤ maxSize offsetSize
  pos : ∀ p, b.pos p < maxSize offsetSize
  within : ∀ p, 0 < b.len p →
    Stringbag.overhead offsetSize ≤ b.pos p ∧ b.pos p + b.len p ≤ b.size
  apart : ∀ p q, p ≠ q → 0 < b.len p → 0 < b.len q →
    b.pos p + b.len p ≤ b.pos q ∨ b.pos q + b.len q ≤ b.pos p

end ByteBag

/-- The same sequence for the strings. -/
def Stringbag.run (a : Stringbag) : List (Fin width × Str) → Stringbag × List Bool
  | [] => (a, [])
  | (p, s) :: ops =>
    match a.assign p s with
    | some a' => ((a'.run ops).1, true :: (a'.run ops).2)
    | none => ((a.run ops).1, false :: (a.run ops).2)

/-- The bytes stand for the strings. -/
structure ByteBag.Represents {offsetSize : ℕ} (b : ByteBag offsetSize) (a : Stringbag) : Prop where
  valid : b.Valid
  size : b.size = a.size
  capacity : b.capacity = a.capacity
  get : ∀ p, b.get p = a.get p

namespace ByteBag

variable {offsetSize : ℕ} {b : ByteBag offsetSize} {a a' : Stringbag} {p q : Fin width} {s : Str}

theorem length_get (b : ByteBag offsetSize) (p : Fin width) : (b.get p).length = b.len p := by
  simp [get]

/-- What has been written is read. -/
theorem get_write_self {pos : ℕ} (hpos : pos < maxSize offsetSize)
    (hlen : s.length < maxSize offsetSize) : (b.write p pos s).get p = s := by
  have hp : (b.write p pos s).pos p = pos :=
    (Function.update_self _ _ _).trans (Nat.mod_eq_of_lt hpos)
  have hl : (b.write p pos s).len p = s.length :=
    (Function.update_self _ _ _).trans (Nat.mod_eq_of_lt hlen)
  rw [get, hp, hl]
  apply List.ext_getElem
  · simp
  · intro i hi hi'
    simp [write, hi']

/-- What lies apart from it stays. -/
theorem get_write_of_ne {pos : ℕ} (hq : q ≠ p)
    (hapart : ∀ i < b.len q, ¬(pos ≤ b.pos q + i ∧ b.pos q + i < pos + s.length)) :
    (b.write p pos s).get q = b.get q := by
  have hp : (b.write p pos s).pos q = b.pos q := Function.update_of_ne hq _ _
  have hl : (b.write p pos s).len q = b.len q := Function.update_of_ne hq _ _
  rw [get, get, hp, hl]
  apply List.map_congr_left
  intro i hi
  exact if_neg (hapart i (List.mem_range.mp hi))

theorem overhead_pos (offsetSize : ℕ) (h : 0 < offsetSize) : 0 < Stringbag.overhead offsetSize := by
  unfold Stringbag.overhead
  omega

/-- A string that is not empty is shorter than the offsets can say. -/
theorem Valid.len_lt (h : b.Valid) (ho : 0 < offsetSize) (p : Fin width) :
    b.len p < maxSize offsetSize := by
  have hover := overhead_pos offsetSize ho
  have hheader := h.header
  have hsize := h.size
  have hcapacity := h.capacity
  rcases Nat.eq_zero_or_pos (b.len p) with h0 | hpos
  · omega
  · have hwithin := h.within p hpos
    omega

/-- Writing a string that lies apart from those of the other slots. -/
theorem Represents.write (h : b.Represents a) (s : Str) (pos size : ℕ)
    (hpos : pos < maxSize offsetSize) (hlen : s.length < maxSize offsetSize)
    (hsize : b.size ≤ size) (hcapacity : size ≤ b.capacity)
    (hwithin : 0 < s.length →
      Stringbag.overhead offsetSize ≤ pos ∧ pos + s.length ≤ size)
    (hapart : ∀ q, q ≠ p → 0 < b.len q → 0 < s.length →
      pos + s.length ≤ b.pos q ∨ b.pos q + b.len q ≤ pos) :
    ({ b.write p pos s with size := size } : ByteBag offsetSize).Represents
      { a with size := size, get := Function.update a.get p s } := by
  have hp (q : Fin width) :
      (b.write p pos s).pos q = if q = p then pos else b.pos q := by
    refine (Function.update_apply _ _ _ _).trans ?_
    rw [Nat.mod_eq_of_lt hpos]
  have hl (q : Fin width) :
      (b.write p pos s).len q = if q = p then s.length else b.len q := by
    refine (Function.update_apply _ _ _ _).trans ?_
    rw [Nat.mod_eq_of_lt hlen]
  refine ⟨⟨?_, hcapacity, h.valid.capacity, ?_, ?_, ?_⟩, rfl, h.capacity, ?_⟩
  · exact Nat.le_trans h.valid.header hsize
  · intro q
    refine Nat.lt_of_le_of_lt (hp q).le ?_
    split
    · exact hpos
    · exact h.valid.pos q
  · intro q hq
    replace hq : 0 < (b.write p pos s).len q := hq
    change _ ≤ (b.write p pos s).pos q ∧ (b.write p pos s).pos q + (b.write p pos s).len q ≤ size
    rw [hl] at hq
    rw [hp, hl]
    split
    · rw [if_pos ‹_›] at hq
      exact hwithin hq
    · rw [if_neg ‹_›] at hq
      have hold := h.valid.within q hq
      exact ⟨hold.1, Nat.le_trans hold.2 hsize⟩
  · intro q r hqr hq hr
    replace hq : 0 < (b.write p pos s).len q := hq
    replace hr : 0 < (b.write p pos s).len r := hr
    change (b.write p pos s).pos q + (b.write p pos s).len q ≤ (b.write p pos s).pos r ∨
      (b.write p pos s).pos r + (b.write p pos s).len r ≤ (b.write p pos s).pos q
    rw [hl] at hq hr
    rw [hp, hp, hl, hl]
    by_cases hqp : q = p
    · have hrp : r ≠ p := fun hrp => hqr (hqp.trans hrp.symm)
      rw [if_pos hqp] at hq
      rw [if_neg hrp] at hr
      rw [if_pos hqp, if_neg hrp, if_pos hqp, if_neg hrp]
      exact hapart r hrp hr hq
    · rw [if_neg hqp] at hq
      rw [if_neg hqp, if_neg hqp]
      by_cases hrp : r = p
      · rw [if_pos hrp] at hr
        rw [if_pos hrp, if_pos hrp]
        exact (hapart q hqp hq hr).symm
      · rw [if_neg hrp] at hr
        rw [if_neg hrp, if_neg hrp]
        exact h.valid.apart q r hqr hq hr
  · intro q
    by_cases hqp : q = p
    · subst hqp
      refine (get_write_self hpos hlen).trans ?_
      exact (Function.update_self (q : ℕ) s a.get).symm
    · have hne : (q : ℕ) ≠ p := fun h => hqp (Fin.ext h)
      have hget : (b.write p pos s).get q = b.get q := by
        apply get_write_of_ne hqp
        intro i hi hin
        have hq : 0 < b.len q := Nat.lt_of_le_of_lt (Nat.zero_le i) hi
        rcases hapart q hqp hq (by omega) with hbefore | hbehind
        · omega
        · omega
      refine (hget.trans (h.get q)).trans ?_
      exact (Function.update_of_ne hne s a.get).symm

/-- One assignment. -/
theorem Represents.assign (h : b.Represents a) (ho : 0 < offsetSize) (p : Fin width) (s : Str) :
    (∀ a', a.assign p s = some a' → a'.size < maxSize offsetSize →
      (b.assign p s).2 = true ∧ (b.assign p s).1.Represents a') ∧
    (a.assign p s = none → b.assign p s = (b, false)) := by
  have hlenp : (a.get p).length = b.len p := by rw [← h.get p, length_get]
  unfold Stringbag.assign ByteBag.assign
  rw [hlenp, ← h.size, ← h.capacity]
  by_cases hold : s.length ≤ b.len p
  · -- the place of the last string
    rw [if_pos hold, if_pos hold]
    refine ⟨?_, fun hnone => by cases hnone⟩
    intro a' ha' hsize
    cases ha'
    refine ⟨rfl, ?_⟩
    have hrep := h.write (p := p) s _ _ (h.valid.pos p)
      (Nat.lt_of_le_of_lt hold (h.valid.len_lt ho p)) (Nat.le_refl b.size) h.valid.size ?_ ?_
    · rw [← h.capacity] at hrep
      exact hrep
    · intro hs
      have hwithin := h.valid.within p (by omega)
      exact ⟨hwithin.1, by omega⟩
    · intro q hqp hq hs
      rcases h.valid.apart p q (Ne.symm hqp) (by omega) hq with hbefore | hbehind
      · left
        omega
      · exact Or.inr hbehind
  · rw [if_neg hold, if_neg hold]
    by_cases hroom : b.size + max s.length 8 ≤ b.capacity
    · -- behind all strings
      rw [if_pos hroom, if_pos hroom]
      refine ⟨?_, fun hnone => by cases hnone⟩
      intro a' ha' hsize
      cases ha'
      refine ⟨rfl, ?_⟩
      have hsize : b.size + s.length < maxSize offsetSize := hsize
      have hcapacity := h.valid.capacity
      have hheader := h.valid.header
      have hrep := h.write (p := p) s b.size (b.size + s.length)
        (by omega) (by omega) (Nat.le_add_right _ _) (by omega) ?_ ?_
      · rw [Nat.mod_eq_of_lt hsize]
        rw [← h.capacity] at hrep
        exact hrep
      · intro _
        exact ⟨hheader, Nat.le_refl _⟩
      · intro q _ hq _
        exact Or.inr (h.valid.within q hq).2
    · rw [if_neg hroom, if_neg hroom]
      exact ⟨fun _ ha' => (Option.some_ne_none _ ha'.symm).elim, fun _ => rfl⟩

end ByteBag

section Runs

variable {offsetSize capacity : ℕ} {b : ByteBag offsetSize} {a a' : Stringbag} {p : Fin width}
  {s : Str}

theorem Stringbag.size_le_of_assign (h : a.assign p s = some a') : a.size ≤ a'.size := by
  unfold Stringbag.assign at h
  split at h
  · cases h
    exact Nat.le_refl _
  · split at h
    · cases h
      exact Nat.le_add_right _ _
    · cases h

theorem Stringbag.size_le_run (a : Stringbag) (ops : List (Fin width × Str)) :
    a.size ≤ (a.run ops).1.size := by
  induction ops generalizing a with
  | nil => exact Nat.le_refl _
  | cons op ops ih =>
    obtain ⟨p, s⟩ := op
    rw [Stringbag.run]
    split
    · rename_i a' ha'
      exact Nat.le_trans (size_le_of_assign ha') (ih a')
    · exact ih a

theorem ByteBag.Represents.run (h : b.Represents a) (ho : 0 < offsetSize)
    (ops : List (Fin width × Str)) (hsize : (a.run ops).1.size < maxSize offsetSize) :
    (b.run ops).2 = (a.run ops).2 ∧ (b.run ops).1.Represents (a.run ops).1 := by
  induction ops generalizing a b with
  | nil => exact ⟨rfl, h⟩
  | cons op ops ih =>
    obtain ⟨p, s⟩ := op
    obtain ⟨hsome, hnone⟩ := h.assign ho p s
    rw [Stringbag.run] at hsize ⊢
    rw [ByteBag.run]
    cases ha : a.assign p s with
    | none =>
      rw [ha] at hsize
      obtain ⟨hoks, hrep⟩ := ih h hsize
      rw [hnone ha]
      exact ⟨congrArg _ hoks, hrep⟩
    | some a' =>
      rw [ha] at hsize
      have hle := a'.size_le_run ops
      obtain ⟨hok, hrep'⟩ := hsome a' ha (Nat.lt_of_le_of_lt hle hsize)
      obtain ⟨hoks, hrep⟩ := ih hrep' hsize
      refine ⟨?_, hrep⟩
      rw [hok]
      exact congrArg _ hoks

/-- A new bag is empty. -/
theorem ByteBag.represents_make (ho : 0 < offsetSize) {bytes : ℕ → UInt8}
    (h : ByteBag.make offsetSize capacity bytes = some b)
    (hover : Stringbag.overhead offsetSize < maxSize offsetSize) :
    b.Represents (Stringbag.make offsetSize capacity) := by
  unfold ByteBag.make at h
  split at h
  · rename_i hcap
    obtain ⟨hlow, hhigh⟩ := hcap
    cases h
    have hpos : 0 < Stringbag.overhead offsetSize := overhead_pos offsetSize ho
    have hcapacity : (capacity - 1) % maxSize offsetSize + 1 = capacity := by
      rw [Nat.mod_eq_of_lt (by omega)]
      omega
    have hsize : Stringbag.overhead offsetSize % maxSize offsetSize =
        Stringbag.overhead offsetSize := Nat.mod_eq_of_lt hover
    refine ⟨⟨hsize.ge, ?_, ?_, ?_, ?_, ?_⟩, hsize, hcapacity, ?_⟩
    · change _ % _ ≤ _ % _ + 1
      rw [hsize, hcapacity]
      exact hlow
    · change _ % _ + 1 ≤ _
      rw [hcapacity]
      exact hhigh
    · intro p
      exact Nat.lt_of_lt_of_le (Nat.zero_lt_of_lt hover) (Nat.le_refl _)
    · intro p hp
      exact absurd hp (Nat.lt_irrefl 0)
    · intro p q _ hp
      exact absurd hp (Nat.lt_irrefl 0)
    · intro p
      rfl
  · cases h

/-- The size is an offset. -/
theorem ByteBag.size_lt_run (h : b.size < maxSize offsetSize) (ops : List (Fin width × Str)) :
    (b.run ops).1.size < maxSize offsetSize := by
  induction ops generalizing b with
  | nil => exact h
  | cons op ops ih =>
    obtain ⟨p, s⟩ := op
    apply ih
    unfold ByteBag.assign
    split
    · exact h
    · split
      · exact Nat.mod_lt _ (Nat.zero_lt_of_lt h)
      · exact h

/-- **The bytes keep the strings.**  Whatever is assigned to a new bag, the assignments succeed
that do so for the strings, every slot reads back what was assigned to it last, and the strings
stay apart and behind the header: exactly as long as the bag is not filled to the last byte that
an offset can count. -/
theorem run_byteBag (ho : 0 < offsetSize) {bytes : ℕ → UInt8}
    (hmake : ByteBag.make offsetSize capacity bytes = some b)
    (hover : Stringbag.overhead offsetSize < maxSize offsetSize)
    (ops : List (Fin width × Str)) :
    ((b.run ops).2 = ((Stringbag.make offsetSize capacity).run ops).2 ∧
        (b.run ops).1.Represents ((Stringbag.make offsetSize capacity).run ops).1) ↔
      ((Stringbag.make offsetSize capacity).run ops).1.size < maxSize offsetSize := by
  have hrep := ByteBag.represents_make ho hmake hover
  constructor
  · intro ⟨_, hfinal⟩
    rw [← hfinal.size]
    apply ByteBag.size_lt_run
    rw [hrep.size]
    exact hover
  · exact hrep.run ho ops

/-- The bag behind the struct of a leaf, with two suffixes, one of them assigned twice. -/
theorem run_byteBag_internal :
    ∃ (b : ByteBag 1) (ops : List (Fin width × Str)),
      ByteBag.make 1 136 (fun _ => 0) = some b ∧ ops.map Prod.snd = [[1, 2, 3], [4], [5, 6]] ∧
        (b.run ops).1.Represents ((Stringbag.internal 136).run ops).1 :=
  ⟨_, [(⟨3, by decide⟩, [1, 2, 3]), (⟨5, by decide⟩, [4]), (⟨3, by decide⟩, [5, 6])], rfl, rfl,
    ((run_byteBag (by decide) rfl (by decide) _).mpr (by decide)).2⟩

end Runs

end Sidle.Masstree
