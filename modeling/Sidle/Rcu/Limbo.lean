import Mathlib.Algebra.Group.Nat.Defs
import Mathlib.Data.List.Basic
import Mathlib.Data.Nat.Notation
import Sidle.Prog.Trace

/-!
# The limbo of a thread

`kvthread.hh` keeps what a thread has retired in groups of 253 elements until it may be freed.  An
element is a pointer or the epoch of the pointers behind it, and an epoch is written only where it
changes.  `hard_rcu_quiesce` frees at most 128 pointers, and when it has to stop within a group it
writes the epoch over the last one that it has freed.  Groups that have become empty are hooked in
behind the last one and are used again.

## Main definitions

* `LimboGroup`, `Limbo` — `limbo_group`, and the chain of a `threadinfo`.
* `Limbo.recordRcu`, `Limbo.hardRcuQuiesce` — what is done with them.
* `Limbo.contents` — the pointers that have not been freed, each with its epoch.

## Main results

* `Limbo.Valid.recordRcu`, `Limbo.Valid.hardRcuQuiesce` — the operations in terms of the contents.
* `run_limbo` — **a limbo is a queue: nothing is lost, nothing is freed twice, and nothing before
  its epoch.**
-/

namespace Sidle.Rcu

open Trace

/-- `mrcu_epoch_type`. -/
abbrev Epoch := BitVec 64

/-- `mrcu_signed_epoch_type(x - y) < 0`. -/
def behind (x y : Epoch) : Bool := (x - y).msb

/-- Epochs that are not half the range apart compare as numbers do. -/
theorem behind_eq {x y : Epoch} (hx : x.toNat < 2 ^ 63) (hy : y.toNat < 2 ^ 63) :
    behind x y = decide (x.toNat < y.toNat) := by
  rw [behind, BitVec.msb_eq_decide, BitVec.toNat_sub]
  apply decide_eq_decide.mpr
  omega

/-! ### Groups -/

variable {α : Type*}

/-- `limbo_element`: without a pointer, it stands for an epoch. -/
inductive LimboElement (α : Type*)
  | epoch (epoch : Epoch)
  | ptr (a : α)
  deriving DecidableEq, Repr

/-- `capacity`. -/
def capacity : ℕ := 253

/-- `limbo_group`. -/
structure LimboGroup (α : Type*) where
  head : ℕ
  /-- The elements from `head_` to `tail_`. -/
  live : List (LimboElement α)
  epoch : Epoch

namespace LimboGroup

/-- The constructor. -/
def make : LimboGroup α := ⟨0, [], 0⟩

variable (g : LimboGroup α)

/-- `tail_`. -/
def tail : ℕ := g.head + g.live.length

/-- `first_epoch`. -/
def firstEpoch : Option Epoch :=
  match g.live with
  | .epoch e :: _ => some e
  | _ => none

/-- `push_back`. -/
def pushBack (a : α) (epoch : Epoch) : Option (LimboGroup α) :=
  if g.tail + 2 ≤ capacity then
    some <|
      if g.live = [] ∨ g.epoch ≠ epoch then
        { g with live := g.live ++ [.epoch epoch, .ptr a], epoch := epoch }
      else { g with live := g.live ++ [.ptr a] }
  else none

end LimboGroup

/-- What `clean_until` leaves and returns, and what it has freed. -/
structure Cleaned (α : Type*) where
  live : List (LimboElement α)
  count : ℕ
  freed : List (α × Epoch)

/-- The loop of `clean_until`, with the epoch that it has seen last. -/
def cleanLoop (epochBound : Epoch) : Epoch → ℕ → List (LimboElement α) → Cleaned α
  | _, count, [] => ⟨[], count, []⟩
  | epoch, count, .ptr a :: es =>
    if count - 1 = 0 then ⟨.epoch epoch :: es, 0, [(a, epoch)]⟩
    else
      let c := cleanLoop epochBound epoch (count - 1) es
      { c with freed := (a, epoch) :: c.freed }
  | _, count, .epoch e :: es =>
    if behind epochBound e then ⟨.epoch e :: es, count, []⟩
    else cleanLoop epochBound e count es

/-- `clean_until`. -/
def LimboGroup.cleanUntil (g : LimboGroup α) (epochBound : Epoch) (count : ℕ) :
    LimboGroup α × ℕ × List (α × Epoch) :=
  let c := cleanLoop epochBound 0 count g.live
  ({ g with head := if c.live = [] then 0 else g.tail - c.live.length, live := c.live },
    c.count, c.freed)

/-! ### The chain -/

/-- The groups of a thread. -/
structure Limbo (α : Type*) where
  /-- From `limbo_head_` on to the one before `limbo_tail_`. -/
  front : List (LimboGroup α)
  /-- `limbo_tail_`. -/
  last : LimboGroup α
  /-- Behind `limbo_tail_`. -/
  spare : List (LimboGroup α)

namespace Limbo

/-- The limbo of a new thread. -/
def make : Limbo α := ⟨[], .make, []⟩

variable (l : Limbo α)

/-- `limbo_head_`. -/
def headGroup : LimboGroup α := l.front.headD l.last

/-- `refill_rcu`. -/
def refillRcu : Limbo α :=
  match l.spare with
  | [] => ⟨l.front ++ [l.last], .make, []⟩
  | g :: gs => ⟨l.front ++ [l.last], g, gs⟩

/-- `record_rcu`, with the value of `globalepoch`. -/
def recordRcu (a : α) (globalepoch : Epoch) : Option (Limbo α) :=
  let l := if capacity < l.last.tail + 2 then l.refillRcu else l
  (l.last.pushBack a globalepoch).map fun last => { l with last := last }

/-- The loop of `hard_rcu_quiesce`, behind the groups that it has emptied. -/
def cleanGroups (epochBound : Epoch) (last : LimboGroup α) (spare : List (LimboGroup α)) :
    List (LimboGroup α) → ℕ → List (LimboGroup α) → Limbo α × ℕ × List (α × Epoch)
  | front, 0, empties => (⟨front, last, empties ++ spare⟩, 0, [])
  | [], count + 1, empties =>
    let (last', count', freed) := last.cleanUntil epochBound (count + 1)
    if last'.live ≠ [] then (⟨[], last', empties ++ spare⟩, count', freed)
    else
      match empties with
      | [] => (⟨[], last', spare⟩, count', freed)
      | e :: es => (⟨[], e, es ++ last' :: spare⟩, count', freed)
  | g :: gs, count + 1, empties =>
    let (g', count', freed) := g.cleanUntil epochBound (count + 1)
    if g'.live ≠ [] then (⟨g' :: gs, last, empties ++ spare⟩, count', freed)
    else
      let (l', count'', freed') := cleanGroups epochBound last spare gs count' (empties ++ [g'])
      (l', count'', freed ++ freed')

/-- `rcu_free_count`. -/
def rcuFreeCount : ℕ := 128

/-- `hard_rcu_quiesce`, with the value of `active_epoch`: the chain, `perform_gc_epoch_` and what
has been freed.  `none` stands for the failed assertion of `first_epoch`. -/
def hardRcuQuiesce (activeEpoch : Epoch) : Option (Limbo α × Epoch × List (α × Epoch)) :=
  let epochBound := activeEpoch - 1
  if l.headGroup.live = [] then some (l, epochBound + 1, [])
  else
    l.headGroup.firstEpoch.map fun first =>
      if behind epochBound first then (l, epochBound + 1, [])
      else
        let (l', count, freed) := cleanGroups epochBound l.last l.spare l.front rcuFreeCount []
        (l', if count = 0 then epochBound else epochBound + 1, freed)

end Limbo

/-! ### The contents -/

/-- The pointers among the elements, each with the epoch before it. -/
def stamped : Epoch → List (LimboElement α) → List (α × Epoch)
  | _, [] => []
  | epoch, .ptr a :: es => (a, epoch) :: stamped epoch es
  | _, .epoch e :: es => stamped e es

/-- The last epoch among the elements. -/
def lastEpoch : Epoch → List (LimboElement α) → Epoch
  | epoch, [] => epoch
  | epoch, .ptr _ :: es => lastEpoch epoch es
  | _, .epoch e :: es => lastEpoch e es

/-- The elements begin with an epoch. -/
def Headed (es : List (LimboElement α)) : Prop := ∀ e ∈ es.head?, ∃ epoch, e = .epoch epoch

/-- The pointers in a group. -/
def LimboGroup.contents (g : LimboGroup α) : List (α × Epoch) := stamped 0 g.live

/-- The pointers in a limbo, in the order in which they have been recorded. -/
def Limbo.contents (l : Limbo α) : List (α × Epoch) :=
  l.front.flatMap LimboGroup.contents ++ l.last.contents

/-- A group whose elements can be read. -/
structure LimboGroup.Valid (g : LimboGroup α) : Prop where
  tail : g.tail ≤ capacity
  headed : Headed g.live
  epoch : g.live ≠ [] → lastEpoch 0 g.live = g.epoch
  empty : g.live = [] → g.head = 0

/-- The chain that the operations keep. -/
structure Limbo.Valid (l : Limbo α) : Prop where
  front : ∀ g ∈ l.front, g.Valid ∧ g.live ≠ []
  last : l.last.Valid
  spare : ∀ g ∈ l.spare, g.head = 0 ∧ g.live = []

section Elements

variable {es fs : List (LimboElement α)} {epoch epochBound : Epoch} {count : ℕ}

theorem stamped_append (es fs : List (LimboElement α)) (epoch : Epoch) :
    stamped epoch (es ++ fs) = stamped epoch es ++ stamped (lastEpoch epoch es) fs := by
  induction es generalizing epoch with
  | nil => rfl
  | cons e es ih =>
    cases e with
    | epoch e => exact ih e
    | ptr a => exact congrArg _ (ih epoch)

theorem lastEpoch_append (es fs : List (LimboElement α)) (epoch : Epoch) :
    lastEpoch epoch (es ++ fs) = lastEpoch (lastEpoch epoch es) fs := by
  induction es generalizing epoch with
  | nil => rfl
  | cons e es ih =>
    cases e with
    | epoch e => exact ih e
    | ptr a => exact ih epoch

/-- What the loop of `clean_until` does to the elements `es` behind the epoch `epoch`. -/
structure CleanLoopSpec (epochBound epoch : Epoch) (count : ℕ) (es : List (LimboElement α))
    (c : Cleaned α) : Prop where
  contents : stamped epoch es = c.freed ++ stamped 0 c.live
  headed : Headed c.live
  lastEpoch : c.live ≠ [] → Rcu.lastEpoch 0 c.live = Rcu.lastEpoch epoch es
  length : c.live.length ≤ es.length
  count : c.count + c.freed.length = count
  freed : ∀ x ∈ c.freed, behind epochBound x.2 = false
  more : c.live = [] → 0 < c.count
  /-- If it has stopped before the count was used up, it is at an epoch that is too late. -/
  stopped : 0 < c.count → c.live ≠ [] → ∃ e fs, c.live = .epoch e :: fs ∧ behind epochBound e = true

theorem cleanLoop_spec (epochBound epoch : Epoch) (hcount : 0 < count)
    (hepoch : Headed es ∨ behind epochBound epoch = false) :
    CleanLoopSpec epochBound epoch count es (cleanLoop epochBound epoch count es) := by
  induction es generalizing epoch count with
  | nil =>
    exact {
      contents := rfl
      headed := fun e he => by cases he
      lastEpoch := fun h => absurd rfl h
      length := Nat.le_refl 0
      count := rfl
      freed := fun x hx => by cases hx
      more := fun _ => hcount
      stopped := fun _ h => absurd rfl h }
  | cons e es ih =>
    cases e with
    | epoch e =>
      rw [cleanLoop]
      split
      · rename_i hbehind
        exact {
          contents := rfl
          headed := fun x hx => by cases hx; exact ⟨e, rfl⟩
          lastEpoch := fun _ => rfl
          length := Nat.le_refl _
          count := rfl
          freed := fun x hx => by cases hx
          more := fun h => by cases h
          stopped := fun _ _ => ⟨e, es, rfl, hbehind⟩ }
      · rename_i hbehind
        have hspec := ih _ hcount (Or.inr (Bool.eq_false_iff.mpr hbehind))
        exact {
          contents := hspec.contents
          headed := hspec.headed
          lastEpoch := hspec.lastEpoch
          length := Nat.le_succ_of_le hspec.length
          count := hspec.count
          freed := hspec.freed
          more := hspec.more
          stopped := hspec.stopped }
    | ptr a =>
      have hepoch : behind epochBound epoch = false := by
        rcases hepoch with hheaded | hepoch
        · obtain ⟨e, he⟩ := hheaded (.ptr a) rfl
          cases he
        · exact hepoch
      rw [cleanLoop]
      split
      · -- the count is used up: the epoch takes the place of the pointer
        exact {
          contents := rfl
          headed := fun x hx => by cases hx; exact ⟨epoch, rfl⟩
          lastEpoch := fun _ => rfl
          length := Nat.le_refl _
          count := by simp only [List.length_singleton]; omega
          freed := fun x hx => by cases List.mem_singleton.mp hx; exact hepoch
          more := fun h => by cases h
          stopped := fun h => absurd h (Nat.lt_irrefl 0) }
      · have hspec := @ih (count - 1) epoch (by omega) (Or.inr hepoch)
        exact {
          contents := congrArg _ hspec.contents
          headed := hspec.headed
          lastEpoch := hspec.lastEpoch
          length := Nat.le_succ_of_le hspec.length
          count := by
            have := hspec.count
            simp only [List.length_cons]
            omega
          freed := by
            intro x hx
            rcases List.mem_cons.mp hx with rfl | hx
            · exact hepoch
            · exact hspec.freed x hx
          more := hspec.more
          stopped := hspec.stopped }

end Elements

/-! ### The operations on the contents -/

section Groups

variable {g : LimboGroup α} {l : Limbo α} {a : α} {epoch epochBound : Epoch} {count : ℕ}

theorem LimboGroup.valid_make : (LimboGroup.make : LimboGroup α).Valid :=
  ⟨Nat.zero_le _, fun _ he => (Option.not_mem_none _ he).elim, fun h => absurd rfl h,
    fun _ => rfl⟩

/-- A group that has been emptied is as good as a new one. -/
theorem LimboGroup.valid_of_empty (hhead : g.head = 0) (hlive : g.live = []) : g.Valid := by
  refine ⟨?_, ?_, fun h => absurd hlive h, fun _ => hhead⟩
  · rw [tail, hhead, hlive]
    exact Nat.zero_le _
  · rw [hlive]
    intro e he
    cases he

/-- `push_back` appends to the contents. -/
theorem LimboGroup.Valid.pushBack (h : g.Valid) (a : α) (epoch : Epoch)
    (hroom : g.tail + 2 ≤ capacity) :
    ∃ g', g.pushBack a epoch = some g' ∧ g'.Valid ∧ g'.live ≠ [] ∧
      g'.contents = g.contents ++ [(a, epoch)] := by
  rw [LimboGroup.pushBack, if_pos hroom]
  refine ⟨_, rfl, ?_⟩
  have hlen : g.head + g.live.length + 2 ≤ capacity := hroom
  split
  · -- a new epoch
    refine ⟨⟨?_, ?_, ?_, fun h => by simp at h⟩, by simp, ?_⟩
    · simp only [LimboGroup.tail, List.length_append, List.length_cons, List.length_nil]
      omega
    · intro e he
      cases hlive : g.live with
      | nil =>
        rw [hlive] at he
        cases he
        exact ⟨epoch, rfl⟩
      | cons x es =>
        rw [hlive] at he
        apply h.headed e
        rw [hlive]
        exact he
    · intro _
      simp only [lastEpoch_append, lastEpoch]
    · simp only [LimboGroup.contents, stamped_append, stamped]
  · rename_i hsame
    rw [not_or, not_not] at hsame
    obtain ⟨hne, heq⟩ := hsame
    refine ⟨⟨?_, ?_, ?_, fun h => by simp at h⟩, by simp, ?_⟩
    · simp only [LimboGroup.tail, List.length_append, List.length_singleton]
      omega
    · intro e he
      obtain ⟨x, es, hlive⟩ := List.exists_cons_of_ne_nil hne
      apply h.headed e
      rw [hlive] at he ⊢
      exact he
    · intro _
      simp only [lastEpoch_append, lastEpoch]
      exact h.epoch hne
    · simp only [LimboGroup.contents, stamped_append, stamped, h.epoch hne, heq]

/-- What `clean_until` does to a group: it frees from the front, and what is left begins with the
epoch of the pointer behind. -/
structure CleanSpec (epochBound : Epoch) (count : ℕ) (g : LimboGroup α)
    (r : LimboGroup α × ℕ × List (α × Epoch)) : Prop where
  valid : r.1.Valid
  contents : g.contents = r.2.2 ++ r.1.contents
  count : r.2.1 + r.2.2.length = count
  freed : ∀ x ∈ r.2.2, behind epochBound x.2 = false
  more : r.1.live = [] → 0 < r.2.1
  stopped : 0 < r.2.1 → r.1.live ≠ [] →
    ∃ e, r.1.firstEpoch = some e ∧ behind epochBound e = true

theorem LimboGroup.Valid.cleanUntil (h : g.Valid) (epochBound : Epoch)
    (hcount : 0 < count) :
    CleanSpec epochBound count g (g.cleanUntil epochBound count) := by
  have hspec := cleanLoop_spec epochBound 0 hcount (Or.inl h.headed)
  refine ⟨⟨?_, hspec.headed, ?_, fun hnil => if_pos hnil⟩, hspec.contents, hspec.count,
    hspec.freed, hspec.more, ?_⟩
  · have htail : g.head + g.live.length ≤ capacity := h.tail
    have hlen := hspec.length
    simp only [LimboGroup.cleanUntil, LimboGroup.tail]
    split
    · rename_i hnil
      rw [hnil]
      exact Nat.zero_le _
    · omega
  · intro hne
    refine (hspec.lastEpoch hne).trans (h.epoch ?_)
    intro hnil
    have hlen : (g.cleanUntil epochBound count).1.live.length ≤ g.live.length := hspec.length
    rw [hnil] at hlen
    exact hne (List.length_eq_zero_iff.mp (Nat.le_zero.mp hlen))
  · intro hcount' hne
    obtain ⟨e, fs, hlive, hbehind⟩ := hspec.stopped hcount' hne
    refine ⟨e, ?_, hbehind⟩
    simp only [LimboGroup.firstEpoch, LimboGroup.cleanUntil, hlive]

theorem Limbo.valid_make : (Limbo.make : Limbo α).Valid := by
  refine ⟨?_, LimboGroup.valid_make, ?_⟩
  · intro g hg
    cases hg
  · intro g hg
    cases hg

theorem Limbo.Valid.headed_headGroup (h : l.Valid) : Headed l.headGroup.live := by
  unfold Limbo.headGroup
  cases hfront : l.front with
  | nil => exact h.last.headed
  | cons g gs => exact (h.front g (by rw [hfront]; exact List.mem_cons_self)).1.headed

/-- After `refill_rcu` there is room in the last group. -/
theorem Limbo.Valid.refillRcu (h : l.Valid) (hfull : capacity < l.last.tail + 2) :
    l.refillRcu.Valid ∧ l.refillRcu.last.tail + 2 ≤ capacity ∧
      l.refillRcu.contents = l.contents := by
  have hne : l.last.live ≠ [] := by
    intro hnil
    rw [LimboGroup.tail, h.last.empty hnil, hnil] at hfull
    simp [capacity] at hfull
  have hfront : ∀ g ∈ l.front ++ [l.last], g.Valid ∧ g.live ≠ [] := by
    intro g hg
    rcases List.mem_append.mp hg with hg | hg
    · exact h.front g hg
    · cases List.mem_singleton.mp hg
      exact ⟨h.last, hne⟩
  have hcontents (g : LimboGroup α) (hg : g.live = []) :
      (l.front ++ [l.last]).flatMap LimboGroup.contents ++ g.contents = l.contents := by
    simp only [List.flatMap_append, List.flatMap_cons, List.flatMap_nil, List.append_nil,
      Limbo.contents, LimboGroup.contents, hg, stamped]
  unfold Limbo.refillRcu
  cases hspare : l.spare with
  | nil =>
    refine ⟨⟨hfront, LimboGroup.valid_make, fun g hg => by cases hg⟩, ?_, hcontents _ rfl⟩
    simp [LimboGroup.tail, LimboGroup.make, capacity]
  | cons g gs =>
    obtain ⟨hhead, hlive⟩ := h.spare g (by rw [hspare]; exact List.mem_cons_self)
    refine ⟨⟨hfront, LimboGroup.valid_of_empty hhead hlive, ?_⟩, ?_, hcontents g hlive⟩
    · intro g' hg'
      exact h.spare g' (by rw [hspare]; exact List.mem_cons_of_mem g hg')
    · simp [LimboGroup.tail, hhead, hlive, capacity]

/-- `record_rcu` never fails, and it appends to the contents. -/
theorem Limbo.Valid.recordRcu (h : l.Valid) (a : α) (epoch : Epoch) :
    ∃ l', l.recordRcu a epoch = some l' ∧ l'.Valid ∧ l'.contents = l.contents ++ [(a, epoch)] := by
  have hpush {l : Limbo α} (h : l.Valid) (hroom : l.last.tail + 2 ≤ capacity) :
      ∃ l', ((l.last.pushBack a epoch).map fun last => { l with last := last }) = some l' ∧
        l'.Valid ∧ l'.contents = l.contents ++ [(a, epoch)] := by
    obtain ⟨g', hpush, hvalid, -, hcontents⟩ := h.last.pushBack a epoch hroom
    rw [hpush]
    refine ⟨_, rfl, ⟨h.front, hvalid, h.spare⟩, ?_⟩
    simp only [Limbo.contents, hcontents, List.append_assoc]
  unfold Limbo.recordRcu
  by_cases hfull : capacity < l.last.tail + 2
  · rw [if_pos hfull]
    obtain ⟨hvalid, hroom, hcontents⟩ := h.refillRcu hfull
    rw [← hcontents]
    exact hpush hvalid hroom
  · rw [if_neg hfull]
    exact hpush h (Nat.le_of_not_lt hfull)

/-- What the loop of `hard_rcu_quiesce` does to the groups `front`, behind those that it has
emptied. -/
structure QuiesceSpec (epochBound : Epoch) (count : ℕ) (before : List (α × Epoch))
    (r : Limbo α × ℕ × List (α × Epoch)) : Prop where
  valid : r.1.Valid
  contents : before = r.2.2 ++ r.1.contents
  count : r.2.1 + r.2.2.length = count
  freed : ∀ x ∈ r.2.2, behind epochBound x.2 = false
  /-- If it has stopped before the count was used up, nothing is left or the next is too late. -/
  stopped : 0 < r.2.1 → r.1.contents = [] ∨
    ∃ e, r.1.headGroup.firstEpoch = some e ∧ behind epochBound e = true

theorem cleanGroups_spec (epochBound : Epoch) (count : ℕ) (empties : List (LimboGroup α))
    {front spare : List (LimboGroup α)} {last : LimboGroup α}
    (hfront : ∀ g ∈ front, g.Valid ∧ g.live ≠ []) (hlast : last.Valid)
    (hempties : ∀ g ∈ empties, g.head = 0 ∧ g.live = [])
    (hspare : ∀ g ∈ spare, g.head = 0 ∧ g.live = []) (hcount : 0 < count) :
    QuiesceSpec epochBound count (front.flatMap LimboGroup.contents ++ last.contents)
      (Limbo.cleanGroups epochBound last spare front count empties) := by
  have hboth {empties : List (LimboGroup α)} (h : ∀ g ∈ empties, g.head = 0 ∧ g.live = []) :
      ∀ g ∈ empties ++ spare, g.head = 0 ∧ g.live = [] := by
    intro g hg
    rcases List.mem_append.mp hg with hg | hg
    · exact h g hg
    · exact hspare g hg
  induction front generalizing count empties with
  | nil =>
    obtain ⟨count, rfl⟩ := Nat.exists_eq_succ_of_ne_zero (Nat.ne_of_gt hcount)
    have hspec := hlast.cleanUntil epochBound hcount
    rw [Limbo.cleanGroups]
    rcases hclean : last.cleanUntil epochBound (count + 1) with ⟨last', count', freed⟩
    rw [hclean] at hspec
    dsimp only
    by_cases hne : last'.live = []
    · -- everything has been freed, and the first group becomes the only one
      rw [if_neg (not_not.mpr hne)]
      have hempty : last'.head = 0 ∧ last'.live = [] := ⟨hspec.valid.empty hne, hne⟩
      have hnothing : last'.contents = [] := by
        rw [LimboGroup.contents, hne]
        rfl
      have hcontents : last.contents = freed := by
        rw [hspec.contents]
        dsimp only
        rw [hnothing, List.append_nil]
      cases empties with
      | nil =>
        refine ⟨⟨fun _ hg => absurd hg List.not_mem_nil, hspec.valid, hspare⟩, ?_, hspec.count,
          hspec.freed, fun _ => Or.inl hnothing⟩
        change last.contents = freed ++ last'.contents
        rw [hcontents, hnothing, List.append_nil]
      | cons e es =>
        obtain ⟨hhead, hlive⟩ := hempties e List.mem_cons_self
        have hnothing' : e.contents = [] := by
          rw [LimboGroup.contents, hlive]
          rfl
        refine ⟨⟨fun _ hg => absurd hg List.not_mem_nil,
          LimboGroup.valid_of_empty hhead hlive, ?_⟩, ?_, hspec.count, hspec.freed,
          fun _ => Or.inl hnothing'⟩
        · intro g hg
          rcases List.mem_append.mp hg with hg | hg
          · exact hempties g (List.mem_cons_of_mem e hg)
          · rcases List.mem_cons.mp hg with rfl | hg
            · exact hempty
            · exact hspare g hg
        · change last.contents = freed ++ e.contents
          rw [hcontents, hnothing', List.append_nil]
    · rw [if_pos hne]
      refine ⟨⟨fun _ hg => absurd hg List.not_mem_nil, hspec.valid, hboth hempties⟩, hspec.contents,
        hspec.count, hspec.freed, ?_⟩
      intro hcount'
      exact Or.inr (hspec.stopped hcount' hne)
  | cons g gs ih =>
    obtain ⟨count, rfl⟩ := Nat.exists_eq_succ_of_ne_zero (Nat.ne_of_gt hcount)
    obtain ⟨hg, -⟩ := hfront g List.mem_cons_self
    have hgs : ∀ g' ∈ gs, g'.Valid ∧ g'.live ≠ [] :=
      fun g' hg' => hfront g' (List.mem_cons_of_mem g hg')
    have hspec := hg.cleanUntil epochBound hcount
    rw [Limbo.cleanGroups]
    rcases hclean : g.cleanUntil epochBound (count + 1) with ⟨g', count', freed⟩
    rw [hclean] at hspec
    dsimp only
    by_cases hne : g'.live = []
    · rw [if_neg (not_not.mpr hne)]
      have hempties' : ∀ e ∈ empties ++ [g'], e.head = 0 ∧ e.live = [] := by
        intro e he
        rcases List.mem_append.mp he with he | he
        · exact hempties e he
        · cases List.mem_singleton.mp he
          exact ⟨hspec.valid.empty hne, hne⟩
      have hrest := ih _ _ hgs hempties' (hspec.more hne)
      rcases hloop : Limbo.cleanGroups epochBound last spare gs count' (empties ++ [g'])
        with ⟨l', count'', freed'⟩
      rw [hloop] at hrest
      refine ⟨hrest.valid, ?_, ?_, ?_, hrest.stopped⟩
      · have hcontents : g.contents = freed := by
          rw [hspec.contents]
          change freed ++ stamped 0 g'.live = freed
          rw [hne]
          exact List.append_nil freed
        have hafter : gs.flatMap LimboGroup.contents ++ last.contents = freed' ++ l'.contents :=
          hrest.contents
        rw [List.flatMap_cons, List.append_assoc, hafter, hcontents, List.append_assoc]
      · have h₁ : count' + freed.length = count + 1 := hspec.count
        have h₂ : count'' + freed'.length = count' := hrest.count
        simp only [List.length_append]
        omega
      · intro x hx
        rcases List.mem_append.mp hx with hx | hx
        · exact hspec.freed x hx
        · exact hrest.freed x hx
    · rw [if_pos hne]
      refine ⟨⟨?_, hlast, hboth hempties⟩, ?_, hspec.count, hspec.freed, ?_⟩
      · intro g'' hg''
        rcases List.mem_cons.mp hg'' with rfl | hg''
        · exact ⟨hspec.valid, hne⟩
        · exact hgs g'' hg''
      · have hcontents : g.contents = freed ++ g'.contents := hspec.contents
        simp only [Limbo.contents, List.flatMap_cons, hcontents, List.append_assoc]
      · intro hcount'
        exact Or.inr (hspec.stopped hcount' hne)

/-- `hard_rcu_quiesce` never fails, and it frees from the front of the contents. -/
theorem Limbo.Valid.hardRcuQuiesce (h : l.Valid) (activeEpoch : Epoch) :
    ∃ l' performGcEpoch freed, l.hardRcuQuiesce activeEpoch = some (l', performGcEpoch, freed) ∧
      l'.Valid ∧ l.contents = freed ++ l'.contents ∧ freed.length ≤ rcuFreeCount ∧
      (∀ x ∈ freed, behind (activeEpoch - 1) x.2 = false) ∧
      (performGcEpoch = activeEpoch → l'.contents = [] ∨
        ∃ e, l'.headGroup.firstEpoch = some e ∧ behind (activeEpoch - 1) e = true) := by
  have hback : activeEpoch - 1 + 1 = activeEpoch := BitVec.sub_add_cancel activeEpoch 1
  have hless : activeEpoch - 1 ≠ activeEpoch := by
    intro heq
    have hnat := congrArg BitVec.toNat heq
    have hlt := activeEpoch.isLt
    rw [BitVec.toNat_sub, show (1 : Epoch).toNat = 1 from rfl] at hnat
    omega
  unfold Limbo.hardRcuQuiesce
  dsimp only
  by_cases hempty : l.headGroup.live = []
  · -- nothing is waiting
    rw [if_pos hempty, hback]
    refine ⟨l, _, [], rfl, h, rfl, Nat.zero_le _, fun x hx => absurd hx List.not_mem_nil, ?_⟩
    intro _
    have hfront : l.front = [] := by
      cases hfront : l.front with
      | nil => rfl
      | cons g gs =>
        have hg := (h.front g (by rw [hfront]; exact List.mem_cons_self)).2
        rw [Limbo.headGroup, hfront] at hempty
        exact absurd hempty hg
    rw [Limbo.headGroup, hfront] at hempty
    left
    rw [Limbo.contents, hfront, LimboGroup.contents]
    change stamped 0 l.last.live = []
    rw [show l.last.live = [] from hempty]
    rfl
  · rw [if_neg hempty]
    obtain ⟨x, es, hlive⟩ := List.exists_cons_of_ne_nil hempty
    obtain ⟨first, rfl⟩ := h.headed_headGroup x (by rw [hlive]; rfl)
    have hfirst : l.headGroup.firstEpoch = some first := by
      simp only [LimboGroup.firstEpoch, hlive]
    rw [hfirst, Option.map_some]
    by_cases hbehind : behind (activeEpoch - 1) first = true
    · rw [if_pos hbehind, hback]
      exact ⟨l, _, [], rfl, h, rfl, Nat.zero_le _, fun x hx => absurd hx List.not_mem_nil,
        fun _ => Or.inr ⟨first, hfirst, hbehind⟩⟩
    · rw [if_neg hbehind]
      have hspec := cleanGroups_spec (activeEpoch - 1) Limbo.rcuFreeCount [] h.front h.last
        (fun g hg => absurd hg List.not_mem_nil) h.spare (by decide)
      rcases hloop : Limbo.cleanGroups (activeEpoch - 1) l.last l.spare l.front
        Limbo.rcuFreeCount [] with ⟨l', count', freed⟩
      rw [hloop] at hspec
      have hcount : count' + freed.length = Limbo.rcuFreeCount := hspec.count
      refine ⟨l', _, freed, rfl, hspec.valid, hspec.contents, by omega, hspec.freed, ?_⟩
      intro hperform
      apply hspec.stopped
      by_contra hzero
      rw [if_pos (Nat.eq_zero_of_not_pos hzero)] at hperform
      exact hless hperform

end Groups

/-! ### Runs -/

/-- What a thread does with its limbo. -/
inductive LimboEvent (α : Type*)
  /-- `record_rcu`, at the time of a `globalepoch`. -/
  | record (a : α) (globalepoch : Epoch)
  /-- `hard_rcu_quiesce`, at the time of an `active_epoch`. -/
  | quiesce (activeEpoch : Epoch)

/-- The limbo of a thread with `perform_gc_epoch_`, and all that it has freed so far. -/
structure LimboState (α : Type*) where
  limbo : Limbo α
  performGcEpoch : Epoch
  freed : List (α × Epoch)

/-- A new thread. -/
def LimboState.make : LimboState α := ⟨.make, 0, []⟩

/-- One operation, which fails where an assertion does. -/
def limboStep (s : LimboState α) : LimboEvent α → Option (LimboState α)
  | .record a globalepoch =>
    (s.limbo.recordRcu a globalepoch).map fun l => { s with limbo := l }
  | .quiesce activeEpoch =>
    (s.limbo.hardRcuQuiesce activeEpoch).map fun (l, performGcEpoch, freed) =>
      ⟨l, performGcEpoch, s.freed ++ freed⟩

/-- What has been recorded, each with the global epoch of the time. -/
def recorded (es : List (LimboEvent α)) : List (α × Epoch) :=
  es.filterMap fun
    | .record a globalepoch => some (a, globalepoch)
    | .quiesce _ => none

/-- What a `hard_rcu_quiesce` may do: it frees at most 128 pointers, each not before its epoch, and
if it reports that it has caught up with `active_epoch`, then nothing is left or the next epoch is
not over. -/
def QuiesceOk (s : LimboState α) (e : LimboEvent α) (t : LimboState α) : Prop :=
  ∀ activeEpoch, e = .quiesce activeEpoch → ∃ freed, t.freed = s.freed ++ freed ∧
    freed.length ≤ Limbo.rcuFreeCount ∧ (∀ x ∈ freed, behind (activeEpoch - 1) x.2 = false) ∧
    (t.performGcEpoch = activeEpoch → t.limbo.contents = [] ∨
      ∃ first, t.limbo.headGroup.firstEpoch = some first ∧
        behind (activeEpoch - 1) first = true)

/-- One operation on a valid limbo. -/
theorem limboStep_spec {s : LimboState α} (hs : s.limbo.Valid) (e : LimboEvent α) :
    ∃ t, limboStep s e = some t ∧ t.limbo.Valid ∧
      s.freed ++ s.limbo.contents ++ recorded [e] = t.freed ++ t.limbo.contents ∧
      QuiesceOk s e t := by
  cases e with
  | record a globalepoch =>
    obtain ⟨l, hl, hvalid, hcontents⟩ := hs.recordRcu a globalepoch
    refine ⟨{ s with limbo := l }, ?_, hvalid, ?_, fun _ h => by cases h⟩
    · rw [limboStep, hl, Option.map_some]
    · rw [hcontents]
      exact List.append_assoc _ _ _
  | quiesce activeEpoch =>
    obtain ⟨l, performGcEpoch, freed, hl, hvalid, hcontents, hcount, hfreed, hdone⟩ :=
      hs.hardRcuQuiesce activeEpoch
    refine ⟨⟨l, performGcEpoch, s.freed ++ freed⟩, ?_, hvalid, ?_, ?_⟩
    · rw [limboStep, hl, Option.map_some]
    · rw [hcontents]
      change s.freed ++ (freed ++ l.contents) ++ [] = s.freed ++ freed ++ l.contents
      rw [List.append_nil, List.append_assoc]
    · intro activeEpoch' h
      cases h
      exact ⟨freed, rfl, hcount, hfreed, hdone⟩

theorem run_limbo_of_valid {s : LimboState α} (hs : s.limbo.Valid) (es : List (LimboEvent α)) :
    ∃ t, run limboStep s es = some t ∧
      s.freed ++ s.limbo.contents ++ recorded es = t.freed ++ t.limbo.contents ∧
      EachStep limboStep QuiesceOk s es := by
  induction es generalizing s with
  | nil => exact ⟨s, rfl, List.append_nil _, eachStep_nil⟩
  | cons e es ih =>
    obtain ⟨u, hu, hvalid, hcontents, hok⟩ := limboStep_spec hs e
    obtain ⟨t, ht, hcontents', hoks⟩ := ih hvalid
    refine ⟨t, ?_, ?_, ?_⟩
    · rw [run_cons_of_step hu, ht]
    · have hrec : recorded (e :: es) = recorded [e] ++ recorded es :=
        @List.filterMap_append _ _ [e] es _
      rw [hrec, ← List.append_assoc, hcontents, hcontents']
    · rw [eachStep_cons]
      intro v hv
      rw [hu] at hv
      cases hv
      exact ⟨hok, hoks⟩

/-- **A limbo is a queue.**  In every run no assertion fails, what has been recorded is what has
been freed followed by what is waiting, in this order, and every `hard_rcu_quiesce` frees what it
may. -/
theorem run_limbo (es : List (LimboEvent α)) : ∃ t, run limboStep .make es = some t ∧
    recorded es = t.freed ++ t.limbo.contents ∧ EachStep limboStep QuiesceOk .make es :=
  run_limbo_of_valid Limbo.valid_make es

end Sidle.Rcu
