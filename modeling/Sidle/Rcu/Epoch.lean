import Mathlib.Logic.Function.Basic
import Sidle.Prog.Passes
import Sidle.Rcu.Limbo

/-!
# Epochs

Threads that read the tree without locks announce the global epoch in which they have begun.  What
is removed is recorded with the epoch of the time, and it is freed when the minimum of the
announced epochs has passed it.  All of this happens without locks: `epochinc` reads the global
epoch, writes it, and walks over the threads one by one, `rcu_start` reads the epoch before it
announces it, and a new thread hooks itself into the list of all threads.

Every access to what the threads share is a step of its own here, and the steps of any number of
threads are interleaved in any way.

## Main definitions

* `EpochState`, `EpochEvent`, `epochStep` — the threads and what they do.
* `Safe` — what was reachable when a reader began has not been freed.
* `Undisturbed` — no update of the shared variables is lost, and the epoch does not move between
  the retirement of a node and its removal.

## Main results

* `safe_of_undisturbed` — **in undisturbed runs no reader loses a node.**
* `lost_of_epochinc`, `lost_of_make`, `lost_of_remove_leaf` — what happens in others.
-/

namespace Sidle.Rcu

open Trace

/-- `threadinfo`, as far as epochs are concerned, with the values that the thread has read and not
used yet. -/
structure ThreadState (ι α : Type*) where
  /-- `gc_epoch_`. -/
  gcEpoch : Epoch
  /-- The contents of the limbo. -/
  limbo : List (α × Epoch)
  /-- In `rcu_start`, the value of `globalepoch`. -/
  start : Option Epoch
  /-- In `epochinc`, the value of `globalepoch`. -/
  increment : Option Epoch
  /-- In `min_active_epoch`, the value of `globalepoch`. -/
  minimum : Option Epoch
  /-- In its loop, the minimum so far and the threads to come. -/
  scan : Option (Epoch × List ι)
  /-- In `make`, the value of `allthreads`. -/
  next : Option (List ι)
  /-- The thread has been made. -/
  made : Bool
  /-- What had been removed when the thread announced its epoch. -/
  gone : List α

/-- Before `make`. -/
def ThreadState.init {ι α : Type*} : ThreadState ι α :=
  ⟨0, [], none, none, none, none, none, false, []⟩

/-- The variables that the threads share, and what has been removed and freed. -/
structure EpochState (ι α : Type*) where
  globalepoch : Epoch
  activeEpoch : Epoch
  allthreads : List ι
  thread : ι → ThreadState ι α
  removed : List α
  freed : List α

/-- The start of a program. -/
def EpochState.init {ι α : Type*} : EpochState ι α := ⟨1, 1, [], fun _ => .init, [], []⟩

/-- The accesses of the thread `i`. -/
inductive EpochEvent (ι α : Type*)
  /-- `ti->next_ = allthreads`. -/
  | makeRead (i : ι)
  /-- `allthreads = ti`. -/
  | makeWrite (i : ι)
  /-- `globalepoch += 2`. -/
  | incrementRead (i : ι)
  | incrementWrite (i : ι)
  /-- `min_active_epoch`, and the assignment to `active_epoch`. -/
  | scanRead (i : ι)
  | scanStart (i : ι)
  | scanVisit (i : ι)
  | scanEnd (i : ι)
  /-- `gc_epoch_ = globalepoch` in `rcu_start`. -/
  | startRead (i : ι)
  | startWrite (i : ι)
  /-- `gc_epoch_ = 0` in `rcu_stop`. -/
  | stop (i : ι)
  /-- The last store by which a node becomes unreachable. -/
  | remove (i : ι) (a : α)
  /-- `record_rcu`. -/
  | record (i : ι) (a : α)
  /-- `hard_rcu_quiesce` frees `n` pointers. -/
  | free (i : ι) (n : ℕ)
  deriving DecidableEq

section Steps

variable {ι α : Type*}

/-- A thread changes what belongs to it. -/
def EpochState.setThread [DecidableEq ι] (s : EpochState ι α) (i : ι) (t : ThreadState ι α) :
    EpochState ι α :=
  { s with thread := Function.update s.thread i t }

/-- One access.  The pointers that are freed are those that `hard_rcu_quiesce` may free, and it is
not called in the middle of a removal. -/
def epochStep [DecidableEq ι] [DecidableEq α] (s : EpochState ι α) :
    EpochEvent ι α → Option (EpochState ι α)
  | .makeRead i =>
    if (s.thread i).made then none
    else some (s.setThread i { s.thread i with next := some s.allthreads })
  | .makeWrite i =>
    (s.thread i).next.map fun next =>
      { s.setThread i { s.thread i with next := none, made := true } with
        allthreads := i :: next }
  | .incrementRead i =>
    some (s.setThread i { s.thread i with increment := some s.globalepoch })
  | .incrementWrite i =>
    (s.thread i).increment.map fun globalepoch =>
      { s.setThread i { s.thread i with increment := none } with globalepoch := globalepoch + 2 }
  | .scanRead i => some (s.setThread i { s.thread i with minimum := some s.globalepoch })
  | .scanStart i =>
    (s.thread i).minimum.map fun ae =>
      s.setThread i { s.thread i with minimum := none, scan := some (ae, s.allthreads) }
  | .scanVisit i =>
    match (s.thread i).scan with
    | some (ae, j :: rest) =>
      let te := (s.thread j).gcEpoch
      let ae := if te ≠ 0 ∧ behind te ae = true then te else ae
      some (s.setThread i { s.thread i with scan := some (ae, rest) })
    | _ => none
  | .scanEnd i =>
    match (s.thread i).scan with
    | some (ae, []) =>
      some { s.setThread i { s.thread i with scan := none } with activeEpoch := ae }
    | _ => none
  | .startRead i => some (s.setThread i { s.thread i with start := some s.globalepoch })
  | .startWrite i =>
    if (s.thread i).made then
      (s.thread i).start.map fun globalepoch =>
        s.setThread i
          { s.thread i with gcEpoch := globalepoch, start := none, gone := s.removed }
    else none
  | .stop i => some (s.setThread i { s.thread i with gcEpoch := 0 })
  | .remove _ a => if a ∈ s.removed then none else some { s with removed := a :: s.removed }
  | .record i a =>
    some (s.setThread i
      { s.thread i with limbo := (s.thread i).limbo ++ [(a, s.globalepoch)] })
  | .free i n =>
    let limbo := (s.thread i).limbo
    if ∀ x ∈ limbo.take n, behind (s.activeEpoch - 1) x.2 = false ∧ x.1 ∈ s.removed then
      some
        { s.setThread i { s.thread i with limbo := limbo.drop n } with
          freed := s.freed ++ (limbo.take n).map Prod.fst }
    else none

/-- What was reachable when a thread announced its epoch has not been freed. -/
def Safe (s : EpochState ι α) : Prop :=
  ∀ j, (s.thread j).gcEpoch ≠ 0 → ∀ a ∈ s.freed, a ∈ (s.thread j).gone

/-- A step that does not interfere with another thread: `globalepoch` is not set back, and does not
overflow; no thread has been hooked into `allthreads` since it was read; and the epoch has not moved
since a node that is being removed was recorded. -/
def Undisturbed (s : EpochState ι α) (e : EpochEvent ι α) (_ : EpochState ι α) : Prop :=
  match e with
  | .incrementWrite i => ∀ globalepoch ∈ (s.thread i).increment,
    s.globalepoch.toNat ≤ globalepoch.toNat + 2 ∧ globalepoch.toNat + 2 < 2 ^ 63
  | .makeWrite i => ∀ next ∈ (s.thread i).next, next = s.allthreads
  | .remove _ a => ∀ i, ∀ x ∈ (s.thread i).limbo, x.1 = a →
    s.globalepoch.toNat ≤ x.2.toNat
  | _ => True

/-! ### The invariant -/

/-- What a thread has read of the epochs is not ahead of them. -/
structure ThreadOk (globalepoch : Epoch) (t : ThreadState ι α) : Prop where
  gcEpoch : t.gcEpoch.toNat ≤ globalepoch.toNat
  made : t.gcEpoch ≠ 0 → t.made = true
  start : ∀ e, t.start = some e → e.toNat ≤ globalepoch.toNat
  minimum : ∀ ae, t.minimum = some ae → ae.toNat ≤ globalepoch.toNat ∧ 0 < ae.toNat
  scan : ∀ ae rest, t.scan = some (ae, rest) → ae.toNat ≤ globalepoch.toNat ∧ 0 < ae.toNat
  limbo : ∀ x ∈ t.limbo, x.2.toNat ≤ globalepoch.toNat

/-- The epoch `e` cannot be over as long as the thread `j` goes on with what it has begun. -/
structure Blocks (s : EpochState ι α) (j : ι) (e : Epoch) : Prop where
  gcEpoch : (s.thread j).gcEpoch.toNat ≤ e.toNat
  active : s.activeEpoch.toNat ≤ e.toNat
  /-- A scan that may end with a later epoch has yet to visit the thread. -/
  scan : ∀ k ae rest, (s.thread k).scan = some (ae, rest) → ae.toNat ≤ e.toNat ∨ j ∈ rest

/-- The invariant of undisturbed runs. -/
structure EpochInv (s : EpochState ι α) : Prop where
  positive : 0 < s.activeEpoch.toNat
  active : s.activeEpoch.toNat ≤ s.globalepoch.toNat
  bound : s.globalepoch.toNat < 2 ^ 63
  thread : ∀ i, ThreadOk s.globalepoch (s.thread i)
  made : ∀ i, (s.thread i).made = true → i ∈ s.allthreads
  freed : ∀ a ∈ s.freed, a ∈ s.removed
  safe : Safe s
  blocks : ∀ j, (s.thread j).gcEpoch ≠ 0 → ∀ a ∈ s.removed, a ∉ (s.thread j).gone →
    ∀ i epoch, (a, epoch) ∈ (s.thread i).limbo → Blocks s j epoch

variable {s t : EpochState ι α} {e : EpochEvent ι α} {i j : ι} {u : ThreadState ι α}

theorem thread_setThread [DecidableEq ι] (s : EpochState ι α) (i : ι) (u : ThreadState ι α)
    (j : ι) :
    (s.setThread i u).thread j = if j = i then u else s.thread j :=
  Function.update_apply s.thread i u j

/-- A property of all threads is kept if the new state of the thread has it. -/
theorem forall_setThread [DecidableEq ι] {P : ThreadState ι α → Prop} (h : ∀ j, P (s.thread j))
    (hu : P u) :
    ∀ j, P ((s.setThread i u).thread j) := by
  intro j
  rw [thread_setThread]
  split
  · exact hu
  · exact h j

theorem epochInv_init : EpochInv (EpochState.init : EpochState ι α) := by
  have hone : (EpochState.init : EpochState ι α).globalepoch.toNat = 1 := rfl
  have hactive : (EpochState.init : EpochState ι α).activeEpoch.toNat = 1 := rfl
  refine ⟨by omega, by omega, by omega, ?_, ?_, ?_, ?_, ?_⟩
  · intro i
    refine ⟨Nat.zero_le _, fun h => absurd rfl h, ?_, ?_, ?_, ?_⟩
    · intro e he
      cases he
    · intro ae hae
      cases hae
    · intro ae rest hscan
      cases hscan
    · intro x hx
      cases hx
  · intro i h
    cases h
  · intro a ha
    cases ha
  · intro j h
    exact absurd rfl h
  · intro j h
    exact absurd rfl h

/-- What a thread may change of its own: it announces its epoch when nothing that it will see has
been removed, it records with the global epoch of the time, and a scan that it begins or goes on
with does not pass a thread that blocks an epoch. -/
theorem EpochInv.setThread [DecidableEq ι] (h : EpochInv s) (hok : ThreadOk s.globalepoch u)
    (hmade : u.made = true → i ∈ s.allthreads)
    (hgc : u.gcEpoch ≠ 0 → u.gcEpoch = (s.thread i).gcEpoch ∧ u.gone = (s.thread i).gone ∨
      u.gone = s.removed)
    (hlimbo : ∀ x ∈ u.limbo, x ∈ (s.thread i).limbo ∨ x.2 = s.globalepoch)
    (hscan : ∀ j epoch, (s.thread j).gcEpoch ≠ 0 → Blocks s j epoch → ∀ ae rest,
      u.scan = some (ae, rest) → ae.toNat ≤ epoch.toNat ∨ j ∈ rest) :
    EpochInv (s.setThread i u) := by
  -- a thread that has not just announced its epoch is where it was
  have hgc' (j : ι) (hj : ((s.setThread i u).thread j).gcEpoch ≠ 0) :
      ((s.setThread i u).thread j).gcEpoch = (s.thread j).gcEpoch ∧
          ((s.setThread i u).thread j).gone = (s.thread j).gone ∨
        ((s.setThread i u).thread j).gone = s.removed := by
    rw [thread_setThread] at hj ⊢
    split at hj
    · rename_i hji
      rw [if_pos hji, hji]
      exact hgc hj
    · rw [if_neg ‹_›]
      exact Or.inl ⟨rfl, rfl⟩
  refine ⟨h.positive, h.active, h.bound, forall_setThread h.thread hok, ?_, h.freed, ?_, ?_⟩
  · intro j hj
    rw [thread_setThread] at hj
    split at hj
    · rename_i hji
      rw [hji]
      exact hmade hj
    · exact h.made j hj
  · intro j hj a ha
    rcases hgc' j hj with ⟨heq, hgone⟩ | hgone
    · rw [hgone]
      exact h.safe j (heq ▸ hj) a ha
    · rw [hgone]
      exact h.freed a ha
  · intro j hj a ha hnot k epoch hmem
    rcases hgc' j hj with ⟨heq, hgone⟩ | hgone
    · rw [heq] at hj
      have hblocks : Blocks s j epoch := by
        rw [thread_setThread] at hmem
        split at hmem
        · rename_i hki
          subst hki
          rcases hlimbo _ hmem with hold | hnew
          · exact h.blocks j hj a ha (hgone ▸ hnot) k epoch hold
          · -- a node that is recorded now
            have hnew : epoch = s.globalepoch := hnew
            rw [hnew]
            refine ⟨(h.thread j).gcEpoch, h.active, ?_⟩
            intro m ae rest hm
            exact Or.inl ((h.thread m).scan ae rest hm).1
        · exact h.blocks j hj a ha (hgone ▸ hnot) k epoch hmem
      refine ⟨heq ▸ hblocks.gcEpoch, hblocks.active, ?_⟩
      intro m ae rest hm
      rw [thread_setThread] at hm
      split at hm
      · exact hscan j epoch hj hblocks ae rest hm
      · exact hblocks.scan m ae rest hm
    · exact absurd ha (hgone ▸ hnot)

/-- The global epoch only grows. -/
theorem EpochInv.setGlobalepoch (h : EpochInv s) {globalepoch : Epoch}
    (hle : s.globalepoch.toNat ≤ globalepoch.toNat) (hbound : globalepoch.toNat < 2 ^ 63) :
    EpochInv { s with globalepoch := globalepoch } := by
  refine ⟨h.positive, Nat.le_trans h.active hle, hbound, ?_, h.made, h.freed, h.safe, ?_⟩
  · intro j
    have hj := h.thread j
    refine ⟨Nat.le_trans hj.gcEpoch hle, hj.made, ?_, ?_, ?_, ?_⟩
    · intro e he
      exact Nat.le_trans (hj.start e he) hle
    · intro ae hae
      exact ⟨Nat.le_trans (hj.minimum ae hae).1 hle, (hj.minimum ae hae).2⟩
    · intro ae rest hscan
      exact ⟨Nat.le_trans (hj.scan ae rest hscan).1 hle, (hj.scan ae rest hscan).2⟩
    · intro x hx
      exact Nat.le_trans (hj.limbo x hx) hle
  · intro j hj a ha hnot k epoch hmem
    obtain ⟨hgc, hactive, hscan⟩ := h.blocks j hj a ha hnot k epoch hmem
    exact ⟨hgc, hactive, hscan⟩

/-- A scan that has visited all threads has found the minimum. -/
theorem EpochInv.setActiveEpoch (h : EpochInv s) {ae : Epoch}
    (hscan : (s.thread i).scan = some (ae, [])) : EpochInv { s with activeEpoch := ae } := by
  obtain ⟨hle, hpos⟩ := (h.thread i).scan ae [] hscan
  refine ⟨hpos, hle, h.bound, h.thread, h.made, h.freed, h.safe, ?_⟩
  intro j hj a ha hnot k epoch hmem
  obtain ⟨hgc, -, hscans⟩ := h.blocks j hj a ha hnot k epoch hmem
  refine ⟨hgc, ?_, hscans⟩
  rcases hscans i ae [] hscan with hae | hmem
  · exact hae
  · exact absurd hmem List.not_mem_nil

/-- A node is removed in the epoch in which it has been recorded, or before it is. -/
theorem EpochInv.remove (h : EpochInv s) {a : α}
    (hepoch : ∀ k, ∀ x ∈ (s.thread k).limbo, x.1 = a →
      s.globalepoch.toNat ≤ x.2.toNat) :
    EpochInv { s with removed := a :: s.removed } := by
  refine ⟨h.positive, h.active, h.bound, h.thread, h.made, ?_, h.safe, ?_⟩
  · intro b hb
    exact List.mem_cons_of_mem a (h.freed b hb)
  · intro j hj b hb hnot k epoch hmem
    rcases List.mem_cons.mp hb with rfl | hb
    · have hle : s.globalepoch.toNat ≤ epoch.toNat := hepoch k (b, epoch) hmem rfl
      refine ⟨Nat.le_trans (h.thread j).gcEpoch hle, Nat.le_trans h.active hle, ?_⟩
      intro m ae rest hm
      exact Or.inl (Nat.le_trans ((h.thread m).scan ae rest hm).1 hle)
    · obtain ⟨hgc, hactive, hscan⟩ := h.blocks j hj b hb hnot k epoch hmem
      exact ⟨hgc, hactive, hscan⟩

/-- What is freed is not blocked. -/
theorem EpochInv.free (h : EpochInv s) {limbo : List (α × Epoch)}
    (hlimbo : ∀ x ∈ limbo, x ∈ (s.thread i).limbo)
    (hbehind : ∀ x ∈ limbo, behind (s.activeEpoch - 1) x.2 = false ∧ x.1 ∈ s.removed) :
    EpochInv { s with freed := s.freed ++ limbo.map Prod.fst } := by
  refine ⟨h.positive, h.active, h.bound, h.thread, h.made, ?_, ?_, ?_⟩
  · intro a ha
    rcases List.mem_append.mp ha with ha | ha
    · exact h.freed a ha
    · obtain ⟨x, hx, rfl⟩ := List.mem_map.mp ha
      exact (hbehind x hx).2
  · intro j hj a ha
    rcases List.mem_append.mp ha with ha | ha
    · exact h.safe j hj a ha
    · obtain ⟨x, hx, rfl⟩ := List.mem_map.mp ha
      obtain ⟨hnot, hremoved⟩ := hbehind x hx
      by_contra hgone
      have hactive := (h.blocks j hj x.1 hremoved hgone i x.2 (hlimbo x hx)).active
      have hle := (h.thread i).limbo x (hlimbo x hx)
      have hpos := h.positive
      have hbound := h.bound
      have hpred : (s.activeEpoch - 1).toNat = s.activeEpoch.toNat - 1 := by
        rw [BitVec.toNat_sub, show (1 : Epoch).toNat = 1 from rfl]
        omega
      rw [behind_eq (by omega) (by omega), hpred, decide_eq_false_iff_not] at hnot
      omega
  · intro j hj a ha hnot k epoch hmem
    obtain ⟨hgc, hactive, hscan⟩ := h.blocks j hj a ha hnot k epoch hmem
    exact ⟨hgc, hactive, hscan⟩

/-- **One step.** -/
theorem EpochInv.step [DecidableEq ι] [DecidableEq α] (h : EpochInv s)
    (hstep : epochStep s e = some t) (hok : Undisturbed s e t) : EpochInv t := by
  have hown (i : ι) (j : ι) (epoch : Epoch) (_ : (s.thread j).gcEpoch ≠ 0)
      (hblocks : Blocks s j epoch) (ae : Epoch) (rest : List ι)
      (hscan : (s.thread i).scan = some (ae, rest)) : ae.toNat ≤ epoch.toNat ∨ j ∈ rest :=
    hblocks.scan i ae rest hscan
  cases e with
  | makeRead i =>
    simp only [epochStep] at hstep
    split at hstep
    · cases hstep
    · cases hstep
      have hi := h.thread i
      exact h.setThread ⟨hi.gcEpoch, hi.made, hi.start, hi.minimum, hi.scan, hi.limbo⟩ (h.made i)
        (fun _ => Or.inl ⟨rfl, rfl⟩) (fun _ hx => Or.inl hx) (hown i)
  | makeWrite i =>
    obtain ⟨next, hnext, rfl⟩ := Option.map_eq_some_iff.mp hstep
    cases hok next hnext
    have hlist : EpochInv { s with allthreads := i :: s.allthreads } := by
      refine ⟨h.positive, h.active, h.bound, h.thread, ?_, h.freed, h.safe, ?_⟩
      · intro j hj
        exact List.mem_cons_of_mem i (h.made j hj)
      · intro j hj a ha hnot k epoch hmem
        obtain ⟨hgc, hactive, hscan⟩ := h.blocks j hj a ha hnot k epoch hmem
        exact ⟨hgc, hactive, hscan⟩
    have hi := h.thread i
    exact hlist.setThread ⟨hi.gcEpoch, fun _ => rfl, hi.start, hi.minimum, hi.scan, hi.limbo⟩
      (fun _ => List.mem_cons_self) (fun _ => Or.inl ⟨rfl, rfl⟩) (fun _ hx => Or.inl hx)
      fun j epoch hj hblocks => hown i j epoch hj ⟨hblocks.gcEpoch, hblocks.active, hblocks.scan⟩
  | incrementRead i =>
    cases hstep
    have hi := h.thread i
    exact h.setThread ⟨hi.gcEpoch, hi.made, hi.start, hi.minimum, hi.scan, hi.limbo⟩ (h.made i)
      (fun _ => Or.inl ⟨rfl, rfl⟩) (fun _ hx => Or.inl hx) (hown i)
  | incrementWrite i =>
    obtain ⟨globalepoch, hread, rfl⟩ := Option.map_eq_some_iff.mp hstep
    obtain ⟨hle, hbound⟩ := hok globalepoch hread
    have htwo : (globalepoch + 2).toNat = globalepoch.toNat + 2 := by
      rw [BitVec.toNat_add, show (2 : Epoch).toNat = 2 from rfl]
      omega
    have hi := h.thread i
    have hset : EpochInv (s.setThread i { s.thread i with increment := none }) :=
      h.setThread ⟨hi.gcEpoch, hi.made, hi.start, hi.minimum, hi.scan, hi.limbo⟩ (h.made i)
        (fun _ => Or.inl ⟨rfl, rfl⟩) (fun _ hx => Or.inl hx) (hown i)
    exact hset.setGlobalepoch (htwo ▸ hle) (htwo ▸ hbound)
  | scanRead i =>
    cases hstep
    have hi := h.thread i
    refine h.setThread ⟨hi.gcEpoch, hi.made, hi.start, ?_, hi.scan, hi.limbo⟩ (h.made i)
      (fun _ => Or.inl ⟨rfl, rfl⟩) (fun _ hx => Or.inl hx) (hown i)
    intro ae hae
    cases hae
    exact ⟨Nat.le_refl _, Nat.lt_of_lt_of_le h.positive h.active⟩
  | scanStart i =>
    obtain ⟨ae, hread, rfl⟩ := Option.map_eq_some_iff.mp hstep
    have hi := h.thread i
    refine h.setThread ⟨hi.gcEpoch, hi.made, hi.start,
      fun _ hnone => (Option.some_ne_none _ hnone.symm).elim, ?_, hi.limbo⟩ (h.made i)
      (fun _ => Or.inl ⟨rfl, rfl⟩) (fun _ hx => Or.inl hx) ?_
    · intro ae' rest hscan
      cases hscan
      exact hi.minimum ae hread
    · -- the scan will visit every thread
      intro j epoch hj hblocks ae rest hscan
      cases hscan
      exact Or.inr (h.made j ((h.thread j).made hj))
  | scanVisit i =>
    simp only [epochStep] at hstep
    split at hstep
    · rename_i ae j rest hread
      cases hstep
      have hi := h.thread i
      have hj := h.thread j
      have hbound := h.bound
      obtain ⟨hae, hpos⟩ := hi.scan ae (j :: rest) hread
      have hgc := hj.gcEpoch
      have hless : behind (s.thread j).gcEpoch ae =
          decide ((s.thread j).gcEpoch.toNat < ae.toNat) := behind_eq (by omega) (by omega)
      refine h.setThread ⟨hi.gcEpoch, hi.made, hi.start, hi.minimum, ?_, hi.limbo⟩ (h.made i)
        (fun _ => Or.inl ⟨rfl, rfl⟩) (fun _ hx => Or.inl hx) ?_
      · intro ae' rest' hscan
        cases hscan
        split
        · rename_i hmin
          have hne : (s.thread j).gcEpoch.toNat ≠ 0 := by
            intro h0
            exact hmin.1 (BitVec.eq_of_toNat_eq h0)
          exact ⟨hgc, Nat.pos_of_ne_zero hne⟩
        · exact ⟨hae, hpos⟩
      · intro k epoch hk hblocks ae' rest' hscan
        cases hscan
        rcases hblocks.scan i ae (j :: rest) hread with hle | hmem
        · left
          split
          · rename_i hmin
            rw [hless, decide_eq_true_eq] at hmin
            exact Nat.le_trans (Nat.le_of_lt hmin.2) hle
          · exact hle
        · rcases List.mem_cons.mp hmem with rfl | hmem
          · -- the thread is visited now
            left
            split
            · exact hblocks.gcEpoch
            · rename_i hmin
              rw [hless, decide_eq_true_eq, not_and, Nat.not_lt] at hmin
              exact Nat.le_trans (hmin hk) hblocks.gcEpoch
          · exact Or.inr hmem
    · cases hstep
  | scanEnd i =>
    simp only [epochStep] at hstep
    split at hstep
    · rename_i ae hread
      cases hstep
      have hi := h.thread i
      have hset := h.setActiveEpoch hread
      exact hset.setThread (i := i) (u := { s.thread i with scan := none })
        ⟨hi.gcEpoch, hi.made, hi.start, hi.minimum,
          fun _ _ hscan => (Option.some_ne_none _ hscan.symm).elim, hi.limbo⟩
        (h.made i) (fun _ => Or.inl ⟨rfl, rfl⟩) (fun _ hx => Or.inl hx)
        fun _ _ _ _ _ _ hscan => (Option.some_ne_none _ hscan.symm).elim
    · cases hstep
  | startRead i =>
    cases hstep
    have hi := h.thread i
    refine h.setThread ⟨hi.gcEpoch, hi.made, ?_, hi.minimum, hi.scan, hi.limbo⟩ (h.made i)
      (fun _ => Or.inl ⟨rfl, rfl⟩) (fun _ hx => Or.inl hx) (hown i)
    intro e he
    cases he
    exact Nat.le_refl _
  | startWrite i =>
    simp only [epochStep] at hstep
    split at hstep
    · rename_i hmade
      obtain ⟨globalepoch, hread, rfl⟩ := Option.map_eq_some_iff.mp hstep
      have hi := h.thread i
      exact h.setThread
        ⟨hi.start globalepoch hread, fun _ => hmade,
          fun _ hstart => (Option.some_ne_none _ hstart.symm).elim, hi.minimum, hi.scan, hi.limbo⟩
        (h.made i) (fun _ => Or.inr rfl) (fun _ hx => Or.inl hx) (hown i)
    · cases hstep
  | stop i =>
    cases hstep
    have hi := h.thread i
    exact h.setThread
      ⟨Nat.zero_le _, fun hne => absurd rfl hne, hi.start, hi.minimum, hi.scan, hi.limbo⟩ (h.made i)
      (fun hne => absurd rfl hne) (fun _ hx => Or.inl hx) (hown i)
  | remove i a =>
    simp only [epochStep] at hstep
    split at hstep
    · cases hstep
    · cases hstep
      exact h.remove hok
  | record i a =>
    cases hstep
    have hi := h.thread i
    refine h.setThread ⟨hi.gcEpoch, hi.made, hi.start, hi.minimum, hi.scan, ?_⟩ (h.made i)
      (fun _ => Or.inl ⟨rfl, rfl⟩) ?_ (hown i)
    · intro x hx
      rcases List.mem_append.mp hx with hx | hx
      · exact hi.limbo x hx
      · cases List.mem_singleton.mp hx
        exact Nat.le_refl _
    · intro x hx
      rcases List.mem_append.mp hx with hx | hx
      · exact Or.inl hx
      · cases List.mem_singleton.mp hx
        exact Or.inr rfl
  | free i n =>
    simp only [epochStep] at hstep
    split at hstep
    · rename_i hbehind
      cases hstep
      have hi := h.thread i
      have hset := h.free (fun x hx => List.mem_of_mem_take hx) hbehind
      exact hset.setThread (i := i) (u := { s.thread i with limbo := (s.thread i).limbo.drop n })
        ⟨hi.gcEpoch, hi.made, hi.start, hi.minimum, hi.scan,
          fun x hx => hi.limbo x (List.mem_of_mem_drop hx)⟩
        (h.made i) (fun _ => Or.inl ⟨rfl, rfl⟩) (fun x hx => Or.inl (List.mem_of_mem_drop hx))
        fun j epoch hj hblocks => hown i j epoch hj ⟨hblocks.gcEpoch, hblocks.active, hblocks.scan⟩
    · cases hstep

/-! ### Runs -/

/-- A thread is made. -/
def makeThread (i : ι) : List (EpochEvent ι α) := [.makeRead i, .makeWrite i]

/-- `rcu_start`. -/
def rcuStart (i : ι) : List (EpochEvent ι α) := [.startRead i, .startWrite i]

/-- `globalepoch += 2`. -/
def incrementEpoch (i : ι) : List (EpochEvent ι α) := [.incrementRead i, .incrementWrite i]

/-- `active_epoch = threadinfo::min_active_epoch()` for `n` threads. -/
def scanEpochs (i : ι) (n : ℕ) : List (EpochEvent ι α) :=
  .scanRead i :: .scanStart i :: (List.replicate n (.scanVisit i) ++ [.scanEnd i])

section Undisturbed

variable [DecidableEq ι] [DecidableEq α] (s : EpochState ι α) (i : ι)

/-- A thread that is made without interference disturbs nobody. -/
theorem eachStep_makeThread : EachStep epochStep Undisturbed s (makeThread i) := by
  refine eachStep_cons.mpr fun t ht => ⟨trivial, eachStep_cons.mpr fun _ _ => ⟨?_, eachStep_nil⟩⟩
  intro next hnext
  simp only [epochStep] at ht
  split at ht
  · cases ht
  · cases ht
    rw [thread_setThread, if_pos rfl] at hnext
    exact (Option.some.inj hnext).symm

/-- Nor does a thread that increments the epoch without interference. -/
theorem eachStep_incrementEpoch (h : s.globalepoch.toNat + 2 < 2 ^ 63) :
    EachStep epochStep Undisturbed s (incrementEpoch i) := by
  refine eachStep_cons.mpr fun t ht => ⟨trivial, eachStep_cons.mpr fun _ _ => ⟨?_, eachStep_nil⟩⟩
  intro globalepoch hread
  cases ht
  rw [thread_setThread, if_pos rfl] at hread
  obtain rfl := Option.some.inj hread
  exact ⟨Nat.le_add_right _ _, h⟩

theorem eachStep_rcuStart : EachStep epochStep Undisturbed s (rcuStart i) :=
  eachStep_cons.mpr fun _ _ => ⟨trivial, eachStep_cons.mpr fun _ _ => ⟨trivial, eachStep_nil⟩⟩

theorem eachStep_scanEpochs (n : ℕ) : EachStep epochStep Undisturbed s (scanEpochs i n) := by
  have hvisits (s : EpochState ι α) : EachStep epochStep Undisturbed s
      (List.replicate n (.scanVisit i) ++ [.scanEnd i]) := by
    induction n generalizing s with
    | zero => exact eachStep_cons.mpr fun _ _ => ⟨trivial, eachStep_nil⟩
    | succ n ih =>
      rw [List.replicate_succ, List.cons_append]
      exact eachStep_cons.mpr fun t _ => ⟨trivial, ih t⟩
  exact eachStep_cons.mpr fun _ _ => ⟨trivial, eachStep_cons.mpr fun t _ => ⟨trivial, hvisits t⟩⟩

/-- A node is retired and removed in one epoch. -/
theorem eachStep_retire {a : α} (h : ∀ j, ∀ x ∈ (s.thread j).limbo, x.1 ≠ a) :
    EachStep epochStep Undisturbed s [.record i a, .remove i a] := by
  refine eachStep_cons.mpr fun t ht => ⟨trivial, eachStep_cons.mpr fun _ _ => ⟨?_, eachStep_nil⟩⟩
  cases ht
  intro j x hx hxa
  rw [thread_setThread] at hx
  split at hx
  · rcases List.mem_append.mp hx with hx | hx
    · exact absurd hxa (h i x hx)
    · cases List.mem_singleton.mp hx
      exact Nat.le_refl _
  · exact absurd hxa (h j x hx)

end Undisturbed

end Steps

/-- **Two threads that call `epochinc` at the same time** can set the global epoch back.  A node
that is removed then gets an epoch that is over for a reader that has begun before. -/
theorem lost_of_epochinc : ∃ (es : List (EpochEvent (Fin 2) ℕ)) (t : EpochState (Fin 2) ℕ),
    run epochStep .init es = some t ∧ ¬Safe t := by
  refine ⟨makeThread 0 ++ makeThread 1 ++ [.incrementRead 0] ++ incrementEpoch 1 ++
    incrementEpoch 1 ++ rcuStart 1 ++ [.incrementWrite 0] ++ rcuStart 0 ++
    [.remove 0 7, .record 0 7] ++ incrementEpoch 0 ++ rcuStart 0 ++ scanEpochs 0 2 ++ [.free 0 1],
    _, rfl, ?_⟩
  intro h
  exact absurd (h 1 (by decide) 7 (by decide)) (by decide)

/-- **Two threads that are made at the same time**: one of them is lost, and no scan visits it. -/
theorem lost_of_make : ∃ (es : List (EpochEvent (Fin 2) ℕ)) (t : EpochState (Fin 2) ℕ),
    run epochStep .init es = some t ∧ ¬Safe t := by
  refine ⟨[.makeRead 0, .makeRead 1, .makeWrite 1, .makeWrite 0] ++ rcuStart 1 ++
    [.remove 0 7, .record 0 7] ++ incrementEpoch 0 ++ rcuStart 0 ++ scanEpochs 0 1 ++ [.free 0 1],
    _, rfl, ?_⟩
  intro h
  exact absurd (h 1 (by decide) 7 (by decide)) (by decide)

/-- **A leaf is retired before it is removed** by `remove_leaf`.  A reader that begins in between,
and in a later epoch, finds it and loses it. -/
theorem lost_of_remove_leaf : ∃ (es : List (EpochEvent (Fin 2) ℕ)) (t : EpochState (Fin 2) ℕ),
    run epochStep .init es = some t ∧ ¬Safe t := by
  refine ⟨makeThread 0 ++ makeThread 1 ++ rcuStart 0 ++ [.record 0 7] ++ incrementEpoch 1 ++
    rcuStart 1 ++ [.remove 0 7] ++ rcuStart 0 ++ scanEpochs 1 2 ++ [.free 0 1], _, rfl, ?_⟩
  intro h
  exact absurd (h 1 (by decide) 7 (by decide)) (by decide)

end Sidle.Rcu
