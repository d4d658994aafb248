import Sidle.Prog.Trace
import Sidle.Word.Field

/-!
# The version word of a Masstree node

The 32-bit version word of `nodeversion.hh`: a lock, the two dirty bits of an
insertion and of a split, a counter for each, and the status bits above them.  The
bit of a migration stands where the original word had a spare bit between the upper
counter and the status bits, so the addition that counts a split can be carried
through it.

## Main definitions

* `NodeVersion`, `locked`, …, `unlock` — the word and its operations.
* `VersionOp`, `stepOp` — the operations, each under the right lock.
* `UnlockOk` — what an `unlock` has to do to the status bits.
* `CarriesOut` — the words in which the addition of `unlock` leaves the counters.

## Main results

* `unlockOk_iff` — one `unlock` meets its purpose exactly when nothing is carried out.
* `unlocks_ok_iff` — the same for whole runs.
* `retired_not_deleted` — a run that retires a node and leaves it not deleted.
-/

namespace Sidle.Masstree

open Word Trace

/-- The version word, `nodeversion_parameters<uint32_t>::value_type`. -/
abbrev NodeVersion := BitVec 32

namespace NodeVersion

/-! ### The word -/

/-- `nodeversion(bool isleaf)`. -/
def make (isleaf : Bool) : NodeVersion := if isleaf then bit 32 31 else 0#32

/-- `split_unlock_mask`: all but the root bit, the migration bit and what lies below
`vsplit_lowbit`. -/
def splitUnlockMask : NodeVersion := ~~~(bit 32 30 ||| bit 32 28 ||| (bit 32 9 - 1#32))

/-- `unlock_mask`: all but the migration bit and what lies below `vinsert_lowbit`. -/
def unlockMask : NodeVersion := ~~~(bit 32 28 ||| (bit 32 3 - 1#32))

variable (v : NodeVersion)

/-- `locked`: the test of `lock_bit`. -/
def locked : Bool := flag 0 v

/-- `inserting`: the test of `inserting_bit`. -/
def inserting : Bool := flag 1 v

/-- `splitting`: the test of `splitting_bit`. -/
def splitting : Bool := flag 2 v

/-- The insertions counted from `vinsert_lowbit` upwards. -/
def vinsert : ℕ := field 3 6 v

/-- The splits counted from `vsplit_lowbit` upwards. -/
def vsplit : ℕ := field 9 19 v

/-- `migrating`: the test of `migration_bit`. -/
def migrating : Bool := flag 28 v

/-- `deleted`: the test of `deleted_bit`. -/
def deleted : Bool := flag 29 v

/-- `is_root`: the test of `root_bit`. -/
def isRoot : Bool := flag 30 v

/-- `isleaf`: the test of `isleaf_bit`. -/
def isleaf : Bool := flag 31 v

/-- `lock`, once the word has been seen without its lock bit. -/
def lock : NodeVersion := setFlag 0 v

/-- `mark_insert`. -/
def markInsert : NodeVersion := setFlag 1 v

/-- `mark_split`. -/
def markSplit : NodeVersion := setFlag 2 v

/-- `mark_migration`. -/
def markMigration : NodeVersion := setFlag 28 v

/-- `mark_deleted`: a deleted node counts as split. -/
def markDeleted : NodeVersion := v ||| (bit 32 29 ||| bit 32 2)

/-- `unlock`: the counter of what has been done is incremented by an addition to the
whole word, then the bits outside the mask are dropped. -/
def unlock : NodeVersion :=
  if v.splitting then (v + bit 32 9) &&& splitUnlockMask
  else (v + ((v &&& bit 32 1) <<< 2)) &&& unlockMask

/-- Marking a node as deleted raises two flags. -/
theorem markDeleted_eq : v.markDeleted = setFlag 2 (setFlag 29 v) :=
  (BitVec.or_assoc v (bit 32 29) (bit 32 2)).symm

/-- Raising another flag does not take the lock away. -/
theorem locked_setFlag {k : ℕ} (hk : 0 ≠ k) : locked (setFlag k v) = v.locked :=
  flag_setFlag_of_ne (by decide) v hk

/-- Raising a flag outside the split counter leaves it alone. -/
theorem vsplit_setFlag {k : ℕ} (hk : Apart k 1 9 19) : vsplit (setFlag k v) = v.vsplit :=
  field_setFlag_of_apart v hk

/-- Raising another flag does not touch the deleted bit. -/
theorem deleted_setFlag {k : ℕ} (hk : 29 ≠ k) : deleted (setFlag k v) = v.deleted :=
  flag_setFlag_of_ne (by decide) v hk

theorem deleted_markDeleted : v.markDeleted.deleted = true := by
  rw [markDeleted_eq, deleted_setFlag _ (by decide)]
  exact flag_setFlag (by decide) v

/-! ### What an unlock does -/

/-- What `unlock` has to do to the status bits: `w` is the word `v` after it. -/
structure UnlockOk (v w : NodeVersion) : Prop where
  locked : w.locked = false
  inserting : w.inserting = false
  splitting : w.splitting = false
  migrating : w.migrating = false
  isleaf : w.isleaf = v.isleaf
  deleted : w.deleted = v.deleted
  isRoot : v.splitting = false → w.isRoot = v.isRoot

/-- The addition of `unlock` is carried into the deleted bit: a migration is marked
and the counters below it are full. -/
def CarriesOut : Prop :=
  v.migrating = true ∧ v.vsplit = 2 ^ 19 - 1 ∧
    (v.splitting = true ∨ v.inserting = true ∧ v.vinsert = 2 ^ 6 - 1)

instance : Decidable v.CarriesOut := inferInstanceAs (Decidable (_ ∧ _ ∧ _))

variable {v}

/-- The split counter and the migration bit, read as one number. -/
private theorem field_split :
    field 9 20 v = v.vsplit + 2 ^ 19 * (if v.migrating then 1 else 0) := by
  have hm : field 28 1 v = if v.migrating then 1 else 0 := by
    have hlt : field 28 1 v < 2 ^ 1 := field_lt 28 1 v
    rw [migrating, flag_eq_field (by decide)]
    by_cases h : field 28 1 v = 1
    · simp [h]
    · simp only [h, decide_false, Bool.false_eq_true, if_false]
      omega
  have hadd := field_add 9 19 1 v
  rw [hm] at hadd
  exact hadd

/-- Both counters and the migration bit, read as one number. -/
private theorem field_insert : field 3 26 v = v.vinsert + 2 ^ 6 * field 9 20 v :=
  field_add 3 6 20 v

private theorem vsplit_lt : v.vsplit < 2 ^ 19 := field_lt 9 19 v

private theorem vinsert_lt : v.vinsert < 2 ^ 6 := field_lt 3 6 v

theorem field_split_full :
    field 9 20 v + 1 = 2 ^ 20 ↔ v.migrating = true ∧ v.vsplit = 2 ^ 19 - 1 := by
  have hv := @vsplit_lt v
  rw [field_split]
  cases v.migrating with
  | false =>
    simp only [Bool.false_eq_true, if_false, false_and, iff_false]
    omega
  | true =>
    simp only [if_true, true_and]
    omega

theorem field_insert_full :
    field 3 26 v + 1 = 2 ^ 26 ↔
      v.migrating = true ∧ v.vsplit = 2 ^ 19 - 1 ∧ v.vinsert = 2 ^ 6 - 1 := by
  have hv := @vinsert_lt v
  have hs : field 9 20 v < 2 ^ 20 := field_lt 9 20 v
  rw [field_insert, ← and_assoc, ← field_split_full]
  omega

/-- The shifted inserting bit is the lowest bit of the insertion counter. -/
theorem insertingBit_shifted (v : NodeVersion) :
    (v &&& bit 32 1) <<< 2 = if v.inserting then bit 32 3 else 0#32 := by
  refine BitVec.eq_of_getLsbD_eq fun i hi => ?_
  rw [BitVec.getLsbD_shiftLeft, BitVec.getLsbD_and, getLsbD_bit, inserting, flag_eq (by decide)]
  by_cases h3 : i = 3
  · subst h3
    cases v.getLsbD 1 <;> simp [getLsbD_bit]
  · have hne : ¬ i - 2 = 1 := by omega
    cases v.getLsbD 1 <;> simp [getLsbD_bit, h3, hne]

/-- The word that `unlock` masks, in the three cases of its addition. -/
theorem unlock_eq (v : NodeVersion) :
    v.unlock =
      if v.splitting then incrField 9 v &&& splitUnlockMask
      else if v.inserting then incrField 3 v &&& unlockMask
      else v &&& unlockMask := by
  unfold unlock
  rw [insertingBit_shifted]
  cases v.splitting with
  | true => rfl
  | false => cases v.inserting <;> simp [incrField]

/-- The masks drop the status bits of the writer and keep the three of the node. -/
private theorem unlock_cleared {k : ℕ} (hk : k < 32) (hs : flag k splitUnlockMask = false)
    (hi : flag k unlockMask = false) : flag k v.unlock = false := by
  rw [unlock_eq]
  split
  · rw [flag_and hk, hs, Bool.and_false]
  · split
    · rw [flag_and hk, hi, Bool.and_false]
    · rw [flag_and hk, hi, Bool.and_false]

theorem locked_unlock : v.unlock.locked = false :=
  unlock_cleared (by decide) (by decide) (by decide)

theorem inserting_unlock : v.unlock.inserting = false :=
  unlock_cleared (by decide) (by decide) (by decide)

theorem splitting_unlock : v.unlock.splitting = false :=
  unlock_cleared (by decide) (by decide) (by decide)

theorem migrating_unlock : v.unlock.migrating = false :=
  unlock_cleared (by decide) (by decide) (by decide)

/-- A bit above the migration bit that the masks keep, when nothing is carried out. -/
private theorem unlock_kept {k : ℕ} (hk : k < 32) (hlow : 29 ≤ k) (h : ¬ v.CarriesOut)
    (hs : v.splitting = true → flag k splitUnlockMask = true) (hi : flag k unlockMask = true) :
    flag k v.unlock = flag k v := by
  have hfs : v.splitting = true → field 9 20 v + 1 < 2 ^ 20 := by
    intro hsp
    have hne : field 9 20 v + 1 ≠ 2 ^ 20 := fun hf =>
      h ⟨(field_split_full.mp hf).1, (field_split_full.mp hf).2, Or.inl hsp⟩
    have hlt : field 9 20 v < 2 ^ 20 := field_lt 9 20 v
    omega
  have hfi : v.inserting = true → field 3 26 v + 1 < 2 ^ 26 := by
    intro hin
    have hne : field 3 26 v + 1 ≠ 2 ^ 26 := fun hf => by
      obtain ⟨hm, hv, hi⟩ := field_insert_full.mp hf
      exact h ⟨hm, hv, Or.inr ⟨hin, hi⟩⟩
    have hlt : field 3 26 v < 2 ^ 26 := field_lt 3 26 v
    omega
  rw [unlock_eq]
  split
  · rename_i hsp
    rw [flag_and hk, hs hsp, Bool.and_true]
    exact flag_incrField_of_apart hk (by decide) (hfs hsp) (Or.inl hlow)
  · split
    · rename_i hin
      rw [flag_and hk, hi, Bool.and_true]
      exact flag_incrField_of_apart hk (by decide) (hfi hin) (Or.inl hlow)
    · rw [flag_and hk, hi, Bool.and_true]

/-- A carry flips the deleted bit. -/
theorem deleted_unlock_of_carriesOut (h : v.CarriesOut) : v.unlock.deleted = !v.deleted := by
  obtain ⟨hm, hv, h⟩ := h
  rw [unlock_eq]
  unfold deleted
  split
  · rw [flag_and (by decide), show flag 29 splitUnlockMask = true by decide, Bool.and_true]
    exact @flag_incrField_of_full 32 9 20 v (by decide) (field_split_full.mpr ⟨hm, hv⟩)
  · rename_i hsp
    obtain ⟨hin, hi⟩ := h.resolve_left hsp
    rw [if_pos hin, flag_and (by decide), show flag 29 unlockMask = true by decide, Bool.and_true]
    exact @flag_incrField_of_full 32 3 26 v (by decide) (field_insert_full.mpr ⟨hm, hv, hi⟩)

/-- A node that has been split is not the root any more. -/
theorem isRoot_unlock (h : v.splitting = true) : v.unlock.isRoot = false := by
  rw [unlock_eq, if_pos h]
  unfold isRoot
  rw [flag_and (by decide), show flag 30 splitUnlockMask = false by decide, Bool.and_false]

/-- **One unlock** meets its purpose exactly when its addition stays in the counters. -/
theorem unlockOk_iff (v : NodeVersion) : UnlockOk v v.unlock ↔ ¬ v.CarriesOut := by
  constructor
  · intro hok hc
    have hflip := deleted_unlock_of_carriesOut hc
    rw [hok.deleted] at hflip
    cases h : v.deleted <;> simp [h] at hflip
  · intro h
    exact {
      locked := locked_unlock
      inserting := inserting_unlock
      splitting := splitting_unlock
      migrating := unlock_cleared (by decide) (by decide) (by decide)
      isleaf := unlock_kept (by decide) (by decide) h (fun _ => by decide) (by decide)
      deleted := unlock_kept (by decide) (by decide) h (fun _ => by decide) (by decide)
      isRoot := fun hsp =>
        unlock_kept (by decide) (by decide) h (fun hs => by simp [hsp] at hs) (by decide) }

end NodeVersion

/-! ### Runs of operations -/

/-- The operations on a version word. -/
inductive VersionOp
  | lock
  | markInsert
  | markSplit
  | markMigration
  | markDeleted
  | unlock
  deriving DecidableEq, Repr

/-- What an operation does to the word. -/
def VersionOp.apply (v : NodeVersion) : VersionOp → NodeVersion
  | .lock => v.lock
  | .markInsert => v.markInsert
  | .markSplit => v.markSplit
  | .markMigration => v.markMigration
  | .markDeleted => v.markDeleted
  | .unlock => v.unlock

/-- An operation is only carried out under the right lock: `lock` spins until the word
is unlocked, the others are made by the thread that holds the lock. -/
def stepOp (v : NodeVersion) (op : VersionOp) : Option NodeVersion :=
  if v.locked = (op != .lock) then some (op.apply v) else none

theorem stepOp_eq_some {v w : NodeVersion} {op : VersionOp} (h : stepOp v op = some w) :
    v.locked = (op != .lock) ∧ op.apply v = w := by
  unfold stepOp at h
  split at h
  · exact ⟨‹_›, Option.some.inj h⟩
  · cases h

/-- An operation other than `unlock` never clears the deleted bit. -/
theorem deleted_apply {v : NodeVersion} {op : VersionOp} (hop : op ≠ .unlock)
    (h : v.deleted = true) : (op.apply v).deleted = true := by
  cases op with
  | lock => exact (v.deleted_setFlag (by decide)).trans h
  | markInsert => exact (v.deleted_setFlag (by decide)).trans h
  | markSplit => exact (v.deleted_setFlag (by decide)).trans h
  | markMigration => exact (v.deleted_setFlag (by decide)).trans h
  | markDeleted => exact v.deleted_markDeleted
  | unlock => exact absurd rfl hop

/-- Every unlock of the trace `ops` from `v` meets `P`, a property of the words before
and after it. -/
def AllUnlocks (P : NodeVersion → NodeVersion → Prop) : NodeVersion → List VersionOp → Prop :=
  EachStep stepOp fun v op w => op = .unlock → P v w

/-- Once deleted, a node stays deleted as long as no unlock carries out of the counters. -/
theorem run_deleted {v w : NodeVersion} {ops : List VersionOp}
    (h : AllUnlocks (fun u _ => ¬ u.CarriesOut) v ops) (hr : run stepOp v ops = some w)
    (hd : v.deleted = true) : w.deleted = true := by
  have hkept : Always stepOp (fun u => u.deleted = true) v ops := by
    refine always_of_eachStep (I := fun u : NodeVersion => u.deleted = true) hd ?_ h
    intro u op x hu hstep hop
    obtain ⟨-, rfl⟩ := stepOp_eq_some hstep
    by_cases heq : op = .unlock
    · subst heq
      have hok := (NodeVersion.unlockOk_iff u).mpr (hop rfl)
      exact hok.deleted.trans hu
    · exact deleted_apply heq hu
  exact hkept.last hr

/-- What `masstree_leaf_migration` does to the version of the leaf that it retires. -/
def retire : List VersionOp := [.lock, .markMigration, .markDeleted, .unlock]

/-- A run that ends with `mark_deleted` ends in a word that reads deleted. -/
theorem deleted_of_markDeleted {v w : NodeVersion} {ops : List VersionOp}
    (h : run stepOp v (ops ++ [.markDeleted]) = some w) : w.deleted = true := by
  rw [run_append] at h
  cases hr : run stepOp v ops with
  | none =>
    rw [hr] at h
    cases h
  | some u =>
    rw [hr, Option.bind_some] at h
    cases hs : stepOp u .markDeleted with
    | none =>
      rw [run_cons, hs] at h
      cases h
    | some x =>
      rw [run_cons_of_step hs, run_nil] at h
      cases h
      obtain ⟨-, rfl⟩ := stepOp_eq_some hs
      exact u.deleted_markDeleted

/-- **Runs of version operations**: every unlock clears the writer's bits and keeps the
node's, and a node that has been retired reads deleted from then on, exactly when no
unlock of the run is made with a migration marked and the counters full. -/
theorem unlocks_ok_iff (v : NodeVersion) (ops : List VersionOp) :
    (AllUnlocks NodeVersion.UnlockOk v ops ∧
      ∀ (before during after : List VersionOp) (u : NodeVersion),
        ops = before ++ (retire ++ (during ++ after)) →
        run stepOp v (before ++ (retire ++ during)) = some u → u.deleted = true) ↔
      AllUnlocks (fun w _ => ¬ w.CarriesOut) v ops := by
  constructor
  · intro h
    refine EachStep.imp h.1 ?_
    intro w op u hstep hok hop
    obtain ⟨-, rfl⟩ := stepOp_eq_some hstep
    subst hop
    exact (NodeVersion.unlockOk_iff w).mp (hok rfl)
  · intro h
    constructor
    · refine EachStep.imp h ?_
      intro w op u hstep hc hop
      obtain ⟨-, rfl⟩ := stepOp_eq_some hstep
      subst hop
      exact (NodeVersion.unlockOk_iff w).mpr (hc rfl)
    · intro before during after u hops hu
      -- cut the run after the `mark_deleted` of the retirement
      have hcut (ops' : List VersionOp) : before ++ (retire ++ ops') =
          ((before ++ [.lock, .markMigration]) ++ [.markDeleted]) ++ (.unlock :: ops') := by
        simp [retire]
      rw [hcut] at hops hu
      rw [run_append] at hu
      cases hw : run stepOp v ((before ++ [.lock, .markMigration]) ++ [.markDeleted]) with
      | none =>
        rw [hw] at hu
        cases hu
      | some w =>
        rw [hw, Option.bind_some] at hu
        have hrest : AllUnlocks (fun u _ => ¬ u.CarriesOut) w (.unlock :: during) := by
          rw [hops, ← List.cons_append] at h
          exact (h.of_append hw).left
        exact run_deleted hrest hu (deleted_of_markDeleted hw)

/-! ### A retired node that is not deleted -/

/-- `n` splits of one node, each under its own lock. -/
def splits : ℕ → List VersionOp
  | 0 => []
  | n + 1 => splits n ++ [.lock, .markSplit, .unlock]

theorem NodeVersion.vsplit_unlock {v : NodeVersion} (hs : v.splitting = true)
    (h : v.vsplit + 1 < 2 ^ 19) : v.unlock.vsplit = v.vsplit + 1 := by
  have hmask : ∀ i : Fin 32, 9 ≤ i.val → i.val < 28 → splitUnlockMask.getLsbD i = true := by decide
  rw [unlock_eq, if_pos hs]
  refine Eq.trans ?_ (field_incrField (by decide) h)
  apply field_congr
  intro i h9 h28
  rw [BitVec.getLsbD_and, hmask ⟨i, by omega⟩ h9 h28, Bool.and_true]

/-- The splits are counted, and leave the node alone otherwise. -/
theorem run_splits (n : ℕ) (hn : n < 2 ^ 19) :
    ∃ w, run stepOp (.make true) (splits n) = some w ∧ w.locked = false ∧ w.vsplit = n ∧
      w.deleted = false := by
  induction n with
  | zero => exact ⟨_, rfl, by decide, by decide, by decide⟩
  | succ n ih =>
    obtain ⟨v, hr, hl, hv, hd⟩ := ih (by omega)
    have hl₁ : v.lock.locked = true := flag_setFlag (by decide) v
    have hl₂ : v.lock.markSplit.locked = true := (v.lock.locked_setFlag (by decide)).trans hl₁
    have hs : v.lock.markSplit.splitting = true := flag_setFlag (by decide) _
    have hv' : v.lock.markSplit.vsplit = n :=
      ((v.lock.vsplit_setFlag (by decide)).trans (v.vsplit_setFlag (by decide))).trans hv
    have hok : NodeVersion.UnlockOk v.lock.markSplit v.lock.markSplit.unlock := by
      apply (NodeVersion.unlockOk_iff _).mpr
      intro hc
      have hfull := hc.2.1
      omega
    refine ⟨v.lock.markSplit.unlock, ?_, hok.locked, ?_, ?_⟩
    · rw [splits, run_append, hr]
      simp [run_cons, stepOp, VersionOp.apply, hl, hl₁, hl₂]
    · rw [NodeVersion.vsplit_unlock hs (by omega), hv']
    · rw [hok.deleted]
      exact ((v.lock.deleted_setFlag (by decide)).trans (v.deleted_setFlag (by decide))).trans hd

/-- After 2^19 - 1 splits the carry of the retiring unlock clears the deleted bit that
`mark_deleted` has just set. -/
theorem retired_not_deleted :
    ∃ w u, run stepOp (.make true)
      (splits (2 ^ 19 - 1) ++ [.lock, .markMigration, .markDeleted]) = some w ∧
      w.deleted = true ∧
      run stepOp (.make true) (splits (2 ^ 19 - 1) ++ retire) = some u ∧ u = w.unlock ∧
      u.deleted = false := by
  obtain ⟨v, hr, hl, hv, -⟩ := run_splits (2 ^ 19 - 1) (by decide)
  have hl₁ : v.lock.locked = true := flag_setFlag (by decide) v
  have hl₂ : v.lock.markMigration.locked = true := (v.lock.locked_setFlag (by decide)).trans hl₁
  have hm := v.lock.markMigration.markDeleted_eq
  have hl₃ : v.lock.markMigration.markDeleted.locked = true := by
    rw [hm, NodeVersion.locked_setFlag _ (by decide), NodeVersion.locked_setFlag _ (by decide)]
    exact hl₂
  have hd : v.lock.markMigration.markDeleted.deleted = true := NodeVersion.deleted_markDeleted _
  have hc : v.lock.markMigration.markDeleted.CarriesOut := by
    rw [hm]
    refine ⟨?_, ?_, Or.inl (flag_setFlag (by decide) _)⟩
    · refine (flag_setFlag_of_ne (by decide) _ (by decide)).trans ?_
      refine (flag_setFlag_of_ne (by decide) _ (by decide)).trans ?_
      exact flag_setFlag (by decide) _
    · rw [NodeVersion.vsplit_setFlag _ (by decide), NodeVersion.vsplit_setFlag _ (by decide)]
      exact ((v.lock.vsplit_setFlag (by decide)).trans (v.vsplit_setFlag (by decide))).trans hv
  refine ⟨v.lock.markMigration.markDeleted, v.lock.markMigration.markDeleted.unlock, ?_, hd,
    ?_, rfl, ?_⟩
  · rw [run_append, hr]
    simp [run_cons, stepOp, VersionOp.apply, hl, hl₁, hl₂]
  · rw [run_append, hr]
    simp [retire, run_cons, stepOp, VersionOp.apply, hl, hl₁, hl₂, hl₃]
  · rw [NodeVersion.deleted_unlock_of_carriesOut hc, hd]
    rfl

end Sidle.Masstree
