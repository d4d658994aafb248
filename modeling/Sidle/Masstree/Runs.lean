import Sidle.Masstree.Frame

/-!
# What the accesses come to

The functions on the locks and on the links to parents, run on a memory that is known at the
nodes they touch: which memory they leave, or that they do not return.

## Main results

* `run_access` — an access that finds what it looks for.
* `run_lock`, `run_unlock`, `run_lockedParent` — the locks.
* `run_lock_of_locked` — a lock that is taken already is waited for in vain.
-/

namespace Sidle.Masstree

open Art (Build Fault)
open Prog Machine Outcome Word Worker

/-! ### The memory after a store -/

section Stores

variable {mem : Mem} {a b : Addr} {m n : Node}

theorem node?_setNode (h : mem.node? a = some m) : (mem.setNode a n).node? a = some n := by
  obtain ⟨c, hc, -⟩ := node?_eq_some.mp h
  simp [Mem.node?, Mem.setNode, hc]

theorem node?_setNode_of_ne (h : b ≠ a) : (mem.setNode a n).node? b = mem.node? b := by
  simp [Mem.node?, Mem.setNode, Function.update_of_ne h]

/-- What is found at `b` after a store to `a`. -/
theorem node?_setNode_eq (h : mem.node? a = some m) :
    (mem.setNode a n).node? b = if b = a then some n else mem.node? b := by
  by_cases hb : b = a
  · subst hb
    rw [node?_setNode h, if_pos rfl]
  · rw [node?_setNode_of_ne hb, if_neg hb]

theorem node?_alloc {size : ℕ} :
    (mem.alloc size n).node? b = if b = mem.fresh then some n else mem.node? b := by
  by_cases hb : b = mem.fresh
  · simp [Mem.node?, Mem.alloc, hb]
  · simp [Mem.node?, Mem.alloc, hb]

@[simp] theorem node?_global (g : Global) :
    ({ mem with global := g } : Mem).node? b = mem.node? b := rfl

theorem node?_retire : (mem.retire a).node? b = mem.node? b := by
  by_cases hb : b = a
  · subst hb
    simp only [Mem.node?, Mem.retire, Function.update_self, Option.map_map]
    rfl
  · simp [Mem.node?, Mem.retire, Function.update_of_ne hb]

@[simp] theorem global_setNode : (mem.setNode a n).global = mem.global := rfl

@[simp] theorem fresh_setNode : (mem.setNode a n).fresh = mem.fresh := rfl

end Stores

/-! ### Accesses -/

section Accesses

variable {α β γ : Type} {mem : Mem} {a p : Addr} {n : Node} {x : Internode} {l : Leaf}

/-- An access that finds what it looks for. -/
theorem run_access {find : Mem → Option α} {f : α → Mem → β × Mem} {c : α} (h : find mem = some c) :
    machine.run (access find f) mem = done (f c mem).1 (f c mem).2 := by
  refine machine.run_op_ok ?_
  simp only [machine, h]

theorem run_access_of_none {find : Mem → Option α} {f : α → Mem → β × Mem} (h : find mem = none) :
    machine.run (access find f) mem = fault .badAccess := by
  refine machine.run_op_error ?_
  simp only [machine, h]

theorem run_readVersion (h : mem.node? a = some n) :
    machine.run (readVersion a) mem = done n.version mem := run_access h

theorem run_readParent (h : mem.node? a = some n) :
    machine.run (readParent a) mem = done n.parent mem := run_access h

theorem run_readInternode (h : mem.node? a = some (.internode x)) :
    machine.run (readInternode a) mem = done x mem := run_access (internode?_eq_some.mpr h)

theorem run_readLeaf (h : mem.node? a = some (.leaf l)) :
    machine.run (readLeaf a) mem = done l mem := run_access (leaf?_eq_some.mpr h)

theorem run_writeVersion {f : NodeVersion → NodeVersion} (h : mem.node? a = some n) :
    machine.run (writeVersion a f) mem = done () (mem.setNode a (n.setVersion (f n.version))) :=
  run_access h

theorem run_setParent (h : mem.node? a = some n) :
    machine.run (setParent a p) mem = done () (mem.setNode a (n.setParent p)) := run_access h

theorem run_writeInternode {f : Internode → Internode} (h : mem.node? a = some (.internode x)) :
    machine.run (writeInternode a f) mem = done () (mem.setNode a (.internode (f x))) :=
  run_access (internode?_eq_some.mpr h)

theorem run_writeLeaf {f : Leaf → Leaf} (h : mem.node? a = some (.leaf l)) :
    machine.run (writeLeaf a f) mem = done () (mem.setNode a (.leaf (f l))) :=
  run_access (leaf?_eq_some.mpr h)

theorem run_retireBlock (h : mem.node? a = some n) :
    machine.run (retireBlock a) mem = done () (mem.retire a) := run_access h

theorem run_onGlobal {f : Global → Option (β × Global)} {b : β} {g : Global}
    (h : f mem.global = some (b, g)) :
    machine.run (onGlobal f) mem = done b { mem with global := g } := by
  refine machine.run_op_ok ?_
  simp only [machine, h]

theorem run_onGlobal_of_none {f : Global → Option (β × Global)} (h : f mem.global = none) :
    machine.run (onGlobal f) mem = fault .thrown := by
  refine machine.run_op_error ?_
  simp only [machine, h]

theorem run_updateLocalMemoryUsage {env : Env} {type : NodeMemType} {depth size : ℕ}
    {isMigration isLeaf : Bool} {g : Global}
    (h : mem.global.updateLocalMemoryUsage env.build.sidleCheck env.checkMemoryUsage type depth size
      isMigration isLeaf = some g) :
    machine.run (updateLocalMemoryUsage env type depth size isMigration isLeaf) mem =
      done () { mem with global := g } :=
  run_onGlobal (by rw [h]; rfl)

/-- An assertion holds, or it is not compiled in. -/
theorem run_assert {on c : Bool} (h : on = true → c = true) :
    machine.run (check on c) mem = done () mem := by
  unfold check
  rw [if_neg]
  · rfl
  · intro hc
    rw [Bool.and_eq_true] at hc
    rw [h hc.1] at hc
    exact absurd hc.2 (by decide)

theorem run_assert_of_not {on c : Bool} (hb : on = true)
    (hc : c = false) :
    machine.run (check on c) mem = fault .assertFailed := by
  unfold check
  rw [if_pos (by rw [hb, hc]; rfl)]
  rfl

end Accesses

/-! ### Locks -/

section Locks

variable {build : Build} {mem : Mem} {a : Addr} {n : Node}

@[simp] theorem version_setVersion (v : NodeVersion) : (n.setVersion v).version = v := by
  cases n <;> rfl

@[simp] theorem version_setParent (p : Addr) : (n.setParent p).version = n.version := by
  cases n <;> rfl

@[simp] theorem parent_setVersion (v : NodeVersion) : (n.setVersion v).parent = n.parent := by
  cases n <;> rfl

@[simp] theorem parent_setParent (p : Addr) : (n.setParent p).parent = p := by
  cases n <;> rfl

/-- A node that may be locked: nobody holds it, and it does not look as if somebody did. -/
def Lockable (build : Build) (v : NodeVersion) : Prop :=
  v.locked = false ∧ (build.invariants = true → v.inserting = false ∧ v.splitting = false)

instance (v : NodeVersion) : Decidable (Lockable build v) := inferInstanceAs (Decidable (_ ∧ _))

/-- The lock of a node that is free is taken at the first attempt. -/
theorem run_lock (fuel : ℕ) (hn : mem.node? a = some n) (h : Lockable build n.version) :
    machine.run (lock build (fuel + 1) a) mem =
      done n.version.lock (mem.setNode a (n.setVersion n.version.lock)) := by
  have hcas : machine.run (casVersion a n.version n.version.lock) mem =
      done true (mem.setNode a (n.setVersion n.version.lock)) := by
    unfold casVersion
    rw [run_access hn, if_pos rfl]
  unfold lock
  rw [machine.run_bind_of_done (run_readVersion hn), lockFrom, h.1]
  simp only [Bool.false_eq_true, if_false]
  rw [machine.run_bind_of_done hcas]
  simp only [if_true]
  rw [machine.run_bind_of_done (run_assert fun hb => by rw [(h.2 hb).1, (h.2 hb).2]; rfl),
    machine.run_bind_of_done (run_readVersion (node?_setNode hn)), version_setVersion,
    machine.run_bind_of_done (run_assert fun _ => by simp)]
  rfl

/-- A lock that is held is waited for. -/
theorem run_lockFrom_of_locked (fuel : ℕ) (hn : mem.node? a = some n)
    (h : n.version.locked = true) :
    machine.run (lockFrom build a fuel n.version) mem = diverged := by
  induction fuel with
  | zero => rfl
  | succ fuel ih =>
    rw [lockFrom, h]
    exact (machine.run_bind_of_done (run_readVersion hn)).trans ih

theorem run_lock_of_locked (fuel : ℕ) (hn : mem.node? a = some n) (h : n.version.locked = true) :
    machine.run (lock build fuel a) mem = diverged :=
  (machine.run_bind_of_done (run_readVersion hn)).trans (run_lockFrom_of_locked fuel hn h)

/-- What has been locked was free before. -/
theorem ensures_lock (fuel : ℕ) (hn : mem.node? a = some n) :
    machine.Ensures (lock build fuel a) mem fun v mem' => Lockable build n.version ∧
      v = n.version.lock ∧ mem' = mem.setNode a (n.setVersion n.version.lock) := by
  intro v mem' hrun
  by_cases hl : n.version.locked = true
  · rw [run_lock_of_locked fuel hn hl] at hrun
    cases hrun
  · cases fuel with
    | zero =>
      rw [lock, machine.run_bind_of_done (run_readVersion hn)] at hrun
      cases hrun
    | succ fuel =>
      have hlock : Lockable build n.version := by
        refine ⟨by simpa using hl, fun hb => ?_⟩
        by_contra hmarked
        have hcas : machine.run (casVersion a n.version n.version.lock) mem =
            done true (mem.setNode a (n.setVersion n.version.lock)) := by
          unfold casVersion
          rw [run_access hn, if_pos rfl]
        have hfalse : (!n.version.inserting && !n.version.splitting) = false := by
          cases hi : n.version.inserting <;> cases hs : n.version.splitting <;> simp_all
        rw [lock, machine.run_bind_of_done (run_readVersion hn), lockFrom,
          show n.version.locked = false by simpa using hl] at hrun
        simp only [Bool.false_eq_true, if_false] at hrun
        rw [machine.run_bind_of_done hcas] at hrun
        simp only [if_true] at hrun
        rw [run_bind, run_assert_of_not hb hfalse] at hrun
        cases hrun
      rw [run_lock fuel hn hlock] at hrun
      cases hrun
      exact ⟨hlock, rfl, rfl⟩

theorem run_unlock (hn : mem.node? a = some n) (h : n.version.locked = true) :
    machine.run (unlock build a) mem = done () (mem.setNode a (n.setVersion n.version.unlock)) := by
  unfold unlock
  rw [machine.run_bind_of_done (run_readVersion hn),
    machine.run_bind_of_done (run_assert fun _ => h)]
  exact run_writeVersion hn

theorem run_markLocked {f : NodeVersion → NodeVersion} (hn : mem.node? a = some n)
    (h : n.version.locked = true) :
    machine.run (markLocked build a f) mem =
      done () (mem.setNode a (n.setVersion (f n.version))) := by
  unfold markLocked
  rw [machine.run_bind_of_done (run_readVersion hn),
    machine.run_bind_of_done (run_assert fun _ => h)]
  exact run_writeVersion hn

/-- What an unlock that returns has written. -/
theorem ensures_unlock : machine.Ensures (unlock build a) mem fun _ mem' =>
    ∃ n, mem.node? a = some n ∧ mem' = mem.setNode a (n.setVersion n.version.unlock) := by
  refine ensures_read.bind fun v mem₁ hv => ?_
  obtain ⟨rfl, n, hn, rfl⟩ := hv
  refine (keeps_assert (R := Eq) _ _).then fun _ _ h => ?_
  subst h
  refine ensures_access fun n' hn' => ⟨n, hn, ?_⟩
  rw [Option.some.inj (hn'.symm.trans hn)]

theorem ensures_markLocked {f : NodeVersion → NodeVersion} :
    machine.Ensures (markLocked build a f) mem fun _ mem' =>
      ∃ n, mem.node? a = some n ∧ mem' = mem.setNode a (n.setVersion (f n.version)) := by
  refine ensures_read.bind fun v mem₁ hv => ?_
  obtain ⟨rfl, n, hn, rfl⟩ := hv
  refine (keeps_assert (R := Eq) _ _).then fun _ _ h => ?_
  subst h
  exact ensures_access fun n' hn' => ⟨n', hn', rfl⟩

/-- A root has no parent to lock. -/
theorem run_lockedParent_of_root (fuel : ℕ) (hn : mem.node? a = some n)
    (h : n.version.locked = true)
    (hp : n.parent = 0) : machine.run (lockedParent build a (fuel + 1)) mem = done 0 mem := by
  rw [lockedParent, machine.run_bind_of_done (run_readVersion hn),
    machine.run_bind_of_done (run_assert fun _ => h), machine.run_bind_of_done (run_readParent hn),
    if_pos hp]
  rfl

section Parent

variable {m : Node} (hn : mem.node? a = some n) (hl : n.version.locked = true) (hp : n.parent ≠ 0)
  (hm : mem.node? n.parent = some m) (hleaf : build.invariants = true → m.version.isleaf = false)

include hl hm in
theorem ne_parent_of_lockable (hn : mem.node? a = some n) (h : Lockable build m.version) :
    a ≠ n.parent := by
  intro ha
  rw [← ha] at hm
  obtain rfl : n = m := Option.some.inj (hn.symm.trans hm)
  rw [h.1] at hl
  cases hl

include hn hl hp hm hleaf

/-- The parent is locked if it is free. -/
theorem run_lockedParent (fuel : ℕ) (h : Lockable build m.version) :
    machine.run (lockedParent build a (fuel + 2)) mem =
      done n.parent (mem.setNode n.parent (m.setVersion m.version.lock)) := by
  have hne : a ≠ n.parent := ne_parent_of_lockable hl hm hn h
  have hn' : (mem.setNode n.parent (m.setVersion m.version.lock)).node? a = some n :=
    (node?_setNode_of_ne hne).trans hn
  have hisleaf : m.version.lock.isleaf = m.version.isleaf :=
    flag_setFlag_of_ne (by decide) _ (by decide)
  rw [lockedParent, machine.run_bind_of_done (run_readVersion hn),
    machine.run_bind_of_done (run_assert fun _ => hl), machine.run_bind_of_done (run_readParent hn),
    if_neg hp, machine.run_bind_of_done (run_lock fuel hm h),
    machine.run_bind_of_done (run_readParent hn'), if_pos rfl,
    machine.run_bind_of_done (run_readVersion (node?_setNode hm)), version_setVersion,
    machine.run_bind_of_done (run_assert fun hb => by rw [hisleaf, hleaf hb]; rfl)]
  rfl

/-- A parent that has been locked was free. -/
theorem ensures_lockedParent_of_parent (fuel : ℕ) :
    machine.Ensures (lockedParent build a fuel) mem fun p mem' => Lockable build m.version ∧
      p = n.parent ∧ mem' = mem.setNode n.parent (m.setVersion m.version.lock) := by
  intro p mem' hrun
  have hlock : Lockable build m.version := by
    cases fuel with
    | zero => cases hrun
    | succ fuel =>
      rw [lockedParent, machine.run_bind_of_done (run_readVersion hn),
        machine.run_bind_of_done (run_assert fun _ => hl),
          machine.run_bind_of_done (run_readParent hn),
        if_neg hp, machine.run_bind_eq_done] at hrun
      obtain ⟨v, mem₁, hv, -⟩ := hrun
      exact (ensures_lock fuel hm v mem₁ hv).1
  match fuel, hrun with
  | 0, hrun => cases hrun
  | 1, hrun =>
    rw [lockedParent, machine.run_bind_of_done (run_readVersion hn),
      machine.run_bind_of_done (run_assert fun _ => hl),
        machine.run_bind_of_done (run_readParent hn),
      if_neg hp, lock, bind_assoc', machine.run_bind_of_done (run_readVersion hm)] at hrun
    cases hrun
  | fuel + 2, hrun =>
    rw [run_lockedParent hn hl hp hm hleaf fuel hlock] at hrun
    cases hrun
    exact ⟨hlock, rfl, rfl⟩

end Parent

end Locks

end Sidle.Masstree
