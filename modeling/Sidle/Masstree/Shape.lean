import Sidle.Forest.Basic
import Sidle.Masstree.Frame

/-!
# The shape of a Masstree

What the layout of a tree in the two memories is about: the links between the nodes, their
memory types, and the status bits of their version words.  The keys, the values and the list
of leaves have no part in it, and neither has the lock bit.

## Main definitions

* `Marks` — the status bits of a version word, without the lock.
* `Info`, `Mem.forest` — the forest of the nodes in a memory.
* `Became` — what the forest has become.
* `Beside` — at most one node has changed.

## Main results

* `Quiet.forest` — a quiet change leaves the forest alone.
* `ensures_setParent`, `ensures_unlock`, … — what the accesses do to the forest.
-/

namespace Sidle.Masstree

open Art (Build Fault)
open Prog Machine Word Worker

/-! ### Status bits -/

/-- The status bits of a version word, without the lock. -/
structure Marks where
  inserting : Bool
  splitting : Bool
  migrating : Bool
  deleted : Bool
  isRoot : Bool
  isleaf : Bool
  deriving DecidableEq, Repr

/-- The status bits of the word. -/
def NodeVersion.marks (v : NodeVersion) : Marks :=
  ⟨v.inserting, v.splitting, v.migrating, v.deleted, v.isRoot, v.isleaf⟩

/-- The status bits after an `unlock`. -/
def Marks.unlock (m : Marks) : Marks :=
  { m with
    inserting := false, splitting := false, migrating := false
    isRoot := m.isRoot && !m.splitting }

/-- No work on the node is under way, and it is in use. -/
structure Marks.Calm (m : Marks) : Prop where
  inserting : m.inserting = false
  splitting : m.splitting = false
  migrating : m.migrating = false
  deleted : m.deleted = false

theorem Marks.Calm.unlock {m : Marks} (h : m.Calm) : m.unlock = m := by
  obtain ⟨i, s, g, d, r, l⟩ := m
  obtain ⟨rfl, rfl, rfl, rfl⟩ := h
  simp [Marks.unlock]

section Versions

variable (v : NodeVersion)

/-- The bit `k` is set. -/
theorem marks_setFlag (k : ℕ) :
    NodeVersion.marks (setFlag k v) =
      ⟨v.inserting || decide (1 = k), v.splitting || decide (2 = k), v.migrating || decide (28 = k),
        v.deleted || decide (29 = k), v.isRoot || decide (30 = k),
        v.isleaf || decide (31 = k)⟩ := by
  have hflag {j : ℕ} (hj : j < 32) : flag j (setFlag k v) = (flag j v || decide (j = k)) := by
    rw [flag_eq hj, flag_eq hj, getLsbD_setFlag]
    simp [hj]
  simp only [NodeVersion.marks, NodeVersion.inserting, NodeVersion.splitting, NodeVersion.migrating,
    NodeVersion.deleted, NodeVersion.isRoot, NodeVersion.isleaf, hflag (show 1 < 32 by decide),
    hflag (show 2 < 32 by decide), hflag (show 28 < 32 by decide), hflag (show 29 < 32 by decide),
    hflag (show 30 < 32 by decide), hflag (show 31 < 32 by decide)]

@[simp] theorem marks_lock : v.lock.marks = v.marks := by
  unfold NodeVersion.lock
  rw [marks_setFlag]
  simp [NodeVersion.marks]

@[simp] theorem marks_markMigration :
    v.markMigration.marks = { v.marks with migrating := true } := by
  unfold NodeVersion.markMigration
  rw [marks_setFlag]
  simp [NodeVersion.marks]

@[simp] theorem marks_setRoot :
    NodeVersion.marks (setFlag 30 v) = { v.marks with isRoot := true } := by
  rw [marks_setFlag]
  simp [NodeVersion.marks]

@[simp] theorem marks_clearLock : NodeVersion.marks (clearFlag 0 v) = v.marks := by
  have hflag {j : ℕ} (hj : j < 32) (hj0 : j ≠ 0) : flag j (clearFlag 0 v) = flag j v := by
    rw [flag_eq hj, flag_eq hj, getLsbD_clearFlag]
    simp [hj0]
  simp only [NodeVersion.marks, NodeVersion.inserting, NodeVersion.splitting, NodeVersion.migrating,
    NodeVersion.deleted, NodeVersion.isRoot, NodeVersion.isleaf, hflag (show 1 < 32 by decide),
    hflag (show 2 < 32 by decide), hflag (show 28 < 32 by decide), hflag (show 29 < 32 by decide),
    hflag (show 30 < 32 by decide), hflag (show 31 < 32 by decide), ne_eq, one_ne_zero,
    OfNat.ofNat_ne_zero, not_false_eq_true]

/-- What an `unlock` does as long as nothing is carried out of the counters. -/
theorem marks_unlock (h : ¬v.CarriesOut) : v.unlock.marks = v.marks.unlock := by
  have hok : NodeVersion.UnlockOk v v.unlock := (NodeVersion.unlockOk_iff v).mpr h
  have hroot : v.unlock.isRoot = (v.isRoot && !v.splitting) := by
    cases hs : v.splitting with
    | true => rw [NodeVersion.isRoot_unlock hs]; simp
    | false => rw [hok.isRoot hs]; simp
  simp [NodeVersion.marks, Marks.unlock, hok.inserting, hok.splitting, hok.migrating, hok.deleted,
    hok.isleaf, hroot]

/-- Of a node that bears no mark of a writer an `unlock` takes the lock only. -/
theorem unlock_of_unmarked (hi : v.inserting = false) (hs : v.splitting = false)
    (hm : v.migrating = false) : v.unlock = clearFlag 0 v := by
  rw [NodeVersion.unlock_eq, hs, hi]
  simp only [Bool.false_eq_true, if_false]
  have hmask : ∀ i < 32,
      NodeVersion.unlockMask.getLsbD i = (decide (3 ≤ i) && !decide (i = 28)) := by
    decide
  refine BitVec.eq_of_getLsbD_eq fun i hi' => ?_
  rw [NodeVersion.splitting, flag_eq (by decide)] at hs
  rw [NodeVersion.inserting, flag_eq (by decide)] at hi
  rw [NodeVersion.migrating, flag_eq (by decide)] at hm
  rw [getLsbD_clearFlag, BitVec.getLsbD_and, hmask i hi']
  by_cases hlow : i < 3
  · obtain rfl | rfl | rfl : i = 0 ∨ i = 1 ∨ i = 2 := by omega
    · simp
    · rw [hi]
      rfl
    · rw [hs]
      rfl
  · by_cases h28 : i = 28
    · subst h28
      rw [hm]
      rfl
    · simp [show i ≠ 0 by omega, h28, Nat.le_of_not_lt hlow]

theorem unlock_of_calm (h : v.marks.Calm) : v.unlock = clearFlag 0 v :=
  unlock_of_unmarked v h.inserting h.splitting h.migrating

end Versions

/-! ### The forest of a memory -/

/-- What a node contributes to the layout besides its links. -/
structure Info where
  leaf : Bool
  type : NodeMemType
  height : ℕ
  marks : Marks
  retired : Bool
  deriving DecidableEq, Repr

/-- A pointer to a node, or null. -/
def link (p : Addr) : Option Addr := if p = 0 then none else some p

/-- The children of an internode. -/
def Internode.children (x : Internode) : List Addr := (List.range (x.nkeys + 1)).map x.child

/-- The entry of a node in the forest. -/
def Node.entry (retired : Bool) : Node → Forest.Entry Addr Info
  | leaf l => ⟨link l.parent, [], ⟨true, l.metadata.type, 0, l.version.marks, retired⟩⟩
  | internode x =>
    ⟨link x.parent, x.children, ⟨false, x.sidleMeta.type, x.height, x.version.marks, retired⟩⟩

/-- The forest of the nodes in the memory. -/
def Mem.forest (mem : Mem) : Forest Addr Info :=
  fun a => (mem.blocks a).map fun b => b.node.entry b.retired

/-- The node at `a` is changed by `f`. -/
def modify (F : Forest Addr Info) (a : Addr) (f : Forest.Entry Addr Info → Forest.Entry Addr Info) :
    Forest Addr Info := Function.update F a ((F a).map f)

/-- The forest has become `F`, and no block has been handed out. -/
structure Became (mem : Mem) (F : Forest Addr Info) (mem' : Mem) : Prop where
  forest : mem'.forest = F
  allocated : mem'.allocated = mem.allocated

/-- The forest is as it was. -/
abbrev Still (mem mem' : Mem) : Prop := Became mem mem.forest mem'

instance : IsPreorder Mem Still where
  refl _ := ⟨rfl, rfl⟩
  trans _ _ _ h h' := ⟨h'.forest.trans h.forest, h'.allocated.trans h.allocated⟩

/-- At most the node at `a` has changed. -/
structure Beside (a : Addr) (mem mem' : Mem) : Prop where
  forest : ∀ b, b ≠ a → mem'.forest b = mem.forest b
  allocated : mem'.allocated = mem.allocated

instance (a : Addr) : IsPreorder Mem (Beside a) where
  refl _ := ⟨fun _ _ => rfl, rfl⟩
  trans _ _ _ h h' :=
    ⟨fun b hb => (h'.forest b hb).trans (h.forest b hb), h'.allocated.trans h.allocated⟩

section Forests

variable {mem mem' : Mem} {F : Forest Addr Info} {a b : Addr}

theorem modify_self {f : Forest.Entry Addr Info → Forest.Entry Addr Info} :
    modify F a f a = (F a).map f := Function.update_self ..

theorem modify_of_ne {f : Forest.Entry Addr Info → Forest.Entry Addr Info} (h : b ≠ a) :
    modify F a f b = F b := Function.update_of_ne h ..

theorem node?_of_forest {e : Forest.Entry Addr Info} (h : mem.forest a = some e) :
    ∃ n, mem.node? a = some n ∧ e = n.entry e.data.retired := by
  obtain ⟨b, hb, rfl⟩ := Option.map_eq_some_iff.mp h
  refine ⟨b.node, node?_eq_some.mpr ⟨b, hb, rfl⟩, ?_⟩
  cases b.node <;> rfl

/-- What a node in the memory says of its entry. -/
theorem eq_entry {n : Node} {e : Forest.Entry Addr Info} (h : mem.node? a = some n)
    (he : mem.forest a = some e) : e = n.entry e.data.retired := by
  obtain ⟨n', hn', heq⟩ := node?_of_forest he
  rw [h] at hn'
  cases hn'
  exact heq

theorem entry_core (n : Node) (r : Bool) : n.core.entry r = n.entry r := by
  cases n with
  | leaf l => simp only [Node.core, Node.entry, marks_clearLock]
  | internode x => simp only [Node.core, Node.entry, marks_clearLock, Internode.children]

/-- A quiet change leaves the forest alone. -/
theorem Quiet.forest (h : Quiet mem mem') : mem'.forest = mem.forest := by
  funext a
  have hcore := congrArg (Option.map fun b : Block => b.node.entry b.retired) (h.core a)
  simpa [Mem.forest, Function.comp_def, entry_core] using hcore

theorem Quiet.allocated (h : Quiet mem mem') : mem'.allocated = mem.allocated := by rw [h.rest]

theorem Quiet.beside (h : Quiet mem mem') : Beside a mem mem' :=
  ⟨fun b _ => congrFun h.forest b, h.allocated⟩

theorem forest_setNode {n n' : Node} {f : Forest.Entry Addr Info → Forest.Entry Addr Info}
    (h : mem.node? a = some n)
    (hf : ∀ r, mem.forest a = some (n.entry r) → n'.entry r = f (n.entry r)) :
    (mem.setNode a n').forest = modify mem.forest a f := by
  obtain ⟨b, hb, rfl⟩ := node?_eq_some.mp h
  have hforest : mem.forest a = some (b.node.entry b.retired) := by simp [Mem.forest, hb]
  funext c
  by_cases hc : c = a
  · subst hc
    rw [modify_self, hforest, Option.map_some, ← hf b.retired hforest]
    simp [Mem.forest, Mem.setNode, hb]
  · rw [modify_of_ne hc]
    simp [Mem.forest, Mem.setNode, Function.update_of_ne hc]

theorem beside_setNode {n' : Node} : Beside a mem (mem.setNode a n') :=
  ⟨fun b hb => by simp [Mem.forest, Mem.setNode, Function.update_of_ne hb], rfl⟩

theorem beside_retire : Beside a mem (mem.retire a) :=
  ⟨fun b hb => by simp [Mem.forest, Mem.retire, Function.update_of_ne hb], rfl⟩

theorem forest_alloc {size : ℕ} {n : Node} :
    (mem.alloc size n).forest = Function.update mem.forest mem.fresh (some (n.entry false)) := by
  funext a
  by_cases ha : a = mem.fresh
  · subst ha
    simp [Mem.forest, Mem.alloc]
  · simp [Mem.forest, Mem.alloc, Function.update_of_ne ha]

end Forests

/-! ### What the accesses do to it -/

section Accesses

variable {mem : Mem} {a : Addr}

theorem beside_writeVersion (f : NodeVersion → NodeVersion) :
    machine.Keeps (Beside a) (writeVersion a f) := keeps_access fun _ _ _ => beside_setNode

theorem beside_unlock (build : Build) : machine.Keeps (Beside a) (unlock build a) :=
  keeps_read.bind fun _ => (keeps_assert _ _).bind fun _ => beside_writeVersion _

theorem beside_unlockLocked (env : Env) : machine.Keeps (Beside a) (unlockLocked env a) :=
  keeps_read.bind fun _ => keeps_ite (beside_unlock _) keeps_ret

theorem beside_markLocked (build : Build) (f : NodeVersion → NodeVersion) :
    machine.Keeps (Beside a) (markLocked build a f) :=
  keeps_read.bind fun _ => (keeps_assert _ _).bind fun _ => beside_writeVersion f

theorem beside_retireBlock : machine.Keeps (Beside a) (retireBlock a) :=
  keeps_access fun _ _ _ => beside_retire

theorem beside_deallocateLeaf : machine.Keeps (Beside a) (deallocateLeaf a) := by
  have hbag (b : Addr) : machine.Keeps (Beside a) (retireBag b) :=
    keeps_access fun _ _ _ => ⟨fun _ _ => rfl, rfl⟩
  exact keeps_read.bind fun l => keeps_when (hbag l.ksuf) fun _ => beside_retireBlock

theorem still_updateLocalMemoryUsage {env : Env} {t : NodeMemType} {depth size : ℕ}
    {isMigration isLeaf : Bool} :
    machine.Keeps Still (updateLocalMemoryUsage env t depth size isMigration isLeaf) :=
  keeps_onGlobal fun _ _ _ _ => ⟨rfl, rfl⟩

theorem ensures_setParent {p : Addr} :
    machine.Ensures (setParent a p) mem fun _ =>
      Became mem (modify mem.forest a fun e => { e with parent := link p }) := by
  refine ensures_access fun n hn => ⟨forest_setNode hn fun r _ => ?_, rfl⟩
  cases n <;> rfl

theorem ensures_writeVersion {f : NodeVersion → NodeVersion} {g : Marks → Marks}
    (h : ∀ n, mem.node? a = some n → (f n.version).marks = g n.version.marks) :
    machine.Ensures (writeVersion a f) mem fun _ => Became mem (modify mem.forest a fun e =>
      { e with data := { e.data with marks := g e.data.marks } }) := by
  refine ensures_access fun n hn => ⟨forest_setNode hn fun r _ => ?_, rfl⟩
  have hmarks := h n hn
  cases n with
  | leaf l => exact congrArg (fun m => (⟨_, _, ⟨_, _, _, m, _⟩⟩ : Forest.Entry Addr Info)) hmarks
  | internode x =>
    exact congrArg (fun m => (⟨_, _, ⟨_, _, _, m, _⟩⟩ : Forest.Entry Addr Info)) hmarks

theorem ensures_writeInternode {f : Internode → Internode}
    {g : Forest.Entry Addr Info → Forest.Entry Addr Info}
    (h : ∀ x r, mem.internode? a = some x → mem.forest a = some ((Node.internode x).entry r) →
      (Node.internode (f x)).entry r = g ((Node.internode x).entry r)) :
    machine.Ensures (writeInternode a f) mem fun _ => Became mem (modify mem.forest a g) :=
  ensures_access fun x hx =>
    ⟨forest_setNode (internode?_eq_some.mp hx) fun r => h x r hx, rfl⟩

theorem ensures_writeLeaf {f : Leaf → Leaf}
    {g : Forest.Entry Addr Info → Forest.Entry Addr Info}
    (h : ∀ l r, mem.leaf? a = some l → mem.forest a = some ((Node.leaf l).entry r) →
      (Node.leaf (f l)).entry r = g ((Node.leaf l).entry r)) :
    machine.Ensures (writeLeaf a f) mem fun _ => Became mem (modify mem.forest a g) :=
  ensures_access fun l hl => ⟨forest_setNode (leaf?_eq_some.mp hl) fun r => h l r hl, rfl⟩

/-- The lock of a calm node is released quietly. -/
theorem ensures_unlock_of_calm {build : Build} {e : Forest.Entry Addr Info}
    (h : mem.forest a = some e) (hcalm : e.data.marks.Calm) :
    machine.Ensures (unlock build a) mem fun _ mem' => Quiet mem mem' := by
  refine ensures_read.bind fun v mem₁ hv => ?_
  obtain ⟨rfl, n, hn, rfl⟩ := hv
  refine (keeps_assert (R := Eq) _ _).then fun _ mem₂ h₂ => ?_
  subst h₂
  have hmarks : n.version.marks.Calm := by
    rw [eq_entry hn h] at hcalm
    cases n <;> exact hcalm
  refine ensures_access fun n' hn' => quiet_setNode hn' (core_setVersion ?_)
  obtain rfl : n = n' := Option.some.inj (hn.symm.trans hn')
  rw [unlock_of_calm _ hmarks]
  exact clearFlag_of_flag (by decide) (flag_clearFlag (by decide) _)

theorem ensures_unlockLocked_of_calm {env : Env} {e : Forest.Entry Addr Info}
    (h : mem.forest a = some e) (hcalm : e.data.marks.Calm) :
    machine.Ensures (unlockLocked env a) mem fun _ mem' => Quiet mem mem' := by
  refine (keeps_read (R := Eq)).then fun v _ h' => ?_
  subst h'
  exact ensures_ite (fun _ => ensures_unlock_of_calm h hcalm) fun _ =>
    ensures_ret.mpr (refl_of Quiet mem)

end Accesses

end Sidle.Masstree
