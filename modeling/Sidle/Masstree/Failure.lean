import Sidle.Masstree.AbsentChild
import Sidle.Masstree.Shape

/-!
# Migrations that are given up

A migration of a leaf or of an internode checks the node, allocates the new node, and then
checks the parent.  A check before the allocation leaves everything as it was.  A check after
it unlocks what has been locked, but the memory that has been accounted for the new node stays
accounted for.

## Main definitions

* `NoTrace` — a call has changed nothing but counters.
* `LeafRefused`, `InternodeRefused` — a check before the allocation fails.

## Main results

* `ensures_leafMigration_usage`, `ensures_internodeMigration_usage` — what a migration has
  accounted for is not taken back.
* `failed_migrations_iff` — **when a failed migration leaves no trace**.
* `trace_of_deletedParent` — a failed migration that leaves one.
-/

namespace Sidle.Masstree

open Art (Build Fault)
open Prog Machine Outcome Word Worker

/-! ### Traces -/

/-- Nobody has locked the node, and it bears no mark of a writer. -/
structure NodeVersion.Clean (v : NodeVersion) : Prop where
  locked : v.locked = false
  inserting : v.inserting = false
  splitting : v.splitting = false
  migrating : v.migrating = false

/-- The nodes are the same but for the counters of their versions. -/
structure Node.Same (n n' : Node) : Prop where
  locked : n'.version.locked = n.version.locked
  marks : n'.version.marks = n.version.marks
  rest : n'.setVersion 0 = n.setVersion 0

/-- The nodes of a tree, its root, the thresholds of the policy and the local memory usage are
the same as before. -/
structure NoTrace (mem mem' : Mem) : Prop where
  node : ∀ a n, mem.node? a = some n → ∃ n', mem'.node? a = some n' ∧ n.Same n'
  bag : ∀ a b, mem.bag? a = some b → mem'.bag? a = some b
  root : mem'.root = mem.root
  threshold : mem'.global.threshold = mem.global.threshold
  usage : mem'.global.curLocalMemoryUsage = mem.global.curLocalMemoryUsage

/-- `masstree_leaf_migration` fails before it allocates: there is no leaf, or it is deleted, of
the target type or busy. -/
def LeafRefused (mem : Mem) (cur : Addr) (targetType : NodeMemType) : Prop :=
  cur = 0 ∨ ∃ l, mem.leaf? cur = some l ∧
    (l.version.deleted = true ∨ l.metadata.type = targetType ∨
      l.version.migrating = true ∨ l.version.inserting = true ∨ l.version.splitting = true)

/-- `masstree_internode_migration` fails before it allocates, and nobody has handed it the lock
of the internode: the internode is deleted or of the target type. -/
def InternodeRefused (mem : Mem) (original : Addr) (targetType : NodeMemType) : Prop :=
  ∃ x, mem.internode? original = some x ∧
    (x.version.deleted = true ∨ x.sidleMeta.type = targetType) ∧ x.version.Clean

section Traces

variable {mem : Mem} {a : Addr} {n : Node}

theorem NoTrace.refl (mem : Mem) : NoTrace mem mem where
  node _ n hn := ⟨n, hn, rfl, rfl, rfl⟩
  bag _ _ hb := hb
  root := rfl
  threshold := rfl
  usage := rfl

/-- Taking the lock of a clean node, or not, and releasing it leaves the word as it was. -/
theorem NodeVersion.Clean.unlock_eq {v w : NodeVersion} (h : v.Clean) (hw : w = v ∨ w = v.lock) :
    w.unlock = v := by
  have hmarks : w.marks = v.marks := by
    rcases hw with rfl | rfl
    · rfl
    · exact marks_lock v
  have hclear : clearFlag 0 w = clearFlag 0 v := by
    rcases hw with rfl | rfl
    · rfl
    · exact clearFlag_lock v
  have hi : w.inserting = false := (congrArg Marks.inserting hmarks).trans h.inserting
  have hs : w.splitting = false := (congrArg Marks.splitting hmarks).trans h.splitting
  have hm : w.migrating = false := (congrArg Marks.migrating hmarks).trans h.migrating
  rw [unlock_of_unmarked w hi hs hm, hclear]
  have hl := h.locked
  rw [NodeVersion.locked, flag_eq (by decide)] at hl
  refine BitVec.eq_of_getLsbD_eq fun i _ => ?_
  rw [getLsbD_clearFlag]
  by_cases h0 : i = 0
  · rw [h0, hl]
    rfl
  · simp [h0]

/-- Releasing the lock of a node leaves no trace exactly when the node was clean. -/
theorem noTrace_unlock_iff {mem' : Mem} {w : NodeVersion} (hn : mem.node? a = some n)
    (hw : w = n.version ∨ w = n.version.lock)
    (hnode : ∀ b, mem'.node? b = if b = a then some (n.setVersion w.unlock) else mem.node? b)
    (hrest : mem' = { mem with blocks := mem'.blocks }) :
    NoTrace mem mem' ↔ n.version.Clean := by
  constructor
  · intro h
    obtain ⟨n', hn', hsame⟩ := h.node a n hn
    rw [hnode, if_pos rfl] at hn'
    obtain rfl := Option.some.inj hn'
    have hmarks := hsame.marks
    have hlocked := hsame.locked
    rw [version_setVersion] at hmarks hlocked
    exact {
      locked := hlocked.symm.trans NodeVersion.locked_unlock
      inserting := (congrArg Marks.inserting hmarks).symm.trans NodeVersion.inserting_unlock
      splitting := (congrArg Marks.splitting hmarks).symm.trans NodeVersion.splitting_unlock
      migrating := (congrArg Marks.migrating hmarks).symm.trans NodeVersion.migrating_unlock }
  · intro h
    have hself : n.setVersion w.unlock = n := by
      rw [h.unlock_eq hw]
      cases n <;> rfl
    have hsame (b : Addr) : mem'.node? b = mem.node? b := by
      rw [hnode, hself]
      by_cases hb : b = a
      · rw [if_pos hb, hb, hn]
      · rw [if_neg hb]
    rw [hrest]
    exact {
      node := fun b m hm => ⟨m, by rw [← hrest, hsame, hm], rfl, rfl, rfl⟩
      bag := fun _ _ hb => hb
      root := rfl
      threshold := rfl
      usage := rfl }

end Traces

/-! ### What is accounted for -/

/-- The state shared with the workers has not changed. -/
def SameGlobal (mem mem' : Mem) : Prop := mem'.global = mem.global

instance : IsPreorder Mem SameGlobal where
  refl _ := rfl
  trans _ _ _ h h' := h'.trans h

theorem Quiet.sameGlobal {mem mem' : Mem} (h : Quiet mem mem') : SameGlobal mem mem' := by
  rw [h.rest]
  rfl

/-- The local memory usage has changed. -/
def UsageChanged (mem mem' : Mem) : Prop :=
  mem'.global.curLocalMemoryUsage ≠ mem.global.curLocalMemoryUsage

theorem UsageChanged.not_noTrace {mem mem' : Mem} (h : UsageChanged mem mem') : ¬NoTrace mem mem' :=
  fun hno => h hno.usage

section Usage

variable {env : Env} {mem : Mem} {a b p : Addr} {fuel : ℕ}

theorem sameGlobal_of_quiet {α : Type} {q : MtM α} (h : machine.Keeps Quiet q) :
    machine.Keeps SameGlobal q := h.imp fun _ _ => Quiet.sameGlobal

theorem sameGlobal_access {α β : Type} {find : Mem → Option α} {f : α → Mem → β × Mem}
    (h : ∀ mem x, (f x mem).2.global = mem.global) : machine.Keeps SameGlobal (access find f) :=
  keeps_access fun mem x _ => h mem x

theorem sameGlobal_unlock (build : Build) : machine.Keeps SameGlobal (unlock build a) :=
  keeps_read.bind fun _ => (keeps_assert _ _).bind fun _ => sameGlobal_access fun _ _ => rfl

theorem sameGlobal_markLocked (build : Build) (f : NodeVersion → NodeVersion) :
    machine.Keeps SameGlobal (markLocked build a f) :=
  keeps_read.bind fun _ => (keeps_assert _ _).bind fun _ => sameGlobal_access fun _ _ => rfl

theorem sameGlobal_lockedParent (build : Build) :
    machine.Keeps SameGlobal (lockedParent build a fuel) := fun mem =>
  (ensures_lockedParent build a fuel mem).imp fun _ _ h => h.1.sameGlobal

theorem sameGlobal_giveUp : machine.Keeps SameGlobal (giveUp env a b p) :=
  (sameGlobal_unlock _).bind fun _ => (sameGlobal_unlock _).bind fun _ =>
    keeps_when (sameGlobal_unlock _) fun _ => keeps_ret

theorem sameGlobal_unlockLocked : machine.Keeps SameGlobal (unlockLocked env a) :=
  keeps_read.bind fun _ => keeps_ite (sameGlobal_unlock _) keeps_ret

theorem sameGlobal_setParent : machine.Keeps SameGlobal (setParent a p) :=
  sameGlobal_access fun _ _ => rfl

theorem sameGlobal_assignCopy (posi : ℕ) : machine.Keeps SameGlobal (assignCopy p posi a) :=
  sameGlobal_setParent.bind fun _ => sameGlobal_access fun _ _ => rfl

theorem sameGlobal_deallocateLeaf : machine.Keeps SameGlobal (deallocateLeaf a) := by
  have hbag (b : Addr) : machine.Keeps SameGlobal (retireBag b) := sameGlobal_access fun _ _ => rfl
  have hblock : machine.Keeps SameGlobal (retireBlock a) := sameGlobal_access fun _ _ => rfl
  exact keeps_read.bind fun l => keeps_when (hbag l.ksuf) fun _ => hblock

theorem sameGlobal_replaceLeaf : machine.Keeps SameGlobal (replaceLeaf env fuel a b) := by
  refine (sameGlobal_lockedParent _).bind fun p => keeps_read.bind fun v => ?_
  extract_lets jp
  have hrest (invalid : Bool) : machine.Keeps SameGlobal (jp invalid) := by
    refine keeps_ite sameGlobal_giveUp ?_
    refine keeps_read.bind fun l => keeps_read.bind fun x => (keeps_assert _ _).bind fun _ => ?_
    cases x.childPosition (l.ikey0 0) a with
    | none => exact sameGlobal_giveUp
    | some posi =>
      refine (sameGlobal_assignCopy posi).bind fun _ => ?_
      refine (sameGlobal_of_quiet (keeps_changeLink a b fuel)).bind fun _ => ?_
      refine (sameGlobal_markLocked _ _).bind fun _ => sameGlobal_deallocateLeaf.bind fun _ => ?_
      exact sameGlobal_unlockLocked.bind fun _ => sameGlobal_unlockLocked.bind fun _ => keeps_ret
  exact keeps_ite (hrest true) (keeps_read.bind fun pv => hrest pv.deleted)

theorem sameGlobal_makeLayerRoot : machine.Keeps SameGlobal (makeLayerRoot a) :=
  sameGlobal_setParent.bind fun _ => sameGlobal_access fun _ _ => rfl

theorem sameGlobal_hangCopy : machine.Keeps SameGlobal (hangCopy env a b p) := by
  refine keeps_ite (sameGlobal_makeLayerRoot.bind fun _ => keeps_ret) ?_
  refine keeps_read.bind fun o => keeps_read.bind fun x => (keeps_assert _ _).bind fun _ => ?_
  cases x.childPosition (o.ikey0 0) a with
  | none => exact keeps_ret
  | some posi => exact (sameGlobal_assignCopy posi).bind fun _ => keeps_ret

theorem sameGlobal_tellChildren : machine.Keeps SameGlobal (tellChildren env a b p) := by
  have hblock : machine.Keeps SameGlobal (retireBlock a) := sameGlobal_access fun _ _ => rfl
  refine keeps_read.bind fun o => (keeps_forRange _ _ fun _ => sameGlobal_setParent).bind
    fun _ => ?_
  refine (sameGlobal_markLocked _ _).bind fun _ => hblock.bind fun _ => ?_
  exact (sameGlobal_unlock _).bind fun _ => (sameGlobal_unlock _).bind fun _ => keeps_ret

theorem sameGlobal_replaceInternode : machine.Keeps SameGlobal (replaceInternode env fuel a b) := by
  rw [replaceInternode_eq]
  refine (sameGlobal_lockedParent _).bind fun p => keeps_read.bind fun v => ?_
  have hinvalid : machine.Keeps SameGlobal (parentInvalid p v) :=
    keeps_ite keeps_ret (keeps_read.bind fun _ => keeps_ret)
  refine hinvalid.bind fun _ =>
    keeps_ite sameGlobal_giveUp (sameGlobal_hangCopy.bind fun posi => ?_)
  cases posi with
  | none => exact sameGlobal_giveUp
  | some _ => exact sameGlobal_tellChildren

/-! ### The migrations -/

variable {t : NodeMemType}

theorem ensures_accounted (ht : t = .local_ ∨ t = .remote) {depth size : ℕ} {isLeaf : Bool}
    (hsize : size ≠ 0) :
    machine.Ensures (updateLocalMemoryUsage env t depth size true isLeaf) mem
      fun _ mem' => UsageChanged mem mem' := by
  refine ensures_onGlobal fun _ g hg => ?_
  obtain ⟨g', hg', heq⟩ := Option.map_eq_some_iff.mp hg
  cases heq
  exact Global.usage_ne_of_migration ht (Nat.cast_ne_zero.mpr hsize) hg'

theorem le_iceil64 (n : ℕ) : n ≤ iceil64 n := by
  unfold iceil64
  omega

theorem allocationSize_ne_zero (ksufsize : ℕ) : Leaf.allocationSize ksufsize ≠ 0 := by
  have h : Leaf.sizeof + min ksufsize 128 ≤ Leaf.allocationSize ksufsize := le_iceil64 _
  have hpos : 0 < Leaf.sizeof := by decide
  omega

theorem ensures_makeLeaf_accounted (ht : t = .local_ ∨ t = .remote)
    (ksufsize depth accessTime : ℕ) :
    machine.Ensures (makeLeaf env ksufsize depth t accessTime true) mem
      fun _ mem' => UsageChanged mem mem' := by
  refine ensures_poolAllocate.bind fun n mem₁ h₁ => ?_
  have hacc : machine.Ensures
    (updateLocalMemoryUsage env t depth (Leaf.allocationSize ksufsize) true
      true) mem₁ fun _ mem' => UsageChanged mem₁ mem' :=
    ensures_accounted ht (allocationSize_ne_zero ksufsize)
  refine hacc.bind fun _ mem₂ h₂ => ensures_ret.mpr ?_
  rw [h₁.2] at h₂
  exact h₂

theorem ensures_makeInternode_accounted (ht : t = .local_ ∨ t = .remote) (height depth : ℕ) :
    machine.Ensures (makeInternode env height depth t true) mem
      fun _ mem' => UsageChanged mem mem' := by
  refine ensures_poolAllocate.bind fun n mem₁ h₁ => ?_
  have hacc : machine.Ensures (updateLocalMemoryUsage env t depth Internode.sizeof true false) mem₁
      fun _ mem' => UsageChanged mem₁ mem' := ensures_accounted ht (by decide)
  refine hacc.bind fun _ mem₂ h₂ => ensures_ret.mpr ?_
  rw [h₁.2] at h₂
  exact h₂

theorem UsageChanged.after {mem₁ mem₂ mem₃ : Mem} (h : UsageChanged mem₁ mem₂)
    (h' : SameGlobal mem₂ mem₃) : UsageChanged mem₁ mem₃ := by
  unfold UsageChanged
  rw [h']
  exact h

theorem UsageChanged.before {mem₁ mem₂ mem₃ : Mem} (h' : SameGlobal mem₁ mem₂)
    (h : UsageChanged mem₂ mem₃) : UsageChanged mem₁ mem₃ := by
  unfold UsageChanged
  rw [← h']
  exact h

/-- A program that leaves the shared state alone, after the accounting. -/
theorem UsageChanged.ensures {α : Type} {q : MtM α} {mem₁ mem₂ : Mem} (h : UsageChanged mem₁ mem₂)
    (hq : machine.Keeps SameGlobal q) :
      machine.Ensures q mem₂ fun _ mem₃ => UsageChanged mem₁ mem₃ :=
  (hq mem₂).imp fun _ _ => h.after

/-- A migration of a leaf that is not refused at once has changed the usage when it returns,
whatever it returns. -/
theorem ensures_leafMigration_usage (ht : t = .local_ ∨ t = .remote) (parent : Addr) :
    machine.Ensures (leafMigration env fuel a parent t) mem fun _ mem' =>
      (LeafRefused mem a t ∧ mem' = mem) ∨ (¬LeafRefused mem a t ∧ UsageChanged mem mem') := by
  refine ensures_ite (fun h0 => ensures_ret.mpr (Or.inl ⟨Or.inl h0, rfl⟩)) fun h0 => ?_
  refine ensures_read.bind fun v mem₁ hv => ?_
  obtain ⟨rfl, n, hn, rfl⟩ := hv
  refine ensures_read.bind fun l mem₂ hl => ?_
  obtain ⟨rfl, l, hl, rfl⟩ := hl
  obtain rfl : n = .leaf l := Option.some.inj (hn.symm.trans (leaf?_eq_some.mp hl))
  have hrefused : LeafRefused mem₂ a t ↔ l.version.deleted = true ∨ l.metadata.type = t ∨
      l.version.migrating = true ∨ l.version.inserting = true ∨ l.version.splitting = true := by
    constructor
    · rintro (h | ⟨l', hl', h⟩)
      · exact absurd h h0
      · rw [hl] at hl'
        cases hl'
        exact h
    · exact fun h => Or.inr ⟨l, hl, h⟩
  refine ensures_ite (fun h => ?_) fun hgo => ?_
  · refine ensures_ret.mpr (Or.inl ⟨hrefused.mpr ?_, rfl⟩)
    rcases Bool.or_eq_true_iff.mp h with hd | htype
    · exact Or.inl hd
    · exact Or.inr (Or.inl (beq_iff_eq.mp htype))
  refine ensures_read.bind fun v mem₃ hv => ?_
  obtain ⟨rfl, n', hn', rfl⟩ := hv
  obtain rfl : n' = .leaf l := Option.some.inj (hn'.symm.trans hn)
  refine ensures_ite (fun h => ?_) fun hfree => ?_
  · refine ensures_ret.mpr (Or.inl ⟨hrefused.mpr ?_, rfl⟩)
    simp only [Node.version, Bool.or_eq_true] at h
    tauto
  have hnot : ¬LeafRefused mem₃ a t := by
    rw [hrefused]
    simp only [Node.version, Bool.or_eq_true, beq_iff_eq, not_or] at hgo hfree
    tauto
  refine (sameGlobal_of_quiet (keeps_waitUnchanged a fuel)).then fun _ mem₄ h₄ => ?_
  refine (keeps_read (R := SameGlobal)).then fun l' mem₅ h₅ => ?_
  have hbag : machine.Keeps SameGlobal (externalBag l') := keeps_ite keeps_read keeps_ret
  refine hbag.then fun b mem₆ h₆ => ?_
  refine (ensures_makeLeaf_accounted ht _ _ _).bind fun new_ mem₇ h₇ => ?_
  have husage : UsageChanged mem₃ mem₇ := h₇.before (h₆.trans (h₅.trans h₄))
  -- whatever happens behind the allocation, the usage stays as it is then
  have hrest : machine.Keeps SameGlobal (do
      let _ ← lock env.build fuel a
      memcpyLeaf new_ a
      writeLeaf new_ fun r => { r with metadata := { r.metadata with type := t } }
      writeVersion a NodeVersion.markMigration
      replaceLeaf env fuel a new_) := by
    refine (sameGlobal_of_quiet (keeps_lock _ _ _)).bind fun _ => ?_
    refine (keeps_read.bind fun _ => sameGlobal_access fun _ _ => rfl).bind fun _ => ?_
    refine (sameGlobal_access fun _ _ => rfl).bind fun _ => ?_
    exact (sameGlobal_access fun _ _ => rfl).bind fun _ => sameGlobal_replaceLeaf
  exact (husage.ensures hrest).imp fun _ _ h => Or.inr ⟨hnot, h⟩

/-- What a migration of the locked internode `x` comes to: one that is refused releases the lock;
any other has changed the usage when it returns. -/
def LockedEnd (t : NodeMemType) (a : Addr) (x : Internode) (mem mem' : Mem) : Prop :=
  ((x.version.deleted = true ∨ x.sidleMeta.type = t) ∧
      mem' = mem.setNode a ((Node.internode x).setVersion x.version.unlock)) ∨
    (¬(x.version.deleted = true ∨ x.sidleMeta.type = t) ∧ UsageChanged mem mem')

theorem ensures_locked_internodeMigration (ht : t = .local_ ∨ t = .remote) :
    machine.Ensures (internodeMigration env fuel a t false) mem fun _ mem' =>
      ∃ x, mem.node? a = some (.internode x) ∧ LockedEnd t a x mem mem' := by
  rw [internodeMigration_eq]
  refine ensures_read.bind fun v mem₁ hv => ?_
  obtain ⟨rfl, n, hn, rfl⟩ := hv
  refine (keeps_assert (R := Eq) _ _).then fun _ mem₂ h₂ => ?_
  subst h₂
  refine ensures_read.bind fun x mem₃ hx => ?_
  obtain ⟨rfl, x, hx, rfl⟩ := hx
  obtain rfl : n = .internode x := Option.some.inj (hn.symm.trans (internode?_eq_some.mp hx))
  have hcond : (x.version.deleted || x.sidleMeta.type == t) = true ↔
      x.version.deleted = true ∨ x.sidleMeta.type = t := by
    rw [Bool.or_eq_true, beq_iff_eq]
  refine ensures_ite (fun hc => ?_) fun hgo => ?_
  · refine ensures_unlock.bind fun _ mem₄ h₄ => ensures_ret.mpr ?_
    obtain ⟨n', hn', rfl⟩ := h₄
    obtain rfl : n' = .internode x := Option.some.inj (hn'.symm.trans hn)
    exact ⟨x, hn, Or.inl ⟨hcond.mp hc, rfl⟩⟩
  · refine (keeps_assert (R := Eq) _ _).then fun _ mem₅ h₅ => ?_
    subst h₅
    have hcopy : machine.Ensures (copyInternode env a x t) mem₃
        fun _ mem' => UsageChanged mem₃ mem' := by
      refine (ensures_makeInternode_accounted ht _ _).bind fun new_ mem₆ h₆ => ?_
      have hrest : machine.Keeps SameGlobal (do
          let o ← readInternode a
          writeInternode new_ fun _ => o
          writeInternode new_ fun x => { x with sidleMeta := { x.sidleMeta with type := t } }
          writeVersion a NodeVersion.markMigration
          pure new_) := by
        refine keeps_read.bind fun _ => (sameGlobal_access fun _ _ => rfl).bind fun _ => ?_
        refine (sameGlobal_access fun _ _ => rfl).bind fun _ => ?_
        exact (sameGlobal_access fun _ _ => rfl).bind fun _ => keeps_ret
      exact h₆.ensures hrest
    refine hcopy.bind fun new_ mem₆ h₆ => ?_
    exact (h₆.ensures sameGlobal_replaceInternode).imp
      fun _ _ h => ⟨x, hn, Or.inr ⟨hcond.not.mp hgo, h⟩⟩

theorem internodeRefused_iff {x : Internode} (hx : mem.node? a = some (.internode x)) :
    InternodeRefused mem a t ↔
      (x.version.deleted = true ∨ x.sidleMeta.type = t) ∧ x.version.Clean := by
  constructor
  · rintro ⟨x', hx', h⟩
    rw [internode?_eq_some.mpr hx] at hx'
    cases hx'
    exact h
  · exact fun h => ⟨x, internode?_eq_some.mpr hx, h⟩

/-- A migration of an internode that is locked already. -/
theorem LockedEnd.noTrace_iff {x : Internode} {mem' : Mem} (hx : mem.node? a = some (.internode x))
    (h : LockedEnd t a x mem mem') : NoTrace mem mem' ↔ InternodeRefused mem a t := by
  rw [internodeRefused_iff hx]
  rcases h with ⟨hc, hmem⟩ | ⟨hc, husage⟩
  · rw [and_iff_right hc]
    refine noTrace_unlock_iff hx (Or.inl rfl) (fun b => ?_) (by rw [hmem]; rfl)
    rw [hmem, node?_setNode_eq hx]
    rfl
  · exact iff_of_false husage.not_noTrace fun h => hc h.1

/-- A migration of an internode that has been locked for it. -/
theorem LockedEnd.noTrace_iff_of_lock {x : Internode} {mem' : Mem}
    (hx : mem.node? a = some (.internode x))
    (h : LockedEnd t a { x with version := x.version.lock }
      (mem.setNode a (.internode { x with version := x.version.lock })) mem') :
    NoTrace mem mem' ↔ InternodeRefused mem a t := by
  have hdeleted : x.version.lock.deleted = x.version.deleted :=
    congrArg Marks.deleted (marks_lock x.version)
  unfold LockedEnd at h
  simp only [hdeleted] at h
  rw [internodeRefused_iff hx]
  rcases h with ⟨hc, hmem⟩ | ⟨hc, husage⟩
  · rw [and_iff_right hc]
    refine noTrace_unlock_iff hx (Or.inr rfl) (fun b => ?_) (by rw [hmem]; rfl)
    rw [hmem, node?_setNode_eq (node?_setNode hx)]
    by_cases hb : b = a
    · rw [if_pos hb, if_pos hb]
      rfl
    · rw [if_neg hb, if_neg hb, node?_setNode_of_ne hb]
  · have husage' : UsageChanged mem mem' := husage
    exact iff_of_false husage'.not_noTrace fun h => hc h.1

theorem ensures_internodeMigration_usage (ht : t = .local_ ∨ t = .remote) (isNew : Bool) :
    machine.Ensures (internodeMigration env fuel a t isNew) mem fun _ mem' =>
      NoTrace mem mem' ↔ InternodeRefused mem a t := by
  cases isNew with
  | false =>
    refine (ensures_locked_internodeMigration ht).imp fun _ mem' h => ?_
    obtain ⟨x, hx, h⟩ := h
    exact h.noTrace_iff hx
  | true =>
    rw [internodeMigration_isNew]
    intro r mem' hrun
    obtain ⟨v, mem₁, hlock, hmigr⟩ := machine.run_bind_eq_done.mp hrun
    -- the call locks the internode itself, and works on the word with the bit
    obtain ⟨w, mem₂, hread, -⟩ := machine.run_bind_eq_done.mp hlock
    obtain ⟨-, n, hn, -⟩ := ensures_read _ _ hread
    obtain ⟨-, -, rfl⟩ := ensures_lock fuel hn v mem₁ hlock
    obtain ⟨y, hy, h⟩ := ensures_locked_internodeMigration ht r mem' hmigr
    rw [node?_setNode hn] at hy
    cases n with
    | leaf l => cases hy
    | internode x =>
      obtain rfl := Node.internode.inj (Option.some.inj hy)
      exact LockedEnd.noTrace_iff_of_lock hn h

/-- **When a failed migration leaves no trace.**  A migration of a leaf that returns the null
pointer has left everything as it was exactly when a check before the allocation failed; a
migration of an internode, when such a check failed and the version word of the internode was
clean before the call. -/
theorem failed_migrations_iff (ht : t = .local_ ∨ t = .remote) :
    (∀ env fuel cur parent mem mem',
      machine.run (leafMigration env fuel cur parent t) mem = done 0 mem' →
        (NoTrace mem mem' ↔ LeafRefused mem cur t)) ∧
    ∀ env fuel original isNew mem mem',
      machine.run (internodeMigration env fuel original t isNew) mem = done 0 mem' →
        (NoTrace mem mem' ↔ InternodeRefused mem original t) := by
  constructor
  · intro env fuel cur parent mem mem' hrun
    rcases ensures_leafMigration_usage ht parent _ _ hrun with ⟨hrefused, rfl⟩ | ⟨hrefused, husage⟩
    · exact iff_of_true (NoTrace.refl _) hrefused
    · exact iff_of_false husage.not_noTrace hrefused
  · intro env fuel original isNew mem mem' hrun
    exact ensures_internodeMigration_usage ht isNew _ _ hrun

/-- A leaf and an internode of the tree with four leaves that are where they are to go: the calls
fail and leave no trace. -/
theorem failed_migrations_iff_of_fourLeaves :
    (∃ mem', machine.run (leafMigration plainEnv 9 8 40 .local_) fourLeaves = done 0 mem' ∧
      NoTrace fourLeaves mem') ∧
    ∃ mem', machine.run (internodeMigration plainEnv 9 40 .local_ true) fourLeaves = done 0 mem' ∧
      NoTrace fourLeaves mem' := by
  obtain ⟨hleaf, hinternode⟩ := failed_migrations_iff (t := .local_) (Or.inl rfl)
  constructor
  · obtain ⟨mem', -, hrun⟩ := Outcome.eq_done_of_answer
      (show (machine.run (leafMigration plainEnv 9 8 40 .local_) fourLeaves).answer? = some 0 by
        decide +kernel)
    exact ⟨mem', hrun, (hleaf _ _ _ _ _ _ hrun).mpr (Or.inr ⟨_, rfl, by decide⟩)⟩
  · obtain ⟨mem', -, hrun⟩ := Outcome.eq_done_of_answer
      (show (machine.run (internodeMigration plainEnv 9 40 .local_ true) fourLeaves).answer? =
        some 0 by decide +kernel)
    have hrefused : InternodeRefused fourLeaves 40 .local_ :=
      ⟨_, rfl, by decide, ⟨by decide, by decide, by decide, by decide⟩⟩
    exact ⟨mem', hrun, (hinternode _ _ _ _ _ _ hrun).mpr hrefused⟩

end Usage

/-! ### A leaf below a deleted internode -/

section Example

/-- The tree with four leaves, whose first internode is marked as deleted. -/
def deletedParent : Mem :=
  (machine.run (writeVersion 40 fun v => v.lock.markDeleted.unlock) fourLeaves).state?.getD
    fourLeaves

/-- **A failed migration that leaves a trace.**  The parent of the leaf is deleted, so that the
migration comes to nothing; but what it has accounted for the copy stays accounted for. -/
theorem trace_of_deletedParent : ∃ mem',
    machine.run (leafMigration plainEnv 9 8 40 .remote) deletedParent = done 0 mem' ∧
      mem'.global.curLocalMemoryUsage ≠ deletedParent.global.curLocalMemoryUsage ∧
      ¬NoTrace deletedParent mem' := by
  obtain ⟨mem', hmem, hrun⟩ := Outcome.eq_done_of_answer
    (show (machine.run (leafMigration plainEnv 9 8 40 .remote) deletedParent).answer? = some 0 by
      decide +kernel)
  have husage : UsageChanged deletedParent mem' := by
    have hstate : ((machine.run (leafMigration plainEnv 9 8 40 .remote) deletedParent).state?.map
        fun mem => decide (mem.global.curLocalMemoryUsage =
          deletedParent.global.curLocalMemoryUsage)) = some false := by decide +kernel
    rw [hmem] at hstate
    exact of_decide_eq_false (Option.some.inj hstate)
  exact ⟨mem', hrun, husage, husage.not_noTrace⟩

end Example

end Sidle.Masstree
