import Sidle.Masstree.Balance
import Sidle.Masstree.InsertSound

/-!
# The migration of a leaf without a parent

`masstree_leaf_migration` asks of a leaf without a parent only whether it is the root of its
layer; if it is, the version of the parent that is not there is read.  In a table that insertions
have built everything else that the migration goes through is there, and free.

## Main results

* `Mem.Sound.hasParent`, `Mem.Sound.listed` — what stands around a leaf of a sound memory.
* `goesOn_replaceLeaf_of_root` — a root leaf leads to the null pointer.
* `leafMigration_inserted_iff` — **the migration of a leaf returns, without a null pointer on its
  way, exactly if the leaf has a parent, is no root, or stays.**
-/

namespace Sidle.Masstree

open Art (Build Fault)
open Prog Machine Outcome Word Worker

/-! ### The surroundings of a leaf -/

section Surroundings

variable {build : Build} {mem : Mem} {a : Addr} {l : Leaf}

theorem held_outline (mem : Mem) : mem.outline.held = mem.held := by
  ext a
  constructor
  · rintro ⟨s, hs, hl⟩
    obtain ⟨m, hm, rfl⟩ := outline_eq_some.mp hs
    exact ⟨m, hm, m.locked_sketch.trans hl⟩
  · rintro ⟨m, hm, hl⟩
    exact ⟨m.sketch, outline_of_node? hm, m.locked_sketch.symm.trans hl⟩

theorem Mem.Sound.bounded (h : mem.Sound) : mem.Bounded ∅ where
  null := h.null
  lt _ ha := (h.lt ha).1
  kept _ ha := absurd ha (Set.notMem_empty _)

theorem VersionOk.lockable {leaf : Bool} {v : NodeVersion} (h : VersionOk leaf v)
    (hv : v.locked = false) : Lockable build v := ⟨hv, fun _ => h.calm hv⟩

/-- A leaf in use stands in its list. -/
theorem Mem.Sound.listed (h : mem.Sound) (hl : mem.node? a = some (.leaf l))
    (hd : l.version.deleted = false) : Listed mem a l := by
  have hlink := links_of_leaf hl
  refine ⟨h.chained.unmarked hlink hd, fun h0 => ?_, fun h0 => ?_, fun h0 => ?_⟩
  · obtain ⟨hne, k, hk, -⟩ := h.chained.next hlink hd h0
    obtain ⟨r, hr, -⟩ := exists_leaf_of_links hk
    exact ⟨hne, r, hr⟩
  · obtain ⟨k, hk, hkd, hka⟩ := h.chained.prev hlink hd h0
    obtain ⟨r, hr, rfl⟩ := exists_leaf_of_links hk
    refine ⟨?_, r, hr, hka⟩
    intro hpa
    -- a leaf before itself would also stand after itself
    obtain ⟨hne, -⟩ := h.chained.next hk hkd (hka ▸ ne_zero_of_leaf h hl)
    exact hne (hka.trans hpa.symm)
  · obtain ⟨b, hb, -⟩ := h.bag hl rfl h0
    exact ⟨b.bag, by rw [Mem.bag?, hb]; rfl⟩

/-- The parent of a leaf is an internode, and free where no node is locked. -/
theorem Mem.Sound.hasParent (h : mem.Sound) (hfree : mem.held = ∅)
    (hl : mem.node? a = some (.leaf l)) (hp : l.parent ≠ 0) :
    ∃ y, HasParent build mem a l y := by
  obtain ⟨y, hy⟩ := h.parent hl hp
  have hver := h.version hy
  have hlocked : y.version.locked = false := by
    by_contra hl
    have hmem : l.parent ∈ mem.held := ⟨_, hy, by simpa [Node.version] using hl⟩
    rw [hfree] at hmem
    exact hmem
  refine ⟨y, hp, ?_, hy, hver.lockable hlocked, hver.deleted rfl, hver.isleaf, h.nkeys hy⟩
  intro hpa
  have hpl : l.parent = a := hpa
  have hyl : mem.node? l.parent = some (.internode y) := hy
  rw [hpl, hl] at hyl
  cases hyl

end Surroundings

/-! ### The replacement -/

section Replacement

variable {env : Env} {mem : Mem} {a new_ : Addr} {l r : Leaf} {fuel : ℕ}

/-- The parent of the leaf is locked and its flag of a root read, and then the migration is given
up, or goes on. -/
theorem nullSafe_replaceLeaf_of_parent (ha0 : a ≠ 0) (hn0 : new_ ≠ 0) {p : Addr} (hp : p ≠ 0)
    {s : Mem} (hlock : machine.run (lockedParent env.build a fuel) mem = done p s) :
    NullSafe (replaceLeaf env fuel a new_) mem := by
  unfold replaceLeaf
  refine (nullSafe_bind_of_run (nonNull_lockedParent ha0).nullSafe hlock).mpr ?_
  have hgiveUp : NonNull (giveUp env a new_ p) := nonNull_giveUp ha0 hn0
  refine NonNull.nullSafe (All.bind (nonNull_node ha0) fun v => ?_)
  extract_lets jp
  have hrest (invalid : Bool) : NonNull (jp invalid) := by
    refine all_ite hgiveUp ?_
    refine All.bind (nonNull_leaf ha0) fun l => All.bind (nonNull_internode hp) fun x => ?_
    refine All.bind nonNull_assert fun _ => ?_
    cases x.childPosition (l.ikey0 0) a with
    | none => exact hgiveUp
    | some posi =>
      refine All.bind (nonNull_assignCopy hp hn0) fun _ => All.bind (nonNull_changeLink ha0 hn0) ?_
      refine fun _ => All.bind (nonNull_markLocked ha0 _) fun _ => ?_
      refine All.bind (nonNull_deallocateLeaf ha0) fun _ => ?_
      refine All.bind (nonNull_unlockLocked ha0) fun _ => ?_
      exact All.bind (nonNull_unlockLocked hn0) fun _ => nonNull_pure
  exact all_ite (hrest true) (All.bind (nonNull_node hp) fun pv => hrest pv.deleted)

/-- **A root without a parent leads to the null pointer.** -/
theorem not_nullSafe_replaceLeaf (ha0 : a ≠ 0) (hl : mem.node? a = some (.leaf l))
    (hlocked : l.version.locked = true) (hp : l.parent = 0) (hroot : l.version.isRoot = true) :
    ¬NullSafe (replaceLeaf env (fuel + 1) a new_) mem := by
  have hlock : machine.run (lockedParent env.build a (fuel + 1)) mem = done 0 mem :=
    run_lockedParent_of_root fuel hl hlocked hp
  intro hsafe
  have hsafe₁ := (goesOn_bind (nonNull_lockedParent ha0).nullSafe hlock).2.mp hsafe
  have hsafe₂ := (goesOn_bind (nonNull_node ha0).nullSafe (run_readVersion hl)).2.mp hsafe₁
  rw [if_neg (by simp [Node.version, hroot])] at hsafe₂
  exact not_nullSafe_access (fun _ h0 => node?_zero h0) hsafe₂

/-- A leaf without a parent that is no root is not moved. -/
theorem goesOn_replaceLeaf_of_stray (ha0 : a ≠ 0) (hl : mem.node? a = some (.leaf l))
    (hlocked : l.version.locked = true) (hp : l.parent = 0) (hroot : l.version.isRoot = false) :
    GoesOn (replaceLeaf env (fuel + 1) a new_) mem (giveUp env a new_ 0) mem := by
  have hlock : machine.run (lockedParent env.build a (fuel + 1)) mem = done 0 mem :=
    run_lockedParent_of_root fuel hl hlocked hp
  unfold replaceLeaf
  refine (goesOn_bind (nonNull_lockedParent ha0).nullSafe hlock).trans ?_
  refine (goesOn_bind (nonNull_node ha0).nullSafe (run_readVersion hl)).trans ?_
  rw [if_pos (by simp [Node.version, hroot])]
  exact GoesOn.refl _ _

end Replacement

/-! ### Leaves of a table -/

section Tables

variable {env : Env} {mem : Mem} {a : Addr} {l l' : Leaf} {t : NodeMemType}

/-- The copy is made from a leaf whose flag of a root has not changed. -/
theorem CopyMade.isRoot {s : Mem} (h : CopyMade mem a l l' s) :
    l'.version.isRoot = l.version.isRoot := by
  rw [h.version]
  refine Eq.trans (b := flag 30 l.version.lock) ?_ ?_
  · exact flag_setFlag_of_ne (by decide) _ (by decide)
  · exact flag_setFlag_of_ne (by decide) _ (by decide)

/-- The accounting turns the copy down. -/
theorem not_returns_of_not_takesCopy {Q : Addr → Mem → Prop} (fuel : ℕ) (parent : Addr)
    (hl : mem.node? a = some (.leaf l)) (ha0 : a ≠ 0) (hgo : ¬l.Stays t)
    (h : ¬TakesCopy env mem l t) :
    ¬machine.Returns (leafMigration env (fuel + 1) a parent t) mem Q := by
  obtain ⟨b, hb, hnone⟩ : ∃ b, bagOf mem l = some b ∧ ¬(mem.global.updateLocalMemoryUsage
      env.build.sidleCheck env.checkMemoryUsage t l.metadata.depth
      (Leaf.allocationSize (l.ksufUsedCapacity b)) true true).isSome = true := by
    simpa [TakesCopy] using h
  rintro ⟨q, mem', hrun, -⟩
  let sz := Leaf.allocationSize (l.ksufUsedCapacity b)
  let s₁ := mem.alloc sz (.leaf (Leaf.make sz t l.metadata.depth l.accessTime))
  have hglobal : machine.run (updateLocalMemoryUsage env t l.metadata.depth sz true true) s₁ =
      fault .thrown := by
    refine run_onGlobal_of_none (Option.map_eq_none_iff.mpr ?_)
    exact Option.not_isSome_iff_eq_none.mp hnone
  have hmake : machine.run (makeLeaf env (l.ksufUsedCapacity b) l.metadata.depth t l.accessTime
      true) mem = fault .thrown := by
    unfold makeLeaf poolAllocate
    rw [machine.run_bind_of_done (run_access rfl), machine.run_bind_of_fault hglobal]
  rw [(goesOn_copyLeaf fuel parent hl ha0 hgo hb).1, machine.run_bind_of_fault hmake] at hrun
  cases hrun

/-- A leaf in use of a memory that is sound and without locks. -/
structure LeafAtRest (env : Env) (mem : Mem) (a : Addr) (l : Leaf) : Prop where
  sound : mem.Sound
  free : mem.held = ∅
  ne_zero : a ≠ 0
  node : mem.node? a = some (.leaf l)
  lockable : Lockable env.build l.version
  listed : Listed mem a l
  stays : ∀ t, l.Stays t ↔ l.metadata.type = t

theorem Inserted.leafAtRest (h : Inserted env mem) (hl : mem.node? a = some (.leaf l)) :
    LeafAtRest env mem a l := by
  obtain ⟨hs, hheld, hdel⟩ := h.sound
  rw [held_outline] at hheld
  have hver : VersionOk true l.version := hs.version hl
  have hd : l.version.deleted = false := hdel a _ (outline_of_node? hl)
  have hlocked : l.version.locked = false := by
    by_contra hl'
    have hmem : a ∈ mem.held := ⟨_, hl, by simpa [Node.version] using hl'⟩
    rw [hheld] at hmem
    exact hmem
  refine ⟨hs, hheld, ne_zero_of_leaf hs hl, hl, hver.lockable hlocked, hs.listed hl hd, fun t => ?_⟩
  obtain ⟨hi, hsp⟩ := hver.calm hlocked
  simp [Leaf.Stays, hd, hver.migrating, hi, hsp]

/-- The migration of a root without a parent reads the version of the null pointer. -/
theorem LeafAtRest.not_nullSafe (h : LeafAtRest env mem a l) (parent : Addr) (fuel : ℕ)
    (htype : l.metadata.type ≠ t) (htakes : TakesCopy env mem l t) (hp : l.parent = 0)
    (hroot : l.version.isRoot = true) :
    ¬NullSafe (leafMigration env (fuel + 2) a parent t) mem := by
  have hgo : ¬l.Stays t := fun hst => htype ((h.stays t).mp hst)
  obtain ⟨s, l', hmade, hgoes⟩ := goesOn_leafMigration fuel parent h.sound.bounded h.node h.lockable
    h.listed hgo htakes
  intro hsafe
  exact not_nullSafe_replaceLeaf h.ne_zero hmade.node hmade.locked (hmade.parent.trans hp)
    (hmade.isRoot.trans hroot) (hgoes.2.mp hsafe)

/-- The migration of a leaf with a parent, or of one that is no root, returns. -/
theorem LeafAtRest.returns (h : LeafAtRest env mem a l) (parent : Addr) (fuel : ℕ)
    (htype : l.metadata.type ≠ t) (htakes : TakesCopy env mem l t)
    (hroot : ¬(l.parent = 0 ∧ l.version.isRoot = true)) :
    NullSafe (leafMigration env (fuel + 2) a parent t) mem ∧
      machine.Returns (leafMigration env (fuel + 2) a parent t) mem
        fun q mem' => HandsOn q mem'.held := by
  have hb := h.sound.bounded
  have ha0 := h.ne_zero
  have hf0 : mem.fresh ≠ 0 := fresh_ne_zero
  have hfresh : mem.fresh ≠ a := by
    intro hfa
    have hl := h.node
    rw [← hfa, h.sound.toNodesOk.fresh] at hl
    cases hl
  have hgo : ¬l.Stays t := fun hst => htype ((h.stays t).mp hst)
  obtain ⟨s, l', hmade, hgoes⟩ := goesOn_leafMigration fuel parent hb h.node h.lockable h.listed hgo
    htakes
  have hreplace : NullSafe (replaceLeaf env (fuel + 2) a mem.fresh) s ∧ ∃ q mem',
      machine.run (replaceLeaf env (fuel + 2) a mem.fresh) s = done q mem' := by
    by_cases hp : l.parent = 0
    · -- the leaf is no root
      have hno : l'.version.isRoot = false := hmade.isRoot.trans (by simpa [hp] using hroot)
      have hgive : GoesOn (replaceLeaf env (fuel + 2) a mem.fresh) s
          (giveUp env a mem.fresh 0) s :=
        goesOn_replaceLeaf_of_stray ha0 hmade.node hmade.locked (hmade.parent.trans hp) hno
      obtain ⟨r, hr, hrlocked⟩ := hmade.copy
      obtain ⟨mem', hrun⟩ : ∃ mem', machine.run (giveUp env a mem.fresh 0) s = done 0 mem' :=
        exists_run_giveUp hmade.node hmade.locked hr hrlocked hfresh.symm fun h0 => absurd rfl h0
      exact ⟨hgive.2.mpr (nonNull_giveUp ha0 hf0).nullSafe, 0, mem', hgive.1.trans hrun⟩
    · obtain ⟨y, hy⟩ : ∃ y, HasParent env.build mem a l y :=
        h.sound.hasParent h.free h.node hp
      have hy' := hmade.hasParent hy
      have hlocks := run_lockedParent hmade.node hmade.locked hy'.ne_zero hy'.node
        (fun _ => hy'.isleaf) fuel hy'.lockable
      refine ⟨nullSafe_replaceLeaf_of_parent ha0 hf0 hy'.ne_zero hlocks, ?_⟩
      exact exists_run_replaceLeaf fuel hmade.node hmade.locked hmade.listed ha0 hmade.copy hfresh
        hmade.prev hy'
  obtain ⟨hsafe, q, mem', hrun⟩ := hreplace
  have hdone := hgoes.1.trans hrun
  refine ⟨hgoes.2.mpr hsafe, returns_of_run hdone ?_⟩
  exact (tracks_leafMigration parent mem hb h.free q mem' hdone).2

/-- **The migration of a leaf** of a table that insertions have built, whatever its target, comes
to no null pointer and returns, with at most the lock of the parent that it answers, exactly if the
leaf is of that type already, or the accounting takes the copy and the leaf has a parent or is no
root. -/
theorem leafMigration_inserted_iff (h : Inserted env mem) (hl : mem.node? a = some (.leaf l))
    (parent : Addr) (t : NodeMemType) :
    (∃ N, ∀ fuel ≥ N, NullSafe (leafMigration env fuel a parent t) mem ∧
      machine.Returns (leafMigration env fuel a parent t) mem fun q mem' => HandsOn q mem'.held) ↔
    l.metadata.type = t ∨ TakesCopy env mem l t ∧ ¬(l.parent = 0 ∧ l.version.isRoot = true) := by
  have hrest := h.leafAtRest hl
  by_cases htype : l.metadata.type = t
  · refine iff_of_true ⟨0, fun fuel _ => ?_⟩ (Or.inl htype)
    have hgo : GoesOn (leafMigration env fuel a parent t) mem (pure 0) mem :=
      goesOn_leafMigration_of_stays fuel parent hl hrest.ne_zero ((hrest.stays t).mpr htype)
    exact ⟨hgo.2.mpr nullSafe_ret, returns_of_run hgo.1 (Or.inl ⟨rfl, hrest.free⟩)⟩
  simp only [htype, false_or]
  constructor
  · rintro ⟨N, hN⟩
    obtain ⟨hsafe, hreturns⟩ := hN (N + 2) (Nat.le_add_right N 2)
    have htakes : TakesCopy env mem l t := by
      by_contra htakes
      exact not_returns_of_not_takesCopy (N + 1) parent hl hrest.ne_zero
        (fun hst => htype ((hrest.stays t).mp hst)) htakes hreturns
    refine ⟨htakes, ?_⟩
    rintro ⟨hp, hroot⟩
    exact hrest.not_nullSafe parent N htype htakes hp hroot hsafe
  · rintro ⟨htakes, hroot⟩
    refine ⟨2, fun fuel hfuel => ?_⟩
    obtain ⟨n, rfl⟩ : ∃ n, fuel = n + 2 := ⟨fuel - 2, by omega⟩
    exact hrest.returns parent n htype htakes hroot

end Tables

section Example

/-- The table with one key has one leaf, a local root without a parent. -/
theorem exists_oneKey : ∃ mem₁ mem l,
    machine.run (initializeTable plainEnv) (Mem.start default) = done () mem₁ ∧
    machine.run (put plainEnv 20 [97] 7) mem₁ = done () mem ∧ mem.node? 8 = some (.leaf l) ∧
    (l.parent = 0 ∧ l.version.isRoot = true ∧ l.metadata.type = .local_) ∧
    (l.ksuf = 0 ∧ l.ksufUsedCapacity (Stringbag.external 0) = 0) ∧
    mem.global.curLocalMemoryUsage = 320 := by
  refine ⟨_, _, _, rfl, rfl, rfl, ?_, ?_, ?_⟩
  · decide
  · decide
  · decide

/-- **The leaf of a table with one key**, moved to the remote memory, leads to the null pointer. -/
theorem rootLeaf_reads_null : ∃ mem l, Inserted plainEnv mem ∧ mem.node? 8 = some (.leaf l) ∧
    l.version.deleted = false ∧
    ∀ fuel, ¬NullSafe (leafMigration plainEnv (fuel + 2) 8 0 .remote) mem := by
  obtain ⟨mem₁, mem, l, hinit, hput, hl, ⟨hp, hroot, htype⟩, ⟨hksuf, hused⟩, husage⟩ :=
    exists_oneKey
  have hinserted : Inserted plainEnv mem := (Inserted.create hinit).put hput
  have hrest := hinserted.leafAtRest hl
  refine ⟨mem, l, hinserted, hl, hinserted.sound.2.2 8 _ (outline_of_node? hl), fun fuel => ?_⟩
  refine hrest.not_nullSafe 0 fuel (by rw [htype]; decide) ?_ hp hroot
  intro b hb
  obtain rfl : Stringbag.external 0 = b := by
    rw [bagOf, if_neg (by simp [hksuf])] at hb
    exact Option.some.inj hb
  have hsize : Leaf.allocationSize 0 = 320 := by decide
  simp [Global.updateLocalMemoryUsage, Global.accountLocalMemory, hused, husage, hsize]

/-- The migration of that leaf to the local memory, where it is already, returns. -/
theorem leafMigration_inserted_iff_oneKey : ∃ mem, Inserted plainEnv mem ∧
    ∃ N, ∀ fuel ≥ N, NullSafe (leafMigration plainEnv fuel 8 0 .local_) mem ∧
      machine.Returns (leafMigration plainEnv fuel 8 0 .local_) mem
        fun q mem' => HandsOn q mem'.held := by
  obtain ⟨mem₁, mem, l, hinit, hput, hl, ⟨-, -, htype⟩, -⟩ := exists_oneKey
  have hinserted : Inserted plainEnv mem := (Inserted.create hinit).put hput
  exact ⟨mem, hinserted, (leafMigration_inserted_iff hinserted hl 0 .local_).mpr (Or.inl htype)⟩

end Example

end Sidle.Masstree
