import Sidle.Masstree.AbsentChild
import Sidle.Masstree.Layout
import Sidle.Prog.View

/-!
# The locks of a migration

`masstree_leaf_migration` and `masstree_internode_migration` take the locks of the node, of its
copy and of the parent, and hand the lock of the parent on to the executor, which passes it to
the next migration of the climb or releases it.  Here only the set of the locked nodes is
followed, for whatever the memory holds: when a task returns, all locks have been released.

## Main definitions

* `Mem.held` — the locked nodes.
* `heldView` — the view of a memory that shows the locked nodes.
* `HandsOn` — the locks after a migration that answers a parent.

## Main results

* `tracks_lock`, `tracks_lockedParent`, … — what the functions do to the locks.
* `tracks_leafMigration`, `tracks_internodeMigration` — only the parent is still locked.
* `tracks_task` — **a task that returns has released its locks**.
-/

namespace Sidle.Masstree

open Art (Build Fault)
open Prog Machine Word Worker

/-! ### The locked nodes -/

/-- The nodes that are locked. -/
def Mem.held (mem : Mem) : Set Addr := {a | ∃ n, mem.node? a = some n ∧ n.version.locked = true}

/-- There is a block at each address of `S`, but none at null, and none that is still to be handed
out. -/
structure Mem.Bounded (mem : Mem) (S : Set Addr) : Prop where
  null : mem.blocks 0 = none
  lt : ∀ a, mem.blocks a ≠ none → a < mem.fresh
  kept : ∀ a ∈ S, mem.blocks a ≠ none

/-- The view that shows the locked nodes. -/
def heldView (S : Set Addr) : View Mem (Set Addr) := ⟨fun mem => mem.Bounded S, Mem.held⟩

/-- Only the parent `p` is locked, if there is one. -/
def HandsOn (p : Addr) (y : Set Addr) : Prop := (p = 0 ∧ y = ∅) ∨ (p ≠ 0 ∧ y = {p})

section Stores

variable {mem : Mem} {S : Set Addr} {a : Addr} {m n : Node}

theorem mem_held (h : mem.node? a = some n) : a ∈ mem.held ↔ n.version.locked = true := by
  constructor
  · rintro ⟨n', hn', hl⟩
    rw [h] at hn'
    cases hn'
    exact hl
  · exact fun hl => ⟨n, h, hl⟩

theorem held_congr {mem' : Mem} (h : ∀ a, mem'.node? a = mem.node? a) : mem'.held = mem.held := by
  ext a
  simp only [Mem.held, h, Set.mem_ofPred_eq]

theorem held_setNode (h : mem.node? a = some m) :
    (mem.setNode a n).held = if n.version.locked then insert a mem.held else mem.held \ {a} := by
  ext b
  have hb : b ∈ (mem.setNode a n).held ↔
      if b = a then n.version.locked = true else b ∈ mem.held := by
    simp only [Mem.held, Set.mem_ofPred_eq, node?_setNode_eq h]
    split <;> simp
  rw [hb]
  by_cases hba : b = a
  · cases hl : n.version.locked <;> simp [hba]
  · cases hl : n.version.locked <;> simp [hba]

/-- A store that leaves the lock bit alone. -/
theorem held_setNode_same (h : mem.node? a = some m) (hl : n.version.locked = m.version.locked) :
    (mem.setNode a n).held = mem.held := by
  rw [held_setNode h, hl]
  have ha := mem_held h
  cases hm : m.version.locked with
  | true => exact Set.insert_eq_of_mem (ha.mpr hm)
  | false => exact Set.sdiff_singleton_eq_self fun hmem => by simp [hm, ha] at hmem

theorem Mem.Bounded.setNode (h : mem.Bounded S) : (mem.setNode a n).Bounded S := by
  have hnone (b : Addr) : (mem.setNode a n).blocks b = none ↔ mem.blocks b = none := by
    by_cases hba : b = a
    · subst hba
      simp [Mem.setNode]
    · simp [Mem.setNode, Function.update_of_ne hba]
  exact ⟨(hnone 0).mpr h.null, fun b hb => h.lt b ((hnone b).not.mp hb),
    fun b hb => (hnone b).not.mpr (h.kept b hb)⟩

theorem Mem.Bounded.retire (h : mem.Bounded S) : (mem.retire a).Bounded S := by
  have hnone (b : Addr) : (mem.retire a).blocks b = none ↔ mem.blocks b = none := by
    by_cases hba : b = a
    · subst hba
      simp [Mem.retire]
    · simp [Mem.retire, Function.update_of_ne hba]
  exact ⟨(hnone 0).mpr h.null, fun b hb => h.lt b ((hnone b).not.mp hb),
    fun b hb => (hnone b).not.mpr (h.kept b hb)⟩

theorem Mem.Bounded.alloc (h : mem.Bounded S) {size : ℕ} : (mem.alloc size n).Bounded S := by
  have hblocks {b : Addr} (hb : b ≠ mem.fresh) : (mem.alloc size n).blocks b = mem.blocks b :=
    Function.update_of_ne hb _ _
  refine ⟨(hblocks fresh_ne_zero.symm).trans h.null, fun b hb => ?_, fun b hb => ?_⟩
  · by_cases hbf : b = mem.fresh
    · exact hbf ▸ fresh_lt_alloc
    · exact (h.lt b (hblocks hbf ▸ hb)).trans fresh_lt_alloc
  · rw [hblocks (Nat.ne_of_lt (h.lt b (h.kept b hb)))]
    exact h.kept b hb

theorem Mem.Bounded.fresh (h : mem.Bounded S) : mem.blocks mem.fresh = none := by
  by_contra hne
  exact Nat.lt_irrefl _ (h.lt _ hne)

theorem held_alloc (h : mem.Bounded S) {size : ℕ} (hl : n.version.locked = false) :
    (mem.alloc size n).held = mem.held := by
  ext b
  simp only [Mem.held, Set.mem_ofPred_eq, node?_alloc]
  by_cases hb : b = mem.fresh
  · subst hb
    simp [hl, Mem.node?, h.fresh]
  · simp [hb]

end Stores

/-! ### Accesses -/

section Accesses

variable {α β : Type} {S : Set Addr} {a p : Addr} {x : Set Addr}

theorem tracks_access {find : Mem → Option α} {f : α → Mem → β × Mem} {Q : β → Set Addr → Prop}
    (h : ∀ mem c, mem.Bounded S → mem.held = x → find mem = some c →
      (f c mem).2.Bounded S ∧ Q (f c mem).1 (f c mem).2.held) :
    machine.Tracks (heldView S) (access find f) x Q := fun mem hb hx =>
  ensures_access fun c hc => h mem c hb hx hc

theorem blind_read {find : Mem → Option α} {g : α → β} :
    machine.Blind (heldView S) (access find fun c mem => (g c, mem)) := fun _ =>
  tracks_access fun _ _ hb hx _ => ⟨hb, hx⟩

/-- A store to a node that leaves its lock bit alone. -/
theorem blind_store {find : Mem → Option α} {f : α → Mem → β × Mem}
    (h : ∀ mem c, find mem = some c → ∃ a m n, mem.node? a = some m ∧
      n.version.locked = m.version.locked ∧ (f c mem).2 = mem.setNode a n) :
    machine.Blind (heldView S) (access find f) := fun _ =>
  tracks_access fun mem c hb hx hc => by
    obtain ⟨a, m, n, hm, hl, heq⟩ := h mem c hc
    rw [heq, held_setNode_same hm hl]
    exact ⟨hb.setNode, hx⟩

theorem blind_assert (on c : Bool) : machine.Blind (heldView S) (check on c) :=
  blind_ite blind_fail blind_ret

theorem blind_onGlobal (f : Global → Option (β × Global)) :
    machine.Blind (heldView S) (onGlobal f) :=
  fun _ _ hb hx => ensures_onGlobal fun _ _ _ => ⟨⟨hb.null, hb.lt, hb.kept⟩, hx⟩

theorem blind_writeVersion {f : NodeVersion → NodeVersion} (h : ∀ v, (f v).locked = v.locked) :
    machine.Blind (heldView S) (writeVersion a f) :=
  blind_store fun _ n hn => ⟨a, n, _, hn, by rw [version_setVersion, h], rfl⟩

theorem blind_setParent : machine.Blind (heldView S) (setParent a p) :=
  blind_store fun _ n hn => ⟨a, n, _, hn, by rw [version_setParent], rfl⟩

theorem blind_writeInternode {f : Internode → Internode}
    (h : ∀ y, (f y).version.locked = y.version.locked) :
      machine.Blind (heldView S) (writeInternode a f) :=
  blind_store fun _ y hy => ⟨a, .internode y, .internode (f y), internode?_eq_some.mp hy, h y, rfl⟩

theorem blind_writeLeaf {f : Leaf → Leaf} (h : ∀ l, (f l).version.locked = l.version.locked) :
    machine.Blind (heldView S) (writeLeaf a f) :=
  blind_store fun _ l hl => ⟨a, .leaf l, .leaf (f l), leaf?_eq_some.mp hl, h l, rfl⟩

theorem blind_retireBlock : machine.Blind (heldView S) (retireBlock a) := fun _ =>
  tracks_access fun _ _ hb hx _ => ⟨hb.retire, (held_congr fun _ => node?_retire).trans hx⟩

theorem blind_retireBag : machine.Blind (heldView S) (retireBag a) := fun _ =>
  tracks_access fun _ _ hb hx _ => ⟨⟨hb.null, hb.lt, hb.kept⟩, hx⟩

theorem blind_markLocked (build : Build) {f : NodeVersion → NodeVersion}
    (h : ∀ v, (f v).locked = v.locked) : machine.Blind (heldView S) (markLocked build a f) :=
  blind_read.bind fun _ => (blind_assert _ _).bind fun _ => blind_writeVersion h

theorem locked_markDeleted_eq (v : NodeVersion) : v.markDeleted.locked = v.locked := by
  rw [NodeVersion.markDeleted_eq, NodeVersion.locked_setFlag _ (by decide),
    NodeVersion.locked_setFlag _ (by decide)]

theorem locked_markMigration (v : NodeVersion) : v.markMigration.locked = v.locked :=
  NodeVersion.locked_setFlag _ (by decide)

theorem blind_makeLayerRoot : machine.Blind (heldView S) (makeLayerRoot a) :=
  blind_setParent.bind fun _ => blind_writeVersion fun _ => NodeVersion.locked_setFlag _ (by decide)

theorem blind_assignCopy {posi : ℕ} {child : Addr} :
    machine.Blind (heldView S) (assignCopy p posi child) :=
  blind_setParent.bind fun _ => blind_writeInternode fun _ => rfl

theorem blind_deallocateLeaf : machine.Blind (heldView S) (deallocateLeaf a) :=
  blind_read.bind fun _ =>
    blind_ite (blind_retireBag.bind fun _ => blind_retireBlock) blind_retireBlock

theorem blind_externalBag (l : Leaf) : machine.Blind (heldView S) (externalBag l) :=
  blind_ite blind_read blind_ret

theorem blind_waitUnchanged (fuel : ℕ) : machine.Blind (heldView S) (waitUnchanged a fuel) := by
  induction fuel with
  | zero => exact blind_diverge
  | succ fuel ih =>
    exact blind_read.bind fun v => (blind_read.bind fun _ => blind_ret).bind fun _ =>
      blind_ite ih blind_ret

end Accesses

/-! ### The list of leaves -/

section Links

variable {S : Set Addr} (n nn : Addr) (fuel : ℕ)

theorem blind_casNext (expected desired : ℕ) :
    machine.Blind (heldView S) (casNext n expected desired) :=
  fun _ => tracks_access fun mem l hb hx hl => by
    have hn := leaf?_eq_some.mp hl
    split
    · have hheld := held_setNode_same (n := .leaf { l with next := desired }) hn rfl
      exact ⟨hb.setNode, hheld.trans hx⟩
    · exact ⟨hb, hx⟩

theorem blind_lockNext : machine.Blind (heldView S) (lockNext n fuel) := by
  induction fuel with
  | zero => exact blind_diverge
  | succ fuel ih =>
    refine blind_read.bind fun l => blind_ite blind_ret ?_
    refine blind_ite ?_ ((blind_casNext n _ _).bind fun _ => blind_ite blind_ret ih)
    exact blind_ret.bind fun _ => blind_ite blind_ret ih

theorem blind_writeNext (next : ℕ) :
    machine.Blind (heldView S) (writeLeaf n fun l => { l with next := next }) :=
      blind_writeLeaf fun _ => rfl

theorem blind_writePrev (prev : Addr) :
    machine.Blind (heldView S) (writeLeaf n fun l => { l with prev := prev }) :=
      blind_writeLeaf fun _ => rfl

theorem blind_setPrevOf (next prev : Addr) : machine.Blind (heldView S) (setPrevOf next prev) :=
  blind_ite (blind_writePrev _ _) blind_ret

theorem blind_lockPrev (mayBeFirst : Bool) :
    machine.Blind (heldView S) (lockPrev n mayBeFirst fuel) := by
  induction fuel with
  | zero => exact blind_diverge
  | succ fuel ih =>
    refine blind_read.bind fun l => blind_ite blind_ret ?_
    exact (blind_casNext l.prev n _).bind fun _ => blind_ite blind_ret ih

theorem blind_changeLink : machine.Blind (heldView S) (changeLink fuel n nn) := by
  refine (blind_lockNext n fuel).bind fun _ => (blind_writeNext _ _).bind fun _ => ?_
  refine (blind_setPrevOf _ _).bind fun _ => (blind_lockPrev n fuel true).bind fun _ => ?_
  exact blind_ite ((blind_writeNext _ _).bind fun _ => blind_writePrev _ _) blind_ret

end Links

/-! ### Locks -/

section Locks

variable {build : Build} {env : Env} {fuel : ℕ} {a b p : Addr} {S x : Set Addr}

theorem tracks_lock : machine.Tracks (heldView S) (lock build fuel a) x fun _ y =>
    a ∉ x ∧ y = insert a x := by
  rintro mem hb rfl v mem' hrun
  cases hn : mem.node? a with
  | none =>
    rw [lock, run_bind, show machine.run (readVersion a) mem = _ from run_access_of_none hn] at hrun
    cases hrun
  | some n =>
    obtain ⟨hlock, rfl, rfl⟩ := ensures_lock fuel hn v mem' hrun
    have hl : n.version.lock.locked = true := flag_setFlag (by decide) _
    refine ⟨hb.setNode, fun ha => ?_, ?_⟩
    · cases hlock.1.symm.trans ((mem_held hn).mp ha)
    · exact (held_setNode hn).trans (if_pos ((congrArg _ (version_setVersion _)).trans hl))

theorem tracks_unlock : machine.Tracks (heldView S) (unlock build a) x fun _ y => y = x \ {a} := by
  rintro mem hb rfl
  refine ensures_unlock.imp fun _ mem' h => ?_
  obtain ⟨n, hn, rfl⟩ := h
  refine ⟨hb.setNode, (held_setNode hn).trans (if_neg ?_)⟩
  rw [version_setVersion, NodeVersion.locked_unlock]
  exact Bool.false_ne_true

theorem tracks_unlockLocked : machine.Tracks (heldView S) (unlockLocked env a) x fun _ y =>
    y = x \ {a} := by
  rintro mem hb rfl
  refine ensures_read.bind fun v mem₁ hv => ?_
  obtain ⟨rfl, n, hn, rfl⟩ := hv
  refine ensures_ite (fun _ => tracks_unlock _ hb rfl) fun hl => ensures_ret.mpr ⟨hb, ?_⟩
  exact (Set.sdiff_singleton_eq_self ((mem_held hn).not.mpr hl)).symm

theorem tracks_masstreeUnlock (hp : a ≠ 0) : machine.Tracks (heldView S) (masstreeUnlock env a) x
    fun _ y => y = x \ {a} :=
  tracks_ite (fun h => absurd h hp) fun _ => tracks_unlockLocked

/-- The parent that `locked_parent` answers has been free. -/
theorem tracks_lockedParent : machine.Tracks (heldView S) (lockedParent build a fuel) x fun p y =>
    (p = 0 ∧ y = x) ∨ (p ≠ 0 ∧ p ∉ x ∧ y = insert p x) := by
  induction fuel with
  | zero => exact tracks_diverge
  | succ fuel ih =>
    refine blind_read.then fun _ => (blind_assert _ _).then fun _ => ?_
    refine blind_read.then fun p => tracks_ite (fun _ => tracks_ret (Or.inl ⟨rfl, rfl⟩))
      fun hp => ?_
    refine tracks_lock.bind fun _ y hy => ?_
    obtain ⟨hpx, rfl⟩ := hy
    refine blind_read.then fun p' => tracks_ite (fun _ => ?_) fun _ => ?_
    · exact blind_read.then fun _ => (blind_assert _ _).then fun _ =>
        tracks_ret (Or.inr ⟨hp, hpx, rfl⟩)
    · refine tracks_unlock.bind fun _ y hy => ?_
      rw [Set.insert_sdiff_self_of_notMem hpx] at hy
      exact hy ▸ ih

/-- A migration that is given up releases its locks. -/
theorem tracks_giveUp (hx : p ≠ 0 → x = {p, a, b}) (hx0 : p = 0 → x = {a, b}) :
    machine.Tracks (heldView S) (giveUp env a b p) x fun q y => q = 0 ∧ y = ∅ := by
  refine tracks_unlock.bind fun _ y hy => tracks_unlock.bind fun _ z hz => ?_
  subst hy hz
  refine tracks_ite (fun hp => ?_) fun hp => ?_
  · refine tracks_unlock.bind fun _ y hy => tracks_ret ⟨rfl, hy.trans ?_⟩
    rw [hx hp]
    ext c
    simp only [Set.mem_sdiff, Set.mem_insert_iff, Set.mem_singleton_iff, Set.mem_empty_iff_false]
    tauto
  · refine tracks_ret ⟨rfl, ?_⟩
    rw [hx0 (not_not.mp hp)]
    ext c
    simp only [Set.mem_sdiff, Set.mem_insert_iff, Set.mem_singleton_iff, Set.mem_empty_iff_false]
    tauto

/-- What is left of the three locks once those of the two nodes have been released. -/
theorem handsOn_of_unlocked
    (h : (p = 0 ∧ x = {a, b}) ∨ (p ≠ 0 ∧ p ∉ ({a, b} : Set Addr) ∧ x = {p, a, b}))
    {y : Set Addr} (hy : y = (x \ {a}) \ {b}) : HandsOn p y := by
  subst hy
  rcases h with ⟨rfl, rfl⟩ | ⟨hp, hpx, rfl⟩
  · refine Or.inl ⟨rfl, ?_⟩
    ext c
    simp only [Set.mem_sdiff, Set.mem_insert_iff, Set.mem_singleton_iff, Set.mem_empty_iff_false]
    tauto
  · refine Or.inr ⟨hp, ?_⟩
    ext c
    simp only [Set.mem_insert_iff, Set.mem_singleton_iff, not_or] at hpx
    simp only [Set.mem_sdiff, Set.mem_insert_iff, Set.mem_singleton_iff]
    constructor
    · tauto
    · rintro rfl
      exact ⟨⟨Or.inl rfl, hpx.1⟩, hpx.2⟩

end Locks

/-! ### The migrations -/

section Migrations

variable {env : Env} {fuel : ℕ} {a new_ p : Addr} {S x : Set Addr} {t : NodeMemType}

/-- What follows once the parent is locked, and how it is given up. -/
theorem tracks_replaceLeaf :
    machine.Tracks (heldView S) (replaceLeaf env fuel a new_) {a, new_} HandsOn := by
  unfold replaceLeaf
  refine tracks_lockedParent.bind fun p y hy => blind_read.then fun v => ?_
  have hgive : machine.Tracks (heldView S) (giveUp env a new_ p) y HandsOn := by
    refine (tracks_giveUp (fun hp => ?_) fun hp => ?_).imp fun q z hz => Or.inl hz
    · exact (hy.resolve_left fun h => hp h.1).2.2
    · exact (hy.resolve_right fun h => h.1 hp).2
  extract_lets jp
  have hrest (invalid : Bool) : machine.Tracks (heldView S) (jp invalid) y HandsOn := by
    refine tracks_ite (fun _ => hgive) fun _ => ?_
    refine blind_read.then fun l => blind_read.then fun z => (blind_assert _ _).then
      fun _ => ?_
    cases z.childPosition (l.ikey0 0) a with
    | none => exact hgive
    | some posi =>
      refine blind_assignCopy.then fun _ => (blind_changeLink a new_ fuel).then fun _ => ?_
      refine (blind_markLocked _ locked_markDeleted_eq).then fun _ => blind_deallocateLeaf.then
        fun _ => ?_
      refine tracks_unlockLocked.bind fun _ y₁ h₁ => tracks_unlockLocked.bind fun _ y₂ h₂ => ?_
      exact tracks_ret (handsOn_of_unlocked hy (h₁ ▸ h₂))
  refine tracks_ite (fun _ => ?_) fun _ => ?_
  · exact hrest true
  · exact blind_read.then fun pv => hrest pv.deleted

theorem tracks_replaceInternode :
    machine.Tracks (heldView S) (replaceInternode env fuel a new_) {a, new_} HandsOn := by
  rw [replaceInternode_eq]
  refine tracks_lockedParent.bind fun p y hy => blind_read.then fun v => ?_
  have hgive {b c : Addr} (hbc : ({b, c} : Set Addr) = {a, new_}) :
      machine.Tracks (heldView S) (giveUp env b c p) y HandsOn := by
    refine (tracks_giveUp (fun hp => ?_) fun hp => ?_).imp fun q z hz => Or.inl hz
    · exact (hy.resolve_left fun h => hp h.1).2.2.trans (hbc ▸ rfl)
    · exact (hy.resolve_right fun h => h.1 hp).2.trans hbc.symm
  have hinvalid : machine.Blind (heldView S) (parentInvalid p v) :=
    blind_ite blind_ret (blind_read.bind fun _ => blind_ret)
  have hhang : machine.Blind (heldView S) (hangCopy env a new_ p) := by
    refine blind_ite (blind_makeLayerRoot.bind fun _ => blind_ret) ?_
    refine blind_read.bind fun o => blind_read.bind fun z => (blind_assert _ _).bind
      fun _ => ?_
    cases z.childPosition (o.ikey0 0) a with
    | none => exact blind_ret
    | some posi => exact blind_assignCopy.bind fun _ => blind_ret
  refine hinvalid.then fun invalid => tracks_ite (fun _ => hgive (Set.pair_comm _ _)) fun _ => ?_
  refine hhang.then fun posi => ?_
  cases posi with
  | none => exact hgive rfl
  | some _ =>
    refine blind_read.then fun o => (blind_forRange _ _ fun _ => blind_setParent).then fun _ => ?_
    refine (blind_markLocked _ locked_markDeleted_eq).then fun _ => blind_retireBlock.then
      fun _ => ?_
    refine tracks_unlock.bind fun _ y₁ h₁ => tracks_unlock.bind fun _ y₂ h₂ => ?_
    exact tracks_ret (handsOn_of_unlocked hy (h₁ ▸ h₂))

theorem blind_updateLocalMemoryUsage {depth size : ℕ} {isMigration isLeaf : Bool} :
    machine.Blind (heldView S) (updateLocalMemoryUsage env t depth size isMigration isLeaf) :=
  blind_onGlobal _

/-- A new node is not locked. -/
theorem blind_poolAllocate {size : ℕ} {n : Node} (hl : n.version.locked = false) :
    machine.Blind (heldView S) (poolAllocate size n) := fun _ =>
  tracks_access fun _ _ hb hx _ => ⟨hb.alloc, (held_alloc hb hl).trans hx⟩

/-- A version word that a constructor has made is not locked. -/
theorem locked_make (isleaf : Bool) : (NodeVersion.make isleaf).locked = false := by
  cases isleaf <;> decide

theorem blind_makeLeaf {ksufsize depth accessTime : ℕ} :
    machine.Blind (heldView S) (makeLeaf env ksufsize depth t accessTime true) :=
  (blind_poolAllocate (n := .leaf (Leaf.make _ t depth accessTime)) (locked_make true)).bind
    fun _ => blind_updateLocalMemoryUsage.bind fun _ => blind_ret

theorem blind_makeInternode {height depth : ℕ} :
    machine.Blind (heldView S) (makeInternode env height depth t true) :=
  (blind_poolAllocate (n := .internode (Internode.make height t depth)) (locked_make false)).bind
    fun _ => blind_updateLocalMemoryUsage.bind fun _ => blind_ret

/-- The copy of a locked leaf is locked. -/
theorem tracks_memcpyLeaf (ha : a ∈ x) :
    machine.Tracks (heldView S) (memcpyLeaf new_ a) x fun _ y =>
    y = insert new_ x := by
  rintro mem hb rfl
  refine ensures_read.bind fun l mem₁ hl => ?_
  obtain ⟨rfl, l', hl, rfl⟩ := hl
  refine ensures_access fun r hr =>
    ⟨hb.setNode, (held_setNode (leaf?_eq_some.mp hr)).trans (if_pos ?_)⟩
  exact (mem_held (leaf?_eq_some.mp hl)).mp ha

/-- The copy of a locked internode is locked. -/
theorem tracks_copyInternode {o : Internode} (ha : a ∈ x) :
    machine.Tracks (heldView S) (copyInternode env a o t) x fun new_ y => y = insert new_ x := by
  refine blind_makeInternode.then fun new_ => ?_
  have hcopy : machine.Tracks (heldView S) (do
      let o ← readInternode a
      writeInternode new_ fun _ => o) x fun _ y => y = insert new_ x := by
    rintro mem hb rfl
    refine ensures_read.bind fun o mem₁ ho => ?_
    obtain ⟨rfl, o', ho, rfl⟩ := ho
    refine ensures_access fun r hr =>
      ⟨hb.setNode, (held_setNode (internode?_eq_some.mp hr)).trans (if_pos ?_)⟩
    exact (mem_held (internode?_eq_some.mp ho)).mp ha
  have hrest : machine.Tracks (heldView S) (do
      let o ← readInternode a
      writeInternode new_ fun _ => o
      writeInternode new_ fun y => { y with sidleMeta := { y.sidleMeta with type := t } }
      writeVersion a NodeVersion.markMigration
      pure new_ : MtM Addr) x fun b y => y = insert b x := by
    rw [← bind_assoc']
    refine hcopy.bind fun _ y hy => ?_
    have htype : machine.Blind (heldView S) (writeInternode new_ fun y =>
        { y with sidleMeta := { y.sidleMeta with type := t } }) := blind_writeInternode fun _ => rfl
    refine htype.then fun _ => ?_
    exact (blind_writeVersion locked_markMigration).then fun _ => tracks_ret hy
  exact hrest

/-- **The migration of a leaf** locks the parent, or nothing. -/
theorem tracks_leafMigration (parent : Addr) :
    machine.Tracks (heldView S) (leafMigration env fuel a parent t) ∅ HandsOn := by
  have hnone : machine.Tracks (heldView S) (pure 0 : MtM Addr) ∅ HandsOn :=
    tracks_ret (Or.inl ⟨rfl, rfl⟩)
  refine tracks_ite (fun _ => hnone) fun _ => ?_
  refine blind_read.then fun v => blind_read.then fun l => tracks_ite (fun _ => hnone) fun _ => ?_
  refine blind_read.then fun v => tracks_ite (fun _ => hnone) fun _ => ?_
  refine (blind_waitUnchanged fuel).then fun _ => blind_read.then fun l => ?_
  refine (blind_externalBag l).then fun b => blind_makeLeaf.then fun new_ => ?_
  refine tracks_lock.bind fun _ y hy => ?_
  obtain ⟨-, rfl⟩ := hy
  refine (tracks_memcpyLeaf (Set.mem_insert a _)).bind fun _ y hy => ?_
  have htype : machine.Blind (heldView S) (writeLeaf new_ fun r =>
      { r with metadata := { r.metadata with type := t } }) := blind_writeLeaf fun _ => rfl
  refine htype.then fun _ => ?_
  refine (blind_writeVersion locked_markMigration).then fun _ => ?_
  rw [hy, insert_empty_eq, Set.pair_comm]
  exact tracks_replaceLeaf

/-- **The migration of an internode** passes the lock of the node on to the parent. -/
theorem tracks_internodeMigration (isNew : Bool) :
    machine.Tracks (heldView S) (internodeMigration env fuel a t isNew) (if isNew then ∅ else {a})
      HandsOn := by
  have hlocked : machine.Tracks (heldView S) (internodeMigration env fuel a t false) {a}
      HandsOn := by
    rw [internodeMigration_eq]
    refine blind_read.then fun v => (blind_assert _ _).then fun _ => blind_read.then
      fun o => ?_
    refine tracks_ite (fun _ => ?_) fun _ => ?_
    · refine tracks_unlock.bind fun _ y hy => tracks_ret (Or.inl ⟨rfl, hy.trans ?_⟩)
      exact Set.sdiff_self
    · refine (blind_assert _ _).then fun _ => ?_
      refine (tracks_copyInternode (Set.mem_singleton a)).bind fun new_ y hy => ?_
      rw [hy, Set.pair_comm]
      exact tracks_replaceInternode
  cases isNew with
  | false => exact hlocked
  | true =>
    rw [internodeMigration_isNew]
    refine tracks_lock.bind fun _ y hy => ?_
    rw [hy.2, if_pos rfl, insert_empty_eq]
    exact hlocked

end Migrations

/-! ### The executors -/

section Executors

variable {env : Env} {fuel : ℕ} {a p : Addr} {S : Set Addr} {t : NodeMemType}

theorem blind_isLocalChild (child : Addr) :
    machine.Blind (heldView S) (isLocalChild (masstreeOps env fuel) child) := by
  have hleaf : machine.Blind (heldView S) ((masstreeOps env fuel).isLeaf child) :=
    blind_ite blind_ret (blind_read.bind fun _ => blind_ret)
  refine hleaf.bind fun _ => blind_ite ?_ ?_
  · exact (blind_read.bind fun _ => blind_ret).bind fun _ => blind_ret
  · exact (blind_read.bind fun _ => blind_ret).bind fun _ => blind_ret

theorem blind_visitChildren {z : Internode} {cb : Addr → MtM Bool}
    (hcb : ∀ c, machine.Blind (heldView S) (cb c)) (n i : ℕ) :
    machine.Blind (heldView S) (visitChildren z cb n i) := by
  induction n generalizing i with
  | zero => exact blind_ret
  | succ n ih => exact (hcb (z.child i)).bind fun _ => blind_ite (ih (i + 1)) blind_ret

theorem blind_needContinueMigrate (k : ℕ) :
    machine.Blind (heldView S) (needContinueMigrate (masstreeOps env fuel) a t k) := by
  have hmeta : machine.Blind (heldView S) ((masstreeOps env fuel).nodeMetadata a) :=
    blind_read.bind fun _ => blind_ret
  refine blind_ite blind_ret ?_
  cases t with
  | remote =>
    have hthreshold : machine.Blind (heldView S)
        ((masstreeOps env fuel).getDemotionDepthThreshold) :=
      blind_onGlobal fun g => some (g.threshold.demotionDepthThreshold, g)
    refine hmeta.bind fun _ => hthreshold.bind fun _ => hmeta.bind fun _ => ?_
    refine blind_ite blind_ret (Blind.bind ?_ fun _ => blind_ret)
    exact blind_read.bind fun z =>
      blind_visitChildren (fun c => (blind_isLocalChild c).bind fun _ => blind_ret) _ _
  | local_ => exact hmeta.bind fun _ => blind_ret
  | unknown => exact blind_ret
  | debug => exact blind_ret

theorem blind_addDelayed (node : Addr) :
    machine.Blind (heldView S) (addDelayed (masstreeOps env fuel) node) :=
  have hadd : machine.Blind (heldView S) (access some fun _ mem =>
      ((), { mem with demotionQueue := mem.demotionQueue ++ [node] })) := fun _ =>
    tracks_access fun _ _ hb hx _ => ⟨⟨hb.null, hb.lt, hb.kept⟩, hx⟩
  blind_ite blind_ret hadd

theorem blind_sidleCheck (b : Bool) :
    machine.Blind (heldView S) ((masstreeOps env fuel).sidleCheck b) :=
  blind_ite blind_fail blind_ret

/-- The lock of the parent that a migration has handed on is released. -/
theorem tracks_unlock_parent (hp : p ≠ 0) {y : Set Addr} (hy : y = ∅ ∨ y = {p}) :
    machine.Tracks (heldView S) (masstreeUnlock env p) y fun _ z => z = ∅ := by
  refine (tracks_masstreeUnlock hp).imp fun _ z hz => hz.trans ?_
  rcases hy with rfl | rfl
  · exact Set.empty_sdiff _
  · exact Set.sdiff_self

/-- What the end of a round of a climb does to the lock of the parent, where the rest of the climb
releases it. -/
theorem tracks_continueWith_of {migrate : MtM Unit} (s : MigrationState)
    (h : machine.Tracks (heldView S) migrate {p} fun _ y => y = ∅) :
    machine.Tracks (heldView S) (continueWith (masstreeOps env fuel) p t migrate s) {p}
      fun _ y => y = ∅ ∨ y = {p} := by
  cases s with
  | proceed => exact h.imp fun _ _ h => Or.inl h
  | stop => exact tracks_ret (Or.inr rfl)
  | delay =>
    exact (((blind_sidleCheck _).bind fun _ => blind_addDelayed p) _).imp fun _ _ h => Or.inr h

/-- **A climb releases its locks**, whatever it meets on its way.  The induction is on its length;
between two nodes the lock of the upper one is held. -/
theorem tracks_migrateInternode (ti : Addr) (steps k : ℕ) :
    machine.Tracks (heldView S) (migrateInternode (masstreeOps env fuel) steps a t ti k)
      (if (k == 0 && t == .remote) = true then ∅ else {a}) fun _ y => y = ∅ := by
  induction steps generalizing a k with
  | zero => exact tracks_diverge
  | succ steps ih =>
    refine (blind_sidleCheck _).then fun _ => ?_
    have hmove (isNew : Bool) : machine.Tracks (heldView S) (do
        let parent ← (masstreeOps env fuel).internodeMigration a t isNew
        if parent = 0 then pure ()
        else do
          let state ← needContinueMigrate (masstreeOps env fuel) parent t (k + 1)
          continueWith (masstreeOps env fuel) parent t
            (migrateInternode (masstreeOps env fuel) steps parent t ti (k + 1)) state
          (masstreeOps env fuel).unlock parent) (if isNew = true then ∅ else {a})
            fun _ y => y = ∅ := by
      refine (tracks_internodeMigration isNew).bind fun p y hy => ?_
      refine tracks_ite (fun hp => ?_) fun hp => ?_
      · exact tracks_ret (hy.resolve_right fun h => h.1 hp).2
      · obtain rfl := (hy.resolve_left fun h => hp h.1).2
        refine (blind_needContinueMigrate (k + 1)).then fun state => ?_
        have hnext := ih (a := p) (k + 1)
        rw [if_neg (by simp)] at hnext
        exact (tracks_continueWith_of state hnext).bind fun _ y hy => tracks_unlock_parent hp hy
    cases hnew : (k == 0 && t == .remote) with
    | false => exact (hmove false)
    | true =>
      refine ((blind_needContinueMigrate k).bind fun _ => blind_ret).then fun stopped => ?_
      exact tracks_ite (fun _ => tracks_ret rfl) fun _ => hmove true

/-- The climb goes on or does not, and then its lock is still held. -/
theorem tracks_continueWith (ti : Addr) (steps k : ℕ) (s : MigrationState) :
    machine.Tracks (heldView S) (continueWith (masstreeOps env fuel) p t
      (migrateInternode (masstreeOps env fuel) steps p t ti (k + 1)) s) {p}
      fun _ y => y = ∅ ∨ y = {p} := by
  have hnext : machine.Tracks (heldView S)
    (migrateInternode (masstreeOps env fuel) steps p t ti (k + 1))
      (if (k + 1 == 0 && t == .remote) = true then ∅ else {p}) fun _ y => y = ∅ :=
    tracks_migrateInternode ti steps (k + 1)
  rw [if_neg (by simp)] at hnext
  exact tracks_continueWith_of s hnext

theorem tracks_migrateLeaf (parent ti : Addr) :
    machine.Tracks (heldView S) (migrateLeaf (masstreeOps env fuel) fuel a parent t ti) ∅
      fun _ y => y = ∅ := by
  refine (tracks_leafMigration parent).bind fun p y hy => ?_
  refine tracks_ite (fun hp => tracks_ret (hy.resolve_right fun h => h.1 hp).2) fun hp => ?_
  obtain rfl := (hy.resolve_left fun h => hp h.1).2
  have hclimb : machine.Tracks (heldView S)
    (migrateInternode (masstreeOps env fuel) fuel p t ti 1) {p}
      fun _ y => y = ∅ := tracks_migrateInternode ti fuel 1
  refine tracks_ite (fun _ => (blind_needContinueMigrate 1).then fun s => ?_) fun _ => hclimb
  refine tracks_ite (fun _ => hclimb) fun _ => ?_
  have hunlock : machine.Tracks (heldView S) (masstreeUnlock env p) {p} fun _ z => z = ∅ :=
    tracks_unlock_parent hp (Or.inr rfl)
  exact tracks_ite (fun _ => (blind_addDelayed p).then fun _ => hunlock) fun _ => hunlock

/-- **A task that returns has released its locks.** -/
theorem tracks_task (task : MigrationTask) :
    machine.Tracks (heldView S) (task.run env fuel) ∅ fun _ y => y = ∅ := by
  cases task with
  | promoteLeaf leaf parent ti => exact tracks_migrateLeaf parent ti
  | demoteLeaf leaf parent ti => exact tracks_migrateLeaf parent ti
  | demoteInternode node ti => exact tracks_migrateInternode ti fuel 0

end Executors

end Sidle.Masstree
