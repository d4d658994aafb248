import Sidle.Art.Sequence
import Sidle.Art.Traverse

/-!
# Leaf migration

`alloc_leaf` tags a leaf by `make_leaf` of the address behind its first byte, and
`leaf_migration` looks for `make_leaf` of the address itself, which is another pointer.  The
search fails, so the copy is never linked: a migration locks the parent, allocates a leaf
and leaves the tree as it was.

## Main definitions

* `ProperNode` — a node whose child pointers lead to blocks.
* `LeafMigrated` — what a leaf migration is for.

## Main results

* `run_leafMigration` — what a leaf migration does.
* `leaf_migration_iff` — **a leaf migration that returns has no effect**.
-/

namespace Sidle.Art

open Prog Machine Outcome

variable {L : ℕ} {env : Env} {s s' : Mem} {P n : Addr} {nd : ArtNode} {l : LeafNode}
  {t : NodeMemType}

/-- An internal node of the memory whose child pointers lead to leaves and nodes. -/
structure ProperNode (env : Env) (s : Mem) (P : Addr) (nd : ArtNode) : Prop where
  fresh : s.Fresh env
  node : s.node? P = some nd
  ok : nd.Ok
  child : ∀ b p, nd.childAt b = some p →
    (∃ a l, s.leaf? a = some l ∧ p = makeLeaf (a + 1)) ∨ ∃ m, s.node? p = some m

/-- The nodes of a tree are proper. -/
theorem Represents.properNode {tr : Tree L} (h : Represents env s tr) (hP : tr.live P)
    (hnd : s.node? P = some nd) : ProperNode env s P nd := by
  obtain ⟨nd', hnd', hrep⟩ := h.node P hP
  obtain rfl : nd = nd' := by simpa [hnd] using hnd'
  refine ⟨h.fresh, hnd, hrep.ok, fun b p hp => ?_⟩
  obtain ⟨r, hr, href⟩ := edge_of_childAt hrep hp
  cases r with
  | leaf k =>
    obtain ⟨a, l, rfl, hl, -⟩ := href.of_leaf
    obtain ⟨i, -, rfl⟩ := h.fresh.exists_addr_of_leaf? hl
    exact Or.inl ⟨_, l, hl, (makeLeaf_succ (env.addr_aligned i)).symm⟩
  | node c =>
    obtain rfl : p = c := href
    obtain ⟨m, hm, -⟩ := h.node p (tr.edge_node P b p hP hr)
    exact Or.inr ⟨m, hm⟩

/-- The reachable nodes of a tree that insertions have built are proper. -/
theorem PutRun.properNode (hb : env.build.assertions = true) (hL : L ≤ 8) {ks : List (Key × ℤ)}
    (h : PutRun env L ks s) (hP : Reachable s P) (hnd : s.node? P = some nd) :
    ProperNode env s P nd := by
  obtain ⟨tr, hrep, -⟩ := h.represents hb hL
  exact hrep.properNode ((hrep.reachable_iff P).mp hP) hnd

/-! ### The pointer that is searched -/

/-- `make_leaf` on an aligned address is the odd number below it. -/
theorem makeLeaf_of_aligned {a : ℕ} (h : 8 ∣ a) (h0 : 0 < a) : makeLeaf a = a - 1 := by
  simp only [makeLeaf]
  refine Nat.eq_of_testBit_eq fun i => ?_
  rw [Nat.testBit_or]
  cases i with
  | zero =>
    have : (a - 1) % 2 = 1 := by omega
    simp [Nat.testBit_zero, this]
  | succ i => simp [Nat.testBit_succ]

/-- The pointer that `leaf_migration` searches is no child pointer. -/
theorem ProperNode.childAt_ne_makeLeaf (h : ProperNode env s P nd) (hl : s.leaf? n = some l)
    (b : UInt8) : nd.childAt b ≠ some (makeLeaf n) := by
  obtain ⟨i, -, hi⟩ := h.fresh.exists_addr_of_leaf? hl
  obtain ⟨c, hc⟩ : ∃ c : ℕ, (n : ℕ) = 8 * c := hi ▸ env.addr_aligned i
  have hpos : 0 < (n : ℕ) := hi ▸ env.addr_pos i
  have hodd : makeLeaf n = 8 * c - 1 := by
    rw [← hc]
    exact makeLeaf_of_aligned ⟨c, hc⟩ hpos
  rw [hc] at hpos
  intro hp
  rw [hodd] at hp
  rcases h.child b _ hp with ⟨a, l', hl', ha⟩ | ⟨m, hm⟩
  · obtain ⟨j, -, hj⟩ := h.fresh.exists_addr_of_leaf? hl'
    obtain ⟨d, hd⟩ : 8 ∣ (a : ℕ) := hj ▸ env.addr_aligned j
    rw [makeLeaf_succ ⟨d, hd⟩, hd] at ha
    have ha' : (8 * c - 1 : ℕ) = 8 * d + 1 := ha
    omega
  · obtain ⟨j, -, hj⟩ := h.fresh.exists_addr_of_node? hm
    obtain ⟨d, hd⟩ : ∃ d : ℕ, (env.addr j : ℕ) = 8 * d := env.addr_aligned j
    have hne : ∀ c d : ℕ, 0 < 8 * c → 8 * d ≠ 8 * c - 1 := by omega
    exact hne c d hpos (hd.symm.trans hj)

/-! ### What a leaf migration does -/

/-- The state shared with the workers after the copy of a leaf has been accounted for; `none`
when the check on the usage fails. -/
def Mem.accounted (env : Env) (s : Mem) (parent : Addr) (targetType : NodeMemType) (len : ℕ) :
    Option Global :=
  s.global.updateLocalMemoryUsage env.build.sidleCheck env.checkMemoryUsage
    (s.newType parent targetType) (s.childDepth parent) (4 + len) true true

/-- The copy that a migration makes of a leaf. -/
def LeafNode.migrated (l : LeafNode) (targetType : NodeMemType) : LeafNode :=
  ⟨UInt8.ofNat l.key.length, { l.metadata with type := targetType }, l.accessTime % 2 ^ 16, l.key⟩

theorem Mem.accounted_lockNode (hP : s.node? P = some nd) (len : ℕ) :
    (s.lockNode P).accounted env P t len = s.accounted env P t len := by
  have hP' : (s.lockNode P).node? P = some (nd.setVersion (setLock nd.version)) := by
    rw [Mem.lockNode, hP]
    exact Mem.node?_setNode_self ..
  simp only [Mem.accounted, Mem.newType, Mem.childDepth, hP, hP', Mem.global_lockNode]
  rfl

/-- What a leaf migration does with a leaf that has the bytes its length promises: those are
copied. -/
theorem run_leafMigration_of_le (h : ProperNode env s P nd) (hlk : isLocked nd.version = false)
    (hold : isOld nd.version = false) (hl : s.leaf? n = some l)
    (hlen : l.keyLength.toNat ≤ l.key.length) (ht : l.metadata.type ≠ t) (fuel : ℕ) :
    env.machine.run (leafMigration env (fuel + 1) n P t) s =
      match s.accounted env P t (l.key.take l.keyLength.toNat).length with
      | some g => done P ((s.lockNode P).withLeaf env (l.key.take l.keyLength.toNat).length
          (LeafNode.migrated { l with key := l.key.take l.keyLength.toNat } t) g)
      | none => fault .thrown := by
  let key := l.key.take l.keyLength.toNat
  have hn0 : n ≠ 0 := by
    obtain ⟨i, -, rfl⟩ := h.fresh.exists_addr_of_leaf? hl
    exact Nat.ne_of_gt (env.addr_pos i)
  have hP0 := h.fresh.ne_zero_of_node? h.node
  have hPn : n ≠ P := (Mem.ne_of_node?_of_leaf? h.node hl).symm
  let nd₁ := nd.setVersion (setLock nd.version)
  let s₁ := s.lockNode P
  have hs₁ : s₁ = s.setNode P nd₁ := by simp only [s₁, Mem.lockNode, h.node]; rfl
  have hP₁ : s₁.node? P = some nd₁ := hs₁ ▸ Mem.node?_setNode_self ..
  have hl₁ : s₁.leaf? n = some l := by rw [hs₁, Mem.leaf?_setNode_of_ne _ _ hPn, hl]
  have hfresh₁ : s₁.Fresh env := h.fresh.lockNode P
  have hbytes : env.machine.run (leafBytes n) s₁ = done key s₁ := by
    refine (env.machine.run_bind_of_done (run_loadLeaf (f := .keyLength) hl₁ trivial)).trans ?_
    refine (env.machine.run_bind_of_done (run_loadLeaf (f := .keys) hl₁ trivial)).trans ?_
    exact congrArg (fun p => env.machine.run p s₁) (if_pos hlen)
  unfold leafMigration
  rw [if_neg hn0]
  refine (env.machine.run_bind_of_done (run_loadLeaf (f := .metadata) hl trivial)).trans ?_
  rw [if_neg (by simpa [LeafField.get] using ht), if_neg hP0]
  refine (env.machine.run_bind_of_done (run_artNodeGetVersion h.node)).trans ?_
  rw [if_neg (by simp [hlk, hold])]
  refine (env.machine.run_bind_of_done (run_artNodeLock h.node hlk hold fuel)).trans ?_
  rw [if_neg (by simp), show s.setNode P (nd.setVersion (setLock nd.version)) = s₁ from hs₁.symm]
  refine (env.machine.run_bind_of_done hbytes).trans ?_
  rw [← Mem.accounted_lockNode h.node]
  have hpar : s₁.NullOrNode P := hfresh₁.nullOrNode_of_node? hP₁
  cases hacc : s₁.accounted env P t key.length with
  | none =>
    -- the check on the usage fails
    have hfault : env.machine.run (allocLeaf env P key t true) s₁ = fault .thrown := by
      refine (run_allocLeaf_header env hpar key t true).trans ?_
      rw [env.machine.run_bind]
      have : env.machine.run (accountAlloc env (s₁.newType P t) (s₁.childDepth P)
          (4 + key.length) true true) (s₁.leafHeader env P key.length t) = fault .thrown := by
        unfold accountAlloc
        rw [if_pos (Bool.or_true _)]
        refine env.machine.run_op_error ?_
        have hacc' : (s₁.leafHeader env P key.length t).global.updateLocalMemoryUsage
            env.build.sidleCheck env.checkMemoryUsage (s₁.newType P t) (s₁.childDepth P)
            (4 + key.length) true true = none := hacc
        simp [Env.machine, Env.exec, hacc']
      rw [this]
      rfl
    rw [env.machine.run_bind, hfault]
    rfl
  | some g =>
    have hg : env.machine.run (accountAlloc env (s₁.newType P t) (s₁.childDepth P)
        (4 + key.length) true true) (s₁.leafHeader env P key.length t) =
        done () ((s₁.leafHeader env P key.length t).setGlobal g) := by
      unfold accountAlloc
      rw [if_pos (Bool.or_true _)]
      refine run_onGlobal ?_
      have hacc' : (s₁.leafHeader env P key.length t).global.updateLocalMemoryUsage
          env.build.sidleCheck env.checkMemoryUsage (s₁.newType P t) (s₁.childDepth P)
          (4 + key.length) true true = some g := hacc
      simp [hacc']
    have halloc := run_allocLeaf_of_account env hpar key t hg
    let a := env.addr s₁.allocated
    have ha : getLeaf (a + 1) = a := getLeaf_succ (env.addr_aligned _)
    have hna : n ≠ a := hfresh₁.ne_of_leaf? hl₁
    have hl₂ (l' : LeafNode) : (s₁.withLeaf env key.length l' g).leaf? n = some l := by
      rw [Mem.leaf?_congr (Mem.heap_withLeaf_of_ne hna), hl₁]
    have hself (l' : LeafNode) : (s₁.withLeaf env key.length l' g).leaf? a = some l' :=
      Mem.leaf?_withLeaf_self _ l' g
    have hP₂ : (s₁.withLeaf env key.length (LeafNode.migrated { l with key := key } t) g).node? P =
        some nd₁ := by
      rw [Mem.node?_congr (Mem.heap_withLeaf_of_ne (hfresh₁.ne_of_node? hP₁)), hP₁]
    have hok₁ : nd₁.Ok := (lockedNode nd).ok h.ok
    have habs : ∀ b, nd₁.childAt b ≠ some (makeLeaf n) := by
      intro b hb
      exact h.childAt_ne_makeLeaf hl b (((lockedNode nd).childAt b).symm.trans hb)
    have hm0 : makeLeaf n ≠ 0 := by
      unfold makeLeaf
      exact Nat.ne_of_gt (Nat.lt_of_lt_of_le Nat.one_pos Nat.right_le_or)
    have hreplace := @run_replaceOldChildPtr_absent env _ _ _ hP₂ hok₁ hP0 _ (a + 1) hm0 habs
    refine (env.machine.run_bind_of_done halloc).trans ?_
    rw [ha]
    refine (env.machine.run_bind_of_done (run_loadLeaf (f := .metadata) (hl₂ _) trivial)).trans ?_
    refine (env.machine.run_bind_of_done (run_loadLeaf (f := .accessTime) (hl₂ _) trivial)).trans ?_
    refine (env.machine.run_bind_of_done
      (run_storeLeaf (f := .metadata) (hself _) trivial)).trans ?_
    rw [Mem.setLeaf_withLeaf]
    refine (env.machine.run_bind_of_done
      (run_storeLeaf (f := .accessTime) (hself _) trivial)).trans ?_
    rw [Mem.setLeaf_withLeaf]
    refine (env.machine.run_bind_of_done (run_loadLeaf (f := .metadata) (hself _) trivial)).trans ?_
    refine (env.machine.run_bind_of_done
      (run_storeLeaf (f := .metadata) (hself _) trivial)).trans ?_
    rw [Mem.setLeaf_withLeaf]
    exact env.machine.run_bind_of_done hreplace

/-- **What a leaf migration does**: the parent is locked, a copy of the leaf is allocated, and
no child pointer changes; or the check on the usage fails. -/
theorem run_leafMigration (h : ProperNode env s P nd) (hlk : isLocked nd.version = false)
    (hold : isOld nd.version = false) (hl : s.leaf? n = some l)
    (hlen : l.keyLength.toNat = l.key.length) (ht : l.metadata.type ≠ t) (fuel : ℕ) :
    env.machine.run (leafMigration env (fuel + 1) n P t) s =
      match s.accounted env P t l.key.length with
      | some g => done P ((s.lockNode P).withLeaf env l.key.length (l.migrated t) g)
      | none => fault .thrown := by
  have htake : l.key.take l.keyLength.toNat = l.key := by rw [hlen, List.take_length]
  have hrun := run_leafMigration_of_le h hlk hold hl (Nat.le_of_eq hlen) ht fuel
  rwa [htake] at hrun

/-! ### What a leaf migration is for -/

/-- A lookup of `key` finds a leaf. -/
def Finds (env : Env) (s : Mem) (key : Key) : Prop :=
  ∃ a s', env.machine.Converges (adaptiveRadixTreeGet key) s (.found a) s'

/-- The leaf `l` below `P` at the byte `b` has been moved to memory of the type `t`: the slot
holds a leaf with the same key, depth and access time, and nothing else has changed. -/
structure LeafMigrated (env : Env) (s s' : Mem) (P : Addr) (b : UInt8) (l : LeafNode)
    (t : NodeMemType) : Prop where
  slot : ∃ nd' a l', s'.node? P = some nd' ∧ nd'.childAt b = some (makeLeaf (a + 1)) ∧
    s'.leaf? a = some l' ∧ l'.key = l.key ∧ l'.metadata.depth = l.metadata.depth ∧
    l'.accessTime = l.accessTime ∧ l'.metadata.type = t
  other : ∀ m nd, s.node? m = some nd → ∃ nd', s'.node? m = some nd' ∧
    ∀ c, m ≠ P ∨ c ≠ b → nd'.childAt c = nd.childAt c
  lookup : ∀ key, Finds env s' key ↔ Finds env s key

/-- A slot that still holds the old leaf has not been migrated. -/
theorem not_leafMigrated (hs' : s'.Fresh env) {nd' : ArtNode} (hP : s'.node? P = some nd')
    {b : UInt8} (hb : nd'.childAt b = some (makeLeaf (n + 1))) (hl : s'.leaf? n = some l)
    (ht : l.metadata.type ≠ t) : ¬ LeafMigrated env s s' P b l t := by
  intro h
  obtain ⟨nd₂, a, l', hnd₂, hb₂, hl', -, -, -, htype⟩ := h.slot
  obtain rfl : nd' = nd₂ := by simpa [hP] using hnd₂
  obtain ⟨i, -, hi⟩ := hs'.exists_addr_of_leaf? hl
  obtain ⟨j, -, hj⟩ := hs'.exists_addr_of_leaf? hl'
  have hna : n = a := by
    rw [hb, makeLeaf_succ (hi ▸ env.addr_aligned i), makeLeaf_succ (hj ▸ env.addr_aligned j),
      Option.some.injEq] at hb₂
    exact Nat.succ_injective hb₂
  subst hna
  obtain rfl : l = l' := by simpa [hl] using hl'
  exact ht htype

theorem leafMigration_le_succ (env : Env) (curNode parent : Addr) (targetType : NodeMemType)
    (fuel : ℕ) : leafMigration env fuel curNode parent targetType ≤
      leafMigration env (fuel + 1) curNode parent targetType := by
  refine ite_mono (le_refl _) (bind_mono (le_refl _) fun m => ?_)
  refine ite_mono (le_refl _) (ite_mono (le_refl _) (bind_mono (le_refl _) fun pv => ?_))
  exact ite_mono (le_refl _) (bind_mono (artNodeLock_le_succ parent fuel) fun r => le_refl _)

/-- After a leaf migration the slot and the leaf are as they were. -/
theorem leafMigration_keeps (h : ProperNode env s P nd) (hlk : isLocked nd.version = false)
    (hold : isOld nd.version = false) (hl : s.leaf? n = some l)
    (hlen : l.keyLength.toNat = l.key.length) (ht : l.metadata.type ≠ t) {g : Global}
    (hg : s.accounted env P t l.key.length = some g) :
    ∃ s', env.machine.Converges (fun fuel => leafMigration env fuel n P t) s P s' ∧
      s'.Fresh env ∧ s'.node? P = some (nd.setVersion (setLock nd.version)) ∧
      s'.leaf? n = some l := by
  have hPn : n ≠ P := (Mem.ne_of_node?_of_leaf? h.node hl).symm
  have hlock : s.lockNode P = s.setNode P (nd.setVersion (setLock nd.version)) := by
    simp only [Mem.lockNode, h.node]
  have hfresh : (s.lockNode P).Fresh env := h.fresh.lockNode P
  have hP₁ : (s.lockNode P).node? P = some (nd.setVersion (setLock nd.version)) :=
    hlock ▸ Mem.node?_setNode_self ..
  have hl₁ : (s.lockNode P).leaf? n = some l := by
    rw [hlock, Mem.leaf?_setNode_of_ne _ _ hPn, hl]
  refine ⟨_, ⟨1, (run_leafMigration h hlk hold hl hlen ht 0).trans (by rw [hg])⟩,
    hfresh.withLeaf _ _ _, ?_, ?_⟩
  · rw [Mem.node?_congr (Mem.heap_withLeaf_of_ne (hfresh.ne_of_node? hP₁)), hP₁]
  · rw [Mem.leaf?_congr (Mem.heap_withLeaf_of_ne (hfresh.ne_of_leaf? hl₁)), hl₁]

/-- **A leaf migration that returns has no effect.**  For a leaf below an unlocked node that is
not old, and any type but its own, the migration meets its purpose whenever it returns the
parent only when it never returns it, because the check on the memory usage fails. -/
theorem leaf_migration_iff (h : ProperNode env s P nd) (hlk : isLocked nd.version = false)
    (hold : isOld nd.version = false) {b : UInt8} (hb : nd.childAt b = some (makeLeaf (n + 1)))
    (hl : s.leaf? n = some l) (hlen : l.keyLength.toNat = l.key.length) (ht : l.metadata.type ≠ t) :
    (∀ s', env.machine.Converges (fun fuel => leafMigration env fuel n P t) s P s' →
      LeafMigrated env s s' P b l t) ↔ s.accounted env P t l.key.length = none := by
  constructor
  · intro hall
    cases hacc : s.accounted env P t l.key.length with
    | none => rfl
    | some g =>
      -- the migration returns, and the slot holds the old leaf
      obtain ⟨s', hdone, hfresh, hP, hl'⟩ := leafMigration_keeps h hlk hold hl hlen ht hacc
      exact absurd (hall s' hdone)
        (not_leafMigrated hfresh hP (((lockedNode nd).childAt b).trans hb) hl' ht)
  · intro hacc s' hdone
    obtain ⟨N, hN⟩ := hdone.settles _ (leafMigration_le_succ env n P t)
    have hthrow := (hN (N + 1) (Nat.le_succ N)).symm.trans
      (run_leafMigration h hlk hold hl hlen ht N)
    rw [hacc] at hthrow
    cases hthrow

/-! ### A sample tree -/

/-- The tree with the keys `1` and `2`. -/
def sampleTree : Mem := ((Mem.init default).afterPut sampleEnv [1] 5).afterPut sampleEnv [2] 5

theorem putRun_sampleTree : PutRun sampleEnv 1 [([1], 0), ([2], 0)] sampleTree := by
  have h₀ : PutRun sampleEnv 1 [] (Mem.init default) := .init (Int.le_refl 0)
  have h₁ : PutRun sampleEnv 1 [([1], 0)] ((Mem.init default).afterPut sampleEnv [1] 5) := by
    apply h₀.afterPut rfl
    decide
  apply h₁.afterPut rfl
  decide

/-- The root of the sample tree has the leaf of `1` below it, which is remote. -/
theorem sampleTree_root : ∃ nd, sampleTree.node? 16 = some nd ∧ Reachable sampleTree 16 ∧
    isLocked nd.version = false ∧ isOld nd.version = false ∧
    nd.childAt 1 = some (makeLeaf (8 + 1)) := by
  have hroot : sampleTree.root = 16 := by decide
  have hreach : Reachable sampleTree 16 := hroot ▸ Reachable.root (by decide) (by decide)
  cases hnd : sampleTree.node? 16 with
  | none =>
    have : (sampleTree.node? 16).isSome = true := by decide
    simp [hnd] at this
  | some nd =>
    have hall : (sampleTree.node? 16).map (fun nd =>
        (isLocked nd.version, isOld nd.version, nd.childAt 1)) =
      some (false, false, some (makeLeaf (8 + 1))) := by decide
    rw [hnd, Option.map_some, Option.some.injEq, Prod.mk.injEq, Prod.mk.injEq] at hall
    exact ⟨nd, rfl, hreach, hall⟩

theorem sampleTree_leaf : sampleTree.leaf? 8 = some ⟨1, ⟨.remote, 2⟩, 0, [1]⟩ := by decide

theorem sampleTree_accounted :
    (sampleTree.accounted sampleEnv 16 .local_ 1).isSome = true := by decide

/-- The leaf of `1` in the sample tree, and memory that is local. -/
theorem leaf_migration_iff_of_sampleTree :
    (∀ s', sampleEnv.machine.Converges (fun fuel => leafMigration sampleEnv fuel 8 16 .local_)
        sampleTree 16 s' →
      LeafMigrated sampleEnv sampleTree s' 16 1 ⟨1, ⟨.remote, 2⟩, 0, [1]⟩ .local_) ↔
      sampleTree.accounted sampleEnv 16 .local_ 1 = none := by
  obtain ⟨nd, hnd, hreach, hlk, hold, hchild⟩ := sampleTree_root
  exact leaf_migration_iff (putRun_sampleTree.properNode rfl (by decide) hreach hnd) hlk hold hchild
    sampleTree_leaf (by decide) (by decide)

/-- The migration of that leaf returns the root, and the leaf is still remote. -/
theorem sampleTree_not_migrated : ∃ s',
    sampleEnv.machine.Converges (fun fuel => leafMigration sampleEnv fuel 8 16 .local_)
      sampleTree 16 s' ∧
    ¬ LeafMigrated sampleEnv sampleTree s' 16 1 ⟨1, ⟨.remote, 2⟩, 0, [1]⟩ .local_ := by
  obtain ⟨nd, hnd, hreach, hlk, hold, hchild⟩ := sampleTree_root
  obtain ⟨g, hg⟩ := Option.isSome_iff_exists.mp sampleTree_accounted
  obtain ⟨s', hdone, hfresh, hP, hl⟩ := leafMigration_keeps
    (putRun_sampleTree.properNode rfl (by decide) hreach hnd) hlk hold sampleTree_leaf (by decide)
    (by decide) hg
  exact ⟨s', hdone, not_leafMigrated hfresh hP (((lockedNode nd).childAt 1).trans hchild) hl
    (by decide)⟩

end Sidle.Art
