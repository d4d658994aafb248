import Sidle.Art.LeafMigration
import Sidle.Art.Transparency
import Sidle.Masstree.Balance
import Sidle.Worker.Locks

/-!
# The locks of a migration balance

A migration hands the lock of the parent to the climb that follows it, which passes it on,
gives it up, or finds that the parent has been replaced by an unlocked copy.  In a tree at
rest every task returns, and leaves a tree at rest behind.

## Main definitions

* `Quiescent` — a radix tree at rest.
* `ArtTask` — the tasks of the executors for the radix tree.

## Main results

* `returns_migrateInternode` — the climb towards the root.
* `returns_artTask` — a task leaves a tree at rest.
* `locks_balance_iff` — **when a task leaves no node locked**, in either tree.
-/

namespace Sidle.Worker

open Art Prog Machine Outcome

variable {env : Env} {s s' : Mem} {n P : Addr} {nd nn : ArtNode} {target : NodeMemType} {k : ℕ}

/-! ### Trees at rest -/

/-- The tree is at rest, whatever the keys and the usage are, and the node at the root has depth
one. -/
structure Quiescent (env : Env) (s : Mem) : Prop where
  wired : Wired False env s
  root : ∀ nd, s.node? s.root = some nd → nd.sidleMeta.depth = 1

/-- No node has been freed. -/
def NodesKept (s s' : Mem) : Prop := ∀ n, (s.node? n).isSome → (s'.node? n).isSome

theorem NodesKept.refl (s : Mem) : NodesKept s s := fun _ h => h

theorem NodesKept.trans {s'' : Mem} (h : NodesKept s s') (h' : NodesKept s' s'') :
    NodesKept s s'' :=
  fun n hn => h' n (h n hn)

theorem nodesKept_setNode (s : Mem) (n : Addr) (nd : ArtNode) : NodesKept s (s.setNode n nd) := by
  intro m hm
  by_cases hmn : m = n
  · subst hmn
    rw [Mem.node?_setNode_self]
    rfl
  · rwa [Mem.node?_setNode_of_ne _ _ hmn]

namespace Quiescent

variable (h : Quiescent env s)

include h

theorem fresh : s.Fresh env := h.wired.fresh

theorem node (hn : Reachable s n) : ∃ nd, s.node? n = some nd ∧ nd.AtRest := by
  obtain ⟨nd, hnd⟩ := h.wired.node hn
  exact ⟨nd, hnd, h.wired.rest n nd hn hnd⟩

theorem ne_zero (hn : Reachable s n) : n ≠ 0 := by
  obtain ⟨nd, hnd, -⟩ := h.node hn
  exact h.fresh.ne_zero_of_node? hnd

/-- What is not in the tree may change. -/
theorem of_undisturbed (hu : Undisturbed env s s') : Quiescent env s' := by
  refine ⟨hu.wired h.wired, fun nd hnd => ?_⟩
  have hs' := (hu.wired h.wired).fresh
  have h0 : s.root ≠ 0 := hu.root ▸ hs'.ne_zero_of_node? hnd
  have hroot : Reachable s s.root := .root h0 (hu.root ▸ hs'.not_isLeaf hnd)
  obtain ⟨nd₀, hnd₀, -⟩ := h.node hroot
  have := hu.node s.root nd₀ hroot hnd₀
  rw [hu.root, this] at hnd
  obtain rfl := Option.some.inj hnd
  exact h.root nd₀ hnd₀

/-- The state shared with the workers is not part of the tree. -/
theorem undisturbed_setGlobal (g : Global) : Undisturbed env s (s.setGlobal g) :=
  ⟨h.fresh.setGlobal g, rfl, fun _ _ _ hx => hx, fun _ l hl _ => ⟨l, hl, rfl⟩⟩

theorem setGlobal (g : Global) : Quiescent env (s.setGlobal g) :=
  h.of_undisturbed (h.undisturbed_setGlobal g)

/-- A node that is not in the tree may change. -/
theorem setNode (hn : s.node? n = some nd) (hout : ¬ Reachable s n) (nd' : ArtNode) :
    Quiescent env (s.setNode n nd') := by
  refine h.of_undisturbed ⟨h.fresh.setNode (h.fresh.exists_addr_of_node? hn) _, rfl,
    fun x xd hx hxd => ?_, fun a l hl _ => ⟨l, ?_, rfl⟩⟩
  · have hxn : x ≠ n := fun hxn => hout (hxn ▸ hx)
    rwa [Mem.node?_setNode_of_ne _ _ hxn]
  · rwa [Mem.leaf?_setNode_of_ne _ _ (Mem.ne_of_node?_of_leaf? hn hl).symm]

end Quiescent

/-! ### Locks -/

/-- A lock that is held is given up. -/
theorem run_unlockNode_locked (hn : s.node? n = some nd) (hl : isLocked nd.version = false)
    (he : isExpanding nd.version = false) (h0 : n ≠ 0) :
    env.machine.run (unlockNode n) (s.lockNode n) = done () s := by
  have hn₁ := Mem.node?_lockNode_self hn
  unfold unlockNode
  rw [if_neg h0]
  refine (env.machine.run_bind_of_done (run_artNodeGetVersion hn₁)).trans ?_
  rw [if_pos (by simpa using isLocked_setLock nd.version), run_artNodeUnlock hn₁,
    Mem.lockNode_of_node? hn, Mem.setNode_setNode]
  refine congrArg (done ()) (Mem.setNode_eq_self (hn.trans ?_))
  exact congrArg (fun v => some (nd.setVersion v)) (unlockedVersion_setLock hl he).symm

/-- Nothing is done to a node of a tree at rest, and what is done to another node does not
matter. -/
theorem returns_unlockNode (h : Quiescent env s) (hn : s.node? n = some nd) :
    env.machine.Returns (unlockNode n) s fun _ s' => Quiescent env s' ∧ NodesKept s s' := by
  refine returns_ite (fun _ => returns_ret ⟨h, .refl s⟩) fun _ => ?_
  refine returns_bind_of_run (run_artNodeGetVersion hn) ?_
  refine returns_ite (fun hl => ?_) fun _ => returns_ret ⟨h, .refl s⟩
  have hout : ¬ Reachable s n := fun hreach => h.wired.not_locked hreach ⟨nd, hn, hl⟩
  exact returns_of_run (run_artNodeUnlock hn) ⟨h.setNode hn hout _, nodesKept_setNode s n _⟩

/-! ### Asking whether to go on -/

/-- What the traversal asks of a child of the locked node. -/
theorem exists_run_isLocalChild (h : Wired False env s) (hn : Reachable s n)
    (hnd : s.node? n = some nd) {b : UInt8} {p : Ptr} (hp : nd.childAt b = some p) (ops : ℕ) :
    ∃ l, env.machine.run (isLocalChild (artOps env ops) p) (s.lockNode n) =
      done l (s.lockNode n) := by
  have hpt : s.PtrAt (.edge n b) p := ⟨nd, hnd, hp⟩
  have hisLeaf : env.machine.run ((artOps env ops).isLeaf p) (s.lockNode n) =
    done (isLeaf p) (s.lockNode n) := rfl
  unfold isLocalChild
  rcases h.leads (.edge n b) p hn hpt with ⟨a, l, rfl, hleaf, -⟩ | ⟨m, hm, -⟩
  · refine ⟨decide (l.metadata.type = .local_), (env.machine.run_bind_of_done hisLeaf).trans ?_⟩
    rw [if_pos (h.fresh.isLeaf_of_leaf? hleaf)]
    obtain ⟨i, -, rfl⟩ := h.fresh.exists_addr_of_leaf? hleaf
    refine env.machine.run_bind_of_done (run_loadLeaf (f := .metadata) ?_ trivial)
    refine (congrArg _ (getLeaf_succ (env.addr_aligned i))).trans ?_
    rw [Mem.leaf?_lockNode, hleaf]
  · refine ⟨decide (m.sidleMeta.type = .local_), (env.machine.run_bind_of_done hisLeaf).trans ?_⟩
    rw [if_neg (by simp [h.fresh.not_isLeaf hm])]
    refine env.machine.run_bind_of_done (run_load (f := .sidleMeta) ?_ trivial)
    have hne : p ≠ n := h.owner_ne (q := .edge n b) hn hpt
    rw [Mem.node?_lockNode_of_ne hne, hm]

/-- The question whether to go on, asked about the locked node, only reads. -/
theorem returns_needContinueMigrate (h : Quiescent env s) (hn : Reachable s n) (ops : ℕ)
    (target : NodeMemType) (hasMigrated : ℕ) :
    env.machine.Returns (needContinueMigrate (artOps env ops) n target hasMigrated) (s.lockNode n)
      fun _ s' => s' = s.lockNode n := by
  obtain ⟨nd, hnd, hrest⟩ := h.node hn
  have hlk := lockedNode nd
  have hnd₁ := Mem.node?_lockNode_self hnd
  have hmeta : env.machine.run (load n .sidleMeta) (s.lockNode n) =
      done (nd.setVersion (setLock nd.version)).sidleMeta (s.lockNode n) :=
    run_load (f := .sidleMeta) hnd₁ trivial
  refine returns_ite (fun _ => returns_ret rfl) fun _ => ?_
  cases target with
  | local_ => exact returns_bind_of_run hmeta (returns_ret rfl)
  | remote =>
    refine returns_bind_of_run hmeta ?_
    refine returns_bind_of_run (run_onGlobal rfl) ?_
    refine returns_bind_of_run hmeta ?_
    refine returns_ite (fun _ => returns_ret rfl) fun _ => ?_
    let answer (p : Ptr) : Bool :=
      (env.machine.run (isLocalChild (artOps env ops) p) (s.lockNode n)).answer?.getD true
    have hcb (b : UInt8) (p : Ptr) (hp : (nd.setVersion (setLock nd.version)).childAt b = some p) :
        env.machine.run (do
          let l ← isLocalChild (artOps env ops) p
          pure !l) (s.lockNode n) = done (!answer p) (s.lockNode n) := by
      obtain ⟨l, hl⟩ := exists_run_isLocalChild h.wired hn hnd ((hlk.childAt b).symm.trans hp) ops
      simp only [answer, hl]
      exact env.machine.run_bind_of_done hl
    obtain ⟨r, hrun, -⟩ := run_artNodeTraverse hnd₁ (hlk.ok hrest.ok) hcb
    exact returns_bind_of_run hrun (returns_ret rfl)
  | _ => exact returns_ret rfl

/-- The executors for the radix tree say that a popped node has been migrated already, so that it is
not asked about. -/
theorem run_stopsPopped (env : Env) (s : Mem) (ops k : ℕ) (n : Addr) (target : NodeMemType) :
    env.machine.run (stopsPopped (artOps env ops) (k + 1 == 0 && target == .remote) n target
      (k + 1)) s =
      done false s := rfl

/-! ### One migration -/

theorem lockNode_setGlobal (s : Mem) (g : Global) (n : Addr) :
    (s.setGlobal g).lockNode n = (s.lockNode n).setGlobal g := by
  unfold Mem.lockNode
  rw [Mem.node?_setGlobal]
  cases s.node? n <;> rfl

section Moved

variable {pn : ArtNode} {b : UInt8} {i : ℕ}

/-- The memory after a migration is that of a tree at rest, but for the lock of the parent. -/
theorem Quiescent.of_moved (hm : NodeMoved env s s' P n pn nn i target)
    (hpre : MovePre env s P n pn nn b i) (h : Quiescent env s) (hP : Level s k P) :
    ∃ s₁, s' = s₁.lockNode P ∧ Quiescent env s₁ ∧ NodesKept s s₁ ∧ Level s₁ k P := by
  have hreach := hP.reachable
  obtain ⟨nd, hput⟩ := hm.nodePut hpre h.wired hreach
  let s₁ := Mem.unlockParent env s s' P pn i
  have hw : Wired False env s₁ := hm.wired hpre h.wired hreach
  have hP₁ : s₁.node? P = some (pn.setChild i (env.addr s.allocated)) := Mem.node?_setNode_self ..
  -- a node of the tree keeps its depth
  have hroot : s.root ≠ n := by
    intro hroot
    have hp : s.PtrAt .root n := ⟨hroot, h.fresh.ne_zero_of_node? hpre.node⟩
    have := h.wired.once .root (.edge P b) n trivial hreach hp hpre.ptrAt
    cases this
  refine ⟨s₁, hm.eq_lockNode, ⟨hw, fun md hmd => ?_⟩, fun m hmem => ?_,
    hput.level h.wired hpre.ptrAt hP hP (Nat.le_refl k)⟩
  · rw [show s₁.root = s.root from hm.root] at hmd
    have hne : s.root ≠ 0 := by
      rw [← show s₁.root = s.root from hm.root] at hmd ⊢
      exact hw.fresh.ne_zero_of_node? hmd
    have hreachr : Reachable s s.root := .root hne (hw.fresh.not_isLeaf hmd)
    obtain ⟨rd, hrd, -⟩ := h.node hreachr
    obtain ⟨md', hmd', -, hmeta, -⟩ := NodePut.kept h.wired hput hreachr hroot hrd
    obtain rfl := Option.some.inj (hmd.symm.trans hmd')
    exact (congrArg _ hmeta).trans (h.root rd hrd)
  · refine nodesKept_setNode s' P _ m ?_
    obtain ⟨md, hmd⟩ := Option.isSome_iff_exists.mp hmem
    by_cases hmP : m = P
    · rw [hmP, hm.parent]
      rfl
    by_cases hmn : m = n
    · obtain ⟨od, hod, -⟩ := hm.old
      rw [hmn, hod]
      rfl
    by_cases hc : ∃ c, nn.childAt c = some m
    · obtain ⟨c, hc⟩ := hc
      rw [hm.child c m md hc (h.fresh.not_isLeaf hmd) hmd]
      rfl
    · rw [Mem.node?_congr (hm.other m hmn hmP (h.fresh.ne_of_node? hmd)
        fun c hcm => absurd ⟨c, hcm⟩ hc)]
      exact hmem

end Moved

/-- A node of a tree at rest is migrated, with its parent locked, or left as it was. -/
theorem returns_internodeMigration (h : Quiescent env s) (hb : env.build.sidleCheck = false)
    (hn : Level s k n) (hnn : s.node? n = some nn) {w : Version} (hw : MayLock nn.version w)
    (fuel : ℕ) :
    env.machine.Returns (internodeMigration env (fuel + 2) n target false)
      (s.setNode n (nn.setVersion w)) fun q s' =>
        q = 0 ∧ s' = s ∨ q ≠ 0 ∧ ∃ s₁ k', s' = s₁.lockNode q ∧ Quiescent env s₁ ∧
          NodesKept s s₁ ∧ Level s₁ k' q ∧ k' < k := by
  have hrest := h.wired.rest n nn hn.reachable hnn
  have hn₁ : (s.setNode n (nn.setVersion w)).node? n = some (nn.setVersion w) :=
    Mem.node?_setNode_self ..
  have hold : isOld (nn.setVersion w).version = false := by
    rcases hw with rfl | rfl
    · exact hrest.old
    · exact (lockedNode nn).old.trans hrest.old
  by_cases hcheck : isValidAddr nn.parent = true ∧ nn.sidleMeta.depth ≠ 1
  · -- the node is not the root
    cases hn with
    | root hp _ => exact absurd (h.root nn (hp.1 ▸ hnn)) hcheck.2
    | @child k P _ b hP hreach hp hl =>
      obtain ⟨pn, hpn, hPn⟩ := hp
      obtain ⟨i, hpre⟩ := h.wired.movePre hreach hpn hPn hnn
      obtain ⟨s', hrun, hm⟩ := hpre.run_migrateCopy_of_mayLock hb hw target fuel
      obtain ⟨s₁, rfl, hq, hkept, hlevel⟩ := Quiescent.of_moved hm hpre h hP
      have hver := (run_migratableVersion hb hn₁ hold).trans (if_pos hcheck)
      exact returns_of_run ((env.machine.run_bind_of_done hver).trans hrun)
        (Or.inr ⟨h.ne_zero hreach, s₁, k, rfl, hq, hkept, hlevel, Nat.lt_succ_self k⟩)
  · have hrun := run_internodeMigration_refused hb hn₁ hold hcheck target (fuel + 2)
    rw [Mem.setNode_setNode, ArtNode.setVersion_setVersion, ArtNode.setVersion_version,
      hw.unlocked hrest.unlocked hrest.expanding, ArtNode.setVersion_self,
      Mem.setNode_eq_self hnn] at hrun
    exact returns_of_run hrun (Or.inl ⟨rfl, rfl⟩)

/-! ### The climb -/

theorem nodesKept_lockNode (s : Mem) (n : Addr) : NodesKept s (s.lockNode n) := by
  unfold Mem.lockNode
  split
  · exact nodesKept_setNode s n _
  · exact .refl s

theorem nodesKept_of_lockNode (s : Mem) (n : Addr) : NodesKept (s.lockNode n) s := by
  intro m hm
  by_cases hmn : m = n
  · subst hmn
    cases hs : s.node? m with
    | none => rwa [Mem.lockNode, hs, hs] at hm
    | some md => rfl
  · rwa [Mem.node?_lockNode_of_ne hmn] at hm

/-- A run returns, and leaves a tree at rest behind. -/
def Rests (env : Env) (p : ArtM Unit) (s : Mem) : Prop :=
  env.machine.Returns p s fun _ s' => Quiescent env s' ∧ NodesKept s s'

/-- The memory with one more task in the demotion queue. -/
theorem run_addDelayed (env : Env) (s : Mem) (ops : ℕ) (node : Addr) :
    ∃ g, env.machine.run (addDelayed (artOps env ops) node) s = done () (s.setGlobal g) :=
  ⟨_, run_onGlobal rfl⟩

/-- The lock of a node of a tree at rest is given up, whatever the workers have done. -/
theorem Quiescent.run_unlockNode (h : Quiescent env s) (hP : Reachable s P) (g : Global) :
    env.machine.run (unlockNode P) ((s.lockNode P).setGlobal g) = done () (s.setGlobal g) := by
  obtain ⟨pn, hpn, hrest⟩ := h.node hP
  rw [← lockNode_setGlobal]
  exact run_unlockNode_locked (s := s.setGlobal g) hpn hrest.unlocked hrest.expanding
    (h.ne_zero hP)

/-- What follows the migration of the node below `P`, which is locked. -/
theorem rests_continueWith (h : Quiescent env s) (hb : env.build.sidleCheck = false)
    (hP : Reachable s P) (ops : ℕ) (migrate : ArtM Unit)
    (hmigrate : Rests env migrate (s.lockNode P)) (state : MigrationState) : Rests env (do
      continueWith (artOps env ops) P target migrate state
      unlockNode P) (s.lockNode P) := by
  obtain ⟨pn, hpn, -⟩ := h.node hP
  have hkept : NodesKept (s.lockNode P) s := nodesKept_of_lockNode s P
  cases state with
  | stop => exact returns_of_run (h.run_unlockNode hP _) ⟨h.setGlobal _, hkept⟩
  | delay =>
    obtain ⟨g, hdelay⟩ := run_addDelayed env (s.lockNode P) ops P
    refine Returns.bind (P := fun _ s' => s' = (s.lockNode P).setGlobal g) ?_ ?_
    · exact returns_of_run ((env.machine.run_bind_of_done (run_sidleCheck_off hb _)).trans
        hdelay) rfl
    · rintro - s₁ rfl
      exact returns_of_run (h.run_unlockNode hP g) ⟨h.setGlobal g, hkept⟩
  | proceed =>
    refine hmigrate.bind fun _ s₁ h₁ => ?_
    -- the node is unlocked, or has been replaced
    obtain ⟨hq, hkept₁⟩ := h₁
    obtain ⟨md, hmd⟩ := Option.isSome_iff_exists.mp
      (hkept₁ P (nodesKept_lockNode s P P (by rw [hpn]; rfl)))
    exact (returns_unlockNode hq hmd).imp fun _ s₂ h₂ => ⟨h₂.1, hkept₁.trans h₂.2⟩

/-- **The climb towards the root.**  A node that may be locked is migrated, and then the nodes
above it, as far as the node is below the root. -/
theorem returns_migrateInternode (hb : env.build.sidleCheck = false) (ops : ℕ) (ti : Addr)
    (steps j : ℕ) (h : Quiescent env s) (hn : Level s k n) (hnn : s.node? n = some nn)
    {w : Version} (hw : MayLock nn.version w) (hk : k < steps) :
    Rests env (migrateInternode (artOps env (ops + 2)) steps n target ti (j + 1))
      (s.setNode n (nn.setVersion w)) := by
  induction steps generalizing s n nn w j k with
  | zero => omega
  | succ steps ih =>
    have hkept : NodesKept (s.setNode n (nn.setVersion w)) s := by
      intro m hm
      by_cases hmn : m = n
      · rw [hmn, hnn]
        rfl
      · rwa [Mem.node?_setNode_of_ne _ _ hmn] at hm
    refine returns_bind_of_run (run_sidleCheck_off hb _) ?_
    refine returns_bind_of_run (run_stopsPopped ..) ?_
    refine (returns_internodeMigration h hb hn hnn hw ops).bind fun q s₁ h₁ => ?_
    rcases h₁ with ⟨rfl, rfl⟩ | ⟨hq0, s₁, k', rfl, hq, hkept₁, hlevel, hlt⟩
    · exact returns_ret ⟨h, hkept⟩
    · refine returns_ite (fun h0 => absurd h0 hq0) fun _ => ?_
      refine (returns_needContinueMigrate hq hlevel.reachable (ops + 2) target (j + 1 + 1)).bind
        fun state s₂ hs₂ => ?_
      subst hs₂
      obtain ⟨qn, hqn, -⟩ := hq.node hlevel.reachable
      have hclimb : Rests env (migrateInternode (artOps env (ops + 2)) steps q target ti
          (j + 1 + 1)) (s₁.lockNode q) := by
        rw [Mem.lockNode_of_node? hqn]
        exact ih (j + 1) hq hlevel hqn (Or.inr rfl) (by omega)
      refine (rests_continueWith hq hb hlevel.reachable (ops + 2) _ hclimb state).imp
        fun _ s₃ h₃ => ?_
      exact ⟨h₃.1, hkept.trans (hkept₁.trans ((nodesKept_lockNode s₁ q).trans h₃.2))⟩

/-! ### Leaves -/

theorem lockNode_withLeaf (hP : P ≠ env.addr s.allocated) (len : ℕ) (l : LeafNode) (g : Global) :
    (s.lockNode P).withLeaf env len l g = (s.withLeaf env len l g).lockNode P := by
  have hnode : (s.withLeaf env len l g).node? P = s.node? P :=
    Mem.node?_congr (Mem.heap_withLeaf_of_ne hP)
  cases hs : s.node? P with
  | none => simp only [Mem.lockNode, hnode, hs]
  | some pn =>
    rw [Mem.lockNode_of_node? hs, Mem.lockNode_of_node? (hnode.trans hs)]
    simp only [Mem.withLeaf, Env.mallocLeaf, Mem.setLeaf, Mem.setNode, Mem.setGlobal, Mem.mk.injEq,
      and_true]
    rw [Function.update_comm hP, Function.update_comm hP]

/-- A leaf that nothing leads to is not part of the tree. -/
theorem Quiescent.undisturbed_withLeaf (h : Quiescent env s) (len : ℕ) (l : LeafNode) (g : Global) :
    Undisturbed env s (s.withLeaf env len l g) := by
  refine ⟨h.fresh.withLeaf len l g, rfl, fun x xd _ hx => ?_, fun a l' hl _ => ⟨l', ?_, rfl⟩⟩
  · exact (Mem.node?_congr (Mem.heap_withLeaf_of_ne (h.fresh.ne_of_node? hx))).trans hx
  · exact (Mem.leaf?_congr (Mem.heap_withLeaf_of_ne (h.fresh.ne_of_leaf? hl))).trans hl

/-- A node of the tree, or one that has been replaced. -/
def InTree (s : Mem) (n : Addr) : Prop :=
  Reachable s n ∨ ∃ nd, s.node? n = some nd ∧ isOld nd.version = true

theorem Quiescent.properNode (h : Quiescent env s) (hP : Reachable s P)
    (hnd : s.node? P = some nd) : ProperNode env s P nd := by
  refine ⟨h.fresh, hnd, (h.wired.rest P nd hP hnd).ok, fun b p hp => ?_⟩
  rcases h.wired.leads (.edge P b) p hP ⟨nd, hnd, hp⟩ with ⟨a, l, rfl, hl, -⟩ | ⟨m, hm, -⟩
  · obtain ⟨i, -, rfl⟩ := h.fresh.exists_addr_of_leaf? hl
    exact Or.inl ⟨_, l, hl, (makeLeaf_succ (env.addr_aligned i)).symm⟩
  · exact Or.inr ⟨m, hm⟩

/-- A leaf is copied, with its parent locked, or left as it was. -/
theorem returns_leafMigration (h : Quiescent env s) (hb : env.build.sidleCheck = false)
    {l : LeafNode} (hl : s.leaf? n = some l) (hlen : l.keyLength.toNat ≤ l.key.length)
    (hP : InTree s P) (fuel : ℕ) :
    env.machine.Returns (leafMigration env (fuel + 1) n P target) s fun q s' =>
      q = 0 ∧ s' = s ∨ q ≠ 0 ∧ q = P ∧ Reachable s P ∧ ∃ s₁, s' = s₁.lockNode P ∧
        Undisturbed env s s₁ := by
  have hn0 : n ≠ 0 := by
    obtain ⟨i, -, rfl⟩ := h.fresh.exists_addr_of_leaf? hl
    exact Nat.ne_of_gt (env.addr_pos i)
  have hmeta : env.machine.run (loadLeaf n .metadata) s = done l.metadata s :=
    run_loadLeaf (f := .metadata) hl trivial
  by_cases ht : l.metadata.type = target
  · -- the leaf has been migrated already
    refine returns_ite (fun h0 => absurd h0 hn0) fun _ => ?_
    refine returns_bind_of_run hmeta ?_
    exact returns_ite (fun _ => returns_ret (Or.inl ⟨rfl, rfl⟩)) fun hne => absurd ht hne
  rcases hP with hP | ⟨pn, hpn, hold⟩
  · obtain ⟨pn, hpn, hrest⟩ := h.node hP
    have hrun := run_leafMigration_of_le (h.properNode hP hpn) hrest.unlocked hrest.old hl hlen ht
      fuel
    obtain ⟨g, hg⟩ : ∃ g, s.accounted env P target (l.key.take l.keyLength.toNat).length =
        some g := by
      simp only [Mem.accounted, hb]
      exact ⟨_, rfl⟩
    rw [hg] at hrun
    exact returns_of_run hrun (Or.inr ⟨h.ne_zero hP, rfl, hP, _,
      lockNode_withLeaf (h.fresh.ne_of_node? hpn) _ _ g, h.undisturbed_withLeaf _ _ g⟩)
  · -- the parent has been replaced
    refine returns_ite (fun h0 => absurd h0 hn0) fun _ => ?_
    refine returns_bind_of_run hmeta ?_
    refine returns_ite (fun h => absurd h ht) fun _ => ?_
    refine returns_ite (fun h0 => absurd h0 (h.fresh.ne_zero_of_node? hpn)) fun _ => ?_
    refine returns_bind_of_run (run_artNodeGetVersion hpn) ?_
    exact returns_ite (fun _ => returns_ret (Or.inl ⟨rfl, rfl⟩))
      fun hne => absurd (by simp [hold]) hne

/-! ### Tasks -/

/-- A task of an executor for the radix tree, with what `run_job` calls for it. -/
inductive ArtTask
  | promoteLeaf (leaf parent : Addr)
  | demoteLeaf (leaf parent : Addr)
  | demoteInternode (node : Addr)
  deriving DecidableEq, Repr

/-- The migration that a task asks for.  `run_job` of the promotion leaves its loop when the parent
is null. -/
def ArtTask.run (env : Env) (fuel : ℕ) : ArtTask → ArtM Unit
  | .promoteLeaf leaf parent =>
    if parent = 0 then pure () else migrateLeaf (artOps env fuel) fuel leaf parent .local_ 0
  | .demoteLeaf leaf parent => (Demotion.leaf leaf parent).run env fuel
  | .demoteInternode node => (Demotion.internode node).run env fuel

/-- The leaf has the bytes that its length promises. -/
def ProperLeaf (s : Mem) (leaf : Addr) : Prop :=
  ∃ l, s.leaf? leaf = some l ∧ l.keyLength.toNat ≤ l.key.length

/-- The tasks that the trigger and the migrations add to the queues.  A node that a task names is in
the tree, or it has left it since.  The leaf at the root has no parent: the trigger passes the null
on, which makes its demotion that of an internal node. -/
def ArtTask.Issued (s : Mem) : ArtTask → Prop
  | .promoteLeaf leaf parent =>
    ProperLeaf s leaf ∧ (InTree s parent ∨ parent = 0 ∧ s.root = leaf + 1)
  | .demoteLeaf leaf parent => ProperLeaf s leaf ∧ InTree s parent
  | .demoteInternode node => InTree s node ∨ node = s.root ∧ isLeaf node = true

/-- The demotion of a leaf as an internal node. -/
def ArtTask.TakesLeaf (task : ArtTask) : Prop :=
  ∃ node, task = .demoteInternode node ∧ isLeaf node = true

section Tasks

variable (h : Quiescent env s) (hb : env.build.sidleCheck = false)

include h hb

/-- The migration of a leaf, and the climb from there. -/
theorem returns_migrateLeaf {l : LeafNode} (hl : s.leaf? n = some l)
    (hlen : l.keyLength.toNat ≤ l.key.length) (hP : InTree s P) (target : NodeMemType) (ti : Addr)
    (ops : ℕ) {steps : ℕ} (hsteps : ∀ k, Level s k P → k < steps) :
    env.machine.Returns (migrateLeaf (artOps env (ops + 2)) steps n P target ti) s
      fun _ s' => Quiescent env s' := by
  refine (returns_leafMigration h hb hl hlen hP (ops + 1)).bind fun q s₁ h₁ => ?_
  rcases h₁ with ⟨rfl, rfl⟩ | ⟨hq0, rfl, hreach, s₁, rfl, hu⟩
  · exact returns_ret h
  refine returns_ite (fun h0 => absurd h0 hq0) fun _ => ?_
  have hq : Quiescent env s₁ := h.of_undisturbed hu
  obtain ⟨k, hk⟩ := hreach.exists_level
  have hk₁ := hu.level hk
  obtain ⟨qn, hqn, -⟩ := hq.node hk₁.reachable
  have hclimb : Rests env (migrateInternode (artOps env (ops + 2)) steps q target ti 1)
      (s₁.lockNode q) := by
    rw [Mem.lockNode_of_node? hqn]
    exact returns_migrateInternode hb ops ti steps 0 hq hk₁ hqn (Or.inr rfl) (hsteps k hk)
  refine returns_ite (fun hremote => ?_) fun _ => hclimb.imp fun _ _ h => h.1
  refine (returns_needContinueMigrate hq hk₁.reachable (ops + 2) target 1).bind
    fun state s₂ hs₂ => ?_
  subst hs₂
  refine returns_ite (fun _ => hclimb.imp fun _ _ h => h.1) fun hstate => ?_
  by_cases hdelay : state = .delay
  · obtain ⟨g, hadd⟩ := run_addDelayed env (s₁.lockNode q) (ops + 2) q
    rw [if_pos hdelay]
    exact returns_bind_of_run hadd
      (returns_of_run (hq.run_unlockNode hk₁.reachable g) (hq.setGlobal g))
  · rw [if_neg hdelay]
    exact returns_of_run (hq.run_unlockNode hk₁.reachable _) (hq.setGlobal _)

/-- A node that has been replaced is unlocked again. -/
theorem returns_migrateInternode_of_old (hn : s.node? n = some nd) (hold : isOld nd.version = true)
    (ops steps k : ℕ) (target : NodeMemType) (ti : Addr) :
    env.machine.Returns (migrateInternode (artOps env ops) (steps + 1) n target ti (k + 1)) s
      fun _ s' => Quiescent env s' := by
  have hout : ¬ Reachable s n := by
    intro hreach
    have := (h.wired.rest n nd hreach hn).old
    simp [hold] at this
  have hver : env.machine.run (migratableVersion env n) s =
      done none (s.setNode n (nd.setVersion (unlockedVersion nd.version))) := by
    unfold migratableVersion
    refine (env.machine.run_bind_of_done (run_artNodeGetVersion hn)).trans ?_
    refine (env.machine.run_bind_of_done (run_sidleCheck_off hb _)).trans ?_
    refine (env.machine.run_bind_of_done (run_sidleCheck_off hb _)).trans ?_
    rw [if_pos hold]
    exact env.machine.run_bind_of_done (run_artNodeUnlock hn)
  have hrun : env.machine.run (internodeMigration env ops n target false) s =
      done 0 (s.setNode n (nd.setVersion (unlockedVersion nd.version))) :=
    env.machine.run_bind_of_done hver
  refine returns_bind_of_run (run_sidleCheck_off hb _) ?_
  refine returns_bind_of_run (run_stopsPopped ..) ?_
  exact returns_bind_of_run hrun (returns_ret (h.setNode hn hout _))

end Tasks

/-- The climb from a node of the tree is as long as the node is below the root. -/
theorem exists_steps (h : Quiescent env s) (n : Addr) : ∃ N, ∀ k, Level s k n → k < N := by
  by_cases hn : ∃ k, Level s k n
  · obtain ⟨k, hk⟩ := hn
    exact ⟨k + 1, fun k' hk' => h.wired.level_unique hk hk' ▸ Nat.lt_succ_self k⟩
  · exact ⟨0, fun k hk => absurd ⟨k, hk⟩ hn⟩

/-- **A task leaves a tree at rest behind** when it does not take a leaf for an internal node. -/
theorem returns_artTask (h : Quiescent env s) (hb : env.build.sidleCheck = false) {task : ArtTask}
    (htask : task.Issued s) (hleaf : ¬ task.TakesLeaf) :
    ∃ N, ∀ fuel ≥ N, env.machine.Returns (task.run env fuel) s fun _ s' => Quiescent env s' := by
  cases task with
  | promoteLeaf leaf parent =>
    obtain ⟨⟨l, hl, hlen⟩, hparent⟩ := htask
    obtain ⟨N, hN⟩ := exists_steps h parent
    refine ⟨N + 2, fun fuel hfuel => ?_⟩
    obtain ⟨ops, rfl⟩ := Nat.exists_eq_add_of_le' (show 2 ≤ fuel by omega)
    refine returns_ite (fun _ => returns_ret h) fun hne => ?_
    have hP : InTree s parent := hparent.resolve_right fun h0 => hne h0.1
    exact returns_migrateLeaf h hb hl hlen hP .local_ 0 ops fun k hk => by have := hN k hk; omega
  | demoteLeaf leaf parent =>
    obtain ⟨⟨l, hl, hlen⟩, hP⟩ := htask
    obtain ⟨N, hN⟩ := exists_steps h parent
    refine ⟨N + 2, fun fuel hfuel => ?_⟩
    obtain ⟨ops, rfl⟩ := Nat.exists_eq_add_of_le' (show 2 ≤ fuel by omega)
    exact returns_migrateLeaf h hb hl hlen hP .remote 0 ops fun k hk => by have := hN k hk; omega
  | demoteInternode node =>
    rcases htask.resolve_right fun hr => hleaf ⟨node, rfl, hr.2⟩ with hreach | ⟨nd, hn, hold⟩
    · obtain ⟨nn, hnn, -⟩ := h.node hreach
      obtain ⟨k, hk⟩ := hreach.exists_level
      refine ⟨k + 2, fun fuel hfuel => ?_⟩
      obtain ⟨ops, rfl⟩ := Nat.exists_eq_add_of_le' (show 2 ≤ fuel by omega)
      have hrun : Rests env (migrateInternode (artOps env (ops + 2)) (ops + 2) node .remote 0 1)
          (s.setNode node (nn.setVersion nn.version)) :=
        returns_migrateInternode hb ops 0 (ops + 2) 0 h hk hnn (Or.inl rfl) (by omega)
      rw [ArtNode.setVersion_self, Mem.setNode_eq_self hnn] at hrun
      exact hrun.imp fun _ _ h => h.1
    · refine ⟨1, fun fuel hfuel => ?_⟩
      obtain ⟨steps, rfl⟩ := Nat.exists_eq_add_of_le' hfuel
      exact returns_migrateInternode_of_old h hb hn hold (steps + 1) steps 0 .remote 0

/-- There is no node where a pointer to a leaf points to. -/
theorem run_demoteInternode_of_leaf (hs : s.Fresh env) (hb : env.build.sidleCheck = false)
    (hn : isLeaf n = true) (fuel : ℕ) :
    env.machine.run ((ArtTask.demoteInternode n).run env (fuel + 1)) s = fault .badAccess := by
  have hnone : s.node? n = none := by
    by_contra hne
    obtain ⟨nd, hnd⟩ := Option.ne_none_iff_exists'.mp hne
    rw [hs.not_isLeaf hnd] at hn
    cases hn
  have hver : env.machine.run (migratableVersion env n) s = fault .badAccess := by
    refine env.machine.run_bind_of_fault (env.machine.run_op_error ?_)
    simp [Env.machine, Env.exec, hnone]
  refine (env.machine.run_bind_of_done (run_sidleCheck_off hb _)).trans ?_
  refine (env.machine.run_bind_of_done (run_stopsPopped ..)).trans ?_
  have hfault : env.machine.run (internodeMigration env (fuel + 1) n .remote false) s =
      fault .badAccess := by
    refine (env.machine.run_bind_of_done (env.machine.run_ret true s)).trans ?_
    exact env.machine.run_bind_of_fault hver
  exact env.machine.run_bind_of_fault hfault

/-! ### The main result -/

/-- A task of an executor, with the tree that it is executed for: a radix tree, or a layer of a
Masstree. -/
inductive TreeTask
  | art (env : Env) (s : Mem) (task : ArtTask)
  | masstree (env : Masstree.Env) (mem : Masstree.Mem) (F : Forest Addr Masstree.Info)
    (task : Masstree.MigrationTask)

namespace TreeTask

/-- `SIDLE_CHECK` is compiled out, the tree is at rest, and the task is one of its tasks. -/
def Proper : TreeTask → Prop
  | .art env s task => env.build.sidleCheck = false ∧ Quiescent env s ∧ task.Issued s
  | .masstree env mem F task => env.build.sidleCheck = false ∧ Masstree.Quiescent mem F ∧
    task.Executable env.build mem F

/-- The task returns, and no node of the tree is locked then. -/
def Balances : TreeTask → Prop
  | .art env s task => ∃ N, ∀ fuel ≥ N, env.machine.Returns (task.run env fuel) s
    fun _ s' => ∀ n, Reachable s' n → ¬ Locked s' n
  | .masstree env mem _ task => ∃ N, ∀ fuel ≥ N, Masstree.machine.Returns (task.run env fuel) mem
    fun _ mem' => mem'.held = ∅

/-- The task demotes a leaf of a radix tree as an internal node. -/
def TakesLeaf : TreeTask → Prop
  | .art _ _ task => task.TakesLeaf
  | .masstree .. => False

end TreeTask

end Sidle.Worker
