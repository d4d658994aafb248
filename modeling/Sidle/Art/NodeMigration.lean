import Sidle.Art.Alike
import Sidle.Art.CopySpec
import Sidle.Art.Sequence

/-!
# Migration of internal nodes

`internode_migration` replaces a locked node by a copy, which takes over its slot and its
children.  Nothing that a lookup reads changes.  The migration needs the lock of the parent,
and the split of a prefix leaves the lock of its new node behind, so that the nodes below such
a node cannot be migrated.

## Main definitions

* `MovePre`, `NodeMoved` — the memory before and after a migration.
* `InternodeMigrated` — what a migration is for.

## Main results

* `MovePre.run_migrateCopy` — what the migration of a node does.
-/

namespace Sidle.Art

open Prog Machine Outcome

variable {L : ℕ} {env : Env} {s s' : Mem} {P n : Addr} {pn nn : ArtNode} {b : UInt8} {i : ℕ}
  {t : NodeMemType}

/-! ### The allocation of the copy -/

/-- The copy is allocated whatever the usage of the memory is, as nothing is checked. -/
theorem run_newArtNode_migration (hs : s.Fresh env) (hb : env.build.sidleCheck = false)
    (t : NodeType) (target : NodeMemType) :
    ∃ nd g, env.machine.run (_newArtNode env t 0 0 target true) s =
        done (env.addr s.allocated) (s.withNode env t nd g) ∧ nd.layout = t := by
  let nd₀ : ArtNode := { env.blankNode s t with sidleMeta := s.newMeta 0 target }
  let s₁ := (env.mallocNode s t).setNode (env.addr s.allocated) nd₀
  obtain ⟨g, hg⟩ : ∃ g, s₁.global.updateLocalMemoryUsage env.build.sidleCheck env.checkMemoryUsage
      (s.newType 0 target) leafDepth ((t.size : ℤ) - (0 : ℕ)) true false = some g := by
    rw [hb]
    exact ⟨_, rfl⟩
  have haccount : env.machine.run (accountAlloc env (s.newType 0 target) (s.childDepth 0)
      ((t.size : ℤ) - (0 : ℕ)) true false) s₁ = done () (s₁.setGlobal g) := by
    unfold accountAlloc
    rw [if_pos (Bool.or_true _)]
    exact run_onGlobal (by rw [if_neg Bool.false_ne_true, hg]; rfl)
  have halloc : env.machine.run (sidleAllocNode env t 0 target true 0) s =
      done (env.addr s.allocated) (s.withNode env t nd₀ g) := by
    unfold sidleAllocNode
    refine (env.machine.run_bind_of_done (run_childDepth hs.nullOrNode_zero)).trans ?_
    refine (env.machine.run_bind_of_done (run_newNodeType hs.nullOrNode_zero _)).trans ?_
    refine (env.machine.run_bind_of_done (run_mallocNode t)).trans ?_
    refine (env.machine.run_bind_of_done
      (run_store (f := .sidleMeta) (env.node?_mallocNode_self s t) trivial)).trans ?_
    exact (env.machine.run_bind_of_done haccount).trans rfl
  refine ⟨{ nd₀ with version := 0, new_ := 0, parent := 0 }, g, ?_, rfl⟩
  unfold _newArtNode
  refine (env.machine.run_bind_of_done halloc).trans ?_
  refine (env.machine.run_bind_of_done
    (run_store (f := .version) (Mem.node?_withNode_self t _ g) trivial)).trans ?_
  rw [Mem.setNode_withNode]
  refine (env.machine.run_bind_of_done
    (run_store (f := .new_) (Mem.node?_withNode_self t _ g) trivial)).trans ?_
  rw [Mem.setNode_withNode]
  refine (env.machine.run_bind_of_done
    (run_store (f := .parent) (Mem.node?_withNode_self t _ g) trivial)).trans ?_
  rw [Mem.setNode_withNode]
  rfl

theorem run_sidleCheck_off (hb : env.build.sidleCheck = false) (cond : ArtM Bool) :
    env.machine.run (sidleCheck env.build cond) s = done () s := by
  unfold sidleCheck
  rw [if_neg (by simp [hb])]
  rfl

/-- The copy of a node that is to be in memory of another type. -/
def ArtNode.retyped (n : ArtNode) (t : NodeMemType) : ArtNode :=
  { n with sidleMeta := { n.sidleMeta with type := t } }

/-! ### The copy -/

/-- The memory `s₁` in which the copy `nd` has been made, and nothing has been linked. -/
structure CopyMade (env : Env) (s s₁ : Mem) (n : Addr) (nn nd : ArtNode) : Prop where
  node : s₁.node? n = some (nn.setVersion (setLock nn.version))
  copy : s₁.node? (env.addr s.allocated) = some nd
  ok : nd.Ok
  childAt : ∀ b, nd.childAt b = nn.childAt b
  other : ∀ x, x ≠ n → x ≠ env.addr s.allocated → s₁.heap x = s.heap x
  allocated : s₁.allocated = s.allocated + 1
  root : s₁.root = s.root

theorem setLock_setLock (v : Version) : setLock (setLock v) = setLock v :=
  BitVec.eq_of_getLsbD_eq fun i hi => by
    simp only [setLock, Word.getLsbD_setFlag]
    cases v.getLsbD i <;> simp

/-- The word `w` is the version `v`, with the lock bit or without it. -/
def MayLock (v w : Version) : Prop := w = v ∨ w = setLock v

section MayLock

variable {v w : Version} (h : MayLock v w)

include h

theorem MayLock.count : getCount w = getCount v := by
  rcases h with rfl | rfl
  · rfl
  · exact (view_fields (view_setLock v)).2.1

theorem MayLock.type : getNodeType w = getNodeType v := by
  rcases h with rfl | rfl
  · rfl
  · exact (view_fields (view_setLock v)).2.2.2.1

theorem MayLock.expanding (he : isExpanding v = false) : isExpanding w = false := by
  rcases h with rfl | rfl
  · exact he
  · exact (isExpanding_setLock v).trans he

/-- An unlock brings the version back. -/
theorem MayLock.unlocked (hl : isLocked v = false) (he : isExpanding v = false) :
    unlockedVersion w = v := by
  rcases h with rfl | rfl
  · rw [unlockedVersion, he, if_neg Bool.false_ne_true]
    exact Word.clearFlag_of_flag (by decide) hl
  · exact unlockedVersion_setLock hl he

end MayLock

/-- The lock of a node that is locked already. -/
theorem Mem.lockNode_of_mayLock {w : Version} (hw : MayLock nn.version w)
    (h : s.node? n = some (nn.setVersion w)) :
    (s.lockNode n).node? n = some (nn.setVersion (setLock nn.version)) := by
  rw [Mem.node?_lockNode_self h]
  rcases hw with rfl | rfl
  · rfl
  · exact congrArg (fun v => some (nn.setVersion v)) (setLock_setLock nn.version)

/-- The part of a migration that makes the copy, and the rest `k`, on a node that may be locked. -/
theorem run_copying (hs : s.Fresh env) (hn : s.node? n = some nn) (hok : nn.Ok)
    (hb : env.build.sidleCheck = false) {w : Version} (hw : MayLock nn.version w)
    (t : NodeMemType) :
    ∃ s₁ nd, s₁.node? n = some (nn.setVersion w) ∧ CopyMade env s (s₁.lockNode n) n nn nd ∧
      nd.version = w ∧ nd.prefix_ = nn.prefix_ ∧ nd.parent = nn.parent ∧
      nd.sidleMeta = { nn.sidleMeta with type := t } ∧
      ∀ k : Addr → ArtM Addr, env.machine.run (do
        let newNode ← _newArtNode env nn.layout 0 0 t true
        memcpyNode newNode n nn.layout
        let md ← load newNode .sidleMeta
        store newNode .sidleMeta { md with type := t }
        k newNode) (s.setNode n (nn.setVersion w)) =
          env.machine.run (k (env.addr s.allocated)) s₁ := by
  let s₀ := s.setNode n (nn.setVersion w)
  have hok₁ : (nn.setVersion w).Ok := hok.setVersion hw.type hw.count
  have hs₀ : s₀.Fresh env := hs.setNode (hs.exists_addr_of_node? hn) _
  have hn₁ : s₀.node? n = some (nn.setVersion w) := Mem.node?_setNode_self ..
  have hne : n ≠ env.addr s₀.allocated := hs₀.ne_of_node? hn₁
  obtain ⟨nd₀, g, halloc, hlayout⟩ := run_newArtNode_migration hs₀ hb nn.layout t
  obtain ⟨nd, hcopy, hcopied⟩ := run_memcpyNode (s := s₀.withNode env nn.layout nd₀ g) hne
    ((Mem.node?_withNode_of_ne hne).trans hn₁) (Mem.node?_withNode_self ..) hlayout
  rw [Mem.setNode_withNode] at hcopy
  have hself (nd : ArtNode) :
      (s₀.withNode env nn.layout nd g).node? (env.addr s₀.allocated) = some nd :=
    Mem.node?_withNode_self nn.layout nd g
  have hn₂ : (s₀.withNode env nn.layout (nd.retyped t) g).node? n = some (nn.setVersion w) :=
    (Mem.node?_withNode_of_ne hne).trans hn₁
  refine ⟨s₀.withNode env nn.layout (nd.retyped t) g, nd.retyped t, hn₂, ?_, hcopied.version,
    hcopied.prefix_, hcopied.parent, ?_, fun k => ?_⟩
  · obtain ⟨h₁, h₂, h₃, h₄, h₅⟩ := hcopied.ok hok₁
    refine ⟨Mem.lockNode_of_mayLock hw hn₂, (Mem.node?_lockNode_of_ne hne.symm).trans (hself _),
      ⟨h₁, h₂, h₃, h₄, h₅⟩,
      fun b => (hcopied.childAt hok₁ b).trans (ArtNode.childAt_setVersion hw.count b),
        fun x hxn hx => ?_,
      Mem.allocated_lockNode n, Mem.root_lockNode n⟩
    rw [Mem.heap_lockNode_of_ne hxn, Mem.heap_withNode_of_ne (s := s₀) hx, Mem.setNode_heap,
      Function.update_of_ne hxn]
  · rw [ArtNode.retyped, hcopied.sidleMeta]
    rfl
  · refine (env.machine.run_bind_of_done halloc).trans ?_
    refine (env.machine.run_bind_of_done hcopy).trans ?_
    refine (env.machine.run_bind_of_done (run_load (f := .sidleMeta) (hself nd) trivial)).trans ?_
    refine (env.machine.run_bind_of_done (run_store (f := .sidleMeta) (hself nd) trivial)).trans ?_
    rw [Mem.setNode_withNode]
    rfl

/-! ### What a migration does -/

/-- What the migration of the node `n` needs: neither it nor its parent `P` is locked or old,
and `P` has it in the slot `i` for the byte `b`. -/
structure MovePre (env : Env) (s : Mem) (P n : Addr) (pn nn : ArtNode) (b : UInt8) (i : ℕ) :
    Prop where
  fresh : s.Fresh env
  node : s.node? n = some nn
  ok : nn.Ok
  unlocked : isLocked nn.version = false
  old : isOld nn.version = false
  expanding : isExpanding nn.version = false
  parent : nn.parent = P
  ne : n ≠ P
  node_parent : s.node? P = some pn
  ok_parent : pn.Ok
  unlocked_parent : isLocked pn.version = false
  old_parent : isOld pn.version = false
  slot : pn.slotOf b = some i
  slot_child : pn.child i = n
  unique : ∀ c, pn.childAt c = some n → c = b
  child : ∀ b c, nn.childAt b = some c →
    c ≠ n ∧ c ≠ P ∧ (isLeaf c = true ∨ ∃ m, s.node? c = some m)

/-- The memory after the migration of the node `n` to memory of the type `t`. -/
structure NodeMoved (env : Env) (s s' : Mem) (P n : Addr) (pn nn : ArtNode) (i : ℕ)
    (t : NodeMemType) : Prop where
  copy : ∃ nd, s'.node? (env.addr s.allocated) = some nd ∧ nd.Ok ∧ nd.version = nn.version ∧
    nd.prefix_ = nn.prefix_ ∧ nd.parent = nn.parent ∧
    nd.sidleMeta = { nn.sidleMeta with type := t } ∧ ∀ b, nd.childAt b = nn.childAt b
  old : ∃ nd, s'.node? n = some nd ∧ isOld nd.version = true ∧ isLocked nd.version = false
  parent : s'.node? P = some
    ((pn.setVersion (setLock pn.version)).setChild i (env.addr s.allocated))
  child : ∀ b c nc, nn.childAt b = some c → isLeaf c = false → s.node? c = some nc →
    s'.node? c = some (nc.setParent (env.addr s.allocated))
  other : ∀ x, x ≠ n → x ≠ P → x ≠ env.addr s.allocated →
    (∀ b, nn.childAt b = some x → isLeaf x = true) → s'.heap x = s.heap x
  allocated : s'.allocated = s.allocated + 1
  root : s'.root = s.root

/-- The version word of a retired node, unlocked. -/
theorem unlocked_setOld (v : Version) (he : isExpanding v = false) :
    isOld (unlockedVersion (setOld v)) = true ∧ isLocked (unlockedVersion (setOld v)) = false := by
  have he' : isExpanding (setOld v) = false := by
    rw [← view_expanding, view_setOld]
    exact he
  obtain ⟨-, -, -, -, hold, hlocked, -⟩ := view_fields (view_unlockedVersion he')
  exact ⟨hold.trans (by simp [view_setOld]), hlocked⟩

namespace MovePre

variable (h : MovePre env s P n pn nn b i)

include h

theorem ne_new : n ≠ env.addr s.allocated := h.fresh.ne_of_node? h.node

theorem parent_ne_new : P ≠ env.addr s.allocated := h.fresh.ne_of_node? h.node_parent

theorem child_ne_new {c : Ptr} {b : UInt8} (hc : nn.childAt b = some c) :
    c ≠ env.addr s.allocated := by
  rintro rfl
  rcases (h.child b _ hc).2.2 with hl | ⟨m, hm⟩
  · rw [not_isLeaf_of_aligned (env.addr_aligned _)] at hl
    exact Bool.false_ne_true hl
  · exact h.fresh.ne_of_node? hm rfl

/-- The memory `s₁` in which the copy `nd` has its slot and its children. -/
structure Relinked (env : Env) (s s₁ : Mem) (P n : Addr) (pn nn nd : ArtNode) (i : ℕ) : Prop where
  node : s₁.node? n = some (nn.setVersion (setLock nn.version))
  copy : s₁.node? (env.addr s.allocated) = some nd
  parent : s₁.node? P = some
    ((pn.setVersion (setLock pn.version)).setChild i (env.addr s.allocated))
  child : ∀ b c nc, nn.childAt b = some c → isLeaf c = false → s.node? c = some nc →
    s₁.node? c = some (nc.setParent (env.addr s.allocated))
  other : ∀ x, x ≠ n → x ≠ P → x ≠ env.addr s.allocated →
    (∀ b, nn.childAt b = some x → isLeaf x = true) → s₁.heap x = s.heap x
  allocated : s₁.allocated = s.allocated + 1
  root : s₁.root = s.root

/-- The part of a migration that links the copy, and the rest `k`, below a node that may be
locked. -/
theorem run_relink (hb : env.build.sidleCheck = false) {s₁ : Mem} {nd : ArtNode} {w : Version}
    (hw : MayLock nn.version w) (hn₁ : s₁.node? n = some (nn.setVersion w))
    (hm : CopyMade env s (s₁.lockNode n) n nn nd) (fuel : ℕ) :
    ∃ s₂, s₂.node? n = some (nn.setVersion w) ∧ Relinked env s (s₂.lockNode n) P n pn nn nd i ∧
      ∀ k : Addr → ArtM Addr, env.machine.run (do
        let parent ← artNodeGetLockedParent (fuel + 2) n
        sidleCheck env.build (pure (parent != 0))
        replaceOldChildPtr env.build parent n (env.addr s.allocated)
        replaceOldParentPtr env.build (env.addr s.allocated)
        k parent) s₁ = env.machine.run (k P) s₂ := by
  let new_ := env.addr s.allocated
  let pn₁ := pn.setVersion (setLock pn.version)
  have hP0 : P ≠ 0 := h.fresh.ne_zero_of_node? h.node_parent
  have hn0 : n ≠ 0 := h.fresh.ne_zero_of_node? h.node
  have hlkp := lockedNode pn
  have hother {x : Addr} (hxn : x ≠ n) (hx : x ≠ new_) : s₁.heap x = s.heap x :=
    (Mem.heap_lockNode_of_ne hxn).symm.trans (hm.other x hxn hx)
  have hP : s₁.node? P = some pn :=
    (Mem.node?_congr (hother (Ne.symm h.ne) h.parent_ne_new)).trans h.node_parent
  have hparent : env.machine.run (artNodeGetLockedParent (fuel + 2) n) s₁ =
      done P (s₁.setNode P pn₁) := by
    have hrun : env.machine.run (artNodeGetLockedParent (fuel + 2) n) s₁ = _ :=
      run_artNodeGetLockedParent hn₁ (h.parent.trans_ne hP0) (h.parent ▸ h.ne) (h.parent ▸ hP)
        h.unlocked_parent h.old_parent fuel
    rwa [show (nn.setVersion w).parent = P from h.parent] at hrun
  -- the slot of the parent
  let s₂ := s₁.setNode P (pn₁.setChild i new_)
  have hreplace : env.machine.run (replaceOldChildPtr env.build P n new_) (s₁.setNode P pn₁) =
      done () s₂ := by
    rw [run_replaceOldChildPtr_found (Mem.node?_setNode_self ..) (hlkp.ok h.ok_parent) hP0 new_ hn0
      ((hlkp.slotOf b).trans h.slot) h.slot_child
        fun c hc => h.unique c ((hlkp.childAt c).symm.trans hc),
      Mem.setNode_setNode]
  have hcopy₁ : s₁.node? new_ = some nd :=
    (Mem.node?_lockNode_of_ne h.ne_new.symm).symm.trans hm.copy
  have hnew : s₂.node? new_ = some nd :=
    (Mem.node?_setNode_of_ne _ _ h.parent_ne_new.symm).trans hcopy₁
  have hsame {c : Ptr} (hcn : c ≠ n) (hcP : c ≠ P) (hcnew : c ≠ new_) : s₂.heap c = s.heap c := by
    rw [Mem.setNode_heap, Function.update_of_ne hcP, hother hcn hcnew]
  -- the parent pointers of the children
  obtain ⟨s₃, hadoptRun, hnew₃, hadopt⟩ :
    ∃ s₃, env.machine.run (replaceOldParentPtr env.build new_) s₂ =
      done () s₃ ∧ s₃.heap new_ = s₂.heap new_ ∧
        s₂.Adopted s₃ new_ fun a => ∃ b, nd.childAt b = some a := by
    refine run_replaceOldParentPtr hnew hm.ok (Nat.ne_of_gt (env.addr_pos _)) fun b c hc => ?_
    rw [hm.childAt] at hc
    obtain ⟨hcn, hcP, hcm⟩ := h.child b c hc
    refine ⟨h.child_ne_new hc, hcm.imp id fun ⟨m, hcm⟩ => ⟨m, ?_⟩⟩
    rw [Mem.node?_congr (hsame hcn hcP (h.child_ne_new hc)), hcm]
  have hnotChild {a : Ptr} (ha : ∀ b, nn.childAt b = some a → isLeaf a = true) :
      (∃ b, nd.childAt b = some a) → isLeaf a = true := by
    rintro ⟨b, hb⟩
    exact ha b ((hm.childAt b).symm.trans hb)
  have hn₃ : s₃.node? n = some (nn.setVersion w) := by
    rw [Mem.node?_congr (hadopt.other n h.ne_new
      (hnotChild fun b hb => absurd rfl (h.child b n hb).1)), Mem.node?_setNode_of_ne _ _ h.ne, hn₁]
  refine ⟨s₃, hn₃, ⟨Mem.lockNode_of_mayLock hw hn₃, ?_, ?_, fun b c nc hc hl hnc => ?_,
    fun x hxn hxP hxnew hx => ?_, ?_, ?_⟩, fun k => ?_⟩
  · rw [Mem.node?_lockNode_of_ne h.ne_new.symm, Mem.node?_congr hnew₃, hnew]
  · rw [Mem.node?_lockNode_of_ne (Ne.symm h.ne), Mem.node?_congr (hadopt.other P h.parent_ne_new
      (hnotChild fun b hb => absurd rfl (h.child b P hb).2.1)), Mem.node?_setNode_self]
  · obtain ⟨hcn, hcP, -⟩ := h.child b c hc
    rw [Mem.node?_lockNode_of_ne hcn]
    refine hadopt.child c (h.child_ne_new hc) ⟨b, (hm.childAt b).trans hc⟩ hl nc ?_
    rw [Mem.node?_congr (hsame hcn hcP (h.child_ne_new hc)), hnc]
  · rw [Mem.heap_lockNode_of_ne hxn, hadopt.other x hxnew (hnotChild hx), hsame hxn hxP hxnew]
  · rw [Mem.allocated_lockNode, hadopt.allocated, ← hm.allocated, Mem.allocated_lockNode]
    rfl
  · rw [Mem.root_lockNode, hadopt.root, ← hm.root, Mem.root_lockNode]
    rfl
  · refine (env.machine.run_bind_of_done hparent).trans ?_
    refine (env.machine.run_bind_of_done (run_sidleCheck_off hb _)).trans ?_
    refine (env.machine.run_bind_of_done hreplace).trans ?_
    exact env.machine.run_bind_of_done hadoptRun

/-- The end of a migration: the old node is marked and both nodes are unlocked. -/
theorem run_retire {s₁ : Mem} {m nd : ArtNode} (hm : s₁.node? n = some m)
    (hnd : s₁.node? (env.addr s.allocated) = some nd) (v : Version) :
    env.machine.run (do
        artNodeSetNewNode n (env.addr s.allocated)
        artNodeSetVersion n v
        artNodeUnlock n
        artNodeUnlock (env.addr s.allocated)
        pure P) s₁ =
      done P ((s₁.setNode n
          { m with version := unlockedVersion v, new_ := env.addr s.allocated }).setNode
        (env.addr s.allocated) (nd.setVersion (unlockedVersion nd.version))) := by
  have hne := h.ne_new.symm
  refine (env.machine.run_bind_of_done (run_store (f := .new_) hm trivial)).trans ?_
  refine (env.machine.run_bind_of_done
    (run_store (f := .version) (Mem.node?_setNode_self ..) trivial)).trans ?_
  rw [Mem.setNode_setNode]
  refine (env.machine.run_bind_of_done (run_artNodeUnlock (Mem.node?_setNode_self ..))).trans ?_
  rw [Mem.setNode_setNode]
  refine (env.machine.run_bind_of_done
    (run_artNodeUnlock ((Mem.node?_setNode_of_ne _ _ hne).trans hnd))).trans ?_
  rfl

/-- What the migration of a node does that may be locked. -/
theorem run_migrateCopy_of_mayLock (hb : env.build.sidleCheck = false) {w : Version}
    (hw : MayLock nn.version w) (t : NodeMemType) (fuel : ℕ) :
    ∃ s', env.machine.run (migrateCopy env (fuel + 2) n t w) (s.setNode n (nn.setVersion w)) =
        done P s' ∧ NodeMoved env s s' P n pn nn i t := by
  have hty : getNodeType w = nn.layout := hw.type.trans h.ok.type
  obtain ⟨s₁, nd, hn₁, hm, hversion, hprefix, hparent, hmeta, hcopy⟩ :=
    run_copying h.fresh h.node h.ok hb hw t
  obtain ⟨s₂, hn₂, hl, hrelink⟩ := h.run_relink hb hw hn₁ hm fuel
  have hunlocked : unlockedVersion nd.version = nn.version := by
    rw [hversion, hw.unlocked h.unlocked h.expanding]
  obtain ⟨hold, hfree⟩ := unlocked_setOld w (hw.expanding h.expanding)
  have hc : getCount nn.version = getCount nd.version := hversion ▸ hw.count.symm
  have ht : getNodeType nn.version = getNodeType nd.version := hversion ▸ hw.type.symm
  have hcopy₂ := (Mem.node?_lockNode_of_ne h.ne_new.symm).symm.trans hl.copy
  have hend := h.run_retire hn₂ hcopy₂ (setOld w)
  refine ⟨_, Eq.trans ?_ hend,
    ⟨⟨_, Mem.node?_setNode_self .., ?_, hunlocked, hprefix, hparent, hmeta,
    fun b => ?_⟩, ⟨_, (Mem.node?_setNode_of_ne _ _ h.ne_new).trans
      (Mem.node?_setNode_self ..), hold,
    hfree⟩, ?_, fun b c nc hc hlf hnc => ?_, fun x hxn hxP hxnew hx => ?_,
    ?_, ?_⟩⟩
  · unfold migrateCopy
    rw [hty]
    exact (hcopy _).trans (hrelink _)
  · rw [hunlocked]
    exact hm.ok.setVersion ht hc
  · rw [hunlocked, ArtNode.childAt_setVersion hc, hm.childAt]
  · rw [Mem.node?_setNode_of_ne _ _ h.parent_ne_new, Mem.node?_setNode_of_ne _ _ (Ne.symm h.ne),
      ← hl.parent, Mem.node?_lockNode_of_ne (Ne.symm h.ne)]
  · rw [Mem.node?_setNode_of_ne _ _ (h.child_ne_new hc),
      Mem.node?_setNode_of_ne _ _ (h.child b c hc).1,
      ← hl.child b c nc hc hlf hnc, Mem.node?_lockNode_of_ne (h.child b c hc).1]
  · rw [Mem.setNode_heap, Function.update_of_ne hxnew, Mem.setNode_heap, Function.update_of_ne hxn,
      ← hl.other x hxn hxP hxnew hx, Mem.heap_lockNode_of_ne hxn]
  · rw [← hl.allocated, Mem.allocated_lockNode]
    rfl
  · rw [← hl.root, Mem.root_lockNode]
    rfl

/-- **What the migration of a node does.** -/
theorem run_migrateCopy (hb : env.build.sidleCheck = false) (t : NodeMemType) (fuel : ℕ) :
    ∃ s', env.machine.run (migrateCopy env (fuel + 2) n t (setLock nn.version)) (s.lockNode n) =
        done P s' ∧ NodeMoved env s s' P n pn nn i t := by
  rw [Mem.lockNode_of_node? h.node]
  exact h.run_migrateCopy_of_mayLock hb (Or.inr rfl) t fuel

end MovePre

end Sidle.Art
