import Sidle.Art.Exec

/-!
# What the node operations do

One equation for each function of `Sidle.Art.Node` that works on a node without reaching
into another: what it returns and the memory it leaves, when it runs without
interference.  Nothing after this module unfolds these functions.

## Main results

* `run_newArtNodeOf`, `run_allocLeaf` — allocation.
* `run_artNodeLock`, `run_artNodeLock_locked`, `run_artNodeGetLockedParent` — locks.
* `run_artNodeFindChild`, `run_addChildBody` — children.
* `run_artNodePrefixCompare`, `run_leafCompareLoop` — comparisons.
-/

namespace Sidle.Art

open Prog Machine Outcome

variable {env : Env} {s : Mem} {an : Addr} {n : ArtNode}

/-! ### Allocation -/

/-- The depth of a new child of `parent`. -/
def Mem.childDepth (s : Mem) (parent : Addr) : ℕ :=
  match s.node? parent with
  | some n => (n.sidleMeta.depth + 1) % 256
  | none => 1

/-- The memory type of a new child of `parent`. -/
def Mem.newType (s : Mem) (parent : Addr) (target : NodeMemType) : NodeMemType :=
  if target = .unknown then
    match s.node? parent with
    | some n => s.global.decideNewNodePosition n.sidleMeta.type (s.childDepth parent)
    | none => s.global.decideNewNodePosition .unknown (s.childDepth parent)
  else target

/-- A pointer to a node, or null. -/
def Mem.NullOrNode (s : Mem) (p : Addr) : Prop :=
  if p = 0 then s.node? 0 = none else ∃ n, s.node? p = some n

theorem Mem.Fresh.node?_zero (hs : s.Fresh env) : s.node? 0 = none := by
  cases h : s.node? 0 with
  | none => rfl
  | some n =>
    obtain ⟨i, -, hi⟩ := hs.exists_addr_of_node? h
    exact absurd hi (Nat.ne_of_gt (env.addr_pos i))

theorem Mem.Fresh.nullOrNode_zero (hs : s.Fresh env) : s.NullOrNode 0 := by
  simpa [Mem.NullOrNode] using hs.node?_zero

theorem Mem.Fresh.ne_zero_of_node? (hs : s.Fresh env) (h : s.node? an = some n) : an ≠ 0 := by
  rintro rfl
  simp [hs.node?_zero] at h

theorem Mem.Fresh.nullOrNode_of_node? (hs : s.Fresh env) (h : s.node? an = some n) :
    s.NullOrNode an := by
  simp [NullOrNode, hs.ne_zero_of_node? h, h]

theorem run_childDepth {parent : Addr} (hp : s.NullOrNode parent) :
    env.machine.run (childDepth parent) s = done (s.childDepth parent) s := by
  unfold childDepth Mem.childDepth
  unfold Mem.NullOrNode at hp
  split at hp
  · rw [if_pos ‹parent = 0›, ‹parent = 0›, hp]
    rfl
  · obtain ⟨pn, hpn⟩ := hp
    rw [if_neg ‹¬ parent = 0›, run_bind_of_done _ (run_load (f := .sidleMeta) hpn trivial), hpn]
    rfl

theorem run_newNodeType {parent : Addr} (hp : s.NullOrNode parent) (target : NodeMemType) :
    env.machine.run (newNodeType parent target (s.childDepth parent)) s =
      done (s.newType parent target) s := by
  unfold newNodeType Mem.newType
  unfold Mem.NullOrNode at hp
  by_cases ht : target = .unknown
  · rw [if_pos ht, if_pos ht]
    split at hp
    · rw [if_pos ‹parent = 0›]
      simp only [‹parent = 0›, hp]
      exact run_onGlobal rfl
    · obtain ⟨pn, hpn⟩ := hp
      rw [if_neg ‹¬ parent = 0›, hpn, run_bind_of_done _ (run_load (f := .sidleMeta) hpn trivial)]
      exact run_onGlobal rfl
  · rw [if_neg ht, if_neg ht]
    rfl

variable (env) in
/-- Accounting for a block that is not a migration never fails as long as the usage is
not negative. -/
theorem run_accountAlloc (hu : 0 ≤ s.global.curLocalMemoryUsage) (size : ℤ) (hsize : 0 ≤ size)
    (type : NodeMemType) (curDepth : ℕ) (isLeaf : Bool) :
    ∃ g, env.machine.run (accountAlloc env type curDepth size false isLeaf) s =
        done () (s.setGlobal g) ∧ 0 ≤ g.curLocalMemoryUsage := by
  unfold accountAlloc
  by_cases ht : type = .local_
  · subst ht
    simp only [decide_true, Bool.true_or, if_true]
    generalize (if isLeaf = true then curDepth else leafDepth) = d
    let g' := s.global.accountLocalMemory .local_ d size false isLeaf
    have hg' : 0 ≤ g'.curLocalMemoryUsage := by
      change 0 ≤ s.global.curLocalMemoryUsage + size
      omega
    refine ⟨g'.reactToUsage (env.checkMemoryUsage g'.curLocalMemoryUsage g'.maxLocalMemoryUsage),
      run_onGlobal ?_, ?_⟩
    · have hneg : ¬ g'.curLocalMemoryUsage < 0 := by omega
      simp only [Global.updateLocalMemoryUsage]
      rw [if_neg (by simpa using fun _ => hg')]
      rfl
    · rwa [Global.curLocalMemoryUsage_reactToUsage]
  · simp only [ht, decide_false, Bool.or_false, Bool.false_eq_true, if_false]
    exact ⟨s.global, rfl, hu⟩

/-- The metadata `sidle_alloc` gives a new node or leaf. -/
def Mem.newMeta (s : Mem) (parent : Addr) (target : NodeMemType) : NodeMetadata :=
  NodeMetadata.make (s.newType parent target) (s.childDepth parent)

/-- The memory after a node block has been allocated and filled. -/
def Mem.withNode (env : Env) (s : Mem) (t : NodeType) (nd : ArtNode) (g : Global) : Mem :=
  ((env.mallocNode s t).setNode (env.addr s.allocated) nd).setGlobal g

/-- The memory after a leaf block has been allocated and filled. -/
def Mem.withLeaf (env : Env) (s : Mem) (len : ℕ) (l : LeafNode) (g : Global) : Mem :=
  ((env.mallocLeaf s len).setLeaf (env.addr s.allocated) l).setGlobal g

@[simp] theorem Mem.node?_withNode_self (t : NodeType) (nd : ArtNode) (g : Global) :
    (s.withNode env t nd g).node? (env.addr s.allocated) = some nd := by simp [withNode]

@[simp] theorem Mem.leaf?_withLeaf_self (len : ℕ) (l : LeafNode) (g : Global) :
    (s.withLeaf env len l g).leaf? (env.addr s.allocated) = some l := by simp [withLeaf]

@[simp] theorem Mem.setNode_withNode (t : NodeType) (nd nd' : ArtNode) (g : Global) :
    (s.withNode env t nd g).setNode (env.addr s.allocated) nd' = s.withNode env t nd' g := by
  simp [withNode]

@[simp] theorem Mem.setLeaf_withLeaf (len : ℕ) (l l' : LeafNode) (g : Global) :
    (s.withLeaf env len l g).setLeaf (env.addr s.allocated) l' = s.withLeaf env len l' g := by
  simp [withLeaf]

variable (env) in
theorem run_sidleAllocNode (hu : 0 ≤ s.global.curLocalMemoryUsage)
    {parent : Addr} (hp : s.NullOrNode parent) {t : NodeType} {oldSize : ℕ}
    (ho : oldSize ≤ t.size) :
    ∃ g, env.machine.run (sidleAllocNode env t parent .unknown false oldSize) s =
        done (env.addr s.allocated) (s.withNode env t
          { env.blankNode s t with sidleMeta := s.newMeta parent .unknown } g) ∧
      0 ≤ g.curLocalMemoryUsage := by
  let s' := (env.mallocNode s t).setNode (env.addr s.allocated)
    { env.blankNode s t with sidleMeta := s.newMeta parent .unknown }
  obtain ⟨g, hg, hgu⟩ := run_accountAlloc env (s := s') hu
    ((t.size : ℤ) - oldSize) (by omega) (s.newType parent .unknown) (s.childDepth parent) false
  refine ⟨g, ?_, hgu⟩
  unfold sidleAllocNode
  refine (env.machine.run_bind_of_done (run_childDepth hp)).trans ?_
  refine (env.machine.run_bind_of_done (run_newNodeType hp _)).trans ?_
  refine (env.machine.run_bind_of_done (run_mallocNode t)).trans ?_
  refine (env.machine.run_bind_of_done
    (run_store (f := .sidleMeta) (env.node?_mallocNode_self s t) trivial)).trans ?_
  exact (env.machine.run_bind_of_done hg).trans rfl

/-- What `new_art_node4` … `new_art_node256` put into the new block. -/
structure NewNode (s : Mem) (t : NodeType) (par : Addr) (nd : ArtNode) : Prop where
  layout : nd.layout = t
  version : nd.version = setType 0 t
  new_ : nd.new_ = 0
  parent : nd.parent = 0
  sidleMeta : nd.sidleMeta = s.newMeta par .unknown
  index : t = .node48 → ∀ b, nd.index b = 0
  child : t = .node256 → ∀ i < 256, nd.child i = 0

/-- One round of a loop that clears an array. -/
theorem update_ite_lt {α : Type} (f : ℕ → α) (x : α) (i : ℕ) :
    Function.update (fun j => if j < i then x else f j) i x =
      fun j => if j < i + 1 then x else f j := by
  funext j
  by_cases hji : j = i
  · simp [hji]
  · rw [Function.update_of_ne hji]
    simp only [show j < i + 1 ↔ j < i by omega]

theorem update_ite_toNat_lt {α : Type} (f : UInt8 → α) (x : α) {i : ℕ} (hi : i < 256) :
    Function.update (fun b => if b.toNat < i then x else f b) (UInt8.ofNat i) x =
      fun b => if b.toNat < i + 1 then x else f b := by
  funext b
  have hb : b = UInt8.ofNat i ↔ b.toNat = i := by
    rw [← UInt8.toNat_inj, UInt8.toNat_ofNat', Nat.mod_eq_of_lt (by omega)]
  by_cases hbi : b = UInt8.ofNat i
  · have hlt : b.toNat < i + 1 := Nat.lt_succ_of_le (Nat.le_of_eq (hb.mp hbi))
    rw [if_pos hlt, hbi, Function.update_self]
  · have := hb.not.mp hbi
    rw [Function.update_of_ne hbi]
    simp only [show b.toNat < i + 1 ↔ b.toNat < i by omega]

variable (env) in
/-- The loops that clear the arrays of a new node. -/
theorem run_memsetBody (h : s.node? an = some n) {t : NodeType} (ht : n.layout = t) :
    ∃ index child, env.machine.run (memsetBody an t) s =
        done () (s.setNode an { n with index := index, child := child }) ∧
      (t = .node48 → ∀ b, index b = 0) ∧ (t = .node256 → ∀ i < 256, child i = 0) := by
  cases t with
  | node4 | node16 =>
    refine ⟨n.index, n.child, ?_, by simp, by simp⟩
    exact congrArg (done ()) (Mem.setNode_eq_self h).symm
  | node48 =>
    let index (i : ℕ) (b : UInt8) : UInt8 := if b.toNat < i then 0 else n.index b
    have hloop := env.machine.run_forRange 0 256
      (p := fun i => store an (.index (UInt8.ofNat i)) 0)
      (f := fun i => s.setNode an { n with index := index i }) fun i _ hi => by
        refine (run_store (f := .index (UInt8.ofNat i)) (n := { n with index := index i })
          (Mem.node?_setNode_self ..) ht).trans ?_
        simp only [NodeField.set, Mem.setNode_setNode, index, update_ite_toNat_lt n.index 0
          (by omega : i < 256)]
    refine ⟨index 256, n.child, ?_, fun _ b => by simp [index, b.toNat_lt], by simp⟩
    have h0 : s.setNode an { n with index := index 0 } = s := by
      have : index 0 = n.index := by funext b; simp [index]
      rw [this]
      exact Mem.setNode_eq_self h
    rw [h0] at hloop
    exact hloop
  | node256 =>
    let child (i j : ℕ) : Ptr := if j < i then 0 else n.child j
    have hloop := env.machine.run_forRange 0 256
      (p := fun i => store an (.child i) 0)
      (f := fun i => s.setNode an { n with child := child i }) fun i _ hi => by
        refine (run_store (f := .child i) (Mem.node?_setNode_self ..) ?_).trans ?_
        · simpa [NodeField.InBounds, ht, NodeType.capacity] using hi
        · simp only [NodeField.set, Mem.setNode_setNode, child, update_ite_lt n.child 0]
    refine ⟨n.index, child 256, ?_, by simp, fun _ i hi => by simp [child, hi]⟩
    have h0 : s.setNode an { n with child := child 0 } = s := by
      have : child 0 = n.child := by funext j; simp [child]
      rw [this]
      exact Mem.setNode_eq_self h
    rw [h0] at hloop
    exact hloop

variable (env) in
theorem run_newArtNodeOf (hu : 0 ≤ s.global.curLocalMemoryUsage) {parent : Addr}
    (hp : s.NullOrNode parent) {t : NodeType} (oldSize : ℕ) (ho : oldSize ≤ t.size) :
    ∃ nd g, env.machine.run (newArtNodeOf env t parent oldSize) s =
        done (env.addr s.allocated) (s.withNode env t nd g) ∧
      NewNode s t parent nd ∧ 0 ≤ g.curLocalMemoryUsage := by
  obtain ⟨g, hg, hgu⟩ := run_sidleAllocNode env hu hp ho
  let nd₀ : ArtNode := { env.blankNode s t with
    sidleMeta := s.newMeta parent .unknown, version := setType 0 t, new_ := 0, parent := 0 }
  obtain ⟨index, child, hset, hindex, hchild⟩ := run_memsetBody env (n := nd₀)
    (s := s.withNode env t nd₀ g) (Mem.node?_withNode_self t nd₀ g) (t := t) rfl
  refine ⟨{ nd₀ with index := index, child := child }, g, ?_,
    ⟨rfl, rfl, rfl, rfl, rfl, hindex, hchild⟩, hgu⟩
  unfold newArtNodeOf _newArtNode
  simp only [bind_assoc', pure_eq_ret, ret_bind]
  refine (env.machine.run_bind_of_done hg).trans ?_
  refine (env.machine.run_bind_of_done
    (run_store (f := .version) (Mem.node?_withNode_self t _ g) trivial)).trans ?_
  rw [Mem.setNode_withNode]
  refine (env.machine.run_bind_of_done
    (run_store (f := .new_) (Mem.node?_withNode_self t _ g) trivial)).trans ?_
  rw [Mem.setNode_withNode]
  refine (env.machine.run_bind_of_done
    (run_store (f := .parent) (Mem.node?_withNode_self t _ g) trivial)).trans ?_
  rw [Mem.setNode_withNode]
  refine (env.machine.run_bind_of_done
    (run_load (f := .version) (Mem.node?_withNode_self t _ g) trivial)).trans ?_
  refine (env.machine.run_bind_of_done
    (run_store (f := .version) (Mem.node?_withNode_self t _ g) trivial)).trans ?_
  rw [Mem.setNode_withNode]
  refine (env.machine.run_bind_of_done hset).trans ?_
  rw [Mem.setNode_withNode]
  rfl

/-- What `alloc_leaf` puts into the new block. -/
def newLeaf (s : Mem) (parent : Addr) (key : Key) (target : NodeMemType) : LeafNode :=
  ⟨UInt8.ofNat key.length, s.newMeta parent target, 0, key⟩

/-- The memory in which `alloc_leaf` accounts for its block. -/
def Mem.leafHeader (env : Env) (s : Mem) (parent : Addr) (len : ℕ) (target : NodeMemType) : Mem :=
  (env.mallocLeaf s len).setLeaf (env.addr s.allocated)
    { Env.blankLeaf len with metadata := s.newMeta parent target, accessTime := 0 }

variable (env) in
/-- `alloc_leaf` up to the accounting. -/
theorem run_allocLeaf_header {parent : Addr} (hp : s.NullOrNode parent) (key : Key)
    (target : NodeMemType) (isMigration : Bool) :
    env.machine.run (allocLeaf env parent key target isMigration) s =
      env.machine.run (do
        accountAlloc env (s.newType parent target) (s.childDepth parent) (4 + key.length)
          isMigration
          true
        storeLeaf (env.addr s.allocated) .keyLength (UInt8.ofNat key.length)
        storeLeaf (env.addr s.allocated) .keys key
        pure (makeLeaf (env.addr s.allocated + 1)))
          (s.leafHeader env parent key.length target) := by
  unfold allocLeaf
  refine (env.machine.run_bind_of_done (run_childDepth hp)).trans ?_
  refine (env.machine.run_bind_of_done (run_newNodeType hp _)).trans ?_
  refine (env.machine.run_bind_of_done (run_mallocLeaf _)).trans ?_
  refine (env.machine.run_bind_of_done
    (run_storeLeaf (f := .metadata) (env.leaf?_mallocLeaf_self s _) trivial)).trans ?_
  refine (env.machine.run_bind_of_done
    (run_storeLeaf (f := .accessTime) (Mem.leaf?_setLeaf_self ..) trivial)).trans ?_
  rw [Mem.setLeaf_setLeaf]
  rfl

variable (env) in
/-- `alloc_leaf`, once it is known what the accounting does. -/
theorem run_allocLeaf_of_account {parent : Addr} (hp : s.NullOrNode parent) (key : Key)
    (target : NodeMemType) {isMigration : Bool} {g : Global}
    (hg : env.machine.run (accountAlloc env (s.newType parent target) (s.childDepth parent)
        (4 + key.length) isMigration true) (s.leafHeader env parent key.length target) =
      done () ((s.leafHeader env parent key.length target).setGlobal g)) :
    env.machine.run (allocLeaf env parent key target isMigration) s =
      done (env.addr s.allocated + 1)
        (s.withLeaf env key.length (newLeaf s parent key target) g) := by
  refine (run_allocLeaf_header env hp key target isMigration).trans ?_
  refine (env.machine.run_bind_of_done hg).trans ?_
  let l₁ : LeafNode := { Env.blankLeaf key.length with
    metadata := s.newMeta parent target, accessTime := 0 }
  refine (env.machine.run_bind_of_done
    (run_storeLeaf (f := .keyLength) (Mem.leaf?_withLeaf_self _ l₁ g) trivial)).trans ?_
  rw [Mem.setLeaf_withLeaf]
  refine (env.machine.run_bind_of_done
    (run_storeLeaf (f := .keys) (Mem.leaf?_withLeaf_self _ _ g) trivial)).trans ?_
  rw [makeLeaf_succ (env.addr_aligned _)]
  refine congrArg (done _) ?_
  exact Mem.setLeaf_withLeaf ..

variable (env) in
theorem run_allocLeaf (hu : 0 ≤ s.global.curLocalMemoryUsage) {parent : Addr}
    (hp : s.NullOrNode parent) (key : Key) (target : NodeMemType) :
    ∃ g, env.machine.run (allocLeaf env parent key target false) s =
        done (env.addr s.allocated + 1)
          (s.withLeaf env key.length (newLeaf s parent key target) g) ∧
      0 ≤ g.curLocalMemoryUsage := by
  obtain ⟨g, hg, hgu⟩ := run_accountAlloc env (s := s.leafHeader env parent key.length target) hu
    (4 + key.length : ℤ) (by omega) (s.newType parent target) (s.childDepth parent) true
  exact ⟨g, run_allocLeaf_of_account env hp key target hg, hgu⟩

theorem run_updateAccess {a : Addr} {l : LeafNode} (h : s.leaf? a = some l) :
    env.machine.run (updateAccess a) s =
      done () (s.setLeaf a { l with accessTime := (l.accessTime + 1) % 2 ^ 16 }) := by
  unfold updateAccess
  refine (env.machine.run_bind_of_done (run_loadLeaf (f := .accessTime) h trivial)).trans ?_
  exact run_storeLeaf (f := .accessTime) h trivial

/-! ### Locks -/

/-- The node with another version word. -/
def ArtNode.setVersion (n : ArtNode) (v : Version) : ArtNode := { n with version := v }

@[simp] theorem ArtNode.setVersion_version (n : ArtNode) (v : Version) :
    (n.setVersion v).version = v := rfl

@[simp] theorem ArtNode.setVersion_setVersion (n : ArtNode) (v w : Version) :
    (n.setVersion v).setVersion w = n.setVersion w := rfl

@[simp] theorem ArtNode.setVersion_self (n : ArtNode) : n.setVersion n.version = n := rfl

/-- A node that is neither locked nor old is locked at once. -/
theorem run_artNodeLock (h : s.node? an = some n) (hl : isLocked n.version = false)
    (ho : isOld n.version = false) (fuel : ℕ) :
    env.machine.run (artNodeLock (fuel + 1) an) s =
      done 0 (s.setNode an (n.setVersion (setLock n.version))) := by
  unfold artNodeLock artNodeGetVersion
  refine (env.machine.run_bind_of_done (run_load (f := .version) h trivial)).trans ?_
  simp only [NodeField.get, hl, ho, Bool.false_eq_true, if_false]
  exact (env.machine.run_bind_of_done (run_casVersion h _)).trans rfl

/-- A locked node is never locked, however long the attempt. -/
theorem run_artNodeLock_locked (h : s.node? an = some n) (hl : isLocked n.version = true)
    (fuel : ℕ) : env.machine.run (artNodeLock fuel an) s = diverged := by
  induction fuel with
  | zero => rfl
  | succ fuel ih =>
    unfold artNodeLock artNodeGetVersion
    refine (env.machine.run_bind_of_done (run_load (f := .version) h trivial)).trans ?_
    simpa only [NodeField.get, hl, if_true] using ih

theorem run_artNodeUnlock (h : s.node? an = some n) :
    env.machine.run (artNodeUnlock an) s =
      done () (s.setNode an (n.setVersion (unlockedVersion n.version))) := by
  unfold artNodeUnlock
  refine (env.machine.run_bind_of_done (run_load (f := .version) h trivial)).trans ?_
  exact run_store (f := .version) h trivial

theorem run_artNodeGetStableExpandVersion (h : s.node? an = some n)
    (he : isExpanding n.version = false) (fuel : ℕ) :
    env.machine.run (artNodeGetStableExpandVersion (fuel + 1) an) s = done n.version s := by
  unfold artNodeGetStableExpandVersion artNodeGetVersionUnsafe
  refine (env.machine.run_bind_of_done (run_load (f := .version) h trivial)).trans ?_
  simp [NodeField.get, he]

theorem run_artNodeGetVersion (h : s.node? an = some n) :
    env.machine.run (artNodeGetVersion an) s = done n.version s :=
  run_load (f := .version) h trivial

/-- The parent of a node without a parent. -/
theorem run_artNodeGetLockedParent_null (h : s.node? an = some n) (hp : n.parent = 0) (fuel : ℕ) :
    env.machine.run (artNodeGetLockedParent (fuel + 1) an) s = done 0 s := by
  unfold artNodeGetLockedParent artNodeGetParent
  refine (env.machine.run_bind_of_done (run_load (f := .parent) h trivial)).trans ?_
  simp [NodeField.get, hp]

/-- The parent of a node is locked at once when it is neither locked nor old. -/
theorem run_artNodeGetLockedParent {pn : ArtNode} (h : s.node? an = some n) (hp : n.parent ≠ 0)
    (hne : an ≠ n.parent) (hpn : s.node? n.parent = some pn) (hl : isLocked pn.version = false)
    (ho : isOld pn.version = false) (fuel : ℕ) :
    env.machine.run (artNodeGetLockedParent (fuel + 2) an) s =
      done n.parent (s.setNode n.parent (pn.setVersion (setLock pn.version))) := by
  unfold artNodeGetLockedParent artNodeGetParent
  refine (env.machine.run_bind_of_done (run_load (f := .parent) h trivial)).trans ?_
  simp only [NodeField.get, hp, if_false]
  refine (env.machine.run_bind_of_done (run_artNodeLock hpn hl ho fuel)).trans ?_
  simp only [ne_eq, not_true_eq_false, if_false]
  have h' : (s.setNode n.parent (pn.setVersion (setLock pn.version))).node? an = some n := by
    rw [Mem.node?_setNode_of_ne _ _ hne, h]
  refine (env.machine.run_bind_of_done (run_load (f := .parent) h' trivial)).trans ?_
  simp [NodeField.get]

theorem run_artNodeGetLockedParent_locked {pn : ArtNode} (h : s.node? an = some n)
    (hp : n.parent ≠ 0) (hpn : s.node? n.parent = some pn) (hl : isLocked pn.version = true)
    (fuel : ℕ) : env.machine.run (artNodeGetLockedParent fuel an) s = diverged := by
  cases fuel with
  | zero => rfl
  | succ fuel =>
    unfold artNodeGetLockedParent artNodeGetParent
    refine (env.machine.run_bind_of_done (run_load (f := .parent) h trivial)).trans ?_
    simp only [NodeField.get, hp, if_false]
    exact env.machine.run_bind_of_diverged (run_artNodeLock_locked hpn hl fuel)

/-! ### Children -/

/-- The search of a `node4` finds the slot, from any position on. -/
theorem run_findKey (h : s.node? an = some n) (ht : n.layout = .node4) (byte : UInt8) (k i : ℕ)
    (hk : i + k ≤ 4) :
    env.machine.run (findKey an byte k i) s =
      done (((List.range' i k).find? fun j => n.key j == byte).map fun j => .child an j) s := by
  induction k generalizing i with
  | zero => rfl
  | succ k ih =>
    unfold findKey
    have hb : (NodeField.key i).InBounds n.layout := by
      simp only [NodeField.InBounds, ht, NodeType.keyCapacity]
      omega
    refine (env.machine.run_bind_of_done (run_load (f := .key i) h hb)).trans ?_
    rw [List.range'_succ, List.find?_cons]
    by_cases hkey : n.key i = byte
    · simp [NodeField.get, hkey]
    · simp only [NodeField.get, hkey, if_false, beq_eq_false_iff_ne.mpr hkey]
      exact ih (i + 1) (by omega)

/-- The child search of a node finds the slot of the byte. -/
theorem run_artNodeFindChild (h : s.node? an = some n) (hok : n.Ok) (byte : UInt8) :
    env.machine.run (artNodeFindChild an n.version byte) s =
      done ((n.slotOf byte).map fun i => .child an i) s := by
  unfold artNodeFindChild ArtNode.slotOf
  rw [hok.type]
  have hcount := hok.count_le
  cases ht : n.layout with
  | node4 =>
    rw [ht] at hcount
    simp only [run_findKey h ht byte (getCount n.version) 0
      (by simpa [NodeType.capacity] using hcount),
      List.range_eq_range']
  | node16 =>
    rw [ht] at hcount
    refine (env.machine.run_bind_of_done (run_load (f := .keys) h ht)).trans ?_
    simp only [NodeField.get, matchKeys, Nat.min_eq_left (show getCount n.version ≤ 16 from hcount)]
    rfl
  | node48 =>
    refine (env.machine.run_bind_of_done (run_load (f := .index byte) h ht)).trans ?_
    simp only [NodeField.get]
    by_cases hi : n.index byte = 0 <;> simp [hi]
  | node256 =>
    have hb : (NodeField.child byte.toNat).InBounds n.layout := by
      simpa [NodeField.InBounds, ht, NodeType.capacity] using byte.toNat_lt
    refine (env.machine.run_bind_of_done (run_load (f := .child byte.toNat) h hb)).trans ?_
    simp only [NodeField.get]
    by_cases hi : n.child byte.toNat = 0 <;> simp [hi]

instance (n : ArtNode) : Decidable n.HasRoom := inferInstanceAs (Decidable (_ ∨ _))

theorem run_artNodeIsFull (h : s.node? an = some n) (hok : n.Ok) :
    env.machine.run (artNodeIsFull an) s = done (!decide n.HasRoom) s := by
  unfold artNodeIsFull
  refine (env.machine.run_bind_of_done (run_load (f := .version) h trivial)).trans ?_
  simp only [NodeField.get, hok.type]
  have hcount := hok.count_le
  cases ht : n.layout <;> rw [ht] at hcount
  case node256 => simp [ArtNode.HasRoom, ht]
  all_goals
    rcases Nat.lt_or_eq_of_le hcount with hlt | heq
    · have hr : n.HasRoom := Or.inr (by rwa [ht])
      have hne := Nat.ne_of_lt hlt
      simp only [NodeType.capacity] at hne
      simp [hr, hne]
    · have hr : ¬ n.HasRoom := by simp [ArtNode.HasRoom, ht, heq]
      simp only [NodeType.capacity] at heq
      simp [hr, heq]

/-- Adding a child to a node that has room. -/
theorem run_addChildBody (h : s.node? an = some n) (hok : n.Ok) (hr : n.HasRoom) (byte : UInt8)
    (p : Ptr) :
    env.machine.run (addChildBody an n.version byte p) s =
      done () (s.setNode an (n.addChild byte p)) := by
  unfold addChildBody
  rw [hok.type]
  rcases ArtNode.layout_cases n.layout with hk | hk | hk
  · have hlt := hr.resolve_left (ArtNode.ne_node256 hk)
    have hkey : getCount n.version < n.layout.keyCapacity := by
      rcases hk with hk | hk <;> simpa [hk, NodeType.capacity, NodeType.keyCapacity] using hlt
    have hrun : env.machine.run (do
        store an (.child (getCount n.version)) p
        store an (.key (getCount n.version)) byte
        store an .version (incrCount n.version)) s =
        done () (s.setNode an (n.addChild byte p)) := by
      refine (env.machine.run_bind_of_done
        (run_store (f := .child (getCount n.version)) h hlt)).trans ?_
      refine (env.machine.run_bind_of_done (run_store (f := .key (getCount n.version))
        (Mem.node?_setNode_self ..) (by exact hkey))).trans ?_
      refine (run_store (f := .version) (Mem.node?_setNode_self ..) trivial).trans ?_
      rw [Mem.setNode_setNode, Mem.setNode_setNode, ArtNode.addChild_keyed hk]
      rfl
    rcases hk with hk | hk <;> simpa only [hk] using hrun
  · have hlt := hr.resolve_left (by simp [hk])
    have hcount : getCount (incrCount n.version) = getCount n.version + 1 := by
      rw [← view_count, view_incrCount n.version]
      have := ArtNode.count_lt_of_hasRoom hr (by simp [hk])
      omega
    simp only [hk, hcount, Nat.add_sub_cancel]
    refine (env.machine.run_bind_of_done
      (run_store (f := .child (getCount n.version)) h hlt)).trans ?_
    refine (env.machine.run_bind_of_done
      (run_store (f := .index byte) (Mem.node?_setNode_self ..) (by exact hk))).trans ?_
    refine (run_store (f := .version) (Mem.node?_setNode_self ..) trivial).trans ?_
    rw [Mem.setNode_setNode, Mem.setNode_setNode, ArtNode.addChild_node48 hk]
    rfl
  · simp only [hk]
    have hb : (NodeField.child byte.toNat).InBounds n.layout := by
      simpa [NodeField.InBounds, hk, NodeType.capacity] using byte.toNat_lt
    refine (run_store (f := .child _) h hb).trans ?_
    rw [ArtNode.addChild_node256 hk]
    rfl

/-! ### Comparisons -/

/-- The first position from `i` on, at most `k` further, at which `P` fails. -/
def scan (P : ℕ → Prop) [DecidablePred P] : ℕ → ℕ → ℕ
  | 0, i => i
  | k + 1, i => if P i then scan P k (i + 1) else i

section Scan

variable {P : ℕ → Prop} [DecidablePred P] {k i : ℕ}

theorem le_scan : i ≤ scan P k i := by
  induction k generalizing i with
  | zero => exact Nat.le_refl _
  | succ k ih =>
    unfold scan
    split
    · exact Nat.le_trans (Nat.le_succ i) ih
    · exact Nat.le_refl _

theorem scan_le : scan P k i ≤ i + k := by
  induction k generalizing i with
  | zero => exact Nat.le_refl _
  | succ k ih =>
    unfold scan
    split
    · exact Nat.le_trans ih (by omega)
    · omega

theorem of_lt_scan {j : ℕ} (hi : i ≤ j) (hj : j < scan P k i) : P j := by
  induction k generalizing i with
  | zero => exact absurd hj (by simp only [scan]; omega)
  | succ k ih =>
    unfold scan at hj
    split at hj
    · rcases Nat.eq_or_lt_of_le hi with rfl | hlt
      · assumption
      · exact ih hlt hj
    · omega

theorem not_scan (h : scan P k i < i + k) : ¬ P (scan P k i) := by
  induction k generalizing i with
  | zero => simp [scan] at h
  | succ k ih =>
    unfold scan at h ⊢
    split
    · rw [if_pos ‹_›] at h
      exact ih (by omega)
    · assumption

end Scan

/-- The length of the agreement of a stored prefix with the key at `off`. -/
def prefixMatch (n : ArtNode) (key : Key) (off : ℕ) : ℕ :=
  scan (fun i => key[off + i]? = some (n.prefix_ i)) (getPrefixLen n.version) 0

theorem run_prefixCompareLoop (h : s.node? an = some n) (key : Key) (off k i : ℕ) (hk : i + k ≤ 8) :
    env.machine.run (prefixCompareLoop an key k i (off + i)) s =
      done (scan (fun i => key[off + i]? = some (n.prefix_ i)) k i) s := by
  induction k generalizing i with
  | zero => rfl
  | succ k ih =>
    unfold prefixCompareLoop scan
    by_cases hoff : off + i < key.length
    · have hb : (NodeField.prefix_ i).InBounds n.layout := by
        simp only [NodeField.InBounds]
        omega
      rw [if_pos hoff]
      refine (env.machine.run_bind_of_done (run_load (f := .prefix_ i) h hb)).trans ?_
      refine (env.machine.run_bind_of_done (run_keyAt hoff)).trans ?_
      simp only [NodeField.get, List.getElem?_eq_getElem hoff, Option.some.injEq]
      by_cases hc : n.prefix_ i = key[off + i]
      · simp only [hc, ne_eq, not_true_eq_false, if_false, if_true]
        exact ih (i + 1) (by omega)
      · simp only [hc, Ne.symm hc, ne_eq, not_false_eq_true, if_true, if_false]
        rfl
    · rw [if_neg hoff, if_neg]
      · rfl
      · simp [Nat.le_of_not_lt hoff]

theorem run_artNodePrefixCompare (h : s.node? an = some n) (hp : getPrefixLen n.version ≤ 8)
    (key : Key) (off : ℕ) :
    env.machine.run (artNodePrefixCompare an n.version key off) s =
      done (prefixMatch n key off) s :=
  run_prefixCompareLoop h key off _ 0 (by omega)

/-- The first position from `off` on at which two keys differ or one of them ends. -/
def keyMatch (k₁ k₂ : Key) (off : ℕ) : ℕ :=
  scan (fun i => i < k₂.length ∧ k₁[i]? = k₂[i]?) (k₂.length - off) off

theorem run_leafCompareLoop {a : Addr} {l : LeafNode} (h : s.leaf? a = some l) (key : Key)
    (k i : ℕ) :
    env.machine.run (leafCompareLoop a l.key.length key k i) s =
      done (scan (fun i => i < key.length ∧ l.key[i]? = key[i]?) k i) s := by
  induction k generalizing i with
  | zero => rfl
  | succ k ih =>
    unfold leafCompareLoop scan
    by_cases hi : i < l.key.length ∧ i < key.length
    · obtain ⟨h₁, h₂⟩ := hi
      rw [if_pos ⟨h₁, h₂⟩]
      refine (env.machine.run_bind_of_done (run_loadLeaf (f := .key i) h h₁)).trans ?_
      refine (env.machine.run_bind_of_done (run_keyAt h₂)).trans ?_
      simp only [LeafField.get, List.getD_eq_getElem?_getD, List.getElem?_eq_getElem h₁,
        List.getElem?_eq_getElem h₂, Option.getD_some, Option.some.injEq, h₂, true_and]
      by_cases hc : l.key[i] = key[i]
      · simp only [hc, if_true]
        exact ih (i + 1)
      · simp only [hc, if_false]
        rfl
    · rw [if_neg hi, if_neg]
      · rfl
      · rintro ⟨h₂, he⟩
        have h₁ : ¬ i < l.key.length := fun h₁ => hi ⟨h₁, h₂⟩
        rw [List.getElem?_eq_none (Nat.le_of_not_lt h₁), List.getElem?_eq_getElem h₂] at he
        simp at he

end Sidle.Art
