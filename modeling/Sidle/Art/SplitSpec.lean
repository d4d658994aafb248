import Sidle.Art.GrowSpec

/-!
# Splitting a leaf and a prefix

What `art_node_replace_leaf_child` and `art_node_expand_and_insert` build, in a build
with assertions: a `node4` with two children, the old node or leaf and a new leaf.

## Main definitions

* `ForkNode` — the new node of a split.
* `LeafSplit`, `PrefixSplit` — the memory after the two kinds of split.

## Main results

* `run_artNodeReplaceLeafChild_dup`, `run_artNodeReplaceLeafChild` — splitting a leaf.
* `run_artNodeExpandAndInsert` — splitting a prefix.
-/

namespace Sidle.Art

open Prog Machine Outcome

variable {env : Env} {s : Mem} {an : Addr} {n : ArtNode}

/-! ### A new empty node -/

/-- A `node4` without children. -/
structure EmptyNode (nd : ArtNode) : Prop where
  layout : nd.layout = .node4
  type : getNodeType nd.version = .node4
  count : getCount nd.version = 0

namespace EmptyNode

variable {nd : ArtNode} (h : EmptyNode nd)

include h

theorem ok : nd.Ok where
  type := h.type.trans h.layout.symm
  count_le := by rw [h.count]; exact Nat.zero_le _
  key_inj _ i j hi := by rw [h.count] at hi; omega
  index_le hk := absurd (h.layout.symm.trans hk) (by decide)
  index_inj hk := absurd (h.layout.symm.trans hk) (by decide)

theorem room : nd.HasRoom := Or.inr (by rw [h.count, h.layout]; decide)

theorem slotOf (b : UInt8) : nd.slotOf b = none := by
  rw [ArtNode.slotOf_keyed_eq_none (Or.inl h.layout), h.count]
  simp

theorem childAt (b : UInt8) : nd.childAt b = none := ArtNode.childAt_eq_none.mpr (h.slotOf b)

end EmptyNode

/-- A node with two children: `p` at `b` and `q` at `c`. -/
def ArtNode.fork (nd : ArtNode) (b : UInt8) (p : Ptr) (c : UInt8) (q : Ptr) : ArtNode :=
  (nd.addChild b p).addChild c q

section Fork

variable {nd : ArtNode} {b c : UInt8} {p q : Ptr}

theorem EmptyNode.room_addChild (h : EmptyNode nd) : (nd.addChild b p).HasRoom := by
  refine Or.inr ?_
  rw [ArtNode.count_addChild h.room (by rw [h.layout]; decide), ArtNode.addChild_layout, h.count,
    h.layout]
  decide

theorem EmptyNode.slotOf_addChild (h : EmptyNode nd) (hp : p ≠ 0) (hbc : c ≠ b) :
    (nd.addChild b p).slotOf c = none := by
  rw [ArtNode.slotOf_addChild h.ok h.room (h.slotOf b) hp, if_neg hbc, h.slotOf]

theorem EmptyNode.ok_addChild (h : EmptyNode nd) : (nd.addChild b p).Ok :=
  h.ok.addChild h.room (h.slotOf b) p

theorem EmptyNode.ok_fork (h : EmptyNode nd) (hp : p ≠ 0) (hbc : c ≠ b) : (nd.fork b p c q).Ok :=
  h.ok_addChild.addChild h.room_addChild (h.slotOf_addChild hp hbc) q

theorem EmptyNode.childAt_fork (h : EmptyNode nd) (hp : p ≠ 0) (hq : q ≠ 0) (hbc : c ≠ b)
    (d : UInt8) :
    (nd.fork b p c q).childAt d = if d = c then some q else if d = b then some p else none := by
  rw [ArtNode.fork, ArtNode.childAt_addChild h.ok_addChild h.room_addChild
    (h.slotOf_addChild hp hbc) hq, ArtNode.childAt_addChild h.ok h.room (h.slotOf b) hp, h.childAt]

theorem EmptyNode.view_fork (h : EmptyNode nd) :
    view (nd.fork b p c q).version =
      { view nd.version with count := getCount (nd.fork b p c q).version } := by
  rw [ArtNode.fork, ArtNode.view_addChild h.room_addChild, ArtNode.view_addChild h.room]

@[simp] theorem ArtNode.prefix_fork : (nd.fork b p c q).prefix_ = nd.prefix_ := by simp [fork]

@[simp] theorem ArtNode.parent_fork : (nd.fork b p c q).parent = nd.parent := by simp [fork]

@[simp] theorem ArtNode.sidleMeta_fork : (nd.fork b p c q).sidleMeta = nd.sidleMeta := by
  simp [fork]

end Fork

/-- The new node of a split: the children `p` at `b` and `q` at `c`, the offset `off`, the
prefix of the `len` bytes `f`. -/
structure ForkNode (s : Mem) (par : Addr) (off len : ℕ) (f : ℕ → UInt8) (b : UInt8) (p : Ptr)
    (c : UInt8) (q : Ptr) (nd : ArtNode) : Prop where
  ok : nd.Ok
  childAt : ∀ d, nd.childAt d = if d = c then some q else if d = b then some p else none
  prefix_ : ∀ i < len, nd.prefix_ i = f i
  parent : nd.parent = par
  sidleMeta : nd.sidleMeta = s.newMeta par .unknown
  offset : getOffset nd.version = off
  prefixLen : getPrefixLen nd.version = len
  old : isOld nd.version = false
  expanding : isExpanding nd.version = false

/-! ### Prefixes -/

/-- The node with another prefix. -/
def ArtNode.withPrefix (nd : ArtNode) (f : ℕ → UInt8) (len : ℕ) : ArtNode :=
  { nd with prefix_ := copied f nd.prefix_ len, version := setPrefixLen nd.version len }

/-- A loop that fills the prefix of a node. -/
theorem run_prefixLoop {f : ℕ → UInt8} {len : ℕ} (h : s.node? an = some n)
    {body : ℕ → ArtM Unit}
    (hbody : ∀ i < len, env.machine.run (body i)
        (s.setNode an { n with prefix_ := copied f n.prefix_ i }) =
      done () (s.setNode an
        ((NodeField.prefix_ i).set (f i) { n with prefix_ := copied f n.prefix_ i }))) :
    env.machine.run (forRange 0 len body) s =
      done () (s.setNode an { n with prefix_ := copied f n.prefix_ len }) := by
  have hloop := env.machine.run_forRange 0 len (p := body)
    (f := fun i => s.setNode an { n with prefix_ := copied f n.prefix_ i }) fun i _ hi => by
      rw [hbody i (by omega)]
      simp only [NodeField.set, update_copied]
  rw [copied_zero, Nat.zero_add] at hloop
  rwa [show s.setNode an { n with prefix_ := n.prefix_ } = s from Mem.setNode_eq_self h] at hloop

/-- `new_->version = set_prefix_len(new_->version, len)` after the prefix has been filled. -/
theorem run_setPrefixLen {f : ℕ → UInt8} {len : ℕ} :
    env.machine.run (do
        let version ← load an .version
        store an .version (setPrefixLen version len))
        (s.setNode an { n with prefix_ := copied f n.prefix_ len }) =
      done () (s.setNode an (n.withPrefix f len)) := by
  refine (env.machine.run_bind_of_done
    (run_load (f := .version) (Mem.node?_setNode_self ..) trivial)).trans ?_
  refine (run_store (f := .version) (Mem.node?_setNode_self ..) trivial).trans ?_
  rw [Mem.setNode_setNode]
  rfl

variable (env) in
/-- `art_node_set_prefix` with the bytes of a leaf. -/
theorem run_setPrefixFromLeaf {a : Addr} {l : LeafNode} (h : s.node? an = some n)
    (hl : s.leaf? a = some l) (off len : ℕ) (hlen : len ≤ 8)
    (hkey : off + len ≤ l.key.length) :
    env.machine.run (setPrefixFromLeaf an a off len) s =
      done () (s.setNode an (n.withPrefix (fun i => l.key.getD (off + i) 0) len)) := by
  have hne : a ≠ an := (Mem.ne_of_node?_of_leaf? h hl).symm
  unfold setPrefixFromLeaf
  refine (env.machine.run_bind_of_done (run_prefixLoop
    (f := fun i => l.key.getD (off + i) 0) h fun i hi => ?_)).trans run_setPrefixLen
  have hb : (LeafField.key (off + i)).InBounds l := by
    simp only [LeafField.InBounds]
    omega
  have hl' : (s.setNode an { n with
      prefix_ := copied (fun i => l.key.getD (off + i) 0) n.prefix_ i }).leaf? a = some l := by
    rw [Mem.leaf?_setNode_of_ne _ _ hne, hl]
  refine (env.machine.run_bind_of_done (run_loadLeaf (f := .key (off + i)) hl' hb)).trans ?_
  refine (run_store (f := .prefix_ i) (Mem.node?_setNode_self ..)
    (show i < 8 by omega)).trans ?_
  rw [Mem.setNode_setNode]
  rfl

variable (env) in
/-- `art_node_set_prefix`. -/
theorem run_artNodeSetPrefix (h : s.node? an = some n) (key : Key) (off len : ℕ) (hlen : len ≤ 8)
    (hkey : off + len ≤ key.length) :
    env.machine.run (artNodeSetPrefix an key off len) s =
      done () (s.setNode an (n.withPrefix (fun i => key.getD (off + i) 0) len)) := by
  unfold artNodeSetPrefix
  refine (env.machine.run_bind_of_done (run_prefixLoop
    (f := fun i => key.getD (off + i) 0) h fun i hi => ?_)).trans run_setPrefixLen
  have hlt : off + i < key.length := by omega
  refine (env.machine.run_bind_of_done (run_keyAt hlt)).trans ?_
  refine (run_store (f := .prefix_ i) (Mem.node?_setNode_self ..)
    (show i < 8 by omega)).trans ?_
  rw [Mem.setNode_setNode, List.getD_eq_getElem?_getD, List.getElem?_eq_getElem hlt,
    Option.getD_some]

/-- What `art_node_truncate_prefix` makes of a node: the first `off + 1` bytes of the prefix
are dropped, and the expansion bit is raised. -/
def ArtNode.truncate (n : ArtNode) (off : ℕ) : ArtNode :=
  { n with
    prefix_ := copied (fun i => n.prefix_ (off + 1 + i)) n.prefix_
      (getPrefixLen n.version - (off + 1))
    version := setOffset (setPrefixLen (setExpand n.version) (getPrefixLen n.version - off - 1))
      (off + (getOffset n.version + 1)) }

variable (env) in
theorem run_artNodeTruncatePrefix (h : s.node? an = some n) {off : ℕ}
    (hplen : getPrefixLen n.version ≤ 8) (hoff : off < getPrefixLen n.version)
    (hlt : off + (getOffset n.version + 1) < 256) :
    env.machine.run (artNodeTruncatePrefix an off) s =
      done (n.prefix_ off) (s.setNode an (n.truncate off)) := by
  have hv : view (setExpand n.version) = { view n.version with expanding := true } :=
    view_setExpand _
  have hpl : getPrefixLen (setExpand n.version) = getPrefixLen n.version := (view_fields hv).2.2.1
  have hof : getOffset (setExpand n.version) = getOffset n.version := (view_fields hv).1
  have hof' : getOffset (setPrefixLen (setExpand n.version) (getPrefixLen n.version - off - 1)) =
      getOffset n.version :=
    (view_fields (view_setPrefixLen _ (by omega))).1.trans hof
  unfold artNodeTruncatePrefix artNodeSetVersion artNodeSetVersionUnsafe
  refine (env.machine.run_bind_of_done (run_load (f := .version) h trivial)).trans ?_
  refine (env.machine.run_bind_of_done (run_store (f := .version) h trivial)).trans ?_
  refine (env.machine.run_bind_of_done
    (run_load (f := .prefix_ off) (Mem.node?_setNode_self ..) (show off < 8 by omega))).trans ?_
  simp only [NodeField.get, NodeField.set, hpl]
  refine (env.machine.run_bind_of_done (run_prefixLoop (n := n.setVersion (setExpand n.version))
    (f := fun i => n.prefix_ (off + 1 + i)) (Mem.node?_setNode_self ..)
    fun i hi => ?_)).trans ?_
  · simp only [Mem.setNode_setNode]
    have hb : off + 1 + i < 8 := by omega
    refine (env.machine.run_bind_of_done (run_load (f := .prefix_ (off + 1 + i))
      (Mem.node?_setNode_self ..) (by exact hb))).trans ?_
    refine (run_store (f := .prefix_ i) (Mem.node?_setNode_self ..)
      (show i < 8 by omega)).trans ?_
    rw [Mem.setNode_setNode]
    have : copied (fun i => n.prefix_ (off + 1 + i)) n.prefix_ i (off + 1 + i) =
        n.prefix_ (off + 1 + i) := if_neg (by omega)
    simp only [NodeField.get, ArtNode.setVersion, this]
  · refine (env.machine.run_bind_of_done
      (run_store (f := .version) (Mem.node?_setNode_self ..) trivial)).trans ?_
    rw [Mem.setNode_setNode, Mem.setNode_setNode, hof']
    rfl

/-! ### The common parts of the two splits -/

theorem Mem.Fresh.withNode (hs : s.Fresh env) (t : NodeType) (nd : ArtNode) (g : Global) :
    (s.withNode env t nd g).Fresh env :=
  (hs.mallocNode t).setNode ⟨s.allocated, Nat.lt_succ_self _, rfl⟩ nd

theorem Mem.Fresh.withLeaf (hs : s.Fresh env) (len : ℕ) (l : LeafNode) (g : Global) :
    (s.withLeaf env len l g).Fresh env :=
  (hs.mallocLeaf len).setLeaf ⟨s.allocated, Nat.lt_succ_self _, rfl⟩ l

theorem Mem.heap_withLeaf_of_ne {len : ℕ} {l : LeafNode} {g : Global} {a : Addr}
    (h : a ≠ env.addr s.allocated) : (s.withLeaf env len l g).heap a = s.heap a := by
  rw [withLeaf, setGlobal_heap, setLeaf_heap, Function.update_of_ne h,
    env.heap_mallocLeaf_of_ne len h]

@[simp] theorem Mem.allocated_withNode (t : NodeType) (nd : ArtNode) (g : Global) :
    (s.withNode env t nd g).allocated = s.allocated + 1 := rfl

@[simp] theorem Mem.root_withNode (t : NodeType) (nd : ArtNode) (g : Global) :
    (s.withNode env t nd g).root = s.root := rfl

@[simp] theorem Mem.global_withNode (t : NodeType) (nd : ArtNode) (g : Global) :
    (s.withNode env t nd g).global = g := rfl

@[simp] theorem Mem.allocated_withLeaf (len : ℕ) (l : LeafNode) (g : Global) :
    (s.withLeaf env len l g).allocated = s.allocated + 1 := rfl

@[simp] theorem Mem.root_withLeaf (len : ℕ) (l : LeafNode) (g : Global) :
    (s.withLeaf env len l g).root = s.root := rfl

@[simp] theorem Mem.global_withLeaf (len : ℕ) (l : LeafNode) (g : Global) :
    (s.withLeaf env len l g).global = g := rfl

/-- The new node of a split before it has a prefix and children. -/
structure ForkHeader (s : Mem) (par : Addr) (off : ℕ) (locked : Bool) (nd : ArtNode) : Prop where
  layout : nd.layout = .node4
  view : view nd.version = ⟨off, 0, 0, .node4, false, locked, false, 0⟩
  parent : nd.parent = par
  sidleMeta : nd.sidleMeta = s.newMeta par .unknown

/-- Both splits begin with a new node that gets its parent, its offset and its lock. -/
theorem run_forkHeader {α : Type} (hb : env.build.assertions = true)
    (hu : 0 ≤ s.global.curLocalMemoryUsage) {parent : Addr} (hp : s.NullOrNode parent) (off : ℕ)
    (hoff : off < 256) (fuel : ℕ) :
    ∃ nd g, (∀ k : Addr → ArtM α, env.machine.run (do
        let new_ ← newArtNode env parent
        store new_ .parent parent
        artNodeSetOffset new_ off
        assertTrue env.build (do
          let r ← artNodeLock (fuel + 1) new_
          pure (r == 0))
        k new_) s = env.machine.run (k (env.addr s.allocated)) (s.withNode env .node4 nd g)) ∧
      ForkHeader s parent off true nd ∧ 0 ≤ g.curLocalMemoryUsage := by
  obtain ⟨nd, g, hnew, hnd, hg⟩ := run_newArtNodeOf env hu hp (t := .node4)
    0 (Nat.zero_le _)
  have hv : view (setOffset nd.version off) = ⟨off, 0, 0, .node4, false, false, false, 0⟩ := by
    rw [hnd.version, view_setOffset _ hoff, view_setType_zero]
  have hvl : view (setLock (setOffset nd.version off)) =
      ⟨off, 0, 0, .node4, false, true, false, 0⟩ := by
    rw [view_setLock, hv]
  refine ⟨(nd.setParent parent).setVersion (setLock (setOffset nd.version off)), g, fun k => ?_,
    ⟨hnd.layout, hvl, rfl, hnd.sidleMeta⟩, hg⟩
  refine (env.machine.run_bind_of_done hnew).trans ?_
  refine (env.machine.run_bind_of_done
    (run_store (f := .parent) (Mem.node?_withNode_self .node4 nd g) trivial)).trans ?_
  rw [Mem.setNode_withNode]
  refine (env.machine.run_bind_of_done
    (run_artNodeSetOffset (Mem.node?_withNode_self .node4 _ g) off)).trans ?_
  rw [Mem.setNode_withNode]
  let nd₁ := (nd.setParent parent).setVersion (setOffset nd.version off)
  have hself : (s.withNode env .node4 nd₁ g).node? (env.addr s.allocated) = some nd₁ :=
    Mem.node?_withNode_self ..
  have hlock : env.machine.run (artNodeLock (fuel + 1) (env.addr s.allocated))
      (s.withNode env .node4 nd₁ g) = _ :=
    run_artNodeLock hself (view_fields hv).2.2.2.2.2.1 (view_fields hv).2.2.2.2.1 fuel
  refine (env.machine.run_bind_of_done (run_assertTrue hb
    (env.machine.run_bind_of_done hlock))).trans ?_
  rw [Mem.setNode_withNode]
  rfl

theorem ForkHeader.emptyNode {parent : Addr} {off : ℕ} {lk : Bool} {nd : ArtNode}
    (h : ForkHeader s parent off lk nd) (f : ℕ → UInt8) {len : ℕ} (hlen : len < 256) :
    EmptyNode (nd.withPrefix f len) where
  layout := h.layout
  type := (view_fields (view_setPrefixLen nd.version hlen)).2.2.2.1.trans
    (view_fields h.view).2.2.2.1
  count := (view_fields (view_setPrefixLen nd.version hlen)).2.1.trans (view_fields h.view).2.1

/-- The leaf that an insertion allocates below a node with the metadata `m`. -/
def childLeaf (m : NodeMetadata) (key : Key) : LeafNode :=
  ⟨UInt8.ofNat key.length, NodeMetadata.make .remote ((m.depth + 1) % 256), 0, key⟩

theorem newLeaf_remote (h : s.node? an = some n) (key : Key) :
    newLeaf s an key .remote = childLeaf n.sidleMeta key := by
  simp [newLeaf, childLeaf, Mem.newMeta, Mem.newType, Mem.childDepth, h]

/-- Both splits add a new leaf to the new node. -/
theorem run_addNewLeaf (hb : env.build.assertions = true) (hs : s.Fresh env)
    (hu : 0 ≤ s.global.curLocalMemoryUsage) (h : s.node? an = some n) (hok : n.Ok)
    (hr : n.HasRoom) {byte : UInt8} (hbyte : n.slotOf byte = none) (key : Key) (fuel : ℕ) :
    ∃ g, env.machine.run (assertTrue env.build (do
          let l ← allocLeaf env an key .remote false
          let r ← artNodeAddChild env fuel an byte l false
          pure r.1.isNone)) s =
        done () ((s.withLeaf env key.length (childLeaf n.sidleMeta key) g).setNode an
          (n.addChild byte (env.addr s.allocated + 1))) ∧ 0 ≤ g.curLocalMemoryUsage := by
  rw [← newLeaf_remote h]
  obtain ⟨g, hg, hgu⟩ := run_allocLeaf env hu (hs.nullOrNode_of_node? h) key .remote
  refine ⟨g, run_assertTrue hb ?_, hgu⟩
  have h' : (s.withLeaf env key.length (newLeaf s an key .remote) g).node? an = some n := by
    rw [Mem.node?_congr (Mem.heap_withLeaf_of_ne (hs.ne_of_node? h)), h]
  refine (env.machine.run_bind_of_done hg).trans ?_
  exact env.machine.run_bind_of_done (run_artNodeAddChild_leaf h' hok hr hbyte
    (isLeaf_succ (env.addr_aligned _)) fuel false)

/-! ### Splitting a leaf -/

/-- What the split of a leaf needs. -/
structure LeafPre (env : Env) (s : Mem) (parent a : Addr) (l : LeafNode) (key : Key) (off : ℕ) :
    Prop where
  fresh : s.Fresh env
  usage : 0 ≤ s.global.curLocalMemoryUsage
  parent : s.NullOrNode parent
  leaf : s.leaf? a = some l
  keyLength : getLeafLen l.keyLength = l.key.length
  length : l.key.length = key.length
  off_le : off ≤ key.length

/-- The leaf with the depth that a split gives it. -/
def LeafNode.deepen (l : LeafNode) (m : NodeMetadata) : LeafNode :=
  { l with
    metadata := { l.metadata with depth := max l.metadata.depth ((m.depth + 1) % 256) % 64 } }

/-- The memory after the split of the leaf at `a`: a new node, a new leaf, and the old leaf
with its new depth. -/
structure LeafSplit (env : Env) (s s' : Mem) (a : Addr) (l : LeafNode) (key : Key) (nd : ArtNode) :
    Prop where
  new_ : s'.node? (env.addr s.allocated) = some nd
  newLeaf : s'.leaf? (env.addr (s.allocated + 1)) = some (childLeaf nd.sidleMeta key)
  leaf : s'.leaf? a = some (l.deepen nd.sidleMeta)
  other : ∀ x, x ≠ env.addr s.allocated → x ≠ env.addr (s.allocated + 1) → x ≠ a →
    s'.heap x = s.heap x
  allocated : s'.allocated = s.allocated + 2
  root : s'.root = s.root
  usage : 0 ≤ s'.global.curLocalMemoryUsage

namespace LeafPre

variable {parent a : Addr} {l : LeafNode} {key : Key} {off : ℕ}
  (hp : LeafPre env s parent a l key off)

include hp

theorem a_eq : getLeaf (a + 1) = a := by
  obtain ⟨i, -, rfl⟩ := hp.fresh.exists_addr_of_leaf? hp.leaf
  exact getLeaf_succ (env.addr_aligned i)

theorem isLeaf_a : isLeaf (a + 1) = true := by
  obtain ⟨i, -, rfl⟩ := hp.fresh.exists_addr_of_leaf? hp.leaf
  exact isLeaf_succ (env.addr_aligned i)

/-- The comparison of the leaf with the key. -/
theorem run_compare :
    env.machine.run (leafCompareLoop a (getLeafLen l.keyLength) key (key.length - off) off) s =
      done (keyMatch l.key key off) s := by
  rw [hp.keyLength]
  exact run_leafCompareLoop hp.leaf key _ _

end LeafPre

theorem le_keyMatch (k₁ k₂ : Key) (off : ℕ) : off ≤ keyMatch k₁ k₂ off := le_scan

theorem keyMatch_le {k₁ k₂ : Key} {off : ℕ} (h : off ≤ k₂.length) :
    keyMatch k₁ k₂ off ≤ k₂.length := by
  have : keyMatch k₁ k₂ off ≤ off + (k₂.length - off) := scan_le
  omega

/-- Below the first difference the keys agree. -/
theorem getElem?_of_lt_keyMatch {k₁ k₂ : Key} {off i : ℕ} (hi : off ≤ i)
    (h : i < keyMatch k₁ k₂ off) : k₁[i]? = k₂[i]? := (of_lt_scan hi h).2

/-- At the first difference they do not. -/
theorem getElem?_keyMatch_ne {k₁ k₂ : Key} {off : ℕ} (hoff : off ≤ k₂.length)
    (h : keyMatch k₁ k₂ off < k₂.length) :
    k₁[keyMatch k₁ k₂ off]? ≠ k₂[keyMatch k₁ k₂ off]? := by
  have hn := not_scan (P := fun i => i < k₂.length ∧ k₁[i]? = k₂[i]?) (k := k₂.length - off)
    (i := off) (by unfold keyMatch at h; omega)
  exact fun he => hn ⟨h, he⟩

/-- The memory after a duplicate: the access time of the leaf has changed, and a build for
real workloads has allocated a block that nothing points to. -/
structure Touched (env : Env) (s s' : Mem) (a : Addr) (l : LeafNode) : Prop where
  leaf : s'.leaf? a = some { l with accessTime := (l.accessTime + 1) % 2 ^ 16 }
  other : ∀ x, x ≠ a → s.heap x ≠ none → s'.heap x = s.heap x
  fresh : s'.Fresh env
  root : s'.root = s.root
  usage : 0 ≤ s'.global.curLocalMemoryUsage

theorem run_touchDuplicate {parent a : Addr} {l : LeafNode} (hs : s.Fresh env)
    (hu : 0 ≤ s.global.curLocalMemoryUsage) (hp : s.NullOrNode parent) (hl : s.leaf? a = some l)
    (key : Key) :
    ∃ s', env.machine.run (touchDuplicate env parent (a + 1) key) s = done () s' ∧
      Touched env s s' a l := by
  let l₁ : LeafNode := { l with accessTime := (l.accessTime + 1) % 2 ^ 16 }
  let s₁ := s.setLeaf a l₁
  have hl₁ : s₁.leaf? a = some l₁ := Mem.leaf?_setLeaf_self ..
  have hs₁ : s₁.Fresh env := hs.setLeaf (hs.exists_addr_of_leaf? hl) l₁
  have hother₁ : ∀ x, x ≠ a → s₁.heap x = s.heap x := fun x hx => Function.update_of_ne hx _ _
  unfold touchDuplicate
  have ha : getLeaf (a + 1) = a := by
    obtain ⟨i, -, rfl⟩ := hs.exists_addr_of_leaf? hl
    exact getLeaf_succ (env.addr_aligned i)
  rw [ha, env.machine.run_bind_of_done (run_updateAccess hl)]
  by_cases hrw : env.build.realWorld = true
  · rw [if_pos hrw]
    have hpar : s₁.NullOrNode parent := by
      have := hp
      unfold Mem.NullOrNode at this ⊢
      split
      · rw [if_pos ‹_›] at this
        exact hs₁.node?_zero
      · rw [if_neg ‹_›] at this
        obtain ⟨m, hm⟩ := this
        have hne := Mem.ne_of_node?_of_leaf? hm hl
        exact ⟨m, by rw [Mem.node?_congr (hother₁ _ hne), hm]⟩
    obtain ⟨g, hg, hgu⟩ := run_allocLeaf env (s := s₁) hu hpar key .unknown
    have ha : a ≠ env.addr s₁.allocated := hs₁.ne_of_leaf? hl₁
    have hl₂ (l' : LeafNode) : (s₁.withLeaf env key.length l' g).leaf? a = some l₁ := by
      rw [Mem.leaf?_congr (Mem.heap_withLeaf_of_ne ha), hl₁]
    let l₂ : LeafNode := { newLeaf s₁ parent key .unknown with
      metadata := l₁.metadata, accessTime := l₁.accessTime % 2 ^ 16 }
    refine ⟨s₁.withLeaf env key.length l₂ g, ?_, ?_⟩
    · refine (env.machine.run_bind_of_done (run_loadLeaf (f := .metadata) hl₁ trivial)).trans ?_
      refine (env.machine.run_bind_of_done (run_loadLeaf (f := .accessTime) hl₁ trivial)).trans ?_
      refine (env.machine.run_bind_of_done hg).trans ?_
      rw [getLeaf_succ (env.addr_aligned _)]
      refine (env.machine.run_bind_of_done
        (run_storeLeaf (f := .metadata) (Mem.leaf?_withLeaf_self _ _ g) trivial)).trans ?_
      rw [Mem.setLeaf_withLeaf]
      refine (run_storeLeaf (f := .accessTime) (Mem.leaf?_withLeaf_self _ _ g) trivial).trans ?_
      rw [Mem.setLeaf_withLeaf]
      rfl
    · refine ⟨hl₂ _, fun x hx hxs => ?_, hs₁.withLeaf _ _ _, rfl, hgu⟩
      have hx' : x ≠ env.addr s₁.allocated := hs.ne_of_heap hxs
      rw [Mem.heap_withLeaf_of_ne hx', hother₁ x hx]
  · rw [if_neg hrw]
    exact ⟨s₁, rfl, hl₁, fun x hx _ => hother₁ x hx, hs₁, rfl, hu⟩

/-- The leaf holds the key already. -/
theorem run_artNodeReplaceLeafChild_dup {parent a : Addr} {l : LeafNode} {key : Key} {off : ℕ}
    (hp : LeafPre env s parent a l key off) (hdup : keyMatch l.key key off = key.length)
    (fuel : ℕ) :
    ∃ s', env.machine.run (artNodeReplaceLeafChild env fuel parent (a + 1) key off) s = done 0 s' ∧
      Touched env s s' a l := by
  obtain ⟨s', hrun, ht⟩ := run_touchDuplicate hp.fresh hp.usage hp.parent hp.leaf key
  refine ⟨s', ?_, ht⟩
  unfold artNodeReplaceLeafChild
  rw [hp.a_eq]
  refine (env.machine.run_bind_of_done (run_loadLeaf (f := .keyLength) hp.leaf trivial)).trans ?_
  refine (env.machine.run_bind_of_done hp.run_compare).trans ?_
  rw [if_pos ⟨by rw [hdup]; exact hp.length.symm.trans hp.keyLength.symm, hdup⟩,
    env.machine.run_bind_of_done hrun]
  rfl

/-- The split of a leaf: the new node has the old leaf and a new leaf as its children. -/
theorem run_artNodeReplaceLeafChild {parent a : Addr} {l : LeafNode} {key : Key} {off i : ℕ}
    (hb : env.build.assertions = true) (hp : LeafPre env s parent a l key off)
    (hi : keyMatch l.key key off = i) (hlt : i < key.length) (h8 : i - off ≤ 8) (hoff : off < 256)
    {b c : UInt8} (hlb : l.key[i]? = some b) (hkc : key[i]? = some c) (hbc : c ≠ b) (fuel : ℕ) :
    ∃ nd s', env.machine.run (artNodeReplaceLeafChild env (fuel + 1) parent (a + 1) key off) s =
        done (env.addr s.allocated) s' ∧
      LeafSplit env s s' a l key nd ∧ isLocked nd.version = false ∧
      ForkNode s parent off (i - off) (fun j => key.getD (off + j) 0) b (a + 1) c
        (env.addr (s.allocated + 1) + 1) nd := by
  have hoi : off ≤ i := hi ▸ le_keyMatch _ _ _
  obtain ⟨nd₀, g, hhead, hfh, hg⟩ := run_forkHeader (α := Addr) hb hp.usage hp.parent
    off hoff fuel
  let ν := env.addr s.allocated
  let f : ℕ → UInt8 := fun j => l.key.getD (off + j) 0
  let nd₁ := nd₀.withPrefix f (i - off)
  have hempty : EmptyNode nd₁ := hfh.emptyNode f (by omega)
  have haν : a ≠ ν := hp.fresh.ne_of_leaf? hp.leaf
  have hleaf (nd : ArtNode) : (s.withNode env .node4 nd g).leaf? a = some l := by
    rw [Mem.leaf?_congr (Mem.heap_withNode_of_ne haν), hp.leaf]
  -- the old leaf becomes a child
  let s₁ := s.withNode env .node4 (nd₁.addChild b (a + 1)) g
  have hs₁ : s₁.Fresh env := hp.fresh.withNode _ _ _
  have hν₁ : s₁.node? ν = some (nd₁.addChild b (a + 1)) := Mem.node?_withNode_self ..
  have hc₁ := hempty.slotOf_addChild (p := a + 1) (Nat.succ_ne_zero a) hbc
  -- and so does a new leaf
  obtain ⟨g₂, hadd, hg₂⟩ := run_addNewLeaf hb hs₁ hg hν₁ hempty.ok_addChild hempty.room_addChild
    hc₁ key (fuel + 1)
  let lam := env.addr (s.allocated + 1)
  have hνl : ν ≠ lam := hs₁.ne_of_node? hν₁
  have hal : a ≠ lam := hs₁.ne_of_leaf? (hleaf _)
  let nd₂ := nd₁.fork b (a + 1) c (lam + 1)
  let s₂ := (s₁.withLeaf env key.length (childLeaf nd₂.sidleMeta key) g₂).setNode ν nd₂
  have hleaf₂ : s₂.leaf? a = some l := by
    rw [Mem.leaf?_setNode_of_ne _ _ haν, Mem.leaf?_congr (Mem.heap_withLeaf_of_ne hal), hleaf]
  have hν₂ : s₂.node? ν = some nd₂ := Mem.node?_setNode_self ..
  let s₃ := s₂.setLeaf a (l.deepen nd₂.sidleMeta)
  have hν₃ : s₃.node? ν = some nd₂ := by rw [Mem.node?_setLeaf_of_ne _ _ haν.symm, hν₂]
  let nd₃ := nd₂.setVersion (unlockedVersion nd₂.version)
  have hmeta : (nd₁.addChild b (a + 1)).sidleMeta = nd₂.sidleMeta := by
    rw [ArtNode.sidleMeta_addChild, ArtNode.sidleMeta_fork]
  have hv₂ : view nd₂.version = { view nd₁.version with count := getCount nd₂.version } :=
    hempty.view_fork
  have hv₁ : view nd₁.version = ⟨off, 0, i - off, .node4, false, true, false, 0⟩ := by
    simp only [nd₁, ArtNode.withPrefix, view_setPrefixLen nd₀.version (show i - off < 256 by omega),
      hfh.view]
  have he : isExpanding nd₂.version = false := by rw [← view_expanding, hv₂, hv₁]
  have hu := view_fields (view_unlockedVersion he)
  have hv₃ : view nd₃.version =
      ⟨off, getCount nd₂.version, i - off, .node4, false, false, false, 0⟩ := by
    simp only [nd₃, ArtNode.setVersion_version, view_unlockedVersion he, hv₂, hv₁]
  obtain ⟨ho, hc, hpl, hty, hold, hlk, hex⟩ := view_fields hv₃
  have hlen : i < l.key.length := by rw [hp.length]; exact hlt
  refine ⟨nd₃, s₃.setNode ν nd₃, ?_, ⟨Mem.node?_setNode_self .., ?_, ?_, ?_, rfl, rfl, hg₂⟩, hlk,
    ⟨?_, ?_, ?_, ?_, ?_, ho, hpl, hold, hex⟩⟩
  · have hsmall : env.machine.run (assertTrue env.build (pure (decide (i - off ≤ 8))))
        (s.withNode env .node4 nd₀ g) = done () (s.withNode env .node4 nd₀ g) :=
      run_assertTrue hb (by rw [decide_eq_true h8]; rfl)
    have hpfx := run_setPrefixFromLeaf env (Mem.node?_withNode_self .node4 nd₀ g)
      (hleaf nd₀) off (i - off) h8 (by omega)
    rw [Mem.setNode_withNode] at hpfx
    have hbyte (st : Mem) (hst : st.leaf? a = some l) :
        env.machine.run (leafByte a (getLeafLen l.keyLength) i) st = done b st := by
      unfold leafByte
      rw [hp.keyLength, if_neg (Nat.ne_of_lt hlen)]
      refine (run_loadLeaf (f := .key i) hst hlen).trans ?_
      simp only [LeafField.get, List.getD_eq_getElem?_getD, hlb, Option.getD_some]
    have hkbyte (st : Mem) : env.machine.run (keyByte key i) st = done c st := by
      unfold keyByte
      rw [if_neg (Nat.ne_of_lt hlt), run_keyAt hlt]
      rw [List.getElem?_eq_getElem hlt, Option.some.injEq] at hkc
      rw [hkc]
    have hadd₁ : env.machine.run (assertTrue env.build (do
        let r ← artNodeAddChild env (fuel + 1) ν b (a + 1) false
        pure r.1.isNone)) (s.withNode env .node4 nd₁ g) = done () s₁ := by
      refine run_assertTrue hb ((env.machine.run_bind_of_done (run_artNodeAddChild_leaf
        (Mem.node?_withNode_self .node4 nd₁ g) hempty.ok hempty.room (hempty.slotOf b) hp.isLeaf_a
        (fuel + 1) false)).trans ?_)
      rw [Mem.setNode_withNode]
      rfl
    unfold artNodeReplaceLeafChild
    rw [hp.a_eq]
    refine (env.machine.run_bind_of_done (run_loadLeaf (f := .keyLength) hp.leaf trivial)).trans ?_
    refine (env.machine.run_bind_of_done hp.run_compare).trans ?_
    rw [hi, if_neg fun h => Nat.ne_of_lt hlt h.2]
    refine (hhead _).trans ?_
    refine (env.machine.run_bind_of_done hsmall).trans ?_
    refine (env.machine.run_bind_of_done hpfx).trans ?_
    refine (env.machine.run_bind_of_done (hbyte _ (hleaf nd₁))).trans ?_
    refine (env.machine.run_bind_of_done hadd₁).trans ?_
    refine (env.machine.run_bind_of_done (hkbyte _)).trans ?_
    refine (env.machine.run_bind_of_done hadd).trans ?_
    rw [hmeta]
    refine (env.machine.run_bind_of_done (run_loadLeaf (f := .metadata) hleaf₂ trivial)).trans ?_
    refine (env.machine.run_bind_of_done (run_load (f := .sidleMeta) hν₂ trivial)).trans ?_
    refine (env.machine.run_bind_of_done (run_storeLeaf (f := .metadata) hleaf₂ trivial)).trans ?_
    exact env.machine.run_bind_of_done (run_artNodeUnlock hν₃)
  · have hlam : s₂.leaf? lam = some (childLeaf nd₂.sidleMeta key) := by
      rw [Mem.leaf?_setNode_of_ne _ _ hνl.symm]
      exact Mem.leaf?_withLeaf_self ..
    rw [Mem.leaf?_setNode_of_ne _ _ hνl.symm, Mem.leaf?_setLeaf_of_ne _ _ hal.symm, hlam]
    rfl
  · rw [Mem.leaf?_setNode_of_ne _ _ haν]
    exact Mem.leaf?_setLeaf_self ..
  · intro x hxν hxl hxa
    refine (Function.update_of_ne hxν _ _).trans ((Function.update_of_ne hxa _ _).trans ?_)
    refine (Function.update_of_ne hxν _ _).trans ?_
    rw [Mem.heap_withLeaf_of_ne hxl, Mem.heap_withNode_of_ne hxν]
  · exact (hempty.ok_fork (Nat.succ_ne_zero a) hbc).setVersion hu.2.2.2.1 hu.2.1
  · intro d
    rw [ArtNode.childAt_setVersion hu.2.1,
      hempty.childAt_fork (Nat.succ_ne_zero a) (Nat.succ_ne_zero lam) hbc]
  · intro j hj
    refine (congrFun ArtNode.prefix_fork j).trans ?_
    have hf : nd₁.prefix_ j = f j := copied_of_lt (f := f) (g := nd₀.prefix_) hj
    rw [hf]
    have hk : l.key[off + j]? = key[off + j]? :=
      getElem?_of_lt_keyMatch (Nat.le_add_right off j) (by omega)
    simp only [f, List.getD_eq_getElem?_getD, hk]
  · exact ArtNode.parent_fork.trans hfh.parent
  · exact ArtNode.sidleMeta_fork.trans hfh.sidleMeta

/-! ### Splitting a prefix -/

/-- What the split of a prefix needs. -/
structure PrefixPre (env : Env) (s : Mem) (parent an : Addr) (n : ArtNode) (key : Key)
    (off common : ℕ) : Prop where
  fresh : s.Fresh env
  usage : 0 ≤ s.global.curLocalMemoryUsage
  parent : s.NullOrNode parent
  node : s.node? an = some n
  offset : getOffset n.version = off
  prefixLen : getPrefixLen n.version ≤ 8
  common_lt : common < getPrefixLen n.version
  off_lt : off + getPrefixLen n.version < key.length
  length : key.length ≤ 8

/-- The node whose prefix has been truncated, below its new parent. -/
def ArtNode.below (n : ArtNode) (common : ℕ) (new_ : Addr) (m : NodeMetadata) : ArtNode :=
  { (n.truncate common).setParent new_ with
    sidleMeta := { n.sidleMeta with depth := max n.sidleMeta.depth ((m.depth + 1) % 256) % 64 } }

/-- The memory after the split of the prefix of `n`: a new node, a new leaf, and the old
node with the rest of its prefix. -/
structure PrefixSplit (env : Env) (s s' : Mem) (an : Addr) (n : ArtNode) (key : Key) (common : ℕ)
    (nd : ArtNode) : Prop where
  new_ : s'.node? (env.addr s.allocated) = some nd
  newLeaf : s'.leaf? (env.addr (s.allocated + 1)) = some (childLeaf nd.sidleMeta key)
  node : s'.node? an = some (n.below common (env.addr s.allocated) nd.sidleMeta)
  other : ∀ x, x ≠ env.addr s.allocated → x ≠ env.addr (s.allocated + 1) → x ≠ an →
    s'.heap x = s.heap x
  allocated : s'.allocated = s.allocated + 2
  root : s'.root = s.root
  usage : 0 ≤ s'.global.curLocalMemoryUsage

/-- The split of a prefix.  The new node stays locked. -/
theorem run_artNodeExpandAndInsert {parent : Addr} {key : Key} {off common : ℕ}
    (hb : env.build.assertions = true) (hp : PrefixPre env s parent an n key off common)
    {c : UInt8} (hkc : key[off + common]? = some c) (hbc : n.prefix_ common ≠ c) (fuel : ℕ) :
    ∃ nd s', env.machine.run (artNodeExpandAndInsert env (fuel + 1) parent an key off common) s =
        done (env.addr s.allocated) s' ∧
      PrefixSplit env s s' an n key common nd ∧ isLocked nd.version = true ∧
      ForkNode s parent off common (fun j => key.getD (off + j) 0) c
        (env.addr (s.allocated + 1) + 1)
        (n.prefix_ common) an nd := by
  obtain ⟨hfresh, hu, hpar, hnode, hoff, hpl8, hcommon, hofflt, hlen⟩ := hp
  obtain ⟨nd₀, g, hhead, hfh, hg⟩ := run_forkHeader (α := Addr) hb hu hpar off (by omega) fuel
  let ν := env.addr s.allocated
  let lam := env.addr (s.allocated + 1)
  let f : ℕ → UInt8 := fun j => key.getD (off + j) 0
  let nd₁ := nd₀.withPrefix f common
  have hempty : EmptyNode nd₁ := hfh.emptyNode f (by omega)
  have hanν : an ≠ ν := hfresh.ne_of_node? hnode
  -- a new leaf becomes a child
  let s₁ := s.withNode env .node4 nd₁ g
  have hs₁ : s₁.Fresh env := hfresh.withNode _ _ _
  have hν₁ : s₁.node? ν = some nd₁ := Mem.node?_withNode_self ..
  have han₁ : s₁.node? an = some n := by rw [Mem.node?_withNode_of_ne hanν, hnode]
  obtain ⟨g₂, hadd, hg₂⟩ := run_addNewLeaf hb hs₁ hg hν₁ hempty.ok hempty.room (hempty.slotOf c) key
    (fuel + 1)
  have hνl : ν ≠ lam := hs₁.ne_of_node? hν₁
  have hanl : an ≠ lam := hs₁.ne_of_node? han₁
  let nd₂ := nd₁.addChild c (lam + 1)
  let s₂ := (s₁.withLeaf env key.length (childLeaf nd₁.sidleMeta key) g₂).setNode ν nd₂
  have han₂ : s₂.node? an = some n := by
    rw [Mem.node?_setNode_of_ne _ _ hanν, Mem.node?_congr (Mem.heap_withLeaf_of_ne hanl), han₁]
  have hν₂ : s₂.node? ν = some nd₂ := Mem.node?_setNode_self ..
  -- and so does the old node, whose prefix is truncated first
  let s₃ := s₂.setNode an (n.truncate common)
  have hν₃ : s₃.node? ν = some nd₂ := by rw [Mem.node?_setNode_of_ne _ _ hanν.symm, hν₂]
  have hslot := hempty.slotOf_addChild (p := lam + 1) (Nat.succ_ne_zero lam) hbc
  let nd₃ := nd₁.fork c (lam + 1) (n.prefix_ common) an
  let s₄ := (s₃.setNode ν nd₃).setNode an ((n.truncate common).setParent ν)
  have hν₄ : s₄.node? ν = some nd₃ := by
    rw [Mem.node?_setNode_of_ne _ _ hanν.symm, Mem.node?_setNode_self]
  have hmeta : nd₁.sidleMeta = nd₃.sidleMeta := by rw [ArtNode.sidleMeta_fork]
  have hv₃ : view nd₃.version =
      ⟨off, getCount nd₃.version, common, .node4, false, true, false, 0⟩ := by
    have hv₁ : view nd₁.version = ⟨off, 0, common, .node4, false, true, false, 0⟩ := by
      simp only [nd₁, ArtNode.withPrefix,
        view_setPrefixLen nd₀.version (show common < 256 by omega), hfh.view]
    rw [show view nd₃.version = _ from hempty.view_fork, hv₁]
  obtain ⟨ho, hc, hpl, hty, hold, hlk, hex⟩ := view_fields hv₃
  refine ⟨nd₃, s₄.setNode an (n.below common ν nd₃.sidleMeta), ?_,
    ⟨?_, ?_, Mem.node?_setNode_self .., ?_, rfl, rfl, hg₂⟩, hlk,
    ⟨hempty.ok_fork (Nat.succ_ne_zero lam) hbc, ?_, ?_, ?_, ?_, ho, hpl, hold, hex⟩⟩
  · have hν₀ : (s.withNode env .node4 nd₀ g).node? ν = some nd₀ := Mem.node?_withNode_self ..
    have hpfx := run_artNodeSetPrefix env hν₀ key off common (by omega) (by omega)
    rw [Mem.setNode_withNode] at hpfx
    have hlt : off + common < key.length := by omega
    have hkbyte (st : Mem) : env.machine.run (keyAt key (off + common)) st = done c st := by
      rw [run_keyAt hlt]
      rw [List.getElem?_eq_getElem hlt, Option.some.injEq] at hkc
      rw [hkc]
    have htrunc := run_artNodeTruncatePrefix env han₂ hpl8 hcommon (by omega)
    have hadd₂ : env.machine.run (assertTrue env.build (do
        let r ← artNodeAddChild env (fuel + 1) ν (n.prefix_ common) an false
        pure r.1.isNone)) s₃ = done () s₄ := by
      have hnotleaf : isLeaf an = false := by
        obtain ⟨i, -, rfl⟩ := hfresh.exists_addr_of_node? hnode
        exact not_isLeaf_of_aligned (env.addr_aligned i)
      exact run_assertTrue hb (env.machine.run_bind_of_done (run_artNodeAddChild_node hν₃
        hempty.ok_addChild hempty.room_addChild hslot hnotleaf
        (Mem.node?_setNode_self ..) hanν (fuel + 1) false))
    unfold artNodeExpandAndInsert
    refine (hhead _).trans ?_
    refine (env.machine.run_bind_of_done hpfx).trans ?_
    simp only [hlt, if_true]
    refine (env.machine.run_bind_of_done (hkbyte _)).trans ?_
    refine (env.machine.run_bind_of_done hadd).trans ?_
    refine (env.machine.run_bind_of_done htrunc).trans ?_
    refine (env.machine.run_bind_of_done hadd₂).trans ?_
    refine (env.machine.run_bind_of_done
      (run_load (f := .sidleMeta) (Mem.node?_setNode_self ..) trivial)).trans ?_
    refine (env.machine.run_bind_of_done (run_load (f := .sidleMeta) hν₄ trivial)).trans ?_
    exact env.machine.run_bind_of_done
      (run_store (f := .sidleMeta) (Mem.node?_setNode_self ..) trivial)
  · rw [Mem.node?_setNode_of_ne _ _ hanν.symm, hν₄]
  · have hlam : s₂.leaf? lam = some (childLeaf nd₁.sidleMeta key) := by
      rw [Mem.leaf?_setNode_of_ne _ _ hνl.symm]
      exact Mem.leaf?_withLeaf_self ..
    rw [Mem.leaf?_setNode_of_ne _ _ hanl.symm, Mem.leaf?_setNode_of_ne _ _ hanl.symm,
      Mem.leaf?_setNode_of_ne _ _ hνl.symm, Mem.leaf?_setNode_of_ne _ _ hanl.symm, hlam, hmeta]
  · intro x hxν hxl hxa
    refine (Function.update_of_ne hxa _ _).trans ((Function.update_of_ne hxa _ _).trans ?_)
    refine (Function.update_of_ne hxν _ _).trans ((Function.update_of_ne hxa _ _).trans ?_)
    refine (Function.update_of_ne hxν _ _).trans ?_
    rw [Mem.heap_withLeaf_of_ne hxl, Mem.heap_withNode_of_ne hxν]
  · exact hempty.childAt_fork (Nat.succ_ne_zero lam) (hfresh.ne_zero_of_node? hnode) hbc
  · exact fun j hj => (congrFun ArtNode.prefix_fork j).trans
      (copied_of_lt (f := f) (g := nd₀.prefix_) hj)
  · exact ArtNode.parent_fork.trans hfh.parent
  · exact ArtNode.sidleMeta_fork.trans hfh.sidleMeta

end Sidle.Art
