import Sidle.Art.Memory

/-!
# Operations on the nodes of the radix tree

The functions of `art_node.cc` and the allocation of `sidle_frontend.hh`, access by
access.  An `art_node **` is a `Slot`, a place that holds a child pointer; a null
`art_node **` is `none`.  The bytes `(key, len)` are one list.  `debug_assert_art` is
compiled out in every build of the repository.

## Main definitions

* `Slot` — the root pointer or a child slot.
* `assertTrue` — `assert(e)`, which evaluates `e` only when assertions are compiled in.
* `artNodeLock`, `artNodeUnlock`, `artNodeGetLockedParent` — the lock bit.
* `artNodeFindChild`, `artNodeGrow`, `artNodeAddChild`, … — the layouts.
-/

namespace Sidle.Art

open Prog

/-! ### Single accesses -/

/-- A place that holds a child pointer, `art_node **`. -/
inductive Slot
  /-- `&art->root`. -/
  | root
  /-- `&an->child[i]`. -/
  | child (an : Addr) (i : ℕ)
  deriving DecidableEq, Repr

/-- Load a field of a node. -/
def load {β : Type} (an : Addr) (f : NodeField β) : ArtM β := lift (.load an f)

/-- Store a field of a node. -/
def store {β : Type} (an : Addr) (f : NodeField β) (x : β) : ArtM Unit := lift (.store an f x)

/-- Load a field of a leaf. -/
def loadLeaf {β : Type} (a : Addr) (f : LeafField β) : ArtM β := lift (.loadLeaf a f)

/-- Store a field of a leaf. -/
def storeLeaf {β : Type} (a : Addr) (f : LeafField β) (x : β) : ArtM Unit := lift (.storeLeaf a f x)

/-- `__atomic_load(ptr, …)`. -/
def loadSlot : Slot → ArtM Ptr
  | .root => lift .loadRoot
  | .child an i => load an (.child i)

/-- `__atomic_store(ptr, …)`. -/
def storeSlot : Slot → Ptr → ArtM Unit
  | .root, p => lift (.storeRoot p)
  | .child an i, p => store an (.child i) p

/-- `key[off]`; a byte past the end of the key is not the caller's. -/
def keyAt (key : Key) (off : ℕ) : ArtM UInt8 :=
  match key[off]? with
  | some b => pure b
  | none => fail .badAccess

/-- `assert(e)`. -/
def assertTrue (build : Build) (e : ArtM Bool) : ArtM Unit :=
  if build.assertions then do
    let b ← e
    if b then pure () else fail .assertFailed
  else pure ()

/-- `art_node_get_version`. -/
def artNodeGetVersion (an : Addr) : ArtM Version := load an .version

/-- `art_node_set_version`. -/
def artNodeSetVersion (an : Addr) (version : Version) : ArtM Unit := store an .version version

/-- `art_node_get_version_unsafe`: a plain load. -/
def artNodeGetVersionUnsafe (an : Addr) : ArtM Version := load an .version

/-- `art_node_set_version_unsafe`: a plain store. -/
def artNodeSetVersionUnsafe (an : Addr) (version : Version) : ArtM Unit :=
  store an .version version

/-- `art_node_set_offset`: `an->version = set_offset(an->version, off)`. -/
def artNodeSetOffset (an : Addr) (off : ℕ) : ArtM Unit := do
  let version ← load an .version
  store an .version (setOffset version off)

/-- `art_node_get_parent`. -/
def artNodeGetParent (an : Addr) : ArtM Addr := load an .parent

/-- `art_node_set_new_node`. -/
def artNodeSetNewNode (old new_ : Addr) : ArtM Unit := store old .new_ new_

/-! ### Allocation -/

/-- `sidle_strategy::decide_new_node_position`. -/
def decideNewNodePosition (parentType : NodeMemType) (curDepth : ℕ) : ArtM NodeMemType :=
  lift (.onGlobal fun g => some (g.decideNewNodePosition parentType curDepth, g))

/-- `sidle_strategy::update_local_memory_usage`. -/
def updateLocalMemoryUsage (env : Env) (type : NodeMemType) (curDepth : ℕ) (nodeSize : ℤ)
    (isMigration isLeaf : Bool) : ArtM Unit :=
  lift (.onGlobal fun g =>
    (g.updateLocalMemoryUsage env.build.sidleCheck env.checkMemoryUsage type curDepth nodeSize
      isMigration isLeaf).map fun g' => ((), g'))

/-- The depth of a new child of `parent` in `sidle_alloc`, a byte. -/
def childDepth (parent : Addr) : ArtM ℕ :=
  if parent = 0 then pure 1
  else do
    let m ← load parent .sidleMeta
    pure ((m.depth + 1) % 256)

/-- The memory type `sidle_alloc` gives a new node: the requested one, or, when that is
`unknown`, the one the strategy decides from the parent. -/
def newNodeType (parent : Addr) (targetType : NodeMemType) (curDepth : ℕ) : ArtM NodeMemType :=
  if targetType = .unknown then do
    let parentType ←
      if parent = 0 then pure NodeMemType.unknown
      else do
        let m ← load parent .sidleMeta
        pure m.type
    decideNewNodePosition parentType curDepth
  else pure targetType

/-- The memory accounting at the end of `sidle_alloc`. -/
def accountAlloc (env : Env) (type : NodeMemType) (curDepth : ℕ) (size : ℤ)
    (isMigration isLeaf : Bool) : ArtM Unit :=
  if type = .local_ || isMigration then
    updateLocalMemoryUsage env type (if isLeaf then curDepth else leafDepth) size isMigration isLeaf
  else pure ()

/-- `sidle_alloc` for an internal node of layout `t`. -/
def sidleAllocNode (env : Env) (t : NodeType) (parent : Addr) (targetType : NodeMemType)
    (isMigration : Bool) (oldSize : ℕ) : ArtM Addr := do
  let curDepth ← childDepth parent
  let type ← newNodeType parent targetType curDepth
  let an ← lift (.mallocNode t)
  store an .sidleMeta (NodeMetadata.make type curDepth)
  accountAlloc env type curDepth ((t.size : ℤ) - oldSize) isMigration false
  pure an

/-- `_new_art_node`. -/
def _newArtNode (env : Env) (t : NodeType) (parent : Addr) (oldSize : ℕ)
    (targetType : NodeMemType) (isMigration : Bool) : ArtM Addr := do
  let an ← sidleAllocNode env t parent targetType isMigration oldSize
  store an .version 0
  store an .new_ 0
  store an .parent 0
  pure an

/-- `memset(index, 0, 256)` of a new `node48`, and of the children of a new `node256`. -/
def memsetBody (an : Addr) : NodeType → ArtM Unit
  | .node48 => forRange 0 256 fun i => store an (.index (UInt8.ofNat i)) 0
  | .node256 => forRange 0 256 fun i => store an (.child i) 0
  | _ => pure ()

/-- `new_art_node4`, `new_art_node16`, `new_art_node48` and `new_art_node256`. -/
def newArtNodeOf (env : Env) (t : NodeType) (parent : Addr) (oldSize : ℕ) : ArtM Addr := do
  let an ← _newArtNode env t parent oldSize .unknown false
  let version ← load an .version
  store an .version (setType version t)
  memsetBody an t
  pure an

/-- `new_art_node`. -/
def newArtNode (env : Env) (parent : Addr) : ArtM Addr := newArtNodeOf env .node4 parent 0

/-- `alloc_leaf`, with the `sidle_alloc` of a leaf. -/
def allocLeaf (env : Env) (parent : Addr) (key : Key) (targetType : NodeMemType)
    (isMigration : Bool) : ArtM Ptr := do
  let curDepth ← childDepth parent
  let type ← newNodeType parent targetType curDepth
  let node ← lift (.mallocLeaf key.length)
  storeLeaf node .metadata (NodeMetadata.make type curDepth)
  storeLeaf node .accessTime 0
  accountAlloc env type curDepth (4 + key.length) isMigration true
  storeLeaf node .keyLength (UInt8.ofNat key.length)
  storeLeaf node .keys key
  pure (makeLeaf (node + 1))

/-- `update_access`. -/
def updateAccess (leaf : Addr) : ArtM Unit := do
  let t ← loadLeaf leaf .accessTime
  storeLeaf leaf .accessTime (t + 1)

/-- `free_art_node`. -/
def freeArtNode (env : Env) (an : Addr) : ArtM Unit := do
  let version ← load an .version
  let m ← load an .sidleMeta
  updateLocalMemoryUsage env m.type m.depth (getNodeType version).size false false
  lift (.free an)

/-! ### Locks -/

/-- `art_node_get_stable_expand_version`. -/
def artNodeGetStableExpandVersion : ℕ → Addr → ArtM Version
  | 0, _ => diverge
  | fuel + 1, an => do
    let version ← artNodeGetVersionUnsafe an
    if isExpanding version then artNodeGetStableExpandVersion fuel an
    else pure version

/-- `art_node_lock`: `0` on success, `1` when the node is old. -/
def artNodeLock : ℕ → Addr → ArtM ℕ
  | 0, _ => diverge
  | fuel + 1, an => do
    let version ← artNodeGetVersion an
    if isLocked version then artNodeLock fuel an
    else if isOld version then pure 1
    else do
      let ok ← lift (.casVersion an version (setLock version))
      if ok then pure 0 else artNodeLock fuel an

/-- What `art_node_unlock` makes of the version word: the expansion in progress, if any,
is counted and ended, and the lock bit is cleared. -/
def unlockedVersion (version : Version) : Version :=
  unsetLock (if isExpanding version then unsetExpand (incrVexpand version) else version)

/-- `art_node_unlock`. -/
def artNodeUnlock (an : Addr) : ArtM Unit := do
  let version ← load an .version
  artNodeSetVersion an (unlockedVersion version)

/-- `art_node_get_locked_parent`. -/
def artNodeGetLockedParent : ℕ → Addr → ArtM Addr
  | 0, _ => diverge
  | fuel + 1, an => do
    let parent ← artNodeGetParent an
    if parent = 0 then pure 0
    else do
      let r ← artNodeLock fuel parent
      if r ≠ 0 then artNodeGetLockedParent fuel an
      else do
        let parent' ← artNodeGetParent an
        if parent' = parent then pure parent
        else do
          artNodeUnlock parent
          artNodeGetLockedParent fuel an

/-! ### Children -/

/-- The search loop of `art_node_find_child` in a `node4`, from position `i` on. -/
def findKey (an : Addr) (byte : UInt8) : ℕ → ℕ → ArtM (Option Slot)
  | 0, _ => pure none
  | n + 1, i => do
    let b ← load an (.key i)
    if b = byte then pure (some (.child an i)) else findKey an byte n (i + 1)

/-- The first position below `count` at which the sixteen keys hold `byte`:
`_mm_movemask_epi8(cmp) & ((1 << count) - 1)`, and its lowest set bit. -/
def matchKeys (keys : ℕ → UInt8) (count : ℕ) (byte : UInt8) : Option ℕ :=
  (List.range (min count 16)).find? fun i => keys i == byte

/-- `art_node_find_child`. -/
def artNodeFindChild (an : Addr) (version : Version) (byte : UInt8) : ArtM (Option Slot) :=
  match getNodeType version with
  | .node4 => findKey an byte (getCount version) 0
  | .node16 => do
    let keys ← load an .keys
    pure ((matchKeys keys (getCount version) byte).map fun i => .child an i)
  | .node48 => do
    let index ← load an (.index byte)
    pure (if index ≠ 0 then some (.child an (index.toNat - 1)) else none)
  | .node256 => do
    let child ← load an (.child byte.toNat)
    pure (if child ≠ 0 then some (.child an byte.toNat) else none)

/-- `child->parent = parent` for a child that is an internal node. -/
def adopt (child : Ptr) (parent : Addr) : ArtM Unit :=
  if isLeaf child then pure () else store child .parent parent

/-- The common beginning of the three branches of `art_node_grow`: a node of the next
layout, with the prefix and the parent of `an`. -/
def growHeader (env : Env) (t : NodeType) (an : Addr) (version : Version) (oldSize : ℕ) :
    ArtM Addr := do
  let parent ← load an .parent
  let new_ ← newArtNodeOf env t parent oldSize
  let p ← load an .prefixes
  store new_ .prefixes p
  let v ← load new_ .version
  store new_ .version (setPrefixLen v (getPrefixLen version))
  let parent' ← load an .parent
  store new_ .parent parent'
  pure new_

/-- The copying loop of `art_node_grow` from a `node4` to a `node16`. -/
def growTo16 (an new_ : Addr) (i : ℕ) : ArtM Unit := do
  let k ← load an (.key i)
  store new_ (.key i) k
  let c ← load an (.child i)
  store new_ (.child i) c
  adopt c new_

/-- The copying loop of `art_node_grow` from a `node16` to a `node48`. -/
def growTo48 (an new_ : Addr) (i : ℕ) : ArtM Unit := do
  let c ← load an (.child i)
  store new_ (.child i) c
  adopt c new_
  let k ← load an (.key i)
  store new_ (.index k) (UInt8.ofNat (i + 1))

/-- The copying loop of `art_node_grow` from a `node48` to a `node256`. -/
def growTo256 (an new_ : Addr) (i : ℕ) : ArtM Unit := do
  let index ← load an (.index (UInt8.ofNat i))
  if index ≠ 0 then do
    let c ← load an (.child (index.toNat - 1))
    store new_ (.child i) c
    adopt c new_
  else pure ()

/-- `new_->version = set_count(new_->version, count)`. -/
def artNodeSetCount (an : Addr) (count : ℕ) : ArtM Unit := do
  let version ← load an .version
  store an .version (setCount version count)

/-- The part of `art_node_grow` that depends on the layout; a `node256` is not growable. -/
def growBody (env : Env) (an : Addr) (version : Version) : ArtM Addr :=
  match getNodeType version with
  | .node4 => do
    let new_ ← growHeader env .node16 an version (NodeType.node16.size - NodeType.node4.size)
    forRange 0 4 (growTo16 an new_)
    artNodeSetCount new_ 4
    pure new_
  | .node16 => do
    let new_ ← growHeader env .node48 an version (NodeType.node48.size - NodeType.node16.size)
    forRange 0 16 (growTo48 an new_)
    artNodeSetCount new_ 16
    pure new_
  | .node48 => do
    let new_ ← growHeader env .node256 an version (NodeType.node256.size - NodeType.node48.size)
    forRange 0 256 (growTo256 an new_)
    pure new_
  | .node256 => do
    -- without assertions `new_` stays uninitialised
    assertTrue env.build (pure false)
    fail .badAccess

/-- `art_node_grow`. -/
def artNodeGrow (env : Env) (fuel : ℕ) (an : Addr) : ArtM Addr := do
  let version ← load an .version
  let new_ ← growBody env an version
  assertTrue env.build (do
    let r ← artNodeLock fuel new_
    pure (r == 0))
  artNodeSetOffset new_ (getOffset version)
  artNodeSetNewNode an new_
  artNodeSetVersion an (setOld version)
  pure new_

/-- `art_node_is_full`. -/
def artNodeIsFull (an : Addr) : ArtM Bool := do
  let version ← load an .version
  match getNodeType version with
  | .node4 => pure (getCount version == 4)
  | .node16 => pure (getCount version == 16)
  | .node48 => pure (getCount version == 48)
  | .node256 => pure false

/-- The insertion of `art_node_add_child` into a node that has room. -/
def addChildBody (an : Addr) (version : Version) (byte : UInt8) (child : Ptr) : ArtM Unit :=
  match getNodeType version with
  | .node4 | .node16 => do
    let count := getCount version
    store an (.child count) child
    store an (.key count) byte
    store an .version (incrCount version)
  | .node48 => do
    let version := incrCount version
    store an (.child (getCount version - 1)) child
    store an (.index byte) (UInt8.ofNat (getCount version))
    store an .version version
  | .node256 => store an (.child byte.toNat) child

/-- `art_node_add_child`: the slot that holds `byte` already, or `none` after adding the
child; and the value of `*new_`, null when the node did not grow.  `wantNew` says that
the caller passed a place for `*new_`. -/
def artNodeAddChild (env : Env) (fuel : ℕ) (an : Addr) (byte : UInt8) (child : Ptr)
    (wantNew : Bool) : ArtM (Option Slot × Addr) := do
  let version ← load an .version
  let next ← artNodeFindChild an version byte
  if next.isSome then pure (next, 0)
  else do
    let full ← artNodeIsFull an
    if full then do
      let new_ ← artNodeGrow env fuel an
      if wantNew then do
        let version ← load new_ .version
        addChildBody new_ version byte child
        adopt child new_
        artNodeUnlock new_
        pure (none, new_)
      else fail .badAccess
    else do
      addChildBody an version byte child
      adopt child an
      pure (none, 0)

/-! ### Prefixes -/

/-- `art_node_set_prefix`. -/
def artNodeSetPrefix (an : Addr) (key : Key) (off prefixLen : ℕ) : ArtM Unit := do
  forRange 0 prefixLen fun i => do
    let b ← keyAt key (off + i)
    store an (.prefix_ i) b
  let version ← load an .version
  store an .version (setPrefixLen version prefixLen)

/-- The loop of `art_node_prefix_compare`; `n` bounds the rounds that are left. -/
def prefixCompareLoop (an : Addr) (key : Key) : ℕ → ℕ → ℕ → ArtM ℕ
  | 0, i, _ => pure i
  | n + 1, i, off =>
    if off < key.length then do
      let b ← load an (.prefix_ i)
      let c ← keyAt key off
      if b ≠ c then pure i else prefixCompareLoop an key n (i + 1) (off + 1)
    else pure i

/-- `art_node_prefix_compare`: the first position of the prefix that differs. -/
def artNodePrefixCompare (an : Addr) (version : Version) (key : Key) (off : ℕ) : ArtM ℕ :=
  prefixCompareLoop an key (getPrefixLen version) 0 off

/-- `art_node_truncate_prefix`. -/
def artNodeTruncatePrefix (an : Addr) (off : ℕ) : ArtM UInt8 := do
  let version ← load an .version
  -- mark expand bit before truncate prefix
  let version := setExpand version
  artNodeSetVersion an version
  let prefixLen := getPrefixLen version
  let ret ← load an (.prefix_ off)
  forRange 0 (prefixLen - (off + 1)) fun i => do
    let b ← load an (.prefix_ (off + 1 + i))
    store an (.prefix_ i) b
  let version := setPrefixLen version (prefixLen - off - 1)
  let version := setOffset version (off + (getOffset version + 1))
  artNodeSetVersionUnsafe an version
  pure ret

/-! ### Splitting -/

/-- The comparison loop over the bytes of a leaf and of the key, from position `i` on: the
first position at which they differ or one of them ends; `n` bounds the rounds left. -/
def leafCompareLoop (leaf : Addr) (l1 : ℕ) (key : Key) : ℕ → ℕ → ArtM ℕ
  | 0, i => pure i
  | n + 1, i =>
    if i < l1 ∧ i < key.length then do
      let b ← loadLeaf leaf (.key i)
      let c ← keyAt key i
      if b = c then leafCompareLoop leaf l1 key n (i + 1) else pure i
    else pure i

/-- `off == l ? 0 : k[off]` for the bytes of a leaf. -/
def leafByte (leaf : Addr) (l off : ℕ) : ArtM UInt8 :=
  if off = l then pure 0 else loadLeaf leaf (.key off)

/-- `off == len ? 0 : key[off]`. -/
def keyByte (key : Key) (off : ℕ) : ArtM UInt8 :=
  if off = key.length then pure 0 else keyAt key off

/-- The bytes `k1[off .. off + n)` of a leaf become the prefix of `new_`:
`art_node_set_prefix(new_, k1, off, n)`. -/
def setPrefixFromLeaf (new_ leaf : Addr) (off n : ℕ) : ArtM Unit := do
  forRange 0 n fun i => do
    let b ← loadLeaf leaf (.key (off + i))
    store new_ (.prefix_ i) b
  let version ← load new_ .version
  store new_ .version (setPrefixLen version n)

/-- The duplicate branch of `art_node_replace_leaf_child`: the access is counted, and a
`REAL_WORLD` build allocates a copy that it then drops. -/
def touchDuplicate (env : Env) (parent : Addr) (an : Ptr) (key : Key) : ArtM Unit := do
  updateAccess (getLeaf an)
  if env.build.realWorld then do
    let m ← loadLeaf (getLeaf an) .metadata
    let t ← loadLeaf (getLeaf an) .accessTime
    let an ← allocLeaf env parent key .unknown false
    storeLeaf (getLeaf an) .metadata m
    storeLeaf (getLeaf an) .accessTime t
  else pure ()

/-- `art_node_replace_leaf_child`: `0` when the key exists, otherwise the node that takes
the place of the leaf. -/
def artNodeReplaceLeafChild (env : Env) (fuel : ℕ) (parent : Addr) (an : Ptr) (key : Key)
    (off : ℕ) : ArtM Addr := do
  let leaf := getLeaf an
  let len ← loadLeaf leaf .keyLength
  let l1 := getLeafLen len
  let i ← leafCompareLoop leaf l1 key (key.length - off) off
  if i = l1 ∧ i = key.length then do
    touchDuplicate env parent an key
    pure 0
  else do
    let new_ ← newArtNode env parent
    store new_ .parent parent
    artNodeSetOffset new_ off
    assertTrue env.build (do
      let r ← artNodeLock fuel new_
      pure (r == 0))
    assertTrue env.build (pure (i - off ≤ 8))
    setPrefixFromLeaf new_ leaf off (i - off)
    let byte ← leafByte leaf l1 i
    assertTrue env.build (do
      let r ← artNodeAddChild env fuel new_ byte an false
      pure r.1.isNone)
    let byte ← keyByte key i
    assertTrue env.build (do
      let l ← allocLeaf env new_ key .remote false
      let r ← artNodeAddChild env fuel new_ byte l false
      pure r.1.isNone)
    -- update the leaf node's depth
    let m ← loadLeaf leaf .metadata
    let mn ← load new_ .sidleMeta
    storeLeaf leaf .metadata { m with depth := max m.depth ((mn.depth + 1) % 256) % 64 }
    artNodeUnlock new_
    pure new_

/-- `art_node_expand_and_insert`.  The `art_node_unlock(new_)` of the source stands inside
`#ifdef RECORD_NODE_GEN`, which no build defines. -/
def artNodeExpandAndInsert (env : Env) (fuel : ℕ) (parent an : Addr) (key : Key)
    (off common : ℕ) : ArtM Addr := do
  let new_ ← newArtNode env parent
  store new_ .parent parent
  artNodeSetOffset new_ off
  assertTrue env.build (do
    let r ← artNodeLock fuel new_
    pure (r == 0))
  artNodeSetPrefix new_ key off common
  let byte ← if off + common < key.length then keyAt key (off + common) else pure 0
  assertTrue env.build (do
    let l ← allocLeaf env new_ key .remote false
    let r ← artNodeAddChild env fuel new_ byte l false
    pure r.1.isNone)
  let byte ← artNodeTruncatePrefix an common
  assertTrue env.build (do
    let r ← artNodeAddChild env fuel new_ byte an false
    pure r.1.isNone)
  -- update old node's depth
  let m ← load an .sidleMeta
  let mn ← load new_ .sidleMeta
  store an .sidleMeta { m with depth := max m.depth ((mn.depth + 1) % 256) % 64 }
  pure new_

/-- `art_node_replace_child`. -/
def artNodeReplaceChild (parent : Addr) (byte : UInt8) (new_ : Addr) : ArtM Unit := do
  let version ← load parent .version
  let child ← artNodeFindChild parent version byte
  match child with
  | some slot => do
    storeSlot slot new_
    store new_ .parent parent
  | none => fail .badAccess

end Sidle.Art
