import Sidle.Art.Node

/-!
# Migration of leaves and internal nodes

The functions of `art.cc` that move a leaf or an internal node to the other kind of memory:
the node is copied, and the slot of its parent is redirected to the copy.  A null result is
the address `0`.

## Main definitions

* `artNodeTraverse` — a callback for every child.
* `replaceOldChildPtr`, `replaceOldParentPtr` — redirecting the neighbours of a node.
* `leafMigration`, `internodeMigration` — migration.
-/

namespace Sidle.Art

open Prog

/-- `SIDLE_CHECK(cond, msg)`, which evaluates `cond` only when checks are compiled in. -/
def sidleCheck (build : Build) (cond : ArtM Bool) : ArtM Unit :=
  if build.sidleCheck then do
    let c ← cond
    if c then pure () else fail .thrown
  else pure ()

/-! ### Visiting children -/

/-- The loops over the child slots of a node: in round `i` the slot `slotAt i` is visited, if
there is one, until `visit` answers `false`.  The answer says that no visit did. -/
def visitChildren (an : Addr) (slotAt : ℕ → ArtM (Option ℕ)) (visit : ℕ → Ptr → ArtM Bool) :
    ℕ → ℕ → ArtM Bool
  | 0, _ => pure true
  | n + 1, i => do
    let slot ← slotAt i
    match slot with
    | none => visitChildren an slotAt visit n (i + 1)
    | some j => do
      let c ← load an (.child j)
      let goOn ← visit j c
      if goOn then visitChildren an slotAt visit n (i + 1) else pure false

/-- Round `i` of a loop over the bytes of a `node48`. -/
def indexSlot (an : Addr) (i : ℕ) : ArtM (Option ℕ) := do
  let index ← load an (.index (UInt8.ofNat i))
  pure (if index ≠ 0 then some (index.toNat - 1) else none)

/-- Round `i` of a loop over the children of a `node256` that skips empty slots. -/
def occupiedSlot (an : Addr) (i : ℕ) : ArtM (Option ℕ) := do
  let c ← load an (.child i)
  pure (if c ≠ 0 then some i else none)

/-- `art_node_traverse`; the answer says that no callback stopped the traversal. -/
def artNodeTraverse (curNode : Addr) (cb : Ptr → ArtM Bool) : ArtM Bool := do
  let version ← load curNode .version
  match getNodeType version with
  | .node4 | .node16 => do
    let version ← load curNode .version
    visitChildren curNode (fun i => pure (some i)) (fun _ c => cb c) (getCount version) 0
  | .node48 => visitChildren curNode (indexSlot curNode) (fun _ c => cb c) 256 0
  | .node256 => visitChildren curNode (occupiedSlot curNode) (fun _ c => cb c) 256 0

/-- `replace_old_child_ptr`: the first slot that holds `oldChild` is redirected, if there is
one. -/
def replaceOldChildPtr (build : Build) (parent : Addr) (oldChild newChild : Ptr) : ArtM Unit := do
  sidleCheck build (pure (parent != 0))
  let version ← load parent .version
  let childCount := getCount version
  let redirect (j : ℕ) (c : Ptr) : ArtM Bool :=
    if c = oldChild then do
      store parent (.child j) newChild
      pure false
    else pure true
  let version ← load parent .version
  let _ ← match getNodeType version with
    | .node4 | .node16 => visitChildren parent (fun i => pure (some i)) redirect childCount 0
    | .node48 => visitChildren parent (indexSlot parent) redirect 256 0
    | .node256 => visitChildren parent (fun i => pure (some i)) redirect 256 0
  pure ()

/-- `replace_old_parent_ptr`. -/
def replaceOldParentPtr (build : Build) (curNode : Addr) : ArtM Unit := do
  sidleCheck build (pure (curNode != 0))
  let _ ← artNodeTraverse curNode fun child =>
    if isLeaf child then pure true
    else do
      store child .parent curNode
      pure true
  pure ()

/-! ### Leaves -/

/-- The `key_length` bytes of a leaf, as `memcpy` reads them. -/
def leafBytes (leaf : Addr) : ArtM Key := do
  let len ← loadLeaf leaf .keyLength
  let bytes ← loadLeaf leaf .keys
  if len.toNat ≤ bytes.length then pure (bytes.take len.toNat) else fail .badAccess

/-- `leaf_migration`. -/
def leafMigration (env : Env) (fuel : ℕ) (curNode parent : Addr) (targetType : NodeMemType) :
    ArtM Addr :=
  if curNode = 0 then pure 0
  else do
    -- check whether current node has already been migrated
    let m ← loadLeaf curNode .metadata
    if m.type = targetType then pure 0
    else if parent = 0 then fail .thrown
    else do
      let pv ← artNodeGetVersion parent
      if isOld pv || isLocked pv then pure 0
      else do
        let r ← artNodeLock fuel parent
        if r ≠ 0 then pure 0
        else do
          let key ← leafBytes curNode
          let newNodePtr ← allocLeaf env parent key targetType true
          let newNode := getLeaf newNodePtr
          let m ← loadLeaf curNode .metadata
          let t ← loadLeaf curNode .accessTime
          storeLeaf newNode .metadata m
          storeLeaf newNode .accessTime t
          let m ← loadLeaf newNode .metadata
          storeLeaf newNode .metadata { m with type := targetType }
          -- the tagged pointer here is made from the address of the leaf itself
          replaceOldChildPtr env.build parent (makeLeaf curNode) newNodePtr
          pure parent

/-! ### Internal nodes -/

/-- `IS_VALID_ADDR`. -/
def isValidAddr (addr : Addr) : Bool := addr / 2 ^ 48 == 0

/-- One field of `memcpy(dst, src, …)`. -/
def copyField {β : Type} (dst src : Addr) (f : NodeField β) : ArtM Unit := lift (.copy dst src f)

/-- `memcpy(dst, src, size)` for the size of the layout `t`. -/
def memcpyNode (dst src : Addr) (t : NodeType) : ArtM Unit := do
  copyField dst src .version
  copyField dst src .prefixes
  copyField dst src .new_
  copyField dst src .parent
  copyField dst src .sidleMeta
  forRange 0 t.keyCapacity fun i => copyField dst src (.key i)
  if t = .node48 then forRange 0 256 fun i => copyField dst src (.index (UInt8.ofNat i))
  else pure ()
  forRange 0 t.capacity fun i => copyField dst src (.child i)

/-- The first part of `internode_migration`, with `need_lock_first`: whether the node is
locked now. -/
def lockFirst (fuel : ℕ) (originalNode : Addr) : ArtM Bool := do
  let v ← artNodeGetVersion originalNode
  if isOld v || isLocked v then pure false
  else do
    let r ← artNodeLock fuel originalNode
    pure (r == 0)

/-- The checks of `internode_migration` on the node: its version when it is to be copied. -/
def migratableVersion (env : Env) (originalNode : Addr) : ArtM (Option Version) := do
  let v ← artNodeGetVersion originalNode
  sidleCheck env.build (pure !isLocked v)
  sidleCheck env.build (do
    let m ← load originalNode .sidleMeta
    pure (decide (m.depth > 1)))
  if isOld v then do
    artNodeUnlock originalNode
    pure none
  else do
    let parent ← load originalNode .parent
    if !isValidAddr parent then do
      artNodeUnlock originalNode
      pure none
    else do
      let m ← load originalNode .sidleMeta
      if m.depth = 1 then do
        artNodeUnlock originalNode
        pure none
      else pure (some v)

/-- The rest of `internode_migration`, for a node with the version `v`: the node is copied
and its neighbours are redirected.  The answer is its locked parent. -/
def migrateCopy (env : Env) (fuel : ℕ) (originalNode : Addr) (targetType : NodeMemType)
    (v : Version) : ArtM Addr := do
  let newNode ← _newArtNode env (getNodeType v) 0 0 targetType true
  memcpyNode newNode originalNode (getNodeType v)
  let m ← load newNode .sidleMeta
  store newNode .sidleMeta { m with type := targetType }
  let parent ← artNodeGetLockedParent fuel originalNode
  sidleCheck env.build (pure (parent != 0))
  -- replace the old child pointer with the new one
  replaceOldChildPtr env.build parent originalNode newNode
  -- change the parent pointers of the children
  replaceOldParentPtr env.build newNode
  artNodeSetNewNode originalNode newNode
  artNodeSetVersion originalNode (setOld v)
  artNodeUnlock originalNode
  artNodeUnlock newNode
  pure parent

/-- `internode_migration`: the locked parent of the node, or null when it was not moved. -/
def internodeMigration (env : Env) (fuel : ℕ) (originalNode : Addr) (targetType : NodeMemType)
    (needLockFirst : Bool) : ArtM Addr := do
  let ready ← if needLockFirst then lockFirst fuel originalNode else pure true
  if ready then do
    let v ← migratableVersion env originalNode
    match v with
    | none => pure 0
    | some v => migrateCopy env fuel originalNode targetType v
  else pure 0

/-- `unlock_node`. -/
def unlockNode (an : Addr) : ArtM Unit :=
  if an = 0 then pure ()
  else do
    let v ← artNodeGetVersion an
    if isLocked v then artNodeUnlock an else pure ()

end Sidle.Art
