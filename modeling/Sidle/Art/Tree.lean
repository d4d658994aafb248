import Sidle.Art.Node

/-!
# Insertion and lookup

The functions `adaptive_radix_tree_put` and `adaptive_radix_tree_get` of `art.cc`.  A
`goto begin` is a call of the loop body with `first` lowered, a tail call one with a
fresh `first`; both spend fuel.

## Main definitions

* `_adaptiveRadixTreePut`, `adaptiveRadixTreePut` — insertion.
* `_adaptiveRadixTreeGet`, `adaptiveRadixTreeGet` — lookup.
-/

namespace Sidle.Art

open Prog

/-- `art_node_version_compare_expand`. -/
def artNodeVersionCompareExpand (version1 version2 : Version) : Bool :=
  isExpanding version1 != isExpanding version2 || getVexpand version1 != getVexpand version2

/-- The check behind the label `begin`: unless this is the first time it is passed, `ptr`
is only valid as long as `parent` is not old. -/
def parentIsOld (first : Bool) (parent : Addr) : ArtM Bool :=
  if first || parent == 0 then pure false
  else do
    let pv ← artNodeGetVersion parent
    pure (isOld pv)

/-! ### Insertion -/

/-- `adaptive_radix_tree_replace_leaf`: `0` on success, `1` when the key exists, `-1` for a
retry.  Without a parent `ptr` is `&art->root`. -/
def adaptiveRadixTreeReplaceLeaf (env : Env) (fuel : ℕ) (parent : Addr) (ptr : Slot) (an : Ptr)
    (key : Key) (off : ℕ) : ArtM ℤ := do
  let new_ ← artNodeReplaceLeafChild env fuel parent an key off
  if new_ = 0 then pure 1
  else if parent ≠ 0 then do
    let r ← artNodeLock fuel parent
    if r ≠ 0 then do
      -- parent is old
      freeArtNode env new_
      pure (-1)
    else do
      let now ← loadSlot ptr
      if now ≠ an then do
        -- leaf has been replaced by another thread
        artNodeUnlock parent
        freeArtNode env new_
        pure (-1)
      else do
        storeSlot ptr new_
        artNodeUnlock parent
        pure 0
  else do
    let ok ← lift (.casRoot an new_)
    if ok then pure 0
    else do
      freeArtNode env new_
      pure (-1)

/-- The end of an insertion that replaced the node `an` by `new_`: the parent of `an`, if
there is one, or the root pointer is redirected. -/
def linkNewNode (parent : Addr) (ptr : Slot) (byte : UInt8) (new_ : Addr) : ArtM Unit :=
  if parent ≠ 0 then do
    artNodeReplaceChild parent byte new_
    artNodeUnlock parent
  else storeSlot ptr new_

/-- `key[off - 1]`, read only when there is a parent. -/
def keyBefore (parent : Addr) (key : Key) (off : ℕ) : ArtM UInt8 :=
  if parent ≠ 0 then (if off = 0 then fail .badAccess else keyAt key (off - 1)) else pure 0

/-- The branch of `_adaptive_radix_tree_put` in which the key leaves the prefix of `an` at
position `p`; `goBegin` is the `goto begin`. -/
def putPrefixMismatch (env : Env) (fuel : ℕ) (goBegin : ArtM ℤ) (ptr : Slot) (an : Addr)
    (v : Version) (key : Key) (off p : ℕ) : ArtM ℤ := do
  let r ← artNodeLock fuel an
  if r ≠ 0 then goBegin
  else do
    -- still need to check whether prefix has been changed!
    let v' ← artNodeGetVersionUnsafe an
    if artNodeVersionCompareExpand v v' then do
      artNodeUnlock an
      goBegin
    else do
      let parent ← artNodeGetLockedParent fuel an
      let new_ ← artNodeExpandAndInsert env fuel parent an key off p
      store an .parent new_
      let byte ← keyBefore parent key off
      linkNewNode parent ptr byte new_
      artNodeUnlock an
      pure 0

/-- The branch of `_adaptive_radix_tree_put` in which `an` has no child for the byte at
`off`; `descend` is the tail call on the slot another insertion has filled meanwhile. -/
def putAddChild (env : Env) (fuel : ℕ) (goBegin : ArtM ℤ) (descend : Slot → ArtM ℤ) (ptr : Slot)
    (an : Addr) (key : Key) (off p : ℕ) : ArtM ℤ := do
  let r ← artNodeLock fuel an
  if r ≠ 0 then goBegin
  else do
    let byte ← keyAt key off
    let leaf ← allocLeaf env an key .remote false
    let (next, new_) ← artNodeAddChild env fuel an byte leaf true
    if new_ ≠ 0 then do
      let parent ← artNodeGetLockedParent fuel an
      let byte ← keyBefore parent key (off - p)
      linkNewNode parent ptr byte new_
      artNodeUnlock an
    else artNodeUnlock an
    -- another thread might inserted same byte before we acquire lock
    match next with
    | some slot => descend slot
    | none => pure 0

/-- The part of `_adaptive_radix_tree_put` below the prefix of `an`, which ends at `off`;
`descend` is the tail call. -/
def putDescend (env : Env) (fuel : ℕ) (goBegin : ArtM ℤ) (descend : Slot → ArtM ℤ) (ptr : Slot)
    (an : Addr) (v1 : Version) (key : Key) (off p : ℕ) : ArtM ℤ := do
  let byte ← keyAt key off
  let next ← artNodeFindChild an v1 byte
  let v ← artNodeGetVersion an
  if isOld v then goBegin
  else
    match next with
    | some slot => descend slot
    | none => putAddChild env fuel goBegin descend ptr an key off p

/-- `_adaptive_radix_tree_put`: `0` on success, `1` when the key exists, `-1` for a retry. -/
def _adaptiveRadixTreePut (env : Env) (key : Key) : ℕ → Bool → Addr → Slot → ℕ → ArtM ℤ
  | 0, _, _, _, _ => diverge
  | fuel + 1, first, parent, ptr, off => do
    let goBegin := _adaptiveRadixTreePut env key fuel false parent ptr off
    let stale ← parentIsOld first parent
    if stale then pure (-1)
    else do
      let an ← loadSlot ptr
      if isLeaf an then adaptiveRadixTreeReplaceLeaf env fuel parent ptr an key off
      else do
        let v ← artNodeGetStableExpandVersion fuel an
        if getOffset v ≠ off then goBegin
        else if isOld v then goBegin
        else do
          let p ← artNodePrefixCompare an v key off
          let v1 ← artNodeGetVersion an
          if isOld v1 || artNodeVersionCompareExpand v v1 then goBegin
          else if p ≠ getPrefixLen v1 then putPrefixMismatch env fuel goBegin ptr an v1 key off p
          else
            putDescend env fuel goBegin
              (fun slot => _adaptiveRadixTreePut env key fuel true an slot (off + p + 1)) ptr an v1
              key (off + p) p

/-- The retry loop of `adaptive_radix_tree_put`. -/
def putRetry (env : Env) (key : Key) : ℕ → ArtM ℤ
  | 0 => diverge
  | fuel + 1 => do
    let ret ← _adaptiveRadixTreePut env key fuel true 0 .root 0
    if ret = -1 then putRetry env key fuel else pure ret

/-- `adaptive_radix_tree_put`: `0` on success, `1` on duplication. -/
def adaptiveRadixTreePut (env : Env) (key : Key) (fuel : ℕ) : ArtM ℤ := do
  let root ← lift .loadRoot
  if root = 0 then do
    let leaf ← allocLeaf env 0 key .remote false
    let ok ← lift (.casRoot 0 leaf)
    -- else another thread has replaced empty root
    if ok then pure 0 else putRetry env key fuel
  else putRetry env key fuel

/-! ### Lookup -/

/-- What a lookup returns: `0`, the `1` that asks for a retry, or the key of a leaf. -/
inductive GetResult
  | null
  | retry
  | found (leaf : Addr)
  deriving DecidableEq, Repr

/-- The part of `_adaptive_radix_tree_get` at a leaf. -/
def getAtLeaf (an : Ptr) (key : Key) (off : ℕ) : ArtM GetResult := do
  let leaf := getLeaf an
  let len ← loadLeaf leaf .keyLength
  let l1 := getLeafLen len
  let i ← leafCompareLoop leaf l1 key (key.length - off) off
  if i = l1 ∧ i = key.length then do
    updateAccess leaf
    pure (.found leaf)
  else pure .null

/-- The part of `_adaptive_radix_tree_get` below the prefix of `an`; `goBegin` is the
`goto begin`, `descend` the tail call. -/
def getDescend (goBegin : ℕ → ArtM GetResult) (descend : Slot → ℕ → ArtM GetResult) (an : Addr)
    (v1 : Version) (key : Key) (off : ℕ) : ArtM GetResult := do
  let advance := if off ≠ key.length then 1 else 0
  let byte ← keyByte key off
  let next ← artNodeFindChild an v1 byte
  let v2 ← artNodeGetVersion an
  if isOld v2 then goBegin off
  else
    match next with
    | some slot => descend slot (off + advance)
    | none => pure .null

/-- `_adaptive_radix_tree_get`.  The `goto begin` after the search of the children keeps
the offset that has moved over the prefix. -/
def _adaptiveRadixTreeGet (key : Key) : ℕ → Bool → Addr → Slot → ℕ → ArtM GetResult
  | 0, _, _, _, _ => diverge
  | fuel + 1, first, parent, ptr, off => do
    let goBegin := _adaptiveRadixTreeGet key fuel false parent ptr
    let stale ← parentIsOld first parent
    if stale then pure .retry
    else do
      let an ← loadSlot ptr
      if isLeaf an then getAtLeaf an key off
      else do
        let v ← artNodeGetStableExpandVersion fuel an
        if getOffset v ≠ off then goBegin off
        else if isOld v then goBegin off
        else do
          let p ← artNodePrefixCompare an v key off
          let v1 ← artNodeGetVersion an
          if isOld v1 || artNodeVersionCompareExpand v v1 then goBegin off
          else if p ≠ getPrefixLen v1 then pure .null
          else
            getDescend goBegin (_adaptiveRadixTreeGet key fuel true an) an v1 key
              (off + getPrefixLen v1)

/-- The retry loop of `adaptive_radix_tree_get`. -/
def getRetry (key : Key) : ℕ → ArtM GetResult
  | 0 => diverge
  | fuel + 1 => do
    let ret ← _adaptiveRadixTreeGet key fuel true 0 .root 0
    if ret = .retry then getRetry key fuel else pure ret

/-- `adaptive_radix_tree_get`. -/
def adaptiveRadixTreeGet (key : Key) (fuel : ℕ) : ArtM GetResult := do
  let root ← lift .loadRoot
  if root = 0 then pure .null else getRetry key fuel

end Sidle.Art
