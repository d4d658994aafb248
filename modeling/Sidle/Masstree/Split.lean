import Sidle.Masstree.Memory

/-!
# Splits

`masstree_split.hh`: a full leaf is split, and then the internodes above it for as long as
they are full.  A round of the loop in `make_split` hangs a new node up beside the node that
was split.

## Main definitions

* `linkSplit`, `unlinkLeaf`, `changeLink` — the list of leaves.
* `leafSplitInto`, `internodeSplitInto` — `split_into`.
* `splitRound`, `makeSplit` — `make_split`.
-/

namespace Sidle.Masstree

open Art (Build Fault)
open Prog

/-! ### The list of leaves -/

section Links

/-- `btree_leaflink::mark`. -/
def mark (n : Addr) : ℕ := n + 1

/-- `btree_leaflink::is_marked`. -/
def isMarked (n : ℕ) : Bool := n % 2 == 1

/-- `bool_cmpxchg` on `next_.ptr`. -/
def casNext (a : Addr) (expected desired : ℕ) : MtM Bool :=
  access (·.leaf? a) fun l mem =>
    if l.next = expected then (true, mem.setNode a (.leaf { l with next := desired }))
    else (false, mem)

/-- `lock_next`. -/
def lockNext (n : Addr) : ℕ → MtM Addr
  | 0 => diverge
  | fuel + 1 => do
    let l ← readLeaf n
    if l.next = 0 then pure 0
    else do
      let ok ← if isMarked l.next then pure false else casNext n l.next (mark l.next)
      if ok then pure l.next else lockNext n fuel

/-- A store to `next->prev_`, if there is a next leaf. -/
def setPrevOf (next prev : Addr) : MtM Unit :=
  if next ≠ 0 then writeLeaf next fun l => { l with prev := prev } else pure ()

/-- `link_split`. -/
def linkSplit (fuel : ℕ) (n nr : Addr) : MtM Unit := do
  writeLeaf nr fun l => { l with prev := n }
  let next ← lockNext n fuel
  writeLeaf nr fun l => { l with next := next }
  setPrevOf next nr
  writeLeaf n fun l => { l with next := nr }

/-- The loop of `change_link` and `unlink` that marks the link of the previous leaf.  The
loop of `unlink` does not ask whether there is one. -/
def lockPrev (n : Addr) (mayBeFirst : Bool) : ℕ → MtM Addr
  | 0 => diverge
  | fuel + 1 => do
    let l ← readLeaf n
    if mayBeFirst && l.prev == 0 then pure 0
    else do
      let ok ← casNext l.prev n (mark n)
      if ok then pure l.prev else lockPrev n mayBeFirst fuel

/-- `change_link`. -/
def changeLink (fuel : ℕ) (n nn : Addr) : MtM Unit := do
  let next ← lockNext n fuel
  writeLeaf nn fun l => { l with next := next }
  setPrevOf next nn
  let prev ← lockPrev n true fuel
  if prev ≠ 0 then do
    writeLeaf prev fun l => { l with next := nn }
    writeLeaf nn fun l => { l with prev := prev }
  else pure ()

/-- `unlink`. -/
def unlinkLeaf (fuel : ℕ) (n : Addr) : MtM Unit := do
  let next ← lockNext n fuel
  let prev ← lockPrev n false fuel
  setPrevOf next prev
  writeLeaf prev fun l => { l with next := next }

end Links

/-! ### The split of a leaf -/

/-- The cursor, `tcursor`. -/
structure Tcursor where
  n : Addr
  ka : Key
  kx : KeyIndexedPosition
  root : Addr
  state : ℤ

/-- `ikey_after_insert`. -/
def Leaf.ikeyAfterInsert (l : Leaf) (ka : Key) (kxi i : ℕ) : ℕ :=
  if i < kxi then l.ikey0 (l.permutation.slot i)
  else if i = kxi then ka.ikey
  else l.ikey0 (l.permutation.slot (i - 1))

/-- The loop that keeps the keys with one `ikey` together. -/
def adjustMid (after : ℕ → ℕ) (size midIkey : ℕ) : ℕ → ℤ → ℕ → Option ℕ
  | 0, _, _ => none
  | fuel + 1, midl, midr =>
    if midr ≤ size ∧ midIkey ≠ after midr then some midr
    else if 0 ≤ midl ∧ midIkey ≠ after midl.toNat then some (midl + 1).toNat
    else adjustMid after size midIkey fuel (midl - 1) (midr + 1)

/-- The split point of `leaf::split_into`; `none` stands for a loop that does not end. -/
def Leaf.splitPoint (l : Leaf) (ka : Key) (kxi : ℕ) : Option ℕ :=
  let after := l.ikeyAfterInsert ka kxi
  let mid :=
    if kxi = 0 ∧ l.prev = 0 then 1
    else if kxi = l.size ∧ l.next = 0 then l.size
    else width / 2 + 1
  if after mid = after (mid - 1) then
    adjustMid after l.size (after mid) (2 * width) ((mid : ℤ) - 2) (mid + 1)
  else some mid

section Splits

variable (env : Env)

/-- `leaf::split_into`: the split type and the split key. -/
def leafSplitInto (fuel : ℕ) (n nr : Addr) (ka : Key) (kxi : ℕ) : MtM (ℕ × ℕ) := do
  let v ← readVersion n
  let vr ← readVersion nr
  masstreePrecondition env.build (v.locked && vr.locked)
  let l ← readLeaf n
  masstreePrecondition env.build (decide (width - 1 ≤ l.size))
  match l.splitPoint ka kxi with
  | none => diverge
  | some mid => do
    masstreeInvariant env.build (decide (0 < mid ∧ mid ≤ l.size))
    forRange mid (l.size + 1 - mid) fun x =>
      if x = kxi then assign env.build nr (x - mid) ka true
      else
        assignInitializeFrom env.build nr (x - mid) n
          (l.permutation.slot (if kxi < x then x - 1 else x))
    let permr := Permuter.makeSorted (l.size + 1 - mid)
    writeLeaf nr fun r =>
      { r with permutation := if mid ≤ kxi then permr.removeToBack (kxi - mid) else permr }
    let r ← readLeaf nr
    linkSplit fuel n nr
    pure (if kxi < mid then 0 else if mid = l.size then 2 else 1, r.ikey0 0)

/-! ### The split of an internode -/

/-- The node on the right after `internode::split_into`. -/
def Internode.splitRight (x nr : Internode) (mid p ka : ℕ) (value : Addr) : Internode :=
  let nr := { nr with nkeys := width + 1 - (mid + 1) }
  if p < mid then
    { nr with child := Function.update nr.child 0 (x.child mid) }.shiftFrom 0 x mid (width - mid)
  else if p = mid then
    { nr with child := Function.update nr.child 0 value }.shiftFrom 0 x mid (width - mid)
  else
    (({ nr with child := Function.update nr.child 0 (x.child (mid + 1)) }.shiftFrom 0 x (mid + 1)
      (p - (mid + 1))).assign (p - (mid + 1)) ka value).shiftFrom (p + 1 - (mid + 1)) x p
        (width - p)

/-- The split key of `internode::split_into`. -/
def Internode.splitIkey (x : Internode) (mid p ka : ℕ) : ℕ :=
  if p < mid then x.ikey0 (mid - 1) else if p = mid then ka else x.ikey0 mid

/-- `internode::split_into`: where the new child is still to go, and the split key. -/
def internodeSplitInto (x nr : Addr) (p ka : ℕ) (value : Addr) (splitType : ℕ) :
    MtM (Option ℕ × ℕ) := do
  let v ← readVersion x
  let vr ← readVersion nr
  masstreePrecondition env.build (v.locked && vr.locked)
  let xi ← readInternode x
  let mid := if splitType = 2 then width else (width + 1) / 2
  writeInternode nr fun r => xi.splitRight r mid p ka value
  if mid < p then setParent value nr else pure ()
  let r ← readInternode nr
  forRange 0 (r.nkeys + 1) fun i => setParent (r.child i) nr
  markLocked env.build x NodeVersion.markSplit
  writeInternode x fun xi => { xi with nkeys := if p < mid then mid - 1 else mid }
  pure (if p < mid then some p else none, xi.splitIkey mid p ka)

/-! ### The loop -/

/-- What a round of the loop starts from: `child` is to be hung up beside `n`, with the key
`xikey` between the two. -/
structure SplitRound where
  n : Addr
  child : Addr
  xikey : ℕ
  height : ℕ

/-- The metadata of the locked parent of a node, which is unlocked again; it is `unknown` if
there is none. -/
def parentMetadata (fuel : ℕ) (a : Addr) : MtM NodeMetadata := do
  let p ← lockedParent env.build a fuel
  if p ≠ 0 then do
    let x ← readInternode p
    unlock env.build p
    pure x.sidleMeta
  else pure ⟨.unknown, 0⟩

/-- A new internode above `n` and `child`. -/
def hangNewParent (r : SplitRound) (p : Addr) (kp : ℕ) : MtM Unit := do
  let meta_ ←
    if p ≠ 0 then do
      let x ← readInternode p
      masstreeInvariant env.build (decide (x.sidleMeta.type ≠ .unknown))
      pure (x.sidleMeta.type, x.sidleMeta.depth + 1)
    else pure (.unknown, 1)
  let newNodeType ← decideNewNodePosition meta_.1 meta_.2
  let nn ← makeInternode env (r.height + 1) meta_.2 newNodeType false
  writeInternode nn fun x => { x with child := Function.update x.child 0 r.n }
  setParent r.child nn
  writeInternode nn fun x => x.assign 0 r.xikey r.child
  writeInternode nn fun x => { x with nkeys := 1 }
  if p = 0 then makeLayerRoot nn
  else do
    setParent nn p
    writeInternode p fun x => { x with child := Function.update x.child kp nn }
  setParent r.n nn

/-- The split of the full internode `p`: the new internode, where `child` is still to go, and
the new split key.  The memory type is decided from the metadata of `p` itself. -/
def splitParent (fuel : ℕ) (r : SplitRound) (p : Addr) (kp splitType : ℕ) :
    MtM (Addr × Option ℕ × ℕ) := do
  let grandparentMetadata ← parentMetadata env fuel p
  let x ← readInternode p
  let curDepth :=
    if grandparentMetadata.type ≠ .unknown then grandparentMetadata.depth + 1
    else if x.sidleMeta.type ≠ .unknown then x.sidleMeta.depth
    else 1
  let newNodeType ← decideNewNodePosition x.sidleMeta.type curDepth
  let nextChild ← makeInternode env (r.height + 1) curDepth newNodeType false
  let pv ← readVersion p
  writeVersion nextChild fun _ => pv
  markLocked env.build nextChild (Word.clearFlag 30)
  let (kp', xikey') ← internodeSplitInto env p nextChild kp r.xikey r.child splitType
  pure (nextChild, kp', xikey')

/-- `child` goes into the internode `p`. -/
def insertChild (r : SplitRound) (p : Addr) (kp : ℕ) : MtM Unit := do
  writeInternode p fun x => x.shift (kp + 1) kp (x.nkeys - kp)
  setParent r.child p
  writeInternode p fun x => x.assign kp r.xikey r.child
  writeInternode p fun x => { x with nkeys := x.nkeys + 1 }

/-- The left leaf is stripped of what has moved, and the cursor goes where the key goes. -/
def shrinkLeft (c : Tcursor) (child : Addr) (splitType : ℕ) : MtM Tcursor := do
  let nl ← readLeaf c.n
  let nr ← readLeaf child
  let perml := nl.permutation.setSize (nl.size - nr.size)
  let perml := if nl.size ≠ width then perml.exchange perml.size (width - 1) else perml
  markLocked env.build c.n NodeVersion.markSplit
  writeLeaf c.n fun l => { l with permutation := perml }
  if splitType = 0 then do
    assign env.build c.n perml.back c.ka false
    pure { c with kx := { c.kx with p := some perml.back } }
  else
    pure { c with n := child, kx := ⟨c.kx.i - perml.size, some (c.kx.i - perml.size)⟩ }

/-- A round of the loop in `make_split`: the cursor, and what the next round starts from. -/
def splitRound (fuel : ℕ) (c : Tcursor) (splitType : ℕ) (r : SplitRound) :
    MtM (Tcursor × Option SplitRound) := do
  let v ← readVersion r.n
  let vc ← readVersion r.child
  masstreeInvariant env.build (v.locked && vc.locked && (v.isleaf || v.splitting))
  let p ← lockedParent env.build r.n fuel
  let kp ←
    if p ≠ 0 then do
      let x ← readInternode p
      markLocked env.build p NodeVersion.markInsert
      pure (x.upper r.xikey, decide (r.height + 1 < x.height), decide (width ≤ x.nkeys))
    else pure (0, true, false)
  let next ←
    if kp.2.1 then do
      hangNewParent env r p kp.1
      pure none
    else if kp.2.2 then do
      let (nextChild, kp', xikey') ← splitParent env fuel r p kp.1 splitType
      match kp' with
      | some kp' => insertChild r p kp'
      | none => pure ()
      pure (some ⟨p, nextChild, xikey', r.height + 1⟩)
    else do
      insertChild r p kp.1
      pure none
  let c' ← if r.n = c.n then shrinkLeft env c r.child splitType else pure c
  -- hand-over-hand locking
  if r.n ≠ c'.n then unlock env.build r.n else pure ()
  if r.child ≠ c'.n then unlock env.build r.child else pure ()
  if next.isNone ∧ p ≠ 0 then unlock env.build p else pure ()
  pure (c', next)

/-- The loop in `make_split`. -/
def splitRounds (fuel : ℕ) (splitType : ℕ) : ℕ → Tcursor → SplitRound → MtM Tcursor
  | 0, _, _ => diverge
  | rounds + 1, c, r => do
    let (c', next) ← splitRound env fuel c splitType r
    match next with
    | none => pure c'
    | some r' => splitRounds fuel splitType rounds c' r'

/-- A new leaf on the right of the cursor's, and the split of that leaf into the two. -/
def splitLeaf (fuel : ℕ) (c : Tcursor) : MtM (ℕ × SplitRound) := do
  let parentMeta ← parentMetadata env fuel c.n
  let l ← readLeaf c.n
  let curDepth :=
    if parentMeta.type ≠ .unknown then parentMeta.depth + 1
    else if l.metadata.type ≠ .unknown then l.metadata.depth
    else 1
  let newNodeType ← decideNewNodePosition parentMeta.type curDepth
  let b ← externalBag l
  let child ← makeLeaf env (l.ksufUsedCapacity b) curDepth newNodeType 1 false
  let v ← readVersion c.n
  writeVersion child fun _ => v
  let (splitType, xikey) ← leafSplitInto env fuel c.n child c.ka c.kx.i
  pure (splitType, ⟨c.n, child, xikey, 0⟩)

/-- `make_split`. -/
def makeSplit (fuel : ℕ) (c : Tcursor) : MtM Tcursor := do
  let l ← readLeaf c.n
  let perm := l.permutation.exchange l.size (width - 1)
  if l.size < width ∧ perm.back ≠ 0 then do
    writeLeaf c.n fun l => { l with permutation := perm }
    assign env.build c.n perm.back c.ka false
    pure { c with kx := { c.kx with p := some perm.back } }
  else do
    let (splitType, r) ← splitLeaf env fuel c
    splitRounds env fuel splitType fuel c r

end Splits

end Sidle.Masstree
