import Sidle.Art.Memory
import Sidle.Masstree.Struct
import Mathlib.Data.Nat.Log

/-!
# The memory of a Masstree

Nodes live in blocks of the thread's pools, and bags of suffixes in blocks of their own.  A
block that is passed to a `deallocate_rcu` is retired; what it holds stays readable, as it
does until the grace period of the reader ends.  The functions of the tree are programs
whose accesses are atomic changes of this memory.

## Main definitions

* `Mem` — the memory.
* `MtM` — programs over it.
* `lock`, `unlock`, `lockedParent` — the locks of `nodeversion.hh`.
* `makeLeaf`, `makeInternode`, `makeRoot` — the allocations.
* `assignKsuf` — the suffix of a slot.
-/

namespace Sidle.Masstree

open Art (Build Fault)
open Prog

/-! ### The memory -/

/-- A block of a pool. -/
structure Block where
  node : Node
  /-- The bytes that `pool_allocate` was asked for. -/
  size : ℕ
  /-- It was passed to `deallocate_rcu`. -/
  retired : Bool

/-- A block that holds a bag of suffixes. -/
structure BagBlock where
  bag : Stringbag
  retired : Bool

/-- The memory of a Masstree. -/
structure Mem where
  blocks : Addr → Option Block
  bags : Addr → Option BagBlock
  /-- How many blocks have been handed out. -/
  allocated : ℕ
  /-- `root_` of the table. -/
  root : Addr
  /-- The layer collections that have been registered with `rcu_register`: the root and the
  prefix of each. -/
  callbacks : List (Addr × Str)
  /-- `demotion_queue_`. -/
  demotionQueue : List Addr
  global : Global

/-- What the program runs on: its build, and the floating point comparison of
`check_memory_usage`. -/
structure Env where
  build : Build
  checkMemoryUsage : ℤ → ℕ → MemUsageStatus

namespace Mem

variable (mem : Mem)

/-- The address of the next block. -/
def fresh : Addr := 8 * (mem.allocated + 1)

/-- The node at `a`, if there is one. -/
def node? (a : Addr) : Option Node := (mem.blocks a).map (·.node)

/-- The leaf at `a`, if there is one. -/
def leaf? (a : Addr) : Option Leaf :=
  match mem.node? a with
  | some (.leaf l) => some l
  | _ => none

/-- The internode at `a`, if there is one. -/
def internode? (a : Addr) : Option Internode :=
  match mem.node? a with
  | some (.internode x) => some x
  | _ => none

/-- The bag at `a`, if there is one. -/
def bag? (a : Addr) : Option Stringbag := (mem.bags a).map (·.bag)

/-- Put the node `n` at `a`. -/
def setNode (a : Addr) (n : Node) : Mem :=
  { mem with
    blocks := Function.update mem.blocks a ((mem.blocks a).map fun b => { b with node := n }) }

/-- Put the bag `b` at `a`. -/
def setBag (a : Addr) (b : Stringbag) : Mem :=
  { mem with
    bags := Function.update mem.bags a ((mem.bags a).map fun c => { c with bag := b }) }

/-- Hand out a block of `size` bytes for the node `n`. -/
def alloc (size : ℕ) (n : Node) : Mem :=
  { mem with
    blocks := Function.update mem.blocks mem.fresh (some ⟨n, size, false⟩)
    allocated := mem.allocated + 1 }

/-- Hand out a block for the bag `b`. -/
def allocBag (b : Stringbag) : Mem :=
  { mem with
    bags := Function.update mem.bags mem.fresh (some ⟨b, false⟩)
    allocated := mem.allocated + 1 }

/-- Retire the block at `a`. -/
def retire (a : Addr) : Mem :=
  { mem with
    blocks := Function.update mem.blocks a
      ((mem.blocks a).map fun b => { b with retired := true }) }

/-- Retire the bag at `a`. -/
def retireBag (a : Addr) : Mem :=
  { mem with
    bags := Function.update mem.bags a ((mem.bags a).map fun b => { b with retired := true }) }

end Mem

/-! ### Accesses -/

/-- An atomic access: its answer and the memory it leaves, or a fault. -/
def MtOp (β : Type) : Type := Mem → Except Fault (β × Mem)

/-- The machine that the tree runs on. -/
def machine : Machine MtOp Fault Mem := ⟨fun o mem => o mem⟩

/-- A program over the memory of the tree. -/
abbrev MtM := Prog MtOp Fault

/-- An access to what `f` finds in the memory; nothing is found outside every block. -/
def access {α β : Type} (find : Mem → Option α) (f : α → Mem → β × Mem) : MtM β :=
  lift (show MtOp β from fun mem =>
    match find mem with
    | some x => .ok (f x mem)
    | none => .error .badAccess)

section Accesses

variable (a : Addr)

def readLeaf : MtM Leaf := access (·.leaf? a) fun l mem => (l, mem)

def writeLeaf (f : Leaf → Leaf) : MtM Unit :=
  access (·.leaf? a) fun l mem => ((), mem.setNode a (.leaf (f l)))

def readInternode : MtM Internode := access (·.internode? a) fun x mem => (x, mem)

def writeInternode (f : Internode → Internode) : MtM Unit :=
  access (·.internode? a) fun x mem => ((), mem.setNode a (.internode (f x)))

/-- The version word of a node is read. -/
def readVersion : MtM NodeVersion := access (·.node? a) fun n mem => (n.version, mem)

/-- The version word of a node is changed. -/
def writeVersion (f : NodeVersion → NodeVersion) : MtM Unit :=
  access (·.node? a) fun n mem => ((), mem.setNode a (n.setVersion (f n.version)))

/-- `bool_cmpxchg` on the version word. -/
def casVersion (expected desired : NodeVersion) : MtM Bool :=
  access (·.node? a) fun n mem =>
    if n.version = expected then (true, mem.setNode a (n.setVersion desired)) else (false, mem)

/-- `parent`. -/
def readParent : MtM Addr := access (·.node? a) fun n mem => (n.parent, mem)

/-- `set_parent`. -/
def setParent (p : Addr) : MtM Unit :=
  access (·.node? a) fun n mem => ((), mem.setNode a (n.setParent p))

def readBag : MtM Stringbag := access (·.bag? a) fun b mem => (b, mem)

def writeBag (b : Stringbag) : MtM Unit := access (·.bag? a) fun _ mem => ((), mem.setBag a b)

/-- `pool_deallocate_rcu`. -/
def retireBlock : MtM Unit := access (·.node? a) fun _ mem => ((), mem.retire a)

/-- `deallocate_rcu` of a bag. -/
def retireBag : MtM Unit := access (·.bag? a) fun _ mem => ((), mem.retireBag a)

end Accesses

/-- `pool_allocate`, and the constructor on the block. -/
def poolAllocate (size : ℕ) (n : Node) : MtM Addr :=
  access some fun _ mem => (mem.fresh, mem.alloc size n)

def allocateBag (b : Stringbag) : MtM Addr := access some fun _ mem => (mem.fresh, mem.allocBag b)

def readRoot : MtM Addr := access some fun _ mem => (mem.root, mem)

/-- `cmpxchg` on `root_`. -/
def casRoot (expected desired : Addr) : MtM Unit :=
  access some fun _ mem => ((), if mem.root = expected then { mem with root := desired } else mem)

/-- `rcu_register`. -/
def rcuRegister (root : Addr) (s : Str) : MtM Unit :=
  access some fun _ mem => ((), { mem with callbacks := mem.callbacks ++ [(root, s)] })

/-- An operation on the strategy manager; `none` is an exception. -/
def onGlobal {β : Type} (f : Global → Option (β × Global)) : MtM β :=
  lift (show MtOp β from fun mem =>
    match f mem.global with
    | some (b, g) => .ok (b, { mem with global := g })
    | none => .error .thrown)

/-- A check that is compiled in when `on`. -/
def check (on c : Bool) : MtM Unit := if on && !c then fail .assertFailed else pure ()

/-- `assert`, which `NDEBUG` takes out. -/
abbrev assert_ (build : Build) (c : Bool) : MtM Unit := check build.assertions c

/-- `masstree_invariant`, which `config.h` keeps in a release build. -/
abbrev masstreeInvariant (build : Build) (c : Bool) : MtM Unit := check build.invariants c

/-- `masstree_precondition`, switched like `masstree_invariant`. -/
abbrev masstreePrecondition (build : Build) (c : Bool) : MtM Unit := check build.invariants c

/-- The bag that `ksuf_` points to. -/
def externalBag (l : Leaf) : MtM Stringbag :=
  if l.ksuf ≠ 0 then readBag l.ksuf else pure (Stringbag.external 0)

/-! ### Locks -/

section Locks

variable (build : Build)

/-- `nodeversion::lock(expected)`. -/
def lockFrom (a : Addr) : ℕ → NodeVersion → MtM NodeVersion
  | 0, _ => diverge
  | fuel + 1, expected => do
    let ok ← if expected.locked then pure false else casVersion a expected expected.lock
    if ok then do
      masstreeInvariant build (!expected.inserting && !expected.splitting)
      let v ← readVersion a
      masstreeInvariant build (v == expected.lock)
      pure expected.lock
    else do
      let v ← readVersion a
      lockFrom a fuel v

/-- `n->lock(*n, …)`. -/
def lock (fuel : ℕ) (a : Addr) : MtM NodeVersion := do
  let v ← readVersion a
  lockFrom build a fuel v

/-- `nodeversion::unlock`. -/
def unlock (a : Addr) : MtM Unit := do
  let v ← readVersion a
  masstreeInvariant build v.locked
  writeVersion a fun _ => v.unlock

/-- `stable_annotated`. -/
def stable (a : Addr) : ℕ → MtM NodeVersion
  | 0 => diverge
  | fuel + 1 => do
    let v ← readVersion a
    if v.inserting || v.splitting then stable a fuel else pure v

/-- `has_changed`. -/
def hasChanged (a : Addr) (v : NodeVersion) (readonly : Bool) : MtM Bool := do
  let w ← readVersion a
  let diff := v ^^^ w
  let diff := if readonly then diff &&& ~~~(Word.bit 32 28) else diff
  pure (decide (1 < diff.toNat))

/-- `v.has_split(x)` for two words. -/
def hasSplit (v x : NodeVersion) : Bool :=
  decide (2 ^ 9 ≤ ((x ^^^ v) &&& ~~~(Word.bit 32 28)).toNat)

/-- A mark of a node that its holder sets, such as `mark_insert`. -/
def markLocked (a : Addr) (f : NodeVersion → NodeVersion) : MtM Unit := do
  let v ← readVersion a
  masstreeInvariant build v.locked
  writeVersion a f

/-- `maybe_parent`. -/
def maybeParent (a : Addr) : MtM Addr := do
  let p ← readParent a
  pure (if p ≠ 0 then p else a)

/-- `locked_parent`. -/
def lockedParent (a : Addr) : ℕ → MtM Addr
  | 0 => diverge
  | fuel + 1 => do
    let v ← readVersion a
    masstreePrecondition build v.locked
    let p ← readParent a
    if p = 0 then pure 0
    else do
      let _ ← lock build fuel p
      let p' ← readParent a
      if p = p' then do
        let pv ← readVersion p
        masstreeInvariant build (!pv.isleaf)
        pure p
      else do
        unlock build p
        lockedParent a fuel

/-- `make_layer_root`. -/
def makeLayerRoot (a : Addr) : MtM Unit := do
  setParent a 0
  writeVersion a (Word.setFlag 30)

end Locks

/-! ### Allocation -/

section Allocation

variable (env : Env)

/-- `strategy_manager->update_local_memory_usage(…)`. -/
def updateLocalMemoryUsage (type : NodeMemType) (depth size : ℕ) (isMigration isLeaf : Bool) :
    MtM Unit :=
  onGlobal fun g =>
    (g.updateLocalMemoryUsage env.build.sidleCheck env.checkMemoryUsage type depth size isMigration
      isLeaf).map fun g' => ((), g')

/-- `strategy_manager->decide_new_node_position(…)`. -/
def decideNewNodePosition (parentType : NodeMemType) (depth : ℕ) : MtM NodeMemType :=
  onGlobal fun g => some (g.decideNewNodePosition parentType depth, g)

/-- `internode::make_with_cxl_policy`. -/
def makeInternode (height depth : ℕ) (type : NodeMemType) (isMigration : Bool) : MtM Addr := do
  let n ← poolAllocate Internode.sizeof (.internode (Internode.make height type depth))
  updateLocalMemoryUsage env type depth Internode.sizeof isMigration false
  pure n

/-- `leaf::make_with_cxl_policy`. -/
def makeLeaf (ksufsize depth : ℕ) (type : NodeMemType) (accessTime : ℕ) (isMigration : Bool) :
    MtM Addr := do
  let sz := Leaf.allocationSize ksufsize
  let n ← poolAllocate sz (.leaf (Leaf.make sz type depth accessTime))
  updateLocalMemoryUsage env type depth sz isMigration true
  pure n

/-- `leaf::make_root`: the root of a layer, linked from the leaf `parent` if that is not null.
The depth that the type is decided for is not the one that the leaf gets. -/
def makeRoot (ksufsize : ℕ) (parent : Addr) : MtM Addr := do
  let newNodeType ←
    if parent = 0 then pure NodeMemType.local_
    else do
      let l ← readLeaf parent
      if l.metadata.type ≠ .unknown then
        decideNewNodePosition l.metadata.type (l.metadata.depth + 1)
      else pure NodeMemType.local_
  let n ← makeLeaf env ksufsize 1 newNodeType 1 false
  writeLeaf n fun l => { l with next := 0, prev := 0, ikey0 := Function.update l.ikey0 0 0 }
  makeLayerRoot n
  pure n

/-- `leaf::deallocate_rcu`. -/
def deallocateLeaf (a : Addr) : MtM Unit := do
  let l ← readLeaf a
  if l.ksuf ≠ 0 then retireBag l.ksuf else pure ()
  retireBlock a

end Allocation

/-! ### Suffixes -/

section Suffixes

variable (build : Build) (a : Addr)

/-- The suffixes of the slots `ps` are copied to a new bag. -/
def copyKsufs (get : ℕ → Str) : List ℕ → Stringbag → Option Stringbag
  | [], b => some b
  | mp :: ps, b => (b.assign mp (get mp)).bind (copyKsufs get ps)

/-- The part of `assign_ksuf` that allocates a bag. -/
def assignExternal (l : Leaf) (p : ℕ) (s : Str) (initializing : Bool) : MtM Unit := do
  let oksuf ← externalBag l
  let mps := if initializing then List.range p else l.permutation.used
  let mps := mps.filter fun mp => mp != p && l.hasKsuf mp
  let csz := (mps.map fun mp => (l.ksufAt oksuf mp).length).sum
  let sz := 2 ^ Nat.clog 2 (Stringbag.safeSize 2 (csz + s.length))
  let sz := if l.ksuf ≠ 0 then max sz oksuf.capacity else sz
  match (copyKsufs (l.ksufAt oksuf) mps (Stringbag.external sz)).bind (·.assign p s) with
  | none => fail .assertFailed
  | some nksuf => do
    let nksufPtr ← allocateBag nksuf
    masstreeInvariant build (l.modstate != .remove)
    writeLeaf a fun l => { l with ksuf := nksufPtr }
    writeLeaf a fun l =>
      { l with extrasize64 := if 0 ≤ l.extrasize64 then -l.extrasize64 - 1 else l.extrasize64 }
    if l.ksuf ≠ 0 then retireBag l.ksuf else pure ()

/-- `ksuf_ && ksuf_->assign(p, s)`. -/
def assignToExternal (l : Leaf) (p : ℕ) (s : Str) : MtM Bool :=
  if l.ksuf ≠ 0 then do
    let ksuf ← readBag l.ksuf
    match ksuf.assign p s with
    | some b => do
      writeBag l.ksuf b
      pure true
    | none => pure false
  else pure false

/-- `assign_ksuf`. -/
def assignKsuf (p : ℕ) (s : Str) (initializing : Bool) : MtM Unit := do
  let l ← readLeaf a
  let assigned ← assignToExternal l p s
  if assigned then pure ()
  else match if 0 < l.extrasize64 then l.iksuf.assign p s else none with
    | some b => writeLeaf a fun l => { l with iksuf := b }
    | none => assignExternal build a l p s initializing

/-- `assign` and the `assign_initialize` that takes a key. -/
def assign (p : ℕ) (ka : Key) (initializing : Bool) : MtM Unit := do
  writeLeaf a fun l =>
    { l with
      lv := Function.update l.lv p 0
      ikey0 := Function.update l.ikey0 p ka.ikey
      keylenx := Function.update l.keylenx p (if ka.hasSuffix then ksufKeylenx else ka.length) }
  if ka.hasSuffix then assignKsuf build a p ka.suffix initializing else pure ()

/-- The `assign_initialize` that takes a slot of another leaf. -/
def assignInitializeFrom (p : ℕ) (x : Addr) (xp : ℕ) : MtM Unit := do
  let xl ← readLeaf x
  writeLeaf a fun l =>
    { l with
      lv := Function.update l.lv p (xl.lv xp)
      ikey0 := Function.update l.ikey0 p (xl.ikey0 xp)
      keylenx := Function.update l.keylenx p (xl.keylenx xp) }
  if xl.hasKsuf xp then do
    let xb ← externalBag xl
    assignKsuf build a p (xl.ksufAt xb xp) true
  else pure ()

/-- `assign_initialize_for_layer`. -/
def assignInitializeForLayer (p : ℕ) (ka : Key) : MtM Unit := do
  assert_ build ka.hasSuffix
  writeLeaf a fun l =>
    { l with
      ikey0 := Function.update l.ikey0 p ka.ikey
      keylenx := Function.update l.keylenx p layerKeylenx }

end Suffixes

end Sidle.Masstree
