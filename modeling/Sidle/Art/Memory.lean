import Mathlib.Logic.Function.Basic
import Mathlib.Data.List.Basic
import Sidle.Art.Version
import Sidle.Policy
import Sidle.Prog.Run

/-!
# The memory of the radix tree

The heap holds internal nodes and leaves by address.  A pointer to a leaf is tagged
in its lowest bit, as `make_leaf` and `get_leaf` do it by pointer arithmetic.  Every
load, store and compare-and-swap on a field of a node is one atomic access, an
`ArtOp`; a field outside the block an address belongs to, or an address that holds
no block, is a fault.

The allocator is a parameter: `Env.addr i` is the address of the `i`-th block handed
out.  Only what every allocator guarantees is assumed of it (distinct, aligned,
non-null blocks), and a new block holds arbitrary bytes.

## Main definitions

* `ArtNode`, `LeafNode`, `Mem` — nodes, leaves and the memory.
* `NodeField`, `LeafField` — the fields of a node and of a leaf.
* `Env` — build configuration, allocator, and the usage comparison.
* `ArtOp`, `Env.machine` — the atomic accesses and their meaning.
-/

namespace Sidle.Art

/-- An address. -/
abbrev Addr := ℕ

/-- A pointer to a node: an address, or a tagged leaf pointer, or null. -/
abbrev Ptr := ℕ

/-- The bytes of a key, `(const void *key, size_t len)`. -/
abbrev Key := List UInt8

/-! ### Tagged pointers -/

/-- `is_leaf`. -/
def isLeaf (ptr : Ptr) : Bool := ptr &&& 1 != 0

/-- `make_leaf`: the pointer one byte below, with the lowest bit set. -/
def makeLeaf (ptr : Addr) : Ptr := (ptr - 1) ||| 1

/-- `get_leaf`: the pointer with its lowest bit cleared. -/
def getLeaf (ptr : Ptr) : Addr := ptr / 2 * 2

/-! ### Blocks -/

/-- The number of child slots of a layout. -/
@[simp] def NodeType.capacity : NodeType → ℕ
  | .node4 => 4
  | .node16 => 16
  | .node48 => 48
  | .node256 => 256

/-- The length of the `key` array of a layout. -/
@[simp] def NodeType.keyCapacity : NodeType → ℕ
  | .node4 => 4
  | .node16 => 16
  | .node48 => 0
  | .node256 => 0

/-- `sizeof` of the four layouts. -/
def NodeType.size : NodeType → ℕ
  | .node4 => 80
  | .node16 => 184
  | .node48 => 680
  | .node256 => 2088

/-- An internal node.  The header is shared by the four layouts; `node4` and `node16`
go on with `key` and `child`, `node48` with `index` and `child`, `node256` with `child`.
`layout` is the struct the block was allocated for. -/
structure ArtNode where
  layout : NodeType
  version : Version
  prefix_ : ℕ → UInt8
  new_ : Addr
  parent : Addr
  sidleMeta : NodeMetadata
  key : ℕ → UInt8
  index : UInt8 → UInt8
  child : ℕ → Ptr

/-- A leaf: `key_length`, its `leaf_metadata` (`metadata` and `access_time`), and the key
bytes that follow the struct. -/
structure LeafNode where
  keyLength : UInt8
  metadata : NodeMetadata
  accessTime : ℕ
  key : List UInt8
  deriving DecidableEq, Inhabited

/-- `get_leaf_len`: the length byte is read through a `char`, which is signed, and then
converted to `size_t`. -/
def getLeafLen (keyLength : UInt8) : ℕ :=
  if keyLength.toNat < 128 then keyLength.toNat else 2 ^ 64 - 256 + keyLength.toNat

/-- What an address holds. -/
inductive Block
  | node (n : ArtNode)
  | leaf (l : LeafNode)

/-- The memory: the heap, the number of blocks handed out so far, `art->root`, and the
state the tree shares with its workers. -/
structure Mem where
  heap : Addr → Option Block
  allocated : ℕ
  root : Ptr
  global : Global

/-! ### Fields -/

/-- The fields of an internal node; `prefixes` and `keys` are the whole arrays, as
`memcpy` and the vector load read them. -/
inductive NodeField : Type → Type
  | version : NodeField Version
  | prefix_ (i : ℕ) : NodeField UInt8
  | prefixes : NodeField (ℕ → UInt8)
  | new_ : NodeField Addr
  | parent : NodeField Addr
  | sidleMeta : NodeField NodeMetadata
  | key (i : ℕ) : NodeField UInt8
  | keys : NodeField (ℕ → UInt8)
  | index (byte : UInt8) : NodeField UInt8
  | child (i : ℕ) : NodeField Ptr

namespace NodeField

/-- Read a field. -/
def get : {β : Type} → NodeField β → ArtNode → β
  | _, version, n => n.version
  | _, prefix_ i, n => n.prefix_ i
  | _, prefixes, n => n.prefix_
  | _, new_, n => n.new_
  | _, parent, n => n.parent
  | _, sidleMeta, n => n.sidleMeta
  | _, key i, n => n.key i
  | _, keys, n => n.key
  | _, index b, n => n.index b
  | _, child i, n => n.child i

/-- Write a field. -/
def set : {β : Type} → NodeField β → β → ArtNode → ArtNode
  | _, version, x, n => { n with version := x }
  | _, prefix_ i, x, n => { n with prefix_ := Function.update n.prefix_ i x }
  | _, prefixes, x, n => { n with prefix_ := x }
  | _, new_, x, n => { n with new_ := x }
  | _, parent, x, n => { n with parent := x }
  | _, sidleMeta, x, n => { n with sidleMeta := x }
  | _, key i, x, n => { n with key := Function.update n.key i x }
  | _, keys, x, n => { n with key := x }
  | _, index b, x, n => { n with index := Function.update n.index b x }
  | _, child i, x, n => { n with child := Function.update n.child i x }

/-- The field lies inside a block of the given layout. -/
def InBounds : {β : Type} → NodeField β → NodeType → Prop
  | _, prefix_ i, _ => i < 8
  | _, key i, t => i < t.keyCapacity
  | _, keys, t => t = .node16
  | _, index _, t => t = .node48
  | _, child i, t => i < t.capacity
  | _, _, _ => True

instance : {β : Type} → (f : NodeField β) → (t : NodeType) → Decidable (f.InBounds t)
  | _, prefix_ i, _ => inferInstanceAs (Decidable (i < 8))
  | _, key i, t => inferInstanceAs (Decidable (i < t.keyCapacity))
  | _, keys, t => inferInstanceAs (Decidable (t = .node16))
  | _, index _, t => inferInstanceAs (Decidable (t = .node48))
  | _, child i, t => inferInstanceAs (Decidable (i < t.capacity))
  | _, version, _ => isTrue trivial
  | _, prefixes, _ => isTrue trivial
  | _, new_, _ => isTrue trivial
  | _, parent, _ => isTrue trivial
  | _, sidleMeta, _ => isTrue trivial

end NodeField

/-- The fields of a leaf; `keys` is the whole key, as `memcpy` moves it. -/
inductive LeafField : Type → Type
  | keyLength : LeafField UInt8
  | metadata : LeafField NodeMetadata
  | accessTime : LeafField ℕ
  | key (i : ℕ) : LeafField UInt8
  | keys : LeafField (List UInt8)

namespace LeafField

/-- Read a field. -/
def get : {β : Type} → LeafField β → LeafNode → β
  | _, keyLength, l => l.keyLength
  | _, metadata, l => l.metadata
  | _, accessTime, l => l.accessTime
  | _, key i, l => l.key.getD i 0
  | _, keys, l => l.key

/-- Write a field; `access_time` has sixteen bits. -/
def set : {β : Type} → LeafField β → β → LeafNode → LeafNode
  | _, keyLength, x, l => { l with keyLength := x }
  | _, metadata, x, l => { l with metadata := x }
  | _, accessTime, x, l => { l with accessTime := x % 2 ^ 16 }
  | _, key i, x, l => { l with key := l.key.set i x }
  | _, keys, x, l => { l with key := x }

/-- The field lies inside the block of the leaf. -/
def InBounds : {β : Type} → LeafField β → LeafNode → Prop
  | _, key i, l => i < l.key.length
  | _, _, _ => True

instance : {β : Type} → (f : LeafField β) → (l : LeafNode) → Decidable (f.InBounds l)
  | _, key i, l => inferInstanceAs (Decidable (i < l.key.length))
  | _, keyLength, _ => isTrue trivial
  | _, metadata, _ => isTrue trivial
  | _, accessTime, _ => isTrue trivial
  | _, keys, _ => isTrue trivial

end LeafField

/-! ### The environment -/

/-- How the program was built. -/
structure Build where
  /-- `NDEBUG` is defined. -/
  ndebug : Bool
  /-- `ENABLE_ASSERTIONS`: `masstree_invariant(e)` and `masstree_precondition(e)` evaluate `e`. -/
  invariants : Bool
  /-- `REAL_WORLD` is defined. -/
  realWorld : Bool
  deriving DecidableEq, Repr

/-- `assert(e)` evaluates `e`. -/
def Build.assertions (build : Build) : Bool := !build.ndebug

/-- `SIDLE_CHECK` throws when its condition fails. -/
def Build.sidleCheck (build : Build) : Bool := !build.ndebug

/-- The default build, without `NDEBUG`. -/
def Build.debug : Build where
  ndebug := false
  invariants := true
  realWorld := false

/-- The release build, with `NDEBUG`. -/
def Build.release : Build where
  ndebug := true
  invariants := true
  realWorld := false

/-- What the program runs on: its build, the allocator, and the floating point
comparison of `check_memory_usage`. -/
structure Env where
  build : Build
  /-- The address of the `i`-th block handed out by `malloc` or `malloc_on_cxl`. -/
  addr : ℕ → Addr
  addr_injective : Function.Injective addr
  /-- Blocks are aligned as the smallest size class of the allocator is. -/
  addr_aligned : ∀ i, 8 ∣ addr i
  addr_pos : ∀ i, 0 < addr i
  /-- The bytes a fresh block happens to hold. -/
  junk : ℕ → ArtNode
  checkMemoryUsage : ℤ → ℕ → MemUsageStatus

/-- Why a run stops. -/
inductive Fault
  /-- An access outside every block: undefined behaviour of the source. -/
  | badAccess
  /-- A failed `assert`. -/
  | assertFailed
  /-- A C++ exception. -/
  | thrown
  deriving DecidableEq, Repr

/-! ### Atomic accesses -/

/-- The atomic accesses of the tree. -/
inductive ArtOp : Type → Type 1
  | loadRoot : ArtOp Ptr
  | storeRoot (p : Ptr) : ArtOp Unit
  | casRoot (expected desired : Ptr) : ArtOp Bool
  | load {β : Type} (an : Addr) (f : NodeField β) : ArtOp β
  | store {β : Type} (an : Addr) (f : NodeField β) (x : β) : ArtOp Unit
  | casVersion (an : Addr) (expected desired : Version) : ArtOp Bool
  /-- One field of a `memcpy` between two nodes. -/
  | copy {β : Type} (dst src : Addr) (f : NodeField β) : ArtOp Unit
  | loadLeaf {β : Type} (l : Addr) (f : LeafField β) : ArtOp β
  | storeLeaf {β : Type} (l : Addr) (f : LeafField β) (x : β) : ArtOp Unit
  | mallocNode (t : NodeType) : ArtOp Addr
  | mallocLeaf (len : ℕ) : ArtOp Addr
  | free (an : Addr) : ArtOp Unit
  /-- An operation on the state shared with the workers; `none` is an exception. -/
  | onGlobal {β : Type} (f : Global → Option (β × Global)) : ArtOp β

namespace Mem

/-- Put the node `n` at `an`. -/
def setNode (s : Mem) (an : Addr) (n : ArtNode) : Mem :=
  { s with heap := Function.update s.heap an (some (.node n)) }

/-- Put the leaf `l` at `a`. -/
def setLeaf (s : Mem) (a : Addr) (l : LeafNode) : Mem :=
  { s with heap := Function.update s.heap a (some (.leaf l)) }

/-- The node at `an`, if there is one. -/
def node? (s : Mem) (an : Addr) : Option ArtNode :=
  match s.heap an with
  | some (.node n) => some n
  | _ => none

/-- The leaf at `a`, if there is one. -/
def leaf? (s : Mem) (a : Addr) : Option LeafNode :=
  match s.heap a with
  | some (.leaf l) => some l
  | _ => none

end Mem

namespace Env

variable (env : Env)

/-- A fresh internal node of layout `t`. -/
def mallocNode (s : Mem) (t : NodeType) : Mem :=
  { s.setNode (env.addr s.allocated) { env.junk s.allocated with layout := t } with
    allocated := s.allocated + 1 }

/-- A fresh leaf with room for `len` key bytes. -/
def mallocLeaf (s : Mem) (len : ℕ) : Mem :=
  { s.setLeaf (env.addr s.allocated) { (default : LeafNode) with key := List.replicate len 0 } with
    allocated := s.allocated + 1 }

/-- The meaning of an access. -/
def exec : {β : Type} → ArtOp β → Mem → Except Fault (β × Mem)
  | _, .loadRoot, s => .ok (s.root, s)
  | _, .storeRoot p, s => .ok ((), { s with root := p })
  | _, .casRoot expected desired, s =>
    if s.root = expected then .ok (true, { s with root := desired }) else .ok (false, s)
  | _, .load an f, s =>
    match s.node? an with
    | some n => if f.InBounds n.layout then .ok (f.get n, s) else .error .badAccess
    | none => .error .badAccess
  | _, .store an f x, s =>
    match s.node? an with
    | some n => if f.InBounds n.layout then .ok ((), s.setNode an (f.set x n)) else .error
      .badAccess
    | none => .error .badAccess
  | _, .casVersion an expected desired, s =>
    match s.node? an with
    | some n =>
      if n.version = expected then .ok (true, s.setNode an { n with version := desired })
      else .ok (false, s)
    | none => .error .badAccess
  | _, .copy dst src f, s =>
    match s.node? src, s.node? dst with
    | some n, some m =>
      if f.InBounds n.layout ∧ f.InBounds m.layout then .ok ((), s.setNode dst (f.set (f.get n) m))
      else .error .badAccess
    | _, _ => .error .badAccess
  | _, .loadLeaf a f, s =>
    match s.leaf? a with
    | some l => if f.InBounds l then .ok (f.get l, s) else .error .badAccess
    | none => .error .badAccess
  | _, .storeLeaf a f x, s =>
    match s.leaf? a with
    | some l => if f.InBounds l then .ok ((), s.setLeaf a (f.set x l)) else .error .badAccess
    | none => .error .badAccess
  | _, .mallocNode t, s => .ok (env.addr s.allocated, env.mallocNode s t)
  | _, .mallocLeaf len, s => .ok (env.addr s.allocated, env.mallocLeaf s len)
  | _, .free an, s =>
    match s.heap an with
    | some _ => .ok ((), { s with heap := Function.update s.heap an none })
    | none => .error .badAccess
  | _, .onGlobal f, s =>
    match f s.global with
    | some (b, g) => .ok (b, { s with global := g })
    | none => .error .thrown

/-- The machine the tree runs on. -/
def machine : Machine ArtOp Fault Mem := ⟨env.exec⟩

end Env

/-- A program over the memory of the tree. -/
abbrev ArtM := Prog ArtOp Fault

end Sidle.Art
