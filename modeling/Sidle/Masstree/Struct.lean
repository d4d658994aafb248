import Sidle.Masstree.Key
import Sidle.Masstree.NodeVersion
import Sidle.Policy
import Mathlib.Logic.Function.Basic

/-!
# Leaves and internodes

The nodes of `masstree_struct.hh` with the metadata of `sidle`.  The suffixes of a leaf lie
in a string bag behind the struct until they do not fit there any more, and from then on in
a bag of their own.

The arrays of a node are functions of the index.  A word of `lv_` is the pointer to a value
or to the root of a layer, as `keylenx_` says.

## Main definitions

* `Stringbag` — `stringbag`.
* `Leaf`, `Internode` — the nodes.
* `Leaf.lower`, `Leaf.ksufMatches` — the search in a leaf.
* `Internode.upper` — the search in an internode.
-/

namespace Sidle.Masstree

/-- An address, a null pointer being `0`. -/
abbrev Addr := ℕ

/-- `iceil(x, 64)`. -/
def iceil64 (x : ℕ) : ℕ := (x + 63) / 64 * 64

/-! ### String bags -/

/-- `stringbag`: the strings of the slots, and how many bytes have been used.  A string that
fits where the last one of its slot lies is written there, any other behind all strings. -/
structure Stringbag where
  size : ℕ
  capacity : ℕ
  get : ℕ → Str

namespace Stringbag

/-- `overhead(width)` for offsets of `offsetSize` bytes. -/
def overhead (offsetSize : ℕ) : ℕ := 2 * offsetSize + width * (2 * offsetSize)

/-- The constructor. -/
def make (offsetSize capacity : ℕ) : Stringbag := ⟨overhead offsetSize, capacity, fun _ => []⟩

/-- `safe_size(width, len)`. -/
def safeSize (offsetSize len : ℕ) : ℕ := overhead offsetSize + len + 7

/-- `assign`. -/
def assign (b : Stringbag) (p : ℕ) (s : Str) : Option Stringbag :=
  if s.length ≤ (b.get p).length then some { b with get := Function.update b.get p s }
  else if b.size + max s.length 8 ≤ b.capacity then
    some { b with size := b.size + s.length, get := Function.update b.get p s }
  else none

end Stringbag

/-- The offsets of `internal_ksuf_type` are bytes. -/
abbrev Stringbag.internal (capacity : ℕ) : Stringbag := Stringbag.make 1 capacity

/-- The offsets of `external_ksuf_type` are words of two bytes. -/
abbrev Stringbag.external (capacity : ℕ) : Stringbag := Stringbag.make 2 capacity

/-! ### Leaves -/

/-- `modstate_`. -/
inductive Modstate
  | insert
  | remove
  | deletedLayer
  deriving DecidableEq, Repr

/-- `leaf`. -/
structure Leaf where
  version : NodeVersion
  /-- `sidle_meta.metadata`. -/
  metadata : NodeMetadata
  /-- `sidle_meta.access_time`. -/
  accessTime : ℕ
  extrasize64 : ℤ
  modstate : Modstate
  keylenx : ℕ → ℕ
  permutation : Permuter
  ikey0 : ℕ → ℕ
  lv : ℕ → ℕ
  ksuf : Addr
  /-- `next_.x`, a pointer that `btree_leaflink` marks in its lowest bit. -/
  next : ℕ
  prev : Addr
  parent : Addr
  iksuf : Stringbag

/-- `ksuf_keylenx`. -/
def ksufKeylenx : ℕ := 64

/-- `layer_keylenx`. -/
def layerKeylenx : ℕ := 128

/-- `keylenx_has_ksuf`. -/
def keylenxHasKsuf (keylenx : ℕ) : Bool := keylenx == ksufKeylenx

namespace Leaf

/-- `sizeof(leaf)`. -/
def sizeof : ℕ := 312

/-- The bytes that `make_with_cxl_policy` allocates. -/
def allocationSize (ksufsize : ℕ) : ℕ := iceil64 (sizeof + min ksufsize 128)

/-- The constructor, for an allocation of `sz` bytes. -/
def make (sz : ℕ) (type : NodeMemType) (depth accessTime : ℕ) : Leaf where
  version := NodeVersion.make true
  metadata := NodeMetadata.make type depth
  accessTime := accessTime
  extrasize64 := (sz / 64 : ℤ) - ((sizeof + 63) / 64 : ℤ)
  modstate := .insert
  keylenx := fun _ => 0
  permutation := Permuter.makeEmpty
  ikey0 := fun _ => 0
  lv := fun _ => 0
  ksuf := 0
  next := 0
  prev := 0
  parent := 0
  iksuf := Stringbag.internal (sz - sizeof)

variable (l : Leaf)

/-- `size`. -/
def size : ℕ := l.permutation.size

/-- `ikey_bound`. -/
def ikeyBound : ℕ := l.ikey0 0

/-- `has_ksuf`. -/
def hasKsuf (p : ℕ) : Bool := keylenxHasKsuf (l.keylenx p)

/-- `deleted_layer`. -/
def deletedLayer : Bool := l.modstate == .deletedLayer

/-- `safe_next`. -/
def safeNext : Addr := l.next / 2 * 2

/-- `compare_key`. -/
def compareKey (ka : Key) (p : ℕ) : Ordering := ka.compare (l.ikey0 p) (l.keylenx p)

/-- `bound_type::lower`. -/
def lower (ka : Key) : KeyIndexedPosition :=
  lowerBoundBy l.permutation (l.compareKey ka) l.size 0 l.size

/-- The bag the suffixes lie in: `external` stands for the bag that `ksuf_` points to. -/
def bag (external : Stringbag) : Stringbag := if l.ksuf ≠ 0 then external else l.iksuf

/-- `ksuf(p)`. -/
def ksufAt (external : Stringbag) (p : ℕ) : Str := (l.bag external).get p

/-- `ksuf_matches`: `1` for a match that is not a layer, `0` for none, and less for a layer. -/
def ksufMatches (external : Stringbag) (p : ℕ) (ka : Key) : ℤ :=
  if l.keylenx p < ksufKeylenx then 1
  else if l.keylenx p = layerKeylenx then -(ikeySize : ℤ)
  else if l.ksufAt external p = ka.suffix then 1 else 0

/-- `ksuf_used_capacity`. -/
def ksufUsedCapacity (external : Stringbag) : ℕ :=
  if l.ksuf ≠ 0 then external.size
  else if 0 < l.extrasize64 then l.iksuf.size
  else 0

/-- `allocated_size`. -/
def allocatedSize : ℕ :=
  iceil64 (sizeof + (if 0 ≤ l.extrasize64 then l.extrasize64 else -l.extrasize64 - 1).toNat * 64)

end Leaf

/-! ### Internodes -/

/-- `internode`. -/
structure Internode where
  version : NodeVersion
  sidleMeta : NodeMetadata
  nkeys : ℕ
  height : ℕ
  ikey0 : ℕ → ℕ
  child : ℕ → Addr
  parent : Addr

namespace Internode

/-- `sizeof(internode)`. -/
def sizeof : ℕ := 272

/-- The constructor. -/
def make (height : ℕ) (type : NodeMemType) (depth : ℕ) : Internode where
  version := NodeVersion.make false
  sidleMeta := NodeMetadata.make type depth
  nkeys := 0
  height := height
  ikey0 := fun _ => 0
  child := fun _ => 0
  parent := 0

variable (x : Internode)

/-- `bound_type::upper`. -/
def upper (ikey : ℕ) : ℕ := upperBoundBy (fun p => compare ikey (x.ikey0 p)) x.nkeys 0 x.nkeys

/-- What `assign(p, ikey, child)` writes to the internode itself. -/
def assign (p ikey : ℕ) (child : Addr) : Internode :=
  { x with child := Function.update x.child (p + 1) child, ikey0 := Function.update x.ikey0 p ikey }

/-- `shift_from(p, from_, xp, n)`. -/
def shiftFrom (p : ℕ) (from_ : Internode) (xp n : ℕ) : Internode :=
  { x with
    ikey0 := fun i => if p ≤ i ∧ i < p + n then from_.ikey0 (xp + (i - p)) else x.ikey0 i
    child := fun i =>
      if p + 1 ≤ i ∧ i < p + 1 + n then from_.child (xp + 1 + (i - (p + 1))) else x.child i }

/-- `shift_up(p, xp, n)` and `shift_down(p, xp, n)`, which move entries of an internode. -/
def shift (p xp n : ℕ) : Internode := x.shiftFrom p x xp n

end Internode

/-! ### Nodes -/

/-- `node_base`. -/
inductive Node
  | leaf (l : Leaf)
  | internode (x : Internode)

namespace Node

/-- The version word. -/
def version : Node → NodeVersion
  | leaf l => l.version
  | internode x => x.version

/-- Overwrite the version word. -/
def setVersion (v : NodeVersion) : Node → Node
  | leaf l => leaf { l with version := v }
  | internode x => internode { x with version := v }

/-- `parent`. -/
def parent : Node → Addr
  | leaf l => l.parent
  | internode x => x.parent

/-- `set_parent`. -/
def setParent (p : Addr) : Node → Node
  | leaf l => leaf { l with parent := p }
  | internode x => internode { x with parent := p }

/-- The memory type and the depth. -/
def metadata : Node → NodeMetadata
  | leaf l => l.metadata
  | internode x => x.sidleMeta

end Node

end Sidle.Masstree
