import Mathlib.Data.Finset.Card
import Mathlib.Data.Finset.Range
import Sidle.Art.LongKeys

/-!
# The count of a node

The version word of a node counts its children in three of the four layouts.  A `node256` is
given the count zero when it grows from a `node48`, and adding a child to it leaves its version
word alone.

## Main definitions

* `ArtNode.occupied` — the child slots that are occupied.
* `ArtNode.Counted` — what is true of the count of every node.
* `Built` — the memories that insertions of any keys reach.

## Main results

* `ArtNode.Counted.count_eq_iff` — the count is right unless the node is a `node256`.
* `Built.allCounted` — every node that insertions reach is counted so.
* `count_right_iff` — **when the count of a node is right**.
-/

namespace Sidle.Art

open Prog Machine Outcome

namespace ArtNode

variable {m n : ArtNode} {b : UInt8} {i : ℕ} {p : Ptr}

/-- The child slots that hold a child and that `art_node_find_child` finds for some byte. -/
def occupied (n : ArtNode) : Finset ℕ :=
  (Finset.range n.layout.capacity).filter fun i =>
    n.child i ≠ 0 ∧ ∃ j ∈ Finset.range 256, n.slotOf (UInt8.ofNat j) = some i

theorem mem_occupied (hok : n.Ok) : i ∈ n.occupied ↔ n.child i ≠ 0 ∧ ∃ b, n.slotOf b = some i := by
  rw [occupied, Finset.mem_filter, Finset.mem_range]
  constructor
  · rintro ⟨-, hc, j, -, hj⟩
    exact ⟨hc, _, hj⟩
  · rintro ⟨hc, b, hb⟩
    exact ⟨slotOf_lt hok hb, hc, b.toNat,
      Finset.mem_range.mpr b.toNat_lt, by rwa [UInt8.ofNat_toNat]⟩

/-- What is true of the count of every node: it is right, unless the node is a `node256`, which
has children and counts none. -/
structure Counted (n : ArtNode) : Prop where
  ok : n.Ok
  filled : n.layout ≠ .node256 → ∀ i < getCount n.version, n.child i ≠ 0 ∧ ∃ b, n.slotOf b = some i
  uncounted : n.layout = .node256 → getCount n.version = 0 ∧ ∃ b, (n.slotOf b).isSome

/-- Outside of a `node256` the slots lie below the count. -/
theorem slotOf_lt_count (hok : n.Ok) (hk : n.layout ≠ .node256) (h : n.slotOf b = some i) :
    i < getCount n.version := by
  rcases layout_cases n.layout with hk' | hk' | hk'
  · exact ((slotOf_keyed_eq_some hok hk').mp h).1
  · have := (slotOf_node48_eq_some hk').mp h
    have := hok.index_le hk' b
    omega
  · exact absurd hk' hk

namespace Counted

/-- The count is the number of occupied slots unless the node is a `node256`. -/
theorem count_eq_iff (h : n.Counted) :
    getCount n.version = n.occupied.card ↔ getNodeType n.version ≠ .node256 := by
  rw [h.ok.type]
  constructor
  · intro hcount hk
    obtain ⟨hzero, b, hb⟩ := h.uncounted hk
    rw [hzero, eq_comm, Finset.card_eq_zero] at hcount
    obtain ⟨i, hi⟩ := Option.isSome_iff_exists.mp hb
    have hmem : i ∈ n.occupied := (mem_occupied h.ok).mpr ⟨fun hc => ?_, b, hi⟩
    · simp [hcount] at hmem
    · rw [slotOf_node256 hk] at hi
      split at hi
      · obtain rfl : b.toNat = i := by simpa using hi
        exact ‹n.child b.toNat ≠ 0› hc
      · simp at hi
  · intro hk
    have hocc : n.occupied = Finset.range (getCount n.version) := by
      ext i
      rw [mem_occupied h.ok, Finset.mem_range]
      exact ⟨fun ⟨_, b, hb⟩ => slotOf_lt_count h.ok hk hb, h.filled hk i⟩
    rw [hocc, Finset.card_range]

/-- Slots are enough for a node that searches its keys. -/
theorem of_keyed (hok : n.Ok) (hk : n.layout.Keyed) (h : ∀ i < getCount n.version, n.child i ≠ 0) :
    n.Counted :=
  ⟨hok, fun _ i hi => ⟨h i hi, n.key i, (slotOf_keyed_eq_some hok hk).mpr ⟨hi, rfl⟩⟩,
    fun hk' => absurd hk' (ne_node256 hk)⟩

end Counted

/-- The two nodes find their children in the same slots, apart from the children themselves. -/
structure SameSlots (n m : ArtNode) : Prop where
  layout : m.layout = n.layout
  type : getNodeType m.version = getNodeType n.version
  count : getCount m.version = getCount n.version
  key : m.key = n.key
  index : m.index = n.index

namespace SameSlots

theorem refl (n : ArtNode) : SameSlots n n := ⟨rfl, rfl, rfl, rfl, rfl⟩

theorem trans {l : ArtNode} (h : SameSlots l m) (h' : SameSlots m n) : SameSlots l n :=
  ⟨h'.layout.trans h.layout, h'.type.trans h.type, h'.count.trans h.count, h'.key.trans h.key,
    h'.index.trans h.index⟩

theorem ok (h : SameSlots n m) (hok : n.Ok) : m.Ok where
  type := by rw [h.type, h.layout, hok.type]
  count_le := by rw [h.count, h.layout]; exact hok.count_le
  key_inj hk := by rw [h.count, h.key]; exact hok.key_inj (h.layout ▸ hk)
  index_le hk := by rw [h.count, h.index]; exact hok.index_le (h.layout ▸ hk)
  index_inj hk := by rw [h.index]; exact hok.index_inj (h.layout ▸ hk)

theorem hasRoom (h : SameSlots n m) (hr : n.HasRoom) : m.HasRoom := by
  unfold HasRoom at hr ⊢
  rwa [h.layout, h.count]

/-- Outside of a `node256` the children do not matter for the slots. -/
theorem slotOf (h : SameSlots n m) (hk : n.layout ≠ .node256) (b : UInt8) :
    m.slotOf b = n.slotOf b := by
  rcases layout_cases n.layout with hk' | hk' | hk'
  · rw [slotOf_keyed hk', slotOf_keyed (h.layout ▸ hk'), h.count, h.key]
  · rw [slotOf_node48 hk', slotOf_node48 (h.layout.trans hk'), h.index]
  · exact absurd hk' hk

/-- A node keeps its count when its children stay or become others. -/
theorem counted (h : SameSlots n m) (hc : n.Counted) (hchild : ∀ i, n.child i ≠ 0 → m.child i ≠ 0) :
    m.Counted where
  ok := h.ok hc.ok
  filled hk i hi := by
    have hk' : n.layout ≠ .node256 := h.layout ▸ hk
    obtain ⟨hi', b, hb⟩ := hc.filled hk' i (h.count ▸ hi)
    exact ⟨hchild i hi', b, (h.slotOf hk' b).trans hb⟩
  uncounted hk := by
    have hk' : n.layout = .node256 := h.layout ▸ hk
    obtain ⟨hzero, b, hb⟩ := hc.uncounted hk'
    refine ⟨h.count.trans hzero, b, ?_⟩
    rw [slotOf_node256 hk'] at hb
    rw [slotOf_node256 hk, if_pos (hchild _ fun h0 => ?_)]
    · rfl
    · simp [h0] at hb

end SameSlots

/-- A version word of the same layout and count. -/
theorem sameSlots_setVersion {v : Version} (ht : getNodeType v = getNodeType n.version)
    (hc : getCount v = getCount n.version) : SameSlots n (n.setVersion v) := ⟨rfl, ht, hc, rfl, rfl⟩

theorem sameSlots_setParent (n : ArtNode) (p : Addr) : SameSlots n (n.setParent p) :=
  ⟨rfl, rfl, rfl, rfl, rfl⟩

/-- No child of a counted node is null. -/
theorem Counted.childAt_ne_zero (h : n.Counted) (b : UInt8) : n.childAt b ≠ some 0 := by
  intro hb
  obtain ⟨i, hi, hc⟩ := childAt_eq_some.mp hb
  by_cases hk : n.layout = .node256
  · rw [slotOf_node256 hk] at hi
    split at hi
    · obtain rfl : b.toNat = i := by simpa using hi
      exact ‹n.child b.toNat ≠ 0› hc
    · simp at hi
  · exact (h.filled hk i (slotOf_lt_count h.ok hk hi)).1 hc

/-- A node that has been given one more child. -/
theorem Counted.addChild (h : n.Counted) (hr : n.HasRoom)
    (hb : n.layout ≠ .node256 → n.slotOf b = none) (hp : p ≠ 0) : (n.addChild b p).Counted := by
  by_cases hk : n.layout = .node256
  · -- the version word stays as it is
    rw [addChild_node256 hk]
    refine SameSlots.counted (n := n) ⟨rfl, rfl, rfl, rfl, rfl⟩ h fun i hi => ?_
    by_cases hib : i = b.toNat
    · subst hib
      simpa using hp
    · simpa [Function.update_of_ne hib] using hi
  · have hb := hb hk
    refine ⟨h.ok.addChild hr hb p, fun _ i hi => ?_,
      fun hk' => absurd hk' (by rwa [addChild_layout])⟩
    rw [count_addChild hr hk] at hi
    rw [child_addChild hk]
    rcases Nat.lt_succ_iff_lt_or_eq.mp hi with hi | rfl
    · rw [Function.update_of_ne (Nat.ne_of_lt hi)]
      obtain ⟨hc, c, hc'⟩ := h.filled hk i hi
      refine ⟨hc, c, ?_⟩
      have hcb : c ≠ b := by
        rintro rfl
        simp [hb] at hc'
      rw [slotOf_addChild h.ok hr hb hp, if_neg hcb, hc']
    · refine ⟨by rwa [Function.update_self], b, ?_⟩
      rw [slotOf_addChild h.ok hr hb hp, if_pos rfl, if_neg hk]

end ArtNode

open ArtNode

variable {env : Env} {s s' : Mem} {an new_ : Addr} {n : ArtNode} {α β : Type}

/-! ### Steps that add no child -/

/-- Every node of the memory is counted. -/
structure AllCounted (env : Env) (s : Mem) : Prop where
  fresh : s.Fresh env
  counted : ∀ a n, s.node? a = some n → n.Counted

/-- A step that keeps the counts and that keeps the slots of every node. -/
def Quiet (env : Env) (s s' : Mem) : Prop := AllCounted env s →
  AllCounted env s' ∧ ∀ a n, s.node? a = some n → ∃ n', s'.node? a = some n' ∧ n.SameSlots n'

instance (env : Env) : IsPreorder Mem (Quiet env) where
  refl s hs := ⟨hs, fun _ n hn => ⟨n, hn, .refl n⟩⟩
  trans s s' s'' h h' hs := by
    obtain ⟨hs', hnode⟩ := h hs
    obtain ⟨hs'', hnode'⟩ := h' hs'
    refine ⟨hs'', fun a n hn => ?_⟩
    obtain ⟨m, hm, hnm⟩ := hnode a n hn
    obtain ⟨l, hl, hml⟩ := hnode' a m hm
    exact ⟨l, hl, hnm.trans hml⟩

theorem Quiet.refl (s : Mem) : Quiet env s s := refl_of (Quiet env) s

theorem Quiet.trans {s'' : Mem} (h : Quiet env s s') (h' : Quiet env s' s'') : Quiet env s s'' :=
  trans_of (Quiet env) h h'

/-- Another version of a node with the same slots is written back. -/
theorem Quiet.setNode {m : ArtNode} (hn : s.node? an = some n) (hm : n.SameSlots m)
    (hchild : ∀ i, n.child i ≠ 0 → m.child i ≠ 0) : Quiet env s (s.setNode an m) := by
  intro hs
  refine ⟨⟨hs.fresh.setNode (hs.fresh.exists_addr_of_node? hn) m, fun a x hx => ?_⟩,
    fun a x hx => ?_⟩
  all_goals by_cases ha : a = an
  · subst ha
    obtain rfl : m = x := by simpa using hx
    exact hm.counted (hs.counted _ n hn) hchild
  · rw [Mem.node?_setNode_of_ne _ _ ha] at hx
    exact hs.counted a x hx
  · subst ha
    obtain rfl : n = x := by simpa [hn] using hx
    exact ⟨m, Mem.node?_setNode_self .., hm⟩
  · exact ⟨x, (Mem.node?_setNode_of_ne _ _ ha).trans hx, .refl x⟩

/-- The nodes stay as they are. -/
theorem Quiet.of_node? (hfresh : s.Fresh env → s'.Fresh env)
    (h : s.Fresh env → ∀ a, s'.node? a = s.node? a) : Quiet env s s' := fun hs =>
  ⟨⟨hfresh hs.fresh, fun a n hn => hs.counted a n (h hs.fresh a ▸ hn)⟩,
    fun a n hn => ⟨n, (h hs.fresh a).trans hn, .refl n⟩⟩

/-- A leaf is written. -/
theorem Quiet.setLeaf {l l' : LeafNode} (hl : s.leaf? an = some l) :
    Quiet env s (s.setLeaf an l') := by
  refine .of_node? (fun hs => hs.setLeaf (hs.exists_addr_of_leaf? hl) l') fun _ a => ?_
  by_cases ha : a = an
  · subst ha
    simp [Mem.node?, Mem.setLeaf, Mem.heap_of_leaf? hl]
  · exact Mem.node?_setLeaf_of_ne _ _ ha

/-- A leaf is allocated. -/
theorem Quiet.withLeaf (len : ℕ) (l : LeafNode) (g : Global) :
    Quiet env s (s.withLeaf env len l g) := by
  refine .of_node? (fun hs => hs.withLeaf len l g) fun hs a => ?_
  by_cases ha : a = env.addr s.allocated
  · subst ha
    simp [Mem.node?, Mem.withLeaf, Env.heap_addr hs]
  · exact Mem.node?_congr (Mem.heap_withLeaf_of_ne ha)

/-- A node that is counted is allocated. -/
theorem Quiet.withNode {nd : ArtNode} (hnd : nd.Counted) (t : NodeType) (g : Global) :
    Quiet env s (s.withNode env t nd g) := by
  intro hs
  refine ⟨⟨hs.fresh.withNode t nd g, fun a x hx => ?_⟩, fun a x hx => ?_⟩
  · by_cases ha : a = env.addr s.allocated
    · subst ha
      obtain rfl : nd = x := by simpa using hx
      exact hnd
    · rw [Mem.node?_withNode_of_ne ha] at hx
      exact hs.counted a x hx
  · exact ⟨x, (Mem.node?_withNode_of_ne (hs.fresh.ne_of_node? hx)).trans hx, .refl x⟩

/-! ### The accesses -/

theorem quiet_load {f : NodeField β} : env.machine.Keeps (Quiet env) (load an f) := fun s =>
  ensures_load fun _ _ _ => .refl s

theorem quiet_loadLeaf {f : LeafField β} : env.machine.Keeps (Quiet env) (loadLeaf an f) := fun s =>
  ensures_loadLeaf fun _ _ _ => .refl s

theorem quiet_storeLeaf {f : LeafField β} {x : β} :
    env.machine.Keeps (Quiet env) (storeLeaf an f x) :=
      fun _ => ensures_storeLeaf fun _ hl _ => .setLeaf hl

/-- A store into a field that the slots do not depend on. -/
theorem quiet_store {f : NodeField β} {x : β} (hf : ∀ n : ArtNode, n.SameSlots (f.set x n))
    (hchild : ∀ (n : ArtNode) (i : ℕ), n.child i ≠ 0 → (f.set x n).child i ≠ 0) :
    env.machine.Keeps (Quiet env) (store an f x) := fun _ =>
  ensures_store fun n hn _ => .setNode hn (hf n) (hchild n)

theorem quiet_storeParent (p : Addr) : env.machine.Keeps (Quiet env) (store an .parent p) :=
  quiet_store (fun _ => ⟨rfl, rfl, rfl, rfl, rfl⟩) fun _ _ => id

theorem quiet_storeNew (p : Addr) : env.machine.Keeps (Quiet env) (store an .new_ p) :=
  quiet_store (fun _ => ⟨rfl, rfl, rfl, rfl, rfl⟩) fun _ _ => id

theorem quiet_storeMeta (m : NodeMetadata) :
    env.machine.Keeps (Quiet env) (store an .sidleMeta m) :=
  quiet_store (fun _ => ⟨rfl, rfl, rfl, rfl, rfl⟩) fun _ _ => id

theorem quiet_storePrefix (i : ℕ) (b : UInt8) :
    env.machine.Keeps (Quiet env) (store an (.prefix_ i) b) :=
  quiet_store (fun _ => ⟨rfl, rfl, rfl, rfl, rfl⟩) fun _ _ => id

theorem quiet_storeChild (i : ℕ) {p : Ptr} (hp : p ≠ 0) :
    env.machine.Keeps (Quiet env) (store an (.child i) p) := by
  refine quiet_store (fun _ => ⟨rfl, rfl, rfl, rfl, rfl⟩) fun n j hj => ?_
  by_cases hij : j = i
  · subst hij
    simpa [NodeField.set] using hp
  · simpa [NodeField.set, Function.update_of_ne hij] using hj

theorem quiet_loadSlot (slot : Slot) : env.machine.Keeps (Quiet env) (loadSlot slot) := by
  cases slot with
  | root => exact fun s => ensures_loadRoot (.refl s)
  | child an i => exact quiet_load

theorem quiet_storeSlot (slot : Slot) {p : Ptr} (hp : p ≠ 0) :
    env.machine.Keeps (Quiet env) (storeSlot slot p) := by
  cases slot with
  | root =>
    refine keeps_lift fun s _ _ hexec => ?_
    cases hexec
    exact .of_node? id fun _ _ => rfl
  | child an i => exact quiet_storeChild i hp

theorem quiet_keyAt (key : Key) (off : ℕ) :
    env.machine.Keeps (Quiet env) (keyAt key off) := fun s =>
  ensures_keyAt fun _ _ => .refl s

theorem quiet_onGlobal {f : Global → Option (β × Global)} :
    env.machine.Keeps (Quiet env) (lift (.onGlobal f)) := fun _ =>
  ensures_onGlobal fun _ _ _ => .of_node? id fun _ _ => rfl

/-! ### The version words -/

/-- An update of the version word that keeps the layout and the count. -/
def KeepsCount (f : Version → Version) : Prop :=
  ∀ v, getNodeType (f v) = getNodeType v ∧ getCount (f v) = getCount v

theorem KeepsCount.comp {f g : Version → Version} (hf : KeepsCount f) (hg : KeepsCount g) :
    KeepsCount fun v => f (g v) := fun v =>
  ⟨(hf _).1.trans (hg v).1, (hf _).2.trans (hg v).2⟩

theorem keepsCount_setLock : KeepsCount setLock := fun v =>
  ⟨congrArg View.type (view_setLock v), congrArg View.count (view_setLock v)⟩

theorem keepsCount_setOld : KeepsCount setOld := fun v =>
  ⟨congrArg View.type (view_setOld v), congrArg View.count (view_setOld v)⟩

theorem keepsCount_setExpand : KeepsCount setExpand := fun v =>
  ⟨congrArg View.type (view_setExpand v), congrArg View.count (view_setExpand v)⟩

theorem keepsCount_setOffset (off : ℕ) : KeepsCount fun v => setOffset v off := fun v =>
  ⟨getNodeType_setOffset v off, getCount_setOffset v off⟩

theorem keepsCount_setPrefixLen {len : ℕ} (h : len < 256) :
    KeepsCount fun v => setPrefixLen v len :=
  fun v => ⟨congrArg View.type (view_setPrefixLen v h), congrArg View.count (view_setPrefixLen v h)⟩

theorem keepsCount_unlockedVersion : KeepsCount unlockedVersion := by
  have hlock : KeepsCount unsetLock := fun v =>
    ⟨congrArg View.type (view_unsetLock v), congrArg View.count (view_unsetLock v)⟩
  have hexpand : KeepsCount unsetExpand := fun v =>
    ⟨congrArg View.type (view_unsetExpand v), congrArg View.count (view_unsetExpand v)⟩
  have hincr : KeepsCount incrVexpand := fun v =>
    ⟨congrArg View.type (view_incrVexpand v), congrArg View.count (view_incrVexpand v)⟩
  intro v
  unfold unlockedVersion
  split
  · exact hlock.comp (hexpand.comp hincr) v
  · exact hlock v

/-- The version word of a node, computed from the one it had earlier. -/
theorem ensures_storeVersion {f : Version → Version} (hf : KeepsCount f)
    (h : ∃ m, s.node? an = some m ∧ n.SameSlots m) :
    env.machine.Ensures (store an .version (f n.version)) s fun _ => Quiet env s :=
  ensures_store fun m hm _ => by
    obtain ⟨m', hm', hnm⟩ := h
    obtain rfl : m = m' := by simpa [hm] using hm'
    exact .setNode hm ⟨rfl, (hf _).1.trans hnm.type.symm, (hf _).2.trans hnm.count.symm, rfl, rfl⟩
      fun _ => id

theorem quiet_updateVersion {f : Version → Version} (hf : KeepsCount f) :
    env.machine.Keeps (Quiet env) (do
      let v ← load an .version
      store an .version (f v)) := fun _ =>
  ensures_bind.mpr (ensures_load fun n hn _ => ensures_storeVersion hf ⟨n, hn, .refl n⟩)

theorem quiet_artNodeUnlock : env.machine.Keeps (Quiet env) (artNodeUnlock an) :=
  quiet_updateVersion keepsCount_unlockedVersion

theorem quiet_artNodeSetOffset (off : ℕ) :
    env.machine.Keeps (Quiet env) (artNodeSetOffset an off) :=
  quiet_updateVersion (keepsCount_setOffset off)

theorem quiet_artNodeLock (fuel : ℕ) : env.machine.Keeps (Quiet env) (artNodeLock fuel an) := by
  induction fuel with
  | zero => exact keeps_diverge
  | succ fuel ih =>
    refine quiet_load.bind fun version => keeps_ite ih (keeps_ite keeps_pure ?_)
    refine Keeps.bind (fun s => ensures_casVersion (fun n hn hv => ?_) (.refl s)) fun ok =>
      keeps_ite keeps_pure ih
    subst hv
    exact .setNode hn (sameSlots_setVersion (keepsCount_setLock _).1 (keepsCount_setLock _).2)
      fun _ => id

/-- A new node is locked under an assertion. -/
theorem quiet_lockChecked (fuel : ℕ) : env.machine.Keeps (Quiet env) (assertTrue env.build (do
    let r ← artNodeLock fuel an
    pure (r == 0))) :=
  keeps_assertTrue ((quiet_artNodeLock fuel).bind fun _ => keeps_pure)

theorem quiet_artNodeGetStableExpandVersion (fuel : ℕ) :
    env.machine.Keeps (Quiet env) (artNodeGetStableExpandVersion fuel an) := by
  induction fuel with
  | zero => exact keeps_diverge
  | succ fuel ih => exact quiet_load.bind fun version => keeps_ite ih keeps_pure

theorem quiet_artNodeGetLockedParent (fuel : ℕ) :
    env.machine.Keeps (Quiet env) (artNodeGetLockedParent fuel an) := by
  induction fuel with
  | zero => exact keeps_diverge
  | succ fuel ih =>
    refine quiet_load.bind fun parent => keeps_ite keeps_pure ?_
    refine (quiet_artNodeLock fuel).bind fun r => keeps_ite ih (quiet_load.bind fun parent' => ?_)
    exact keeps_ite keeps_pure (quiet_artNodeUnlock.bind fun _ => ih)

/-! ### Growth -/

/-- The memory while the full node `n` at `an` is copied to `new_`, where `P` holds of the copy. -/
structure Growing (env : Env) (an new_ : Addr) (n : ArtNode) (P : ArtNode → Prop) (s : Mem) :
    Prop where
  fresh : s.Fresh env
  ne : an ≠ new_
  counted : ∀ a m, a ≠ new_ → s.node? a = some m → m.Counted
  source : ∃ m, s.node? an = some m ∧ n.SameSlots m ∧ m.child = n.child
  target : ∃ m, s.node? new_ = some m ∧ P m

namespace Growing

variable {P R : ArtNode → Prop} (h : Growing env an new_ n P s)

include h

theorem ensures_loadSource {f : NodeField β} {Q : β → Mem → Prop}
    (hQ : ∀ m, n.SameSlots m → m.child = n.child → Q (f.get m) s) :
    env.machine.Ensures (load an f) s Q := ensures_load fun m hm _ => by
  obtain ⟨m', hm', hs, hc⟩ := h.source
  obtain rfl : m = m' := by simpa [hm] using hm'
  exact hQ m hs hc

theorem ensures_loadTarget {f : NodeField β} {Q : β → Mem → Prop} (hQ : ∀ m, P m → Q (f.get m) s) :
    env.machine.Ensures (load new_ f) s Q := ensures_load fun m hm _ => by
  obtain ⟨m', hm', hP⟩ := h.target
  obtain rfl : m = m' := by simpa [hm] using hm'
  exact hQ m hP

theorem imp (hP : ∀ m, P m → R m) : Growing env an new_ n R s :=
  { h with target := h.target.imp fun m hm => ⟨hm.1, hP m hm.2⟩ }

/-- The copy is written. -/
theorem setTarget {m m' : ArtNode} (hm : s.node? new_ = some m) (hP : R m') :
    Growing env an new_ n R (s.setNode new_ m') where
  fresh := h.fresh.setNode (h.fresh.exists_addr_of_node? hm) m'
  ne := h.ne
  counted a x ha hx := h.counted a x ha ((Mem.node?_setNode_of_ne _ _ ha).symm.trans hx)
  source := by
    obtain ⟨x, hx, hs⟩ := h.source
    exact ⟨x, (Mem.node?_setNode_of_ne _ _ h.ne).trans hx, hs⟩
  target := ⟨m', Mem.node?_setNode_self .., hP⟩

theorem ensures_store {f : NodeField β} {x : β} (hP : ∀ m, P m → R (f.set x m)) :
    env.machine.Ensures (store new_ f x) s fun _ => Growing env an new_ n R :=
  Sidle.Art.ensures_store fun m hm _ => by
    obtain ⟨m', hm', hPm⟩ := h.target
    obtain rfl : m = m' := by simpa [hm] using hm'
    exact h.setTarget hm (hP m hPm)

/-- A child is adopted, whichever node it is. -/
theorem ensures_adopt (hP : ∀ m, P m → P (m.setParent new_)) (c : Ptr) :
    env.machine.Ensures (adopt c new_) s fun _ => Growing env an new_ n P := by
  refine ensures_ite (fun _ => ensures_pure.mpr h) fun _ => Sidle.Art.ensures_store fun m hm _ => ?_
  by_cases hc : c = new_
  · subst hc
    obtain ⟨m', hm', hPm⟩ := h.target
    obtain rfl : m = m' := by simpa [hm] using hm'
    exact h.setTarget hm (hP m hPm)
  · have hself {a : Addr} (ha : a ≠ c) : (s.setNode c (m.setParent new_)).node? a = s.node? a :=
      Mem.node?_setNode_of_ne _ _ ha
    refine ⟨h.fresh.setNode (h.fresh.exists_addr_of_node? hm) _, h.ne, fun a x ha hx => ?_, ?_, ?_⟩
    · by_cases hac : a = c
      · subst hac
        obtain rfl : m.setParent new_ = x := by simpa [NodeField.set, ArtNode.setParent] using hx
        exact (sameSlots_setParent m new_).counted (h.counted _ m hc hm) fun _ => id
      · exact h.counted a x ha ((hself hac).symm.trans hx)
    · obtain ⟨x, hx, hs, hch⟩ := h.source
      by_cases hac : an = c
      · subst hac
        obtain rfl : m = x := by simpa [hm] using hx
        exact ⟨m.setParent new_, Mem.node?_setNode_self ..,
          hs.trans (sameSlots_setParent m new_), hch⟩
      · exact ⟨x, (hself hac).trans hx, hs, hch⟩
    · obtain ⟨x, hx, hPx⟩ := h.target
      exact ⟨x, (hself (Ne.symm hc)).trans hx, hPx⟩

end Growing

/-- The version word that the copy of `n` has until its children are counted. -/
def headerVersion (t : NodeType) (n : ArtNode) : Version :=
  setPrefixLen (setType 0 t) (getPrefixLen n.version)

/-- What `art_node_grow` begins with. -/
structure Header (t : NodeType) (n nd : ArtNode) : Prop where
  layout : nd.layout = t
  version : nd.version = headerVersion t n
  index : t = .node48 → ∀ b, nd.index b = 0
  child : t = .node256 → ∀ i < 256, nd.child i = 0

theorem ensures_growHeader (hs : AllCounted env s) (hn : s.node? an = some n) (t : NodeType)
    (oldSize : ℕ) : env.machine.Ensures (growHeader env t an n.version oldSize) s
      fun new_ => Growing env an new_ n (Header t n) := by
  refine ensures_bind.mpr (ensures_load fun _ _ _ => ?_)
  refine ensures_bind.mpr (ensures_newArtNodeOf t _ oldSize fun nd g hnd => ?_)
  have hne : an ≠ env.addr s.allocated := hs.fresh.ne_of_node? hn
  have hg : Growing env an (env.addr s.allocated) n (ClearedNode t) (s.withNode env t nd g) := by
    refine ⟨hs.fresh.withNode t nd g, hne, fun a m ha hm => ?_, ?_, ?_⟩
    · exact hs.counted a m ((Mem.node?_withNode_of_ne ha).symm.trans hm)
    · exact ⟨n, (Mem.node?_withNode_of_ne hne).trans hn, .refl n, rfl⟩
    · exact ⟨nd, Mem.node?_withNode_self .., hnd⟩
  refine ensures_bind.mpr (hg.ensures_loadSource fun _ _ _ => ?_)
  refine (hg.ensures_store (f := .prefixes) (R := ClearedNode t) fun m hm =>
    ⟨hm.layout, hm.version, hm.index, hm.child⟩).bind fun _ s₁ h₁ => ?_
  refine ensures_bind.mpr (h₁.ensures_loadTarget fun m hm => ?_)
  refine (h₁.ensures_store (f := .version) (R := Header t n) fun m' hm' =>
    ⟨hm'.layout, ?_, hm'.index, hm'.child⟩).bind fun _ s₂ h₂ => ?_
  · exact congrArg (setPrefixLen · (getPrefixLen n.version)) hm.version
  refine ensures_bind.mpr (h₂.ensures_loadSource fun _ _ _ => ?_)
  refine (h₂.ensures_store (f := .parent) (R := Header t n) fun m hm =>
    ⟨hm.layout, hm.version, hm.index, hm.child⟩).bind fun _ s₃ h₃ => ?_
  exact ensures_pure.mpr h₃

/-- The memory after growth: everything is counted, the old node has its slots still, and the copy
has room and no other children. -/
structure Grew (env : Env) (an new_ : Addr) (n : ArtNode) (s : Mem) : Prop where
  all : AllCounted env s
  ne_zero : new_ ≠ 0
  source : ∃ m, s.node? an = some m ∧ n.SameSlots m
  target : ∃ nd, s.node? new_ = some nd ∧ nd.HasRoom ∧
    (nd.layout ≠ .node256 → ∀ b, n.slotOf b = none → nd.slotOf b = none)

/-- The copy is counted, and it has the children of the old node. -/
theorem Growing.grew {P : ArtNode → Prop} (h : Growing env an new_ n P s)
    (hP : ∀ nd, P nd → nd.Counted ∧ nd.HasRoom ∧ ∀ b, nd.childAt b = n.childAt b) :
    Grew env an new_ n s := by
  obtain ⟨nd, hnd, hPnd⟩ := h.target
  obtain ⟨hc, hr, hchild⟩ := hP nd hPnd
  refine ⟨⟨h.fresh, fun a m hm => ?_⟩, h.fresh.ne_zero_of_node? hnd, ?_, nd, hnd, hr,
    fun _ b hb => ?_⟩
  · by_cases ha : a = new_
    · subst ha
      obtain rfl : nd = m := by simpa [hnd] using hm
      exact hc
    · exact h.counted a m ha hm
  · obtain ⟨m, hm, hs, -⟩ := h.source
    exact ⟨m, hm, hs⟩
  · rw [← childAt_eq_none, hchild, childAt_eq_none]
    exact hb

/-- A copy of the first `i` keys and `k` children of a `node4`. -/
structure Copied16 (n : ArtNode) (v : Version) (i k : ℕ) (nd : ArtNode) : Prop where
  layout : nd.layout = .node16
  version : nd.version = v
  key : ∀ j < i, nd.key j = n.key j
  child : ∀ j < k, nd.child j = n.child j

/-- A copy of the first `k` children of a `node16`, of which `i` are indexed. -/
structure Copied48 (n : ArtNode) (v : Version) (i k : ℕ) (nd : ArtNode) : Prop where
  layout : nd.layout = .node48
  version : nd.version = v
  index : nd.index = indexOfKeys n.key i
  child : ∀ j < k, nd.child j = n.child j

/-- A copy of the children of a `node48` for the bytes below `i`. -/
structure Copied256 (n : ArtNode) (v : Version) (i : ℕ) (nd : ArtNode) : Prop where
  layout : nd.layout = .node256
  version : nd.version = v
  child : ∀ j < 256, nd.child j = if j < i then (n.childAt (UInt8.ofNat j)).getD 0 else 0

theorem update_of_lt_succ {f g : ℕ → α} {i : ℕ} (h : ∀ j < i, f j = g j) :
    ∀ j < i + 1, Function.update f i (g i) j = g j := by
  intro j hj
  rcases Nat.lt_succ_iff_lt_or_eq.mp hj with hj | rfl
  · rw [Function.update_of_ne (Nat.ne_of_lt hj), h j hj]
  · exact Function.update_self ..

theorem ensures_growTo16 {v : Version} (h : Growing env an new_ n (Copied16 n v 0 0) s) :
    env.machine.Ensures (forRange 0 4 (growTo16 an new_)) s
      fun _ => Growing env an new_ n (Copied16 n v 4 4) := by
  refine ensures_forRange 0 4 (I := fun i => Growing env an new_ n (Copied16 n v i i))
    (fun i t _ _ h => ?_) h
  refine ensures_bind.mpr (h.ensures_loadSource fun m hm _ => ?_)
  refine (h.ensures_store (f := .key i) (R := Copied16 n v (i + 1) i) fun nd hnd =>
    ⟨hnd.layout, hnd.version, ?_, hnd.child⟩).bind fun _ t₁ h₁ => ?_
  · change ∀ j < i + 1, Function.update nd.key i (m.key i) j = n.key j
    rw [hm.key]
    exact update_of_lt_succ hnd.key
  refine ensures_bind.mpr (h₁.ensures_loadSource fun m _ hm => ?_)
  refine (h₁.ensures_store (f := .child i) (R := Copied16 n v (i + 1) (i + 1)) fun nd hnd =>
    ⟨hnd.layout, hnd.version, hnd.key, ?_⟩).bind fun _ t₂ h₂ => ?_
  · change ∀ j < i + 1, Function.update nd.child i (m.child i) j = n.child j
    rw [hm]
    exact update_of_lt_succ hnd.child
  exact h₂.ensures_adopt (fun nd hnd => ⟨hnd.layout, hnd.version, hnd.key, hnd.child⟩) _

theorem ensures_growTo48 {v : Version} (h : Growing env an new_ n (Copied48 n v 0 0) s) :
    env.machine.Ensures (forRange 0 16 (growTo48 an new_)) s
      fun _ => Growing env an new_ n (Copied48 n v 16 16) := by
  refine ensures_forRange 0 16 (I := fun i => Growing env an new_ n (Copied48 n v i i))
    (fun i t _ _ h => ?_) h
  refine ensures_bind.mpr (h.ensures_loadSource fun m _ hm => ?_)
  refine (h.ensures_store (f := .child i) (R := Copied48 n v i (i + 1)) fun nd hnd =>
    ⟨hnd.layout, hnd.version, hnd.index, ?_⟩).bind fun _ t₁ h₁ => ?_
  · change ∀ j < i + 1, Function.update nd.child i (m.child i) j = n.child j
    rw [hm]
    exact update_of_lt_succ hnd.child
  refine (h₁.ensures_adopt (fun nd hnd => ⟨hnd.layout, hnd.version, hnd.index, hnd.child⟩) _).bind
    fun _ t₂ h₂ => ?_
  refine ensures_bind.mpr (h₂.ensures_loadSource fun m hm _ => ?_)
  refine h₂.ensures_store (f := .index _) fun nd hnd => ⟨hnd.layout, hnd.version, ?_, hnd.child⟩
  change Function.update nd.index (m.key i) (UInt8.ofNat (i + 1)) = indexOfKeys n.key (i + 1)
  rw [hm.key, hnd.index, indexOfKeys]

theorem ensures_growTo256 {v : Version} (ht : n.layout = .node48)
    (h : Growing env an new_ n (Copied256 n v 0) s) :
    env.machine.Ensures (forRange 0 256 (growTo256 an new_)) s
      fun _ => Growing env an new_ n (Copied256 n v 256) := by
  refine ensures_forRange 0 256 (I := fun i => Growing env an new_ n (Copied256 n v i))
    (fun i t _ hi h => ?_) h
  have hslot := slotOf_node48 (b := UInt8.ofNat i) ht
  refine ensures_bind.mpr (h.ensures_loadSource fun m hm _ => ?_)
  simp only [NodeField.get, hm.index]
  refine ensures_ite (fun hz => ?_) fun hz => ensures_pure.mpr ?_
  · -- the byte has a child
    rw [if_pos hz] at hslot
    refine ensures_bind.mpr (h.ensures_loadSource fun m _ hm => ?_)
    refine (h.ensures_store (f := .child i) (R := Copied256 n v (i + 1)) fun nd hnd =>
      ⟨hnd.layout, hnd.version, fun j hj => ?_⟩).bind fun _ t₁ h₁ => ?_
    · by_cases hji : j = i
      · subst hji
        simp [NodeField.set, NodeField.get, hm, childAt, hslot]
      · simp only [NodeField.set, Function.update_of_ne hji, hnd.child j hj,
          show j < i + 1 ↔ j < i by omega]
    · exact h₁.ensures_adopt (fun nd hnd => ⟨hnd.layout, hnd.version, hnd.child⟩) _
  · -- it has none
    rw [if_neg hz] at hslot
    obtain ⟨m, hm, hP⟩ := h.target
    refine ⟨h.fresh, h.ne, h.counted, h.source, m, hm, hP.layout, hP.version, fun j hj => ?_⟩
    rw [hP.child j hj]
    by_cases hji : j = i
    · subst hji
      simp [childAt, hslot]
    · simp only [show j < i + 1 ↔ j < i by omega]

theorem headerVersion_fields (t : NodeType) (n : ArtNode) :
    getCount (headerVersion t n) = 0 ∧ getNodeType (headerVersion t n) = t := by
  have hv := view_header t (getPrefixLen_lt n.version)
  exact ⟨congrArg View.count hv, congrArg View.type hv⟩

theorem setCount_headerVersion_fields (t : NodeType) (n : ArtNode) {count : ℕ} (hc : count < 256) :
    getCount (setCount (headerVersion t n) count) = count ∧
      getNodeType (setCount (headerVersion t n) count) = t := by
  have hv := view_headerCount t (getPrefixLen_lt n.version) hc
  exact ⟨congrArg View.count hv, congrArg View.type hv⟩

theorem Copied16.grown {nd : ArtNode} (hn : n.Counted) (ht : n.layout = .node4)
    (hcount : getCount n.version = 4)
    (h : Copied16 n (setCount (headerVersion .node16 n) 4) 4 4 nd) :
    nd.Counted ∧ nd.HasRoom ∧ ∀ b, nd.childAt b = n.childAt b := by
  obtain ⟨hc, hty⟩ := setCount_headerVersion_fields .node16 n (by decide : 4 < 256)
  rw [← h.version] at hc hty
  have hk : nd.layout.Keyed := Or.inr h.layout
  have hok : nd.Ok := by
    refine ⟨hty.trans h.layout.symm, by rw [hc, h.layout]; decide, fun _ i j hi hj hij => ?_,
      fun hk' => absurd hk' (ne_node48 hk), fun hk' => absurd hk' (ne_node48 hk)⟩
    rw [hc] at hi hj
    rw [h.key i hi, h.key j hj] at hij
    exact hn.ok.key_inj (Or.inl ht) i j (hcount ▸ hi) (hcount ▸ hj) hij
  refine ⟨.of_keyed hok hk fun i hi => ?_, Or.inr (by rw [hc, h.layout]; decide), fun b => ?_⟩
  · rw [hc] at hi
    rw [h.child i hi]
    exact (hn.filled (by simp [ht]) i (hcount ▸ hi)).1
  · exact childAt_of_grow16 ht h.layout (hc.trans hcount.symm) (fun i hi => h.key i (hcount ▸ hi))
      (fun i hi => h.child i (hcount ▸ hi)) b

theorem Copied48.grown {nd : ArtNode} (hn : n.Counted) (ht : n.layout = .node16)
    (hcount : getCount n.version = 16)
    (h : Copied48 n (setCount (headerVersion .node48 n) 16) 16 16 nd) :
    nd.Counted ∧ nd.HasRoom ∧ ∀ b, nd.childAt b = n.childAt b := by
  obtain ⟨hc, hty⟩ := setCount_headerVersion_fields .node48 n (by decide : 16 < 256)
  rw [← h.version] at hc hty
  have hindex : nd.index = indexOfKeys n.key (getCount n.version) := by rw [h.index, hcount]
  have hok : nd.Ok := Ok.of_grow48 hn.ok ht (hty.trans h.layout.symm) h.layout
    (hc.trans hcount.symm) hindex
  refine ⟨⟨hok, fun _ i hi => ?_, fun hk => absurd (h.layout.symm.trans hk) (by decide)⟩,
    Or.inr (by rw [hc, h.layout]; decide), fun b => ?_⟩
  · rw [hc] at hi
    rw [h.child i hi]
    refine ⟨(hn.filled (by simp [ht]) i (hcount ▸ hi)).1, n.key i, ?_⟩
    rw [slotOf_node48_eq_some h.layout, hindex,
      toNat_indexOfKeys (getCount_lt _) (hn.ok.key_inj (Or.inr ht))]
    exact ⟨hcount ▸ hi, rfl⟩
  · exact childAt_of_grow48 hn.ok ht h.layout hindex (fun i hi => h.child i (hcount ▸ hi)) b

theorem Copied256.grown {nd : ArtNode} (hn : n.Counted) (ht : n.layout = .node48)
    (hcount : getCount n.version = 48) (h : Copied256 n (headerVersion .node256 n) 256 nd) :
    nd.Counted ∧ nd.HasRoom ∧ ∀ b, nd.childAt b = n.childAt b := by
  obtain ⟨hc, hty⟩ := headerVersion_fields .node256 n
  rw [← h.version] at hc hty
  have hchild : ∀ b, nd.childAt b = n.childAt b := by
    refine childAt_of_grow256 h.layout (fun b => ?_) hn.childAt_ne_zero
    rw [h.child _ b.toNat_lt, if_pos b.toNat_lt, UInt8.ofNat_toNat]
  have hk : ¬ nd.layout.Keyed := fun hk => ne_node256 hk h.layout
  have hk' : nd.layout ≠ .node48 := by simp [h.layout]
  refine ⟨⟨⟨hty.trans h.layout.symm, by simp [hc], fun hk₁ => absurd hk₁ hk,
    fun hk₁ => absurd hk₁ hk',
    fun hk₁ => absurd hk₁ hk'⟩, fun hk₁ => absurd h.layout hk₁, fun _ => ⟨hc, ?_⟩⟩,
      Or.inl h.layout, hchild⟩
  -- the first child of the old node
  obtain ⟨-, b, hb⟩ := hn.filled (by simp [ht]) 0 (by omega)
  refine ⟨b, ?_⟩
  by_contra hnone
  have hb' : nd.childAt b = none := childAt_eq_none.mpr (by simpa using hnone)
  rw [hchild, childAt_eq_none, hb] at hb'
  cases hb'

theorem ensures_artNodeSetCount {P R : ArtNode → Prop} (h : Growing env an new_ n P s) (count : ℕ)
    {v : Version} (hv : ∀ nd, P nd → nd.version = v)
    (hP : ∀ nd, P nd → R (nd.setVersion (setCount v count))) :
    env.machine.Ensures (artNodeSetCount new_ count) s fun _ => Growing env an new_ n R := by
  refine ensures_bind.mpr (h.ensures_loadTarget fun m hm => ?_)
  refine h.ensures_store (f := .version) fun nd hnd => ?_
  change R (nd.setVersion (setCount m.version count))
  rw [hv m hm]
  exact hP nd hnd

theorem ensures_growBody (hs : AllCounted env s) (hn : s.node? an = some n) (hr : ¬ n.HasRoom) :
    env.machine.Ensures (growBody env an n.version) s fun new_ => Grew env an new_ n := by
  have hc := hs.counted an n hn
  have hcount := count_of_full hc.ok hr
  unfold growBody
  rw [hc.ok.type]
  cases ht : n.layout with
  | node4 =>
    rw [ht] at hcount
    refine (ensures_growHeader hs hn .node16 _).bind fun new_ s₁ h₁ => ?_
    have h₁ : Growing env an new_ n (Copied16 n (headerVersion .node16 n) 0 0) s₁ :=
      h₁.imp fun nd hnd => ⟨hnd.layout, hnd.version, by simp, by simp⟩
    refine (ensures_growTo16 h₁).bind fun _ s₂ h₂ => ?_
    refine (ensures_artNodeSetCount h₂ 4 (fun nd hnd => hnd.version)
      (R := Copied16 n (setCount (headerVersion .node16 n) 4) 4 4)
      fun nd hnd => ⟨hnd.layout, rfl, hnd.key, hnd.child⟩).bind fun _ s₃ h₃ => ?_
    exact ensures_pure.mpr (h₃.grew fun nd hnd => hnd.grown hc ht hcount.2)
  | node16 =>
    rw [ht] at hcount
    refine (ensures_growHeader hs hn .node48 _).bind fun new_ s₁ h₁ => ?_
    have h₁ : Growing env an new_ n (Copied48 n (headerVersion .node48 n) 0 0) s₁ :=
      h₁.imp fun nd hnd => ⟨hnd.layout, hnd.version, funext (hnd.index rfl), by simp⟩
    refine (ensures_growTo48 h₁).bind fun _ s₂ h₂ => ?_
    refine (ensures_artNodeSetCount h₂ 16 (fun nd hnd => hnd.version)
      (R := Copied48 n (setCount (headerVersion .node48 n) 16) 16 16)
      fun nd hnd => ⟨hnd.layout, rfl, hnd.index, hnd.child⟩).bind fun _ s₃ h₃ => ?_
    exact ensures_pure.mpr (h₃.grew fun nd hnd => hnd.grown hc ht hcount.2)
  | node48 =>
    rw [ht] at hcount
    refine (ensures_growHeader hs hn .node256 _).bind fun new_ s₁ h₁ => ?_
    have h₁ : Growing env an new_ n (Copied256 n (headerVersion .node256 n) 0) s₁ :=
      h₁.imp fun nd hnd => ⟨hnd.layout, hnd.version, fun j hj => by simp [hnd.child rfl j hj]⟩
    refine (ensures_growTo256 ht h₁).bind fun _ s₂ h₂ => ?_
    -- the count stays as it is
    exact ensures_pure.mpr (h₂.grew fun nd hnd => hnd.grown hc ht hcount.2)
  | node256 => exact absurd (Or.inl ht) hr

/-- The copy stays as it is while no children are added. -/
theorem Grew.of_quiet (h : Grew env an new_ n s) (hq : Quiet env s s') : Grew env an new_ n s' := by
  obtain ⟨hall, hnode⟩ := hq h.all
  obtain ⟨m, hm, hs⟩ := h.source
  obtain ⟨m', hm', hs'⟩ := hnode an m hm
  obtain ⟨nd, hnd, hr, hslot⟩ := h.target
  obtain ⟨nd', hnd', hsnd⟩ := hnode new_ nd hnd
  refine ⟨hall, h.ne_zero, ⟨m', hm', hs.trans hs'⟩, nd', hnd', hsnd.hasRoom hr, fun hk b hb => ?_⟩
  have hk' : nd.layout ≠ .node256 := hsnd.layout ▸ hk
  rw [hsnd.slotOf hk', hslot hk' b hb]

theorem ensures_artNodeGrow (hs : AllCounted env s) (hn : s.node? an = some n) (hr : ¬ n.HasRoom)
    (fuel : ℕ) : env.machine.Ensures (artNodeGrow env fuel an) s
      fun new_ => Grew env an new_ n := by
  refine ensures_bind_of_done (run_load (f := .version) hn trivial) ?_
  refine (ensures_growBody hs hn hr).bind fun new_ s₁ h₁ => ?_
  refine (quiet_lockChecked fuel s₁).bind fun _ s₂ h₂ => ?_
  have h₂ := h₁.of_quiet h₂
  refine (quiet_artNodeSetOffset _ s₂).bind fun _ s₃ h₃ => ?_
  have h₃ := h₂.of_quiet h₃
  refine (quiet_storeNew new_ s₃).bind fun _ s₄ h₄ => ?_
  have h₄ := h₃.of_quiet h₄
  refine (ensures_storeVersion keepsCount_setOld h₄.source).bind fun _ s₅ h₅ => ?_
  exact ensures_pure.mpr (h₄.of_quiet h₅)

/-! ### Adding a child -/

/-- A step that keeps the counts. -/
def Counts (env : Env) (s s' : Mem) : Prop := AllCounted env s → AllCounted env s'

instance (env : Env) : IsPreorder Mem (Counts env) where
  refl _ := id
  trans _ _ _ h h' := h' ∘ h

theorem Quiet.counts (h : Quiet env s s') : Counts env s s' := fun hs => (h hs).1

theorem keeps_counts {p : ArtM α} (h : env.machine.Keeps (Quiet env) p) :
    env.machine.Keeps (Counts env) p := h.imp fun _ _ => Quiet.counts

/-- It is enough to look at memories in which everything is counted. -/
theorem keeps_counts_of {p : ArtM α}
    (h : ∀ s, AllCounted env s → env.machine.Ensures p s fun _ => AllCounted env) :
    env.machine.Keeps (Counts env) p := fun s => by
  by_cases hs : AllCounted env s
  · exact (h s hs).imp fun _ _ hs' _ => hs'
  · exact fun _ _ _ hs' => absurd hs' hs

theorem ensures_addChildBody (hs : AllCounted env s) (hn : s.node? an = some n) (hr : n.HasRoom)
    {byte : UInt8} (hb : n.layout ≠ .node256 → n.slotOf byte = none) {child : Ptr}
    (hc : child ≠ 0) :
    env.machine.Ensures (addChildBody an n.version byte child) s fun _ => AllCounted env := by
  intro _ s' hrun
  rw [run_addChildBody hn (hs.counted an n hn).ok hr] at hrun
  cases hrun
  refine ⟨hs.fresh.setNode (hs.fresh.exists_addr_of_node? hn) _, fun a m hm => ?_⟩
  by_cases ha : a = an
  · subst ha
    obtain rfl : n.addChild byte child = m := by simpa using hm
    exact (hs.counted a n hn).addChild hr hb hc
  · exact hs.counted a m ((Mem.node?_setNode_of_ne _ _ ha).symm.trans hm)

theorem quiet_adopt (c : Ptr) (p : Addr) : env.machine.Keeps (Quiet env) (adopt c p) :=
  keeps_ite keeps_pure (quiet_storeParent p)

/-- A child that is not null is added, with or without growth. -/
theorem counts_artNodeAddChild (fuel : ℕ) (byte : UInt8) {child : Ptr} (hc : child ≠ 0)
    (wantNew : Bool) :
    env.machine.Keeps (Counts env) (artNodeAddChild env fuel an byte child wantNew) := by
  refine keeps_counts_of fun s hs => ?_
  refine ensures_bind.mpr (ensures_load fun n hn _ => ?_)
  have hok := (hs.counted an n hn).ok
  refine ensures_bind_of_done (run_artNodeFindChild hn hok byte) ?_
  refine ensures_ite (fun _ => ensures_pure.mpr hs) fun hnone => ?_
  have hb : n.slotOf byte = none := by simpa using hnone
  refine ensures_bind_of_done (run_artNodeIsFull hn hok) ?_
  refine ensures_ite (fun hfull => ?_) fun hroom => ?_
  · have hr : ¬ n.HasRoom := by simpa using hfull
    refine (ensures_artNodeGrow hs hn hr fuel).bind fun new_ s₁ h₁ => ?_
    obtain ⟨nd, hnd, hroom, hslot⟩ := h₁.target
    refine ensures_ite (fun _ => ?_) fun _ => ensures_fail
    refine ensures_bind_of_done (run_load (f := .version) hnd trivial) ?_
    refine (ensures_addChildBody h₁.all hnd hroom (fun hk => hslot hk byte hb) hc).bind
      fun _ s₂ h₂ => ?_
    refine (quiet_adopt child new_ s₂).bind fun _ s₃ h₃ => ?_
    refine (quiet_artNodeUnlock s₃).bind fun _ s₄ h₄ => ?_
    exact ensures_pure.mpr ((h₃.trans h₄).counts h₂)
  · have hr : n.HasRoom := by simpa using hroom
    refine (ensures_addChildBody hs hn hr (fun _ => hb) hc).bind fun _ s₁ h₁ => ?_
    refine (quiet_adopt child an s₁).bind fun _ s₂ h₂ => ?_
    exact ensures_pure.mpr (h₂.counts h₁)

/-! ### Allocation -/

theorem ensures_allocLeaf_quiet (parent : Addr) (key : Key) (targetType : NodeMemType)
    (isMigration : Bool) : env.machine.Ensures (allocLeaf env parent key targetType isMigration) s
      fun p s' => Quiet env s s' ∧ p ≠ 0 :=
  ensures_allocLeaf parent key targetType isMigration fun _ g =>
    ⟨.withLeaf _ _ g, Nat.succ_ne_zero _⟩

/-- A node without children is counted. -/
theorem ClearedNode.counted {nd : ArtNode} (h : ClearedNode .node4 nd) : nd.Counted := by
  have hv : view nd.version = ⟨0, 0, 0, .node4, false, false, false, 0⟩ := by
    rw [h.version, view_setType_zero]
  have hc : getCount nd.version = 0 := congrArg View.count hv
  have hk : nd.layout.Keyed := Or.inl h.layout
  refine .of_keyed ⟨(congrArg View.type hv).trans h.layout.symm, by simp [hc], fun _ i j hi => ?_,
    fun hk' => absurd hk' (ne_node48 hk), fun hk' => absurd hk' (ne_node48 hk)⟩ hk fun i hi => ?_
  all_goals
    rw [hc] at hi
    exact absurd hi (Nat.not_lt_zero i)

theorem ensures_newArtNode_quiet (parent : Addr) :
    env.machine.Ensures (newArtNode env parent) s fun new_ s' => Quiet env s s' ∧ new_ ≠ 0 :=
  ensures_newArtNodeOf .node4 parent 0 fun _ g hnd =>
    ⟨.withNode hnd.counted .node4 g, Nat.ne_of_gt (env.addr_pos _)⟩

theorem counts_freeArtNode : env.machine.Keeps (Counts env) (freeArtNode env an) := by
  refine (keeps_counts quiet_load).bind fun version => (keeps_counts quiet_load).bind fun m => ?_
  refine (keeps_counts quiet_onGlobal).bind fun _ => keeps_lift fun s _ s' hexec hs => ?_
  change env.exec (.free an) s = _ at hexec
  refine ⟨hs.fresh.exec hexec, fun a n hn => ?_⟩
  simp only [Env.exec] at hexec
  split at hexec
  · cases hexec
    by_cases ha : a = an
    · simp [Mem.node?, ha] at hn
    · exact hs.counted a n ((Mem.node?_congr (Function.update_of_ne ha _ _)).symm.trans hn)
  · cases hexec

/-! ### Reading -/

theorem quiet_findKey (byte : UInt8) (k i : ℕ) :
    env.machine.Keeps (Quiet env) (findKey an byte k i) := by
  induction k generalizing i with
  | zero => exact keeps_pure
  | succ k ih => exact quiet_load.bind fun b => keeps_ite keeps_pure (ih (i + 1))

theorem quiet_artNodeFindChild (version : Version) (byte : UInt8) :
    env.machine.Keeps (Quiet env) (artNodeFindChild an version byte) := by
  unfold artNodeFindChild
  cases getNodeType version with
  | node4 => exact quiet_findKey byte _ 0
  | node16 | node48 | node256 => exact quiet_load.bind fun _ => keeps_pure

theorem quiet_leafCompareLoop (leaf : Addr) (l1 : ℕ) (key : Key) (k i : ℕ) :
    env.machine.Keeps (Quiet env) (leafCompareLoop leaf l1 key k i) := by
  induction k generalizing i with
  | zero => exact keeps_pure
  | succ k ih =>
    refine keeps_ite (quiet_loadLeaf.bind fun b => (quiet_keyAt key i).bind fun c => ?_) keeps_pure
    exact keeps_ite (ih (i + 1)) keeps_pure

theorem quiet_leafByte (leaf : Addr) (l off : ℕ) :
    env.machine.Keeps (Quiet env) (leafByte leaf l off) :=
  keeps_ite keeps_pure quiet_loadLeaf

theorem quiet_keyByte (key : Key) (off : ℕ) : env.machine.Keeps (Quiet env) (keyByte key off) :=
  keeps_ite keeps_pure (quiet_keyAt key off)

theorem quiet_keyBefore (parent : Addr) (key : Key) (off : ℕ) :
    env.machine.Keeps (Quiet env) (keyBefore parent key off) :=
  keeps_ite (keeps_ite keeps_fail (quiet_keyAt key _)) keeps_pure

theorem quiet_parentIsOld (first : Bool) (parent : Addr) :
    env.machine.Keeps (Quiet env) (parentIsOld first parent) :=
  keeps_ite keeps_pure (quiet_load.bind fun _ => keeps_pure)

theorem ensures_prefixCompareLoop (key : Key) (k i off : ℕ) :
    env.machine.Ensures (prefixCompareLoop an key k i off) s
      fun p s' => Quiet env s s' ∧ p ≤ i + k := by
  induction k generalizing i off s with
  | zero => exact ensures_pure.mpr ⟨.refl s, Nat.le_refl _⟩
  | succ k ih =>
    refine ensures_ite (fun _ => ?_) fun _ => ensures_pure.mpr ⟨.refl s, Nat.le_add_right _ _⟩
    refine (quiet_load s).bind fun b s₁ h₁ => (quiet_keyAt key off s₁).bind fun c s₂ h₂ => ?_
    refine ensures_ite (fun _ => ensures_pure.mpr ⟨h₁.trans h₂, Nat.le_add_right _ _⟩) fun _ => ?_
    exact (ih (i + 1) (off + 1)).imp fun p s' h => ⟨(h₁.trans h₂).trans h.1, by omega⟩

/-- The length of a common prefix fits into its field. -/
theorem ensures_artNodePrefixCompare (version : Version) (key : Key) (off : ℕ) :
    env.machine.Ensures (artNodePrefixCompare an version key off) s
      fun p s' => Quiet env s s' ∧ p < 256 :=
  (ensures_prefixCompareLoop key _ 0 off).imp fun _ _ h =>
    ⟨h.1, Nat.lt_of_le_of_lt h.2 (by rw [Nat.zero_add]; exact getPrefixLen_lt version)⟩

/-! ### Prefixes -/

theorem ensures_setPrefixFromLeaf_quiet (leaf : Addr) (off len : ℕ) :
    env.machine.Ensures (setPrefixFromLeaf an leaf off len) s fun _ => Quiet env s := by
  have hloop : env.machine.Keeps (Quiet env) (forRange 0 len fun i => do
      let b ← loadLeaf leaf (.key (off + i))
      store an (.prefix_ i) b) :=
    keeps_forRange 0 len fun i => quiet_loadLeaf.bind fun b => quiet_storePrefix i b
  -- a prefix that is longer than its array does not return
  intro a s' hrun
  have h8 := ensures_setPrefixFromLeaf leaf off len a s' hrun
  exact (hloop.bind fun _ => quiet_updateVersion (keepsCount_setPrefixLen (by omega))) s a s' hrun

theorem quiet_artNodeSetPrefix (key : Key) (off : ℕ) {len : ℕ} (h : len < 256) :
    env.machine.Keeps (Quiet env) (artNodeSetPrefix an key off len) :=
  (keeps_forRange 0 len fun i => (quiet_keyAt key _).bind
    fun b => quiet_storePrefix i b).bind fun _ =>
    quiet_updateVersion (keepsCount_setPrefixLen h)

theorem ensures_artNodeTruncatePrefix (hs : AllCounted env s) (off : ℕ) :
    env.machine.Ensures (artNodeTruncatePrefix an off) s
      fun _ s' => AllCounted env s' ∧ an ≠ 0 := by
  refine ensures_bind.mpr (ensures_load fun n hn _ => ?_)
  refine (ensures_storeVersion keepsCount_setExpand ⟨n, hn, .refl n⟩).bind fun _ s₁ h₁ => ?_
  refine (quiet_load s₁).bind fun ret s₂ h₂ => ?_
  refine (keeps_forRange 0 _ (fun i => quiet_load.bind fun b => quiet_storePrefix i b) s₂).bind
    fun _ s₃ h₃ => ?_
  have h₃ := (h₁.trans h₂).trans h₃
  have hlen : getPrefixLen (setExpand n.version) - off - 1 < 256 := by
    have := getPrefixLen_lt (setExpand n.version)
    omega
  have hkeep := (keepsCount_setOffset (off + (getOffset (setPrefixLen (setExpand n.version)
    (getPrefixLen (setExpand n.version) - off - 1)) + 1))).comp
      ((keepsCount_setPrefixLen hlen).comp keepsCount_setExpand)
  refine (ensures_storeVersion hkeep ((h₃ hs).2 an n hn)).bind fun _ s₄ h₄ => ?_
  exact ensures_pure.mpr ⟨(h₃.trans h₄).counts hs, hs.fresh.ne_zero_of_node? hn⟩

/-! ### The splits -/

theorem quiet_touchDuplicate (parent : Addr) (p : Ptr) (key : Key) :
    env.machine.Keeps (Quiet env) (touchDuplicate env parent p key) := by
  have hupdate (leaf : Addr) : env.machine.Keeps (Quiet env) (updateAccess leaf) :=
    quiet_loadLeaf.bind fun _ => quiet_storeLeaf
  refine (hupdate _).bind fun _ => keeps_ite ?_ keeps_pure
  refine quiet_loadLeaf.bind fun m => quiet_loadLeaf.bind fun t => ?_
  refine Keeps.bind (fun s => (ensures_allocLeaf_quiet parent key .unknown false).imp
    fun _ _ => And.left)
    fun copy => ?_
  exact quiet_storeLeaf.bind fun _ => quiet_storeLeaf

/-- A child is added under an assertion. -/
theorem counts_addChildChecked (fuel : ℕ) (byte : UInt8) {child : Ptr} (hc : child ≠ 0) :
    env.machine.Keeps (Counts env) (assertTrue env.build (do
      let r ← artNodeAddChild env fuel an byte child false
      pure r.1.isNone)) :=
  keeps_assertTrue ((counts_artNodeAddChild fuel byte hc false).bind fun _ => keeps_pure)

/-- A new leaf is added under an assertion. -/
theorem counts_addNewLeaf (fuel : ℕ) (byte : UInt8) (key : Key) :
    env.machine.Keeps (Counts env) (assertTrue env.build (do
      let l ← allocLeaf env an key .remote false
      let r ← artNodeAddChild env fuel an byte l false
      pure r.1.isNone)) :=
  keeps_assertTrue (Keeps.bind_of (P := (· ≠ 0))
    (fun _ => (ensures_allocLeaf_quiet an key .remote false).imp fun _ _ h => ⟨h.1.counts, h.2⟩)
    fun _ hl => (counts_artNodeAddChild fuel byte hl false).bind fun _ => keeps_pure)

theorem counts_artNodeReplaceLeafChild (fuel : ℕ) (parent : Addr) {p : Ptr} (hp : p ≠ 0) (key : Key)
    (off : ℕ) : env.machine.Keeps (Counts env)
    (artNodeReplaceLeafChild env fuel parent p key off) := by
  refine (keeps_counts quiet_loadLeaf).bind fun len => ?_
  refine (keeps_counts (quiet_leafCompareLoop _ _ key _ off)).bind fun i => ?_
  refine keeps_ite ((keeps_counts (quiet_touchDuplicate parent p key)).bind fun _ => keeps_pure) ?_
  refine Keeps.bind (fun s => (ensures_newArtNode_quiet parent).imp fun _ _ h => h.1.counts)
    fun new_ => ?_
  refine (keeps_counts (quiet_storeParent parent)).bind fun _ => ?_
  refine (keeps_counts (quiet_artNodeSetOffset off)).bind fun _ => ?_
  refine (keeps_counts (quiet_lockChecked fuel)).bind fun _ => ?_
  refine (keeps_assertTrue keeps_pure).bind fun _ => ?_
  refine Keeps.bind (fun s => (ensures_setPrefixFromLeaf_quiet _ off _).imp fun _ _ => Quiet.counts)
    fun _ => ?_
  refine (keeps_counts (quiet_leafByte _ _ i)).bind fun byte => ?_
  refine (counts_addChildChecked fuel byte hp).bind fun _ => ?_
  refine (keeps_counts (quiet_keyByte key i)).bind fun byte => ?_
  refine (counts_addNewLeaf fuel byte key).bind fun _ => ?_
  refine (keeps_counts quiet_loadLeaf).bind fun m => (keeps_counts quiet_load).bind fun mn => ?_
  refine (keeps_counts quiet_storeLeaf).bind fun _ => ?_
  exact (keeps_counts quiet_artNodeUnlock).bind fun _ => keeps_pure

theorem ensures_artNodeExpandAndInsert (hs : AllCounted env s) (fuel : ℕ) (parent : Addr)
    (key : Key)
    (off : ℕ) {common : ℕ} (hc : common < 256) :
    env.machine.Ensures (artNodeExpandAndInsert env fuel parent an key off common) s
      fun new_ s' => AllCounted env s' ∧ new_ ≠ 0 := by
  refine (ensures_newArtNode_quiet parent).bind fun new_ s₁ h₁ => ?_
  obtain ⟨h₁, hnew⟩ := h₁
  refine (quiet_storeParent parent s₁).bind fun _ s₂ h₂ => ?_
  refine (quiet_artNodeSetOffset off s₂).bind fun _ s₃ h₃ => ?_
  refine (quiet_lockChecked fuel s₃).bind fun _ s₄ h₄ => ?_
  refine (quiet_artNodeSetPrefix key off hc s₄).bind fun _ s₅ h₅ => ?_
  have hs₅ := ((((h₁.trans h₂).trans h₃).trans h₄).trans h₅).counts hs
  -- what comes after the byte of the key
  have hrest (byte : UInt8) {st : Mem} (hst : AllCounted env st) : env.machine.Ensures (do
      assertTrue env.build (do
        let l ← allocLeaf env new_ key .remote false
        let r ← artNodeAddChild env fuel new_ byte l false
        pure r.1.isNone)
      let byte ← artNodeTruncatePrefix an common
      assertTrue env.build (do
        let r ← artNodeAddChild env fuel new_ byte an false
        pure r.1.isNone)
      let m ← load an .sidleMeta
      let mn ← load new_ .sidleMeta
      store an .sidleMeta { m with depth := max m.depth ((mn.depth + 1) % 256) % 64 }
      pure new_) st fun new_ s' => AllCounted env s' ∧ new_ ≠ 0 := by
    refine (counts_addNewLeaf fuel byte key st).bind fun _ t₁ h₁ => ?_
    refine (ensures_artNodeTruncatePrefix (h₁ hst) common).bind fun byte t₂ h₂ => ?_
    obtain ⟨h₂, han⟩ := h₂
    refine (counts_addChildChecked fuel byte han t₂).bind fun _ t₃ h₃ => ?_
    refine (quiet_load t₃).bind fun m t₄ h₄ => (quiet_load t₄).bind fun mn t₅ h₅ => ?_
    refine (quiet_storeMeta _ t₅).bind fun _ t₆ h₆ => ?_
    exact ensures_pure.mpr ⟨((h₄.trans h₅).trans h₆).counts (h₃ h₂), hnew⟩
  refine ensures_ite (fun _ => ?_) fun _ => hrest 0 hs₅
  exact (quiet_keyAt key _ s₅).bind fun byte s₆ h₆ => hrest byte (h₆.counts hs₅)

/-! ### Insertion -/

theorem quiet_artNodeReplaceChild (parent : Addr) (byte : UInt8) (hnew : new_ ≠ 0) :
    env.machine.Keeps (Quiet env) (artNodeReplaceChild parent byte new_) := by
  refine quiet_load.bind fun version => (quiet_artNodeFindChild version byte).bind fun child => ?_
  cases child with
  | none => exact keeps_fail
  | some slot => exact (quiet_storeSlot slot hnew).bind fun _ => quiet_storeParent parent

theorem quiet_linkNewNode (parent : Addr) (ptr : Slot) (byte : UInt8) (hnew : new_ ≠ 0) :
    env.machine.Keeps (Quiet env) (linkNewNode parent ptr byte new_) :=
  keeps_ite ((quiet_artNodeReplaceChild parent byte hnew).bind fun _ => quiet_artNodeUnlock)
    (quiet_storeSlot ptr hnew)

theorem quiet_casRoot (p q : Ptr) : env.machine.Keeps (Quiet env) (lift (.casRoot p q)) := fun s =>
  ensures_casRoot (fun _ => .refl s) (.of_node? id fun _ _ => rfl)

theorem counts_adaptiveRadixTreeReplaceLeaf (fuel : ℕ) (parent : Addr) (ptr : Slot) {p : Ptr}
    (hp : p ≠ 0) (key : Key) (off : ℕ) :
    env.machine.Keeps (Counts env)
      (adaptiveRadixTreeReplaceLeaf env fuel parent ptr p key off) := by
  have hfree {new_ : Addr} {r : ℤ} : env.machine.Keeps (Counts env) (do
      freeArtNode env new_
      pure r) := counts_freeArtNode.bind fun _ => keeps_pure
  refine (counts_artNodeReplaceLeafChild fuel parent hp key off).bind fun new_ => ?_
  by_cases hnew : new_ = 0
  · rw [if_pos hnew]
    exact keeps_pure
  · rw [if_neg hnew]
    refine keeps_ite ?_ ?_
    · refine (keeps_counts (quiet_artNodeLock fuel)).bind fun r => keeps_ite hfree ?_
      refine (keeps_counts (quiet_loadSlot ptr)).bind fun now => keeps_ite ?_ ?_
      · exact (keeps_counts quiet_artNodeUnlock).bind fun _ => hfree
      · refine (keeps_counts (quiet_storeSlot ptr hnew)).bind fun _ => ?_
        exact (keeps_counts quiet_artNodeUnlock).bind fun _ => keeps_pure
    · exact (keeps_counts (quiet_casRoot p new_)).bind fun ok => keeps_ite keeps_pure hfree

theorem counts_putPrefixMismatch (fuel : ℕ) {goBegin : ArtM ℤ}
    (hgo : env.machine.Keeps (Counts env) goBegin) (ptr : Slot) (v : Version) (key : Key) (off : ℕ)
    {p : ℕ} (hp : p < 256) :
    env.machine.Keeps (Counts env) (putPrefixMismatch env fuel goBegin ptr an v key off p) := by
  refine (keeps_counts (quiet_artNodeLock fuel)).bind fun r => keeps_ite hgo ?_
  refine (keeps_counts quiet_load).bind fun v' => keeps_ite ?_ ?_
  · exact (keeps_counts quiet_artNodeUnlock).bind fun _ => hgo
  refine (keeps_counts (quiet_artNodeGetLockedParent fuel)).bind fun parent => keeps_counts_of
    fun s hs => ?_
  refine (ensures_artNodeExpandAndInsert hs fuel parent key off hp).bind fun new_ s₁ h₁ => ?_
  obtain ⟨h₁, hnew⟩ := h₁
  refine (quiet_storeParent new_ s₁).bind fun _ s₂ h₂ => ?_
  refine (quiet_keyBefore parent key off s₂).bind fun byte s₃ h₃ => ?_
  refine (quiet_linkNewNode parent ptr byte hnew s₃).bind fun _ s₄ h₄ => ?_
  refine (quiet_artNodeUnlock s₄).bind fun _ s₅ h₅ => ?_
  exact ensures_pure.mpr ((((h₂.trans h₃).trans h₄).trans h₅).counts h₁)

/-- The tail call of an insertion, if there is one. -/
theorem counts_next {descend : Slot → ArtM ℤ}
    (hdescend : ∀ slot, env.machine.Keeps (Counts env) (descend slot)) (next : Option Slot) :
    env.machine.Keeps (Counts env) (match next with
      | some slot => descend slot
      | none => pure 0) := by
  cases next with
  | none => exact keeps_pure
  | some slot => exact hdescend slot

theorem counts_putAddChild (fuel : ℕ) {goBegin : ArtM ℤ} {descend : Slot → ArtM ℤ}
    (hgo : env.machine.Keeps (Counts env) goBegin)
    (hdescend : ∀ slot, env.machine.Keeps (Counts env) (descend slot)) (ptr : Slot) (key : Key)
    (off p : ℕ) :
    env.machine.Keeps (Counts env) (putAddChild env fuel goBegin descend ptr an key off p) := by
  refine (keeps_counts (quiet_artNodeLock fuel)).bind fun r => keeps_ite hgo ?_
  refine (keeps_counts (quiet_keyAt key off)).bind fun byte => ?_
  refine Keeps.bind_of (P := (· ≠ 0))
    (fun s => (ensures_allocLeaf_quiet an key .remote false).imp fun _ _ h => ⟨h.1.counts, h.2⟩)
    fun leaf hleaf => ?_
  refine (counts_artNodeAddChild fuel byte hleaf true).bind fun ⟨next, new_⟩ => ?_
  have hnext := counts_next hdescend next
  by_cases hnew : new_ = 0
  · simp only [ne_eq, hnew, not_true_eq_false, if_false]
    exact (keeps_counts quiet_artNodeUnlock).bind fun _ => hnext
  · simp only [ne_eq, hnew, not_false_eq_true, if_true]
    refine (keeps_counts (quiet_artNodeGetLockedParent fuel)).bind fun parent => ?_
    refine (keeps_counts (quiet_keyBefore parent key (off - p))).bind fun byte => ?_
    refine (keeps_counts (quiet_linkNewNode parent ptr byte hnew)).bind fun _ => ?_
    exact (keeps_counts quiet_artNodeUnlock).bind fun _ => hnext

theorem counts_putDescend (fuel : ℕ) {goBegin : ArtM ℤ} {descend : Slot → ArtM ℤ}
    (hgo : env.machine.Keeps (Counts env) goBegin)
    (hdescend : ∀ slot, env.machine.Keeps (Counts env) (descend slot)) (ptr : Slot) (v1 : Version)
    (key : Key) (off p : ℕ) :
    env.machine.Keeps (Counts env) (putDescend env fuel goBegin descend ptr an v1 key off p) := by
  refine (keeps_counts (quiet_keyAt key off)).bind fun byte => ?_
  refine (keeps_counts (quiet_artNodeFindChild v1 byte)).bind fun next => ?_
  refine (keeps_counts quiet_load).bind fun v => keeps_ite hgo ?_
  cases next with
  | none => exact counts_putAddChild fuel hgo hdescend ptr key off p
  | some slot => exact hdescend slot

/-- The recursion of an insertion keeps the counts.  The induction is on the fuel. -/
theorem counts_adaptiveRadixTreePut_step (key : Key) (fuel : ℕ) (first : Bool) (parent : Addr)
    (ptr : Slot) (off : ℕ) :
    env.machine.Keeps (Counts env) (_adaptiveRadixTreePut env key fuel first parent ptr off) := by
  induction fuel generalizing first parent ptr off with
  | zero => exact keeps_diverge
  | succ fuel ih =>
    have hgo := ih false parent ptr off
    refine (keeps_counts (quiet_parentIsOld first parent)).bind fun stale => keeps_ite keeps_pure ?_
    refine (keeps_counts (quiet_loadSlot ptr)).bind fun p => ?_
    by_cases hleaf : isLeaf p = true
    · rw [if_pos hleaf]
      refine counts_adaptiveRadixTreeReplaceLeaf fuel parent ptr ?_ key off
      rintro rfl
      exact absurd hleaf (by decide)
    rw [if_neg hleaf]
    refine (keeps_counts (quiet_artNodeGetStableExpandVersion fuel)).bind fun v => ?_
    refine keeps_ite hgo (keeps_ite hgo ?_)
    refine Keeps.bind_of (P := (· < 256))
      (fun s => (ensures_artNodePrefixCompare v key off).imp fun _ _ h => ⟨h.1.counts, h.2⟩)
      fun common hcommon => ?_
    refine (keeps_counts quiet_load).bind fun v1 => keeps_ite hgo (keeps_ite ?_ ?_)
    · exact counts_putPrefixMismatch fuel hgo ptr v1 key off hcommon
    · exact counts_putDescend fuel hgo (fun slot => ih true p slot _) ptr v1 key _ common

theorem counts_putRetry (key : Key) (fuel : ℕ) :
    env.machine.Keeps (Counts env) (putRetry env key fuel) := by
  induction fuel with
  | zero => exact keeps_diverge
  | succ fuel ih =>
    exact (counts_adaptiveRadixTreePut_step key fuel true 0 .root 0).bind
      fun ret => keeps_ite ih keeps_pure

/-- An insertion keeps the counts, whatever the key and the build. -/
theorem counts_adaptiveRadixTreePut (key : Key) (fuel : ℕ) :
    env.machine.Keeps (Counts env) (adaptiveRadixTreePut env key fuel) := by
  refine (keeps_counts fun s => ensures_loadRoot (.refl s)).bind fun root => keeps_ite ?_ ?_
  · refine Keeps.bind (fun s => (ensures_allocLeaf_quiet 0 key .remote false).imp
      fun _ _ h => h.1.counts)
      fun leaf => ?_
    exact (keeps_counts (quiet_casRoot 0 leaf)).bind
      fun ok => keeps_ite keeps_pure (counts_putRetry key fuel)
  · exact counts_putRetry key fuel

/-! ### Runs -/

/-- The memories that insertions of any keys reach; the state that is shared with the workers may
change between them. -/
inductive Built (env : Env) : Mem → Prop
  | init (g : Global) : Built env (Mem.init g)
  | adjust {s : Mem} (g : Global) (h : Built env s) : Built env (s.setGlobal g)
  | put {s s' : Mem} {key : Key} {r : ℤ} (h : Built env s)
      (hput : env.machine.Converges (adaptiveRadixTreePut env key) s r s') : Built env s'

/-- **Every node is counted** in a memory that insertions have reached. -/
theorem Built.allCounted (h : Built env s) : AllCounted env s := by
  induction h with
  | init g => exact ⟨fun _ ha => absurd rfl ha, fun _ _ hn => by simp [Mem.node?, Mem.init] at hn⟩
  | adjust g _ ih => exact ⟨ih.fresh.setGlobal g, ih.counted⟩
  | put _ hput ih =>
    obtain ⟨fuel, hrun⟩ := hput
    exact counts_adaptiveRadixTreePut _ fuel _ _ _ hrun ih

/-- **When the count of a node is right.**  In every memory that insertions reach, the count of a
node is the number of its occupied slots exactly when the node is not a `node256`. -/
theorem count_right_iff (h : Built env s) (hn : s.node? an = some n) :
    getCount n.version = n.occupied.card ↔ getNodeType n.version ≠ .node256 :=
  (h.allCounted.counted an n hn).count_eq_iff

/-! ### Keys of one byte -/

theorem PutRun.built {L : ℕ} {ks : List (Key × ℤ)} (h : PutRun env L ks s) : Built env s := by
  induction h with
  | init => exact .init _
  | adjust _ _ ih => exact .adjust _ ih
  | put _ _ hput ih => exact .put ih hput

/-- Keys of one byte split no prefix. -/
theorem not_someSplits_of_one {ks : List Key} (hlen : ∀ k ∈ ks, k.length = 1) :
    ¬ SomeSplits ks := by
  rintro ⟨ks₁, key, hpre, w, b, -, -, hall, x, y, hx, hy, hxy, hwx, hwy⟩
  have hlen₁ {z : Key} (hz : z ∈ ks₁) : z.length = 1 :=
    hlen z (hpre.subset (List.mem_append_left _ hz))
  -- both words are the one byte that they share
  have heq {z : Key} (hz : z ∈ ks₁) (hw : w <+: z) : z = w ++ [b] := by
    refine ((hall z hz hw).eq_of_length_le ?_).symm
    rw [hlen₁ hz]
    simp
  exact hxy ((heq hx hwx).trans (heq hy hwy).symm)

/-- After the insertion of two keys of one byte the root is a node with a slot for every key. -/
theorem PutRun.root_of_one (hb : env.build.assertions = true) {rs : List (Key × ℤ)}
    (h : PutRun env 1 rs s) {k k' : Key} (hk : k ∈ keysOf rs) (hk' : k' ∈ keysOf rs)
    (hne : k ≠ k') :
    ∃ nd, Reachable s s.root ∧ s.node? s.root = some nd ∧
      ∀ b, [b] ∈ keysOf rs → ∃ i, nd.slotOf b = some i := by
  obtain ⟨t, hrep, hst⟩ := h.represents hb (by decide)
  have hplace {x : Key} (hx : x ∈ keysOf rs) :=
    Trie.stored_of_place (t := t) (q := .root) trivial ((hst x).mpr hx) List.nil_prefix
  obtain ⟨c, hc⟩ : ∃ c, t.root = some (.node c) := by
    rcases hplace hk with hl | ⟨c, hc, -⟩
    · rcases hplace hk' with hl' | ⟨c, hc, -⟩
      · rw [hl] at hl'
        exact absurd (by simpa using hl') hne
      · exact ⟨c, hc⟩
    · exact ⟨c, hc⟩
  have hlive : t.live c := t.root_node c hc
  obtain ⟨nd, hnd, hnode⟩ := hrep.node c hlive
  have hroot : s.root = c := by
    have hr := hrep.root
    rwa [hc] at hr
  subst hroot
  refine ⟨nd, (hrep.reachable_iff _).mpr hlive, hnd, fun b hbk => ?_⟩
  -- the label of the root is empty
  have hlabel : t.label s.root = [] := by
    have := t.label_length _ hlive
    exact List.length_eq_zero_iff.mp (by omega)
  by_contra hnone
  have hslot : nd.slotOf b = none := by
    by_contra hsome
    exact hnone (Option.ne_none_iff_exists'.mp hsome)
  have hb' : t.label s.root ++ [b] <+: [b] := by rw [hlabel]; exact List.prefix_refl _
  exact (Represents.end_of_edge_none hlive hb' ((Represents.edge_eq_none_iff hnode).mpr hslot)).1
    ((hst _).mpr hbk)

/-- A node that finds 49 bytes is a `node256`. -/
theorem ArtNode.layout_of_many {nd : ArtNode} (hok : nd.Ok)
    (h : ∀ j < 49, ∃ i, nd.slotOf (UInt8.ofNat j) = some i) : nd.layout = .node256 := by
  by_contra hk
  choose! f hf using h
  have hcap : nd.layout.capacity ≤ 48 := by
    cases hl : nd.layout with
    | node256 => exact absurd hl hk
    | node4 | node16 | node48 => decide
  obtain ⟨j, hj, k, hk', hne, heq⟩ := Finset.exists_ne_map_eq_of_card_lt_of_maps_to
    (s := Finset.range 49) (t := Finset.range 48) (f := f) (by simp) fun j hj => by
      have := slotOf_lt hok (hf j (by simpa using hj))
      simp only [Finset.coe_range, Set.mem_Iio]
      omega
  have hj : j < 49 := by simpa using hj
  have hk' : k < 49 := by simpa using hk'
  have hbyte := congrArg UInt8.toNat (slotOf_inj hok (hf j hj) (heq ▸ hf k hk'))
  rw [UInt8.toNat_ofNat', UInt8.toNat_ofNat'] at hbyte
  omega

/-- After two keys the root is a `node4`. -/
theorem count_right_iff_of_two : ∃ s nd, Built sampleEnv s ∧ s.node? s.root = some nd ∧
    (getCount nd.version = nd.occupied.card ↔ getNodeType nd.version ≠ .node256) := by
  obtain ⟨rs, s, hrun, hrs⟩ := exists_putRun_default (L := 1) [[1], [2]] (by decide) (by decide)
    (not_someSplits_of_one (by decide))
  obtain ⟨nd, -, hnd, -⟩ := hrun.root_of_one rfl (show [1] ∈ keysOf rs by simp [hrs])
    (show [2] ∈ keysOf rs by simp [hrs]) (by decide)
  exact ⟨s, nd, hrun.built, hnd, count_right_iff hrun.built hnd⟩

/-- After 49 keys that differ in their first byte the root is a `node256`, and its count is not the
number of its children. -/
theorem count_wrong : ∃ rs s nd, PutRun sampleEnv 1 rs s ∧
    keysOf rs = (List.range 49).map (fun i => [UInt8.ofNat i]) ∧ Reachable s s.root ∧
    s.node? s.root = some nd ∧ getCount nd.version ≠ nd.occupied.card := by
  have hlen : ∀ k ∈ (List.range 49).map (fun i => [UInt8.ofNat i]), k.length = 1 := by simp
  obtain ⟨rs, s, hrun, hrs⟩ := exists_putRun_default (L := 1) _ (by decide) hlen
    (not_someSplits_of_one hlen)
  have hmem (i : ℕ) (hi : i < 49) : [UInt8.ofNat i] ∈ keysOf rs := by
    rw [hrs]
    exact List.mem_map.mpr ⟨i, List.mem_range.mpr hi, rfl⟩
  obtain ⟨nd, hr, hnd, hslots⟩ :=
    hrun.root_of_one rfl (hmem 0 (by decide)) (hmem 1 (by decide)) (by decide)
  refine ⟨rs, s, nd, hrun, hrs, hr, hnd, fun hcount => ?_⟩
  have hc := hrun.built.allCounted.counted _ nd hnd
  refine hc.count_eq_iff.mp hcount ?_
  rw [hc.ok.type]
  exact layout_of_many hc.ok fun i hi => hslots _ (hmem i hi)

end Sidle.Art
