import Sidle.Art.Node

/-!
# The four layouts as maps from bytes to children

A node of any layout is a partial map from bytes to children, `ArtNode.childAt`.  The
laws that make the layouts behave as such maps are `ArtNode.Ok`; adding a child,
replacing one and growing into the next layout are described by what they do to the
map.

## Main definitions

* `ArtNode.slotOf`, `ArtNode.childAt` — the slot and the child of a byte.
* `ArtNode.Ok` — the laws of the layouts.
* `ArtNode.addChild`, `ArtNode.setChild` — the updates of a node.

## Main results

* `ArtNode.childAt_addChild`, `ArtNode.childAt_setChild` — the maps after an update.
* `ArtNode.childAt_of_grow16`, `childAt_of_grow48`, `childAt_of_grow256` — growth.
-/

namespace Sidle.Art

/-- The layouts that search their children in a `key` array. -/
def NodeType.Keyed (t : NodeType) : Prop := t = .node4 ∨ t = .node16

namespace ArtNode

/-- The slot of the child for a byte. -/
def slotOf (n : ArtNode) (b : UInt8) : Option ℕ :=
  match n.layout with
  | .node4 | .node16 => (List.range (getCount n.version)).find? fun i => n.key i == b
  | .node48 => if n.index b ≠ 0 then some ((n.index b).toNat - 1) else none
  | .node256 => if n.child b.toNat ≠ 0 then some b.toNat else none

/-- The child for a byte. -/
def childAt (n : ArtNode) (b : UInt8) : Option Ptr := (n.slotOf b).map n.child

/-- The laws of the four layouts. -/
structure Ok (n : ArtNode) : Prop where
  type : getNodeType n.version = n.layout
  count_le : getCount n.version ≤ n.layout.capacity
  key_inj : n.layout.Keyed → ∀ i j, i < getCount n.version → j < getCount n.version →
    n.key i = n.key j → i = j
  index_le : n.layout = .node48 → ∀ b, (n.index b).toNat ≤ getCount n.version
  index_inj : n.layout = .node48 → ∀ b c, n.index b ≠ 0 → n.index b = n.index c → b = c

/-- The node has room for a child. -/
def HasRoom (n : ArtNode) : Prop := n.layout = .node256 ∨ getCount n.version < n.layout.capacity

variable {n : ArtNode} {b c : UInt8} {i : ℕ}

/-! ### Slots -/

theorem slotOf_keyed (hk : n.layout.Keyed) :
    n.slotOf b = (List.range (getCount n.version)).find? fun i => n.key i == b := by
  rcases hk with h | h <;> simp [slotOf, h]

theorem slotOf_keyed_eq_some (hok : n.Ok) (hk : n.layout.Keyed) :
    n.slotOf b = some i ↔ i < getCount n.version ∧ n.key i = b := by
  rw [slotOf_keyed hk, List.find?_range_eq_some]
  constructor
  · rintro ⟨hb, hi, -⟩
    exact ⟨List.mem_range.mp hi, by simpa using hb⟩
  · rintro ⟨hi, rfl⟩
    refine ⟨by simp, List.mem_range.mpr hi, fun j hj => ?_⟩
    have : n.key j ≠ n.key i := fun h => by
      have := hok.key_inj hk j i (by omega) hi h
      omega
    simpa using this

theorem slotOf_keyed_eq_none (hk : n.layout.Keyed) :
    n.slotOf b = none ↔ ∀ i < getCount n.version, n.key i ≠ b := by
  rw [slotOf_keyed hk, List.find?_range_eq_none]
  simp

theorem slotOf_node48 (h : n.layout = .node48) :
    n.slotOf b = if n.index b ≠ 0 then some ((n.index b).toNat - 1) else none := by
  simp [slotOf, h]

theorem slotOf_node256 (h : n.layout = .node256) :
    n.slotOf b = if n.child b.toNat ≠ 0 then some b.toNat else none := by
  simp [slotOf, h]

theorem slotOf_node48_eq_some (h : n.layout = .node48) :
    n.slotOf b = some i ↔ (n.index b).toNat = i + 1 := by
  rw [slotOf_node48 h]
  have hz : n.index b = 0 ↔ (n.index b).toNat = 0 := UInt8.toNat_inj.symm
  by_cases hb : n.index b = 0
  · simp [hb]
  · have := hz.not.mp hb
    simp only [ne_eq, hb, not_false_eq_true, if_true, Option.some.injEq]
    omega

theorem layout_cases (t : NodeType) : t.Keyed ∨ t = .node48 ∨ t = .node256 := by
  cases t <;> simp [NodeType.Keyed]

/-- A slot lies within the layout. -/
theorem slotOf_lt (hok : n.Ok) (h : n.slotOf b = some i) : i < n.layout.capacity := by
  rcases layout_cases n.layout with hk | hk | hk
  · have := ((slotOf_keyed_eq_some hok hk).mp h).1
    have := hok.count_le
    omega
  · have := (slotOf_node48_eq_some hk).mp h
    have := hok.index_le hk b
    have := hok.count_le
    omega
  · rw [slotOf_node256 hk] at h
    have := b.toNat_lt
    split at h
    · obtain rfl : b.toNat = i := by simpa using h
      rw [hk]
      exact this
    · simp at h

/-- Different bytes have different slots. -/
theorem slotOf_inj (hok : n.Ok) (hb : n.slotOf b = some i) (hc : n.slotOf c = some i) : b = c := by
  rcases layout_cases n.layout with hk | hk | hk
  · rw [slotOf_keyed_eq_some hok hk] at hb hc
    exact hb.2.symm.trans hc.2
  · rw [slotOf_node48_eq_some hk] at hb hc
    have hbc : n.index b = n.index c := UInt8.toNat_inj.mp (hb.trans hc.symm)
    refine hok.index_inj hk b c ?_ hbc
    intro h
    simp [h] at hb
  · rw [slotOf_node256 hk] at hb hc
    split at hb <;> split at hc <;> simp at hb hc
    exact UInt8.toNat_inj.mp (hb.trans hc.symm)

theorem childAt_eq_some {p : Ptr} :
    n.childAt b = some p ↔ ∃ i, n.slotOf b = some i ∧ n.child i = p := by
  simp [childAt]

theorem childAt_eq_none : n.childAt b = none ↔ n.slotOf b = none := by simp [childAt]

/-! ### Replacing a child -/

/-- The node with another pointer in the slot `i`. -/
def setChild (n : ArtNode) (i : ℕ) (p : Ptr) : ArtNode :=
  { n with child := Function.update n.child i p }

theorem slotOf_setChild (hi : n.slotOf b = some i) {p : Ptr} (hp : p ≠ 0) (c : UInt8) :
    (n.setChild i p).slotOf c = n.slotOf c := by
  rcases layout_cases n.layout with hk | hk | hk
  · rw [slotOf_keyed hk, slotOf_keyed (n := n.setChild i p) hk]
    rfl
  · rw [slotOf_node48 hk, slotOf_node48 (n := n.setChild i p) hk]
    rfl
  · rw [slotOf_node256 hk, slotOf_node256 (n := n.setChild i p) hk]
    rw [slotOf_node256 hk] at hi
    split at hi
    · obtain rfl : b.toNat = i := by simpa using hi
      by_cases hc : c.toNat = b.toNat
      · simp_all [setChild]
      · simp [setChild, Function.update_of_ne hc]
    · simp at hi

theorem childAt_setChild (hok : n.Ok) (hi : n.slotOf b = some i) {p : Ptr} (hp : p ≠ 0)
    (c : UInt8) : (n.setChild i p).childAt c = if c = b then some p else n.childAt c := by
  unfold childAt
  rw [slotOf_setChild hi hp]
  split
  · subst c
    simp [hi, setChild]
  · cases hc : n.slotOf c with
    | none => rfl
    | some j =>
      have hji : j ≠ i := by
        rintro rfl
        exact ‹¬ c = b› (slotOf_inj hok hc hi)
      simp [setChild, Function.update_of_ne hji]

theorem Ok.setChild (hok : n.Ok) (i : ℕ) (p : Ptr) : (n.setChild i p).Ok :=
  ⟨hok.type, hok.count_le, hok.key_inj, hok.index_le, hok.index_inj⟩

/-! ### Adding a child -/

/-- The node with a new child. -/
def addChild (n : ArtNode) (b : UInt8) (p : Ptr) : ArtNode :=
  match n.layout with
  | .node4 | .node16 =>
    { n with
      child := Function.update n.child (getCount n.version) p
      key := Function.update n.key (getCount n.version) b
      version := incrCount n.version }
  | .node48 =>
    { n with
      child := Function.update n.child (getCount n.version) p
      index := Function.update n.index b (UInt8.ofNat (getCount n.version + 1))
      version := incrCount n.version }
  | .node256 => { n with child := Function.update n.child b.toNat p }

@[simp] theorem addChild_layout (p : Ptr) : (n.addChild b p).layout = n.layout := by
  unfold addChild; split <;> rfl

theorem addChild_keyed (hk : n.layout.Keyed) (p : Ptr) :
    n.addChild b p =
      { n with
        child := Function.update n.child (getCount n.version) p
        key := Function.update n.key (getCount n.version) b
        version := incrCount n.version } := by
  rcases hk with h | h <;> simp [addChild, h]

theorem addChild_node48 (hk : n.layout = .node48) (p : Ptr) :
    n.addChild b p =
      { n with
        child := Function.update n.child (getCount n.version) p
        index := Function.update n.index b (UInt8.ofNat (getCount n.version + 1))
        version := incrCount n.version } := by
  simp [addChild, hk]

theorem addChild_node256 (hk : n.layout = .node256) (p : Ptr) :
    n.addChild b p = { n with child := Function.update n.child b.toNat p } := by
  simp [addChild, hk]

theorem key_addChild (hk : n.layout.Keyed) (p : Ptr) :
    (n.addChild b p).key = Function.update n.key (getCount n.version) b := by
  rw [addChild_keyed hk]

theorem index_addChild (hk : n.layout = .node48) (p : Ptr) :
    (n.addChild b p).index = Function.update n.index b (UInt8.ofNat (getCount n.version + 1)) := by
  rw [addChild_node48 hk]

theorem child_addChild (hk : n.layout ≠ .node256) (p : Ptr) :
    (n.addChild b p).child = Function.update n.child (getCount n.version) p := by
  rcases layout_cases n.layout with h | h | h
  · rw [addChild_keyed h]
  · rw [addChild_node48 h]
  · exact absurd h hk

theorem child_addChild_node256 (hk : n.layout = .node256) (p : Ptr) :
    (n.addChild b p).child = Function.update n.child b.toNat p := by
  rw [addChild_node256 hk]

/-- A node with room counts fewer than 48 children, unless it is a `node256`. -/
theorem count_lt_of_hasRoom (hr : n.HasRoom) (hk : n.layout ≠ .node256) :
    getCount n.version < 48 := by
  have h := hr.resolve_left hk
  cases hl : n.layout <;> simp [hl, NodeType.capacity] at h hk <;> omega

theorem version_addChild (hk : n.layout ≠ .node256) (p : Ptr) :
    (n.addChild b p).version = incrCount n.version := by
  rcases layout_cases n.layout with h | h | h
  · rw [addChild_keyed h]
  · rw [addChild_node48 h]
  · exact absurd h hk

theorem count_addChild (hr : n.HasRoom) (hk : n.layout ≠ .node256) (p : Ptr) :
    getCount (n.addChild b p).version = getCount n.version + 1 := by
  have hlt := count_lt_of_hasRoom hr hk
  rw [version_addChild hk, ← view_count, view_incrCount n.version (by omega)]

/-- Adding a child leaves the offset, the prefix and the status bits alone. -/
theorem view_addChild (hr : n.HasRoom) (p : Ptr) :
    view (n.addChild b p).version =
      { view n.version with count := getCount (n.addChild b p).version } := by
  by_cases hk : n.layout = .node256
  · rw [addChild_node256 hk]
    rfl
  · have hlt := count_lt_of_hasRoom hr hk
    rw [count_addChild hr hk, version_addChild hk, view_incrCount n.version (by omega)]

theorem ne_node256 {t : NodeType} (h : t.Keyed) : t ≠ .node256 := by
  rcases h with h | h <;> simp [h]

theorem ne_node48 {t : NodeType} (h : t.Keyed) : t ≠ .node48 := by
  rcases h with h | h <;> simp [h]

/-- The slot that a new child of a `node48` takes is free so far. -/
theorem index_ne_of_hasRoom (hok : n.Ok) (hr : n.HasRoom) (hk : n.layout = .node48) :
    (UInt8.ofNat (getCount n.version + 1)).toNat = getCount n.version + 1 ∧
      ∀ c, n.index c ≠ UInt8.ofNat (getCount n.version + 1) := by
  have hlt := count_lt_of_hasRoom hr (by simp [hk])
  have hnew : (UInt8.ofNat (getCount n.version + 1)).toNat = getCount n.version + 1 := by
    rw [UInt8.toNat_ofNat']; omega
  refine ⟨hnew, fun c h => ?_⟩
  have := hok.index_le hk c
  rw [h, hnew] at this
  omega

theorem Ok.addChild (hok : n.Ok) (hr : n.HasRoom) (hb : n.slotOf b = none) (p : Ptr) :
    (n.addChild b p).Ok := by
  have htype : getNodeType (n.addChild b p).version = (n.addChild b p).layout := by
    rw [← view_type, view_addChild hr, addChild_layout, view_type, hok.type]
  have hcount : getCount (n.addChild b p).version ≤ (n.addChild b p).layout.capacity := by
    rw [addChild_layout]
    by_cases hk : n.layout = .node256
    · rw [addChild_node256 hk]
      exact hok.count_le
    · rw [count_addChild hr hk]
      exact hr.resolve_left hk
  refine ⟨htype, hcount, fun hk i j => ?_, fun hk c => ?_, fun hk c d => ?_⟩
  all_goals rw [addChild_layout] at hk
  · have hb' := (slotOf_keyed_eq_none hk).mp hb
    rw [count_addChild hr (ne_node256 hk), key_addChild hk]
    intro hi hj hij
    by_cases hi' : i = getCount n.version <;> by_cases hj' : j = getCount n.version
    · rw [hi', hj']
    · rw [hi', Function.update_self, Function.update_of_ne hj'] at hij
      exact absurd hij.symm (hb' j (by omega))
    · rw [hj', Function.update_self, Function.update_of_ne hi'] at hij
      exact absurd hij (hb' i (by omega))
    · rw [Function.update_of_ne hi', Function.update_of_ne hj'] at hij
      exact hok.key_inj hk i j (by omega) (by omega) hij
  · rw [count_addChild hr (by simp [hk]), index_addChild hk]
    by_cases hcb : c = b
    · rw [hcb, Function.update_self]
      exact Nat.le_of_eq (index_ne_of_hasRoom hok hr hk).1
    · rw [Function.update_of_ne hcb]
      exact Nat.le_succ_of_le (hok.index_le hk c)
  · rw [index_addChild hk]
    have hold := (index_ne_of_hasRoom hok hr hk).2
    intro hc0 hcd
    by_cases hcb : c = b <;> by_cases hdb : d = b
    · rw [hcb, hdb]
    · rw [hcb, Function.update_self, Function.update_of_ne hdb] at hcd
      exact absurd hcd.symm (hold d)
    · rw [hdb, Function.update_self, Function.update_of_ne hcb] at hcd
      exact absurd hcd (hold c)
    · rw [Function.update_of_ne hcb, Function.update_of_ne hdb] at hcd
      rw [Function.update_of_ne hcb] at hc0
      exact hok.index_inj hk c d hc0 hcd

/-- The slots of a node after a child has been added. -/
theorem slotOf_addChild (hok : n.Ok) (hr : n.HasRoom) (hb : n.slotOf b = none) {p : Ptr}
    (hp : p ≠ 0) (c : UInt8) :
    (n.addChild b p).slotOf c =
      if c = b then some (if n.layout = .node256 then b.toNat else getCount n.version)
      else n.slotOf c := by
  have hok' := hok.addChild hr hb p
  rcases layout_cases n.layout with hk | hk | hk
  · have hk' : (n.addChild b p).layout.Keyed := by rwa [addChild_layout]
    have hcount := count_addChild (b := b) hr (ne_node256 hk) p
    have h256 := ne_node256 hk
    rw [if_neg h256]
    split
    · subst c
      rw [slotOf_keyed_eq_some hok' hk', hcount, key_addChild hk, Function.update_self]
      exact ⟨by omega, rfl⟩
    · rename_i hcb
      cases hs : n.slotOf c with
      | none =>
        rw [slotOf_keyed_eq_none hk', hcount, key_addChild hk]
        intro i hi
        by_cases hic : i = getCount n.version
        · rw [hic, Function.update_self]
          exact fun h => hcb h.symm
        · rw [Function.update_of_ne hic]
          exact (slotOf_keyed_eq_none hk).mp hs i (by omega)
      | some i =>
        obtain ⟨hi, hki⟩ := (slotOf_keyed_eq_some hok hk).mp hs
        rw [slotOf_keyed_eq_some hok' hk', hcount, key_addChild hk,
          Function.update_of_ne (by omega)]
        exact ⟨by omega, hki⟩
  · have hk' : (n.addChild b p).layout = .node48 := by rwa [addChild_layout]
    have h256 : n.layout ≠ .node256 := by simp [hk]
    rw [if_neg h256]
    split
    · subst c
      rw [slotOf_node48_eq_some hk', index_addChild hk, Function.update_self,
        (index_ne_of_hasRoom hok hr hk).1]
    · rw [slotOf_node48 hk', slotOf_node48 hk, index_addChild hk, Function.update_of_ne ‹¬ c = b›]
  · have hk' : (n.addChild b p).layout = .node256 := by rwa [addChild_layout]
    rw [if_pos hk, slotOf_node256 hk', slotOf_node256 hk, child_addChild_node256 hk]
    by_cases hcb : c = b
    · simp [hcb, hp]
    · have : c.toNat ≠ b.toNat := fun h => hcb (UInt8.toNat_inj.mp h)
      simp only [hcb, if_false, Function.update_of_ne this]

theorem childAt_addChild (hok : n.Ok) (hr : n.HasRoom) (hb : n.slotOf b = none) {p : Ptr}
    (hp : p ≠ 0) (c : UInt8) :
    (n.addChild b p).childAt c = if c = b then some p else n.childAt c := by
  unfold childAt
  rw [slotOf_addChild hok hr hb hp]
  by_cases hk : n.layout = .node256
  · rw [if_pos hk, child_addChild_node256 hk]
    split
    · simp
    · cases hs : n.slotOf c with
      | none => rfl
      | some i =>
        rw [slotOf_node256 hk] at hs
        split at hs
        · obtain rfl : c.toNat = i := by simpa using hs
          have : c.toNat ≠ b.toNat := fun h => ‹¬ c = b› (UInt8.toNat_inj.mp h)
          simp [Function.update_of_ne this]
        · simp at hs
  · rw [if_neg hk, child_addChild hk]
    split
    · simp
    · cases hs : n.slotOf c with
      | none => rfl
      | some i =>
        have hi : i < getCount n.version := by
          rcases layout_cases n.layout with hk' | hk' | hk'
          · exact ((slotOf_keyed_eq_some hok hk').mp hs).1
          · have := (slotOf_node48_eq_some hk').mp hs
            have := hok.index_le hk' c
            omega
          · exact absurd hk' hk
        simp [Function.update_of_ne (Nat.ne_of_lt hi)]

/-! ### Growth -/

/-- The `index` array after the first `i` rounds of the growth from a `node16`. -/
def indexOfKeys (key : ℕ → UInt8) : ℕ → UInt8 → UInt8
  | 0 => fun _ => 0
  | i + 1 => Function.update (indexOfKeys key i) (key i) (UInt8.ofNat (i + 1))

theorem toNat_indexOfKeys {key : ℕ → UInt8} {count : ℕ} (hc : count < 256)
    (hinj : ∀ i j, i < count → j < count → key i = key j → i = j) {j : ℕ} :
    (indexOfKeys key count b).toNat = j + 1 ↔ j < count ∧ key j = b := by
  induction count with
  | zero => simp [indexOfKeys]
  | succ i ih =>
    have ih := ih (by omega) fun k l hk hl => hinj k l (by omega) (by omega)
    rw [indexOfKeys]
    by_cases hb : b = key i
    · rw [hb, Function.update_self, UInt8.toNat_ofNat']
      constructor
      · intro h
        obtain rfl : j = i := by omega
        exact ⟨by omega, rfl⟩
      · rintro ⟨hj, hkey⟩
        have := hinj j i hj (by omega) hkey
        omega
    · rw [Function.update_of_ne hb, ih]
      constructor
      · rintro ⟨hj, hkey⟩
        exact ⟨by omega, hkey⟩
      · rintro ⟨hj, rfl⟩
        have : j ≠ i := by rintro rfl; exact hb rfl
        exact ⟨by omega, rfl⟩

section Grow

variable {m : ArtNode}

/-- A `node16` that has copied the keys and children of a `node4`. -/
theorem childAt_of_grow16 (hn : n.layout = .node4) (hm : m.layout = .node16)
    (hcount : getCount m.version = getCount n.version)
    (hkey : ∀ i < getCount n.version, m.key i = n.key i)
    (hchild : ∀ i < getCount n.version, m.child i = n.child i) (b : UInt8) :
    m.childAt b = n.childAt b := by
  have hnk : n.layout.Keyed := Or.inl hn
  have hmk : m.layout.Keyed := Or.inr hm
  have hslot : m.slotOf b = n.slotOf b := by
    rw [slotOf_keyed hnk, slotOf_keyed hmk, hcount, ← List.head?_filter, ← List.head?_filter]
    congr 1
    refine List.filter_congr fun i hi => ?_
    rw [hkey i (List.mem_range.mp hi)]
  unfold childAt
  rw [hslot]
  cases hs : n.slotOf b with
  | none => rfl
  | some i =>
    rw [slotOf_keyed hnk, List.find?_range_eq_some] at hs
    simp [hchild i (List.mem_range.mp hs.2.1)]

/-- A `node48` that has indexed the keys of a `node16`. -/
theorem childAt_of_grow48 (hok : n.Ok) (hn : n.layout = .node16) (hm : m.layout = .node48)
    (hindex : m.index = indexOfKeys n.key (getCount n.version))
    (hchild : ∀ i < getCount n.version, m.child i = n.child i) (b : UInt8) :
    m.childAt b = n.childAt b := by
  have hnk : n.layout.Keyed := Or.inr hn
  have hslot (i : ℕ) : m.slotOf b = some i ↔ n.slotOf b = some i := by
    rw [slotOf_node48_eq_some hm, hindex, toNat_indexOfKeys (getCount_lt _) (hok.key_inj hnk),
      slotOf_keyed_eq_some hok hnk]
  refine Option.ext fun p => ?_
  simp only [childAt_eq_some, hslot]
  constructor <;> rintro ⟨i, hi, rfl⟩
  · exact ⟨i, hi, (hchild i ((slotOf_keyed_eq_some hok hnk).mp hi).1).symm⟩
  · exact ⟨i, hi, hchild i ((slotOf_keyed_eq_some hok hnk).mp hi).1⟩

theorem Ok.of_grow48 (hok : n.Ok) (hn : n.layout = .node16)
    (htype : getNodeType m.version = m.layout)
    (hm : m.layout = .node48) (hcount : getCount m.version = getCount n.version)
    (hindex : m.index = indexOfKeys n.key (getCount n.version)) : m.Ok := by
  have hnk : n.layout.Keyed := Or.inr hn
  have hval {b : UInt8} {j : ℕ} :
      (m.index b).toNat = j + 1 ↔ j < getCount n.version ∧ n.key j = b := by
    rw [hindex]
    exact toNat_indexOfKeys (getCount_lt _) (hok.key_inj hnk)
  refine ⟨htype, ?_, fun h => absurd hm (ne_node48 h), fun _ b => ?_, fun _ b c hb hbc => ?_⟩
  · have := hok.count_le
    rw [hn] at this
    rw [hcount, hm]
    exact Nat.le_trans this (by decide)
  · rw [hcount]
    cases hb : (m.index b).toNat with
    | zero => omega
    | succ j => exact (hval.mp hb).1
  · have hb0 : (m.index b).toNat ≠ 0 := fun h => hb (UInt8.toNat_inj.mp h)
    obtain ⟨j, hj⟩ := Nat.exists_eq_succ_of_ne_zero hb0
    exact (hval.mp hj).2.symm.trans (hval.mp (hbc ▸ hj)).2

/-- A `node256` that has copied the children of another node, none of them null. -/
theorem childAt_of_grow256 (hm : m.layout = .node256)
    (hchild : ∀ b : UInt8, m.child b.toNat = (n.childAt b).getD 0)
    (hne : ∀ b, n.childAt b ≠ some 0) (b : UInt8) : m.childAt b = n.childAt b := by
  unfold childAt at hchild hne ⊢
  rw [slotOf_node256 hm, hchild b]
  cases hs : n.slotOf b with
  | none => simp
  | some i =>
    have hi := hne b
    rw [hs] at hi
    have hc := hchild b
    rw [hs] at hc
    simp at hi hc
    simp [hi, hc]

end Grow

end ArtNode

end Sidle.Art
