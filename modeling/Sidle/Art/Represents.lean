import Sidle.Art.SplitSpec
import Sidle.Trie.Update

/-!
# Memories that hold a trie

The adaptive radix tree in a memory is a path-compressed trie over bytes whose nodes are
named by their addresses.  `Represents env s t` says that the memory `s` holds the trie
`t`: every node of the trie is a node of the heap whose layout, offset, prefix, parent
and children agree with it.  Locks are left open, so that the relation also holds of a
tree with a locked node.

## Main definitions

* `Refers`, `NodeRep`, `Represents` — the representation relation.
* `Locked` — a node of the tree whose lock bit is set.
* `Reachable` — the nodes one comes to from the root pointer.

## Main results

* `Represents.run_loadSlot` — what the slot of a place holds.
* `Represents.reachable_iff` — the nodes of the trie are the reachable ones.
-/

namespace Sidle.Art

open Prog Machine Outcome

/-- A trie over bytes whose nodes are addresses. -/
abbrev Tree (L : ℕ) := Trie Addr UInt8 L

/-- A pointer of the memory that stands for a reference of the trie. -/
def Refers (s : Mem) : Ref Addr UInt8 → Ptr → Prop
  | .node c, p => p = c
  | .leaf k, p => isLeaf p = true ∧
      ∃ l, s.leaf? (getLeaf p) = some l ∧ l.key = k ∧ getLeafLen l.keyLength = k.length

/-- The node that a place belongs to, null for the root pointer. -/
def owner : Place Addr UInt8 → Addr
  | .root => 0
  | .edge n _ => n

variable {L : ℕ}

/-- The node `nd` of the heap is the node `n` of the trie. -/
structure NodeRep (s : Mem) (t : Tree L) (n : Addr) (nd : ArtNode) : Prop where
  ok : nd.Ok
  old : isOld nd.version = false
  expanding : isExpanding nd.version = false
  length : getOffset nd.version + getPrefixLen nd.version = (t.label n).length
  prefix_ : ∀ i < getPrefixLen nd.version,
    (t.label n)[getOffset nd.version + i]? = some (nd.prefix_ i)
  child : ∀ b, Option.Rel (fun p r => Refers s r p) (nd.childAt b) (t.edge n b)
  place : ∀ q, t.IsPlace q → t.get q = some (.node n) →
    nd.parent = owner q ∧ getOffset nd.version = (t.path q).length

/-- The memory `s` holds the trie `t`. -/
structure Represents (env : Env) (s : Mem) (t : Tree L) : Prop where
  fresh : s.Fresh env
  usage : 0 ≤ s.global.curLocalMemoryUsage
  root : match t.root with
    | none => s.root = 0
    | some r => Refers s r s.root
  node : ∀ n, t.live n → ∃ nd, s.node? n = some nd ∧ NodeRep s t n nd

/-- The lock bit of the node at `n` is set. -/
def Locked (s : Mem) (n : Addr) : Prop := ∃ nd, s.node? n = some nd ∧ isLocked nd.version = true

/-- The internal nodes that the root pointer and the children lead to. -/
inductive Reachable (s : Mem) : Addr → Prop
  | root (h0 : s.root ≠ 0) (hl : isLeaf s.root = false) : Reachable s s.root
  | child {n : Addr} {nd : ArtNode} {b : UInt8} {p : Ptr} (h : Reachable s n)
      (hn : s.node? n = some nd) (hb : nd.childAt b = some p) (hl : isLeaf p = false) :
      Reachable s p

/-- The slot of a place. -/
def SlotAt (s : Mem) : Place Addr UInt8 → Slot → Prop
  | .root, slot => slot = .root
  | .edge n b, slot => ∃ nd i, s.node? n = some nd ∧ nd.slotOf b = some i ∧ slot = .child n i

theorem Refers.of_leaf {s : Mem} {k : List UInt8} {p : Ptr} (h : Refers s (.leaf k) p) :
    ∃ a l, p = a + 1 ∧ s.leaf? a = some l ∧ l.key = k ∧ getLeafLen l.keyLength = k.length := by
  obtain ⟨hl, l, hget, hk⟩ := h
  exact ⟨getLeaf p, l, getLeaf_of_isLeaf hl, hget, hk⟩

theorem refers_leaf_iff {env : Env} {s : Mem} (hs : s.Fresh env) {a : Addr} {l : LeafNode}
    (h : s.leaf? a = some l) {k : List UInt8} :
    Refers s (.leaf k) (a + 1) ↔ l.key = k ∧ getLeafLen l.keyLength = k.length := by
  obtain ⟨i, -, rfl⟩ := hs.exists_addr_of_leaf? h
  have hal := env.addr_aligned i
  simp only [Refers, isLeaf_succ hal, getLeaf_succ hal, h, true_and]
  constructor
  · rintro ⟨l', hl', hk⟩
    obtain rfl : l = l' := by simpa using hl'
    exact hk
  · exact fun hk => ⟨l, rfl, hk⟩

/-- The length byte of a leaf whose key is short. -/
theorem getLeafLen_ofNat {m : ℕ} (h : m ≤ 127) : getLeafLen (UInt8.ofNat m) = m := by
  have : (UInt8.ofNat m).toNat = m := by rw [UInt8.toNat_ofNat']; omega
  unfold getLeafLen
  rw [this, if_pos (by omega)]

namespace Represents

variable {env : Env} {s : Mem} {t : Tree L} (h : Represents env s t)

include h

theorem not_isLeaf {n : Addr} (hn : t.live n) : isLeaf n = false := by
  obtain ⟨nd, hnd, -⟩ := h.node n hn
  obtain ⟨i, -, rfl⟩ := h.fresh.exists_addr_of_node? hnd
  exact not_isLeaf_of_aligned (env.addr_aligned i)

theorem ne_zero {n : Addr} (hn : t.live n) : n ≠ 0 := by
  obtain ⟨nd, hnd, -⟩ := h.node n hn
  exact h.fresh.ne_zero_of_node? hnd

theorem not_live_addr : ¬ t.live (env.addr s.allocated) := by
  intro hn
  obtain ⟨nd, hnd, -⟩ := h.node _ hn
  exact h.fresh.ne_of_node? hnd rfl

/-- A reference is never the null pointer. -/
theorem ne_zero_of_refers {q : Place Addr UInt8} {r : Ref Addr UInt8} {p : Ptr} (hq : t.IsPlace q)
    (hr : t.get q = some r) (hp : Refers s r p) : p ≠ 0 := by
  cases r with
  | node c =>
    obtain rfl : p = c := hp
    exact h.ne_zero (Trie.live_of_place hq hr)
  | leaf k =>
    obtain ⟨a, l, rfl, -⟩ := hp.of_leaf
    exact Nat.succ_ne_zero a

omit h in
/-- The child of a node for a byte. -/
theorem childAt {n : Addr} {nd : ArtNode} (hrep : NodeRep s t n nd) {b : UInt8}
    {r : Ref Addr UInt8} (hr : t.edge n b = some r) :
      ∃ p, nd.childAt b = some p ∧ Refers s r p := by
  have hc := hrep.child b
  rw [hr] at hc
  cases hp : nd.childAt b with
  | none => rw [hp] at hc; cases hc
  | some p =>
    rw [hp] at hc
    cases hc with
    | some hrel => exact ⟨p, rfl, hrel⟩

omit h in
theorem edge_of_childAt {n : Addr} {nd : ArtNode} (hrep : NodeRep s t n nd) {b : UInt8} {p : Ptr}
    (hp : nd.childAt b = some p) : ∃ r, t.edge n b = some r ∧ Refers s r p := by
  have hc := hrep.child b
  rw [hp] at hc
  cases hr : t.edge n b with
  | none => rw [hr] at hc; cases hc
  | some r =>
    rw [hr] at hc
    cases hc with
    | some hrel => exact ⟨r, rfl, hrel⟩

omit h in
theorem edge_eq_none_iff {n : Addr} {nd : ArtNode} (hrep : NodeRep s t n nd) {b : UInt8} :
    t.edge n b = none ↔ nd.slotOf b = none := by
  rw [← ArtNode.childAt_eq_none]
  have hc := hrep.child b
  constructor <;> intro hn <;> rw [hn] at hc
  · cases hp : nd.childAt b with
    | none => rfl
    | some p => rw [hp] at hc; cases hc
  · cases hr : t.edge n b with
    | none => rfl
    | some r => rw [hr] at hc; cases hc

/-- Every place that leads somewhere has a slot. -/
theorem exists_slotAt {n : Addr} {b : UInt8} {r : Ref Addr UInt8} (hn : t.live n)
    (hr : t.edge n b = some r) : ∃ i, SlotAt s (.edge n b) (.child n i) := by
  obtain ⟨nd, hnd, hrep⟩ := h.node n hn
  cases hs : nd.slotOf b with
  | none => rw [(edge_eq_none_iff hrep).mpr hs] at hr; simp at hr
  | some i => exact ⟨i, nd, i, hnd, hs, rfl⟩

/-- What the slot of a place holds. -/
theorem run_loadSlot {q : Place Addr UInt8} {r : Ref Addr UInt8} {slot : Slot} (hq : t.IsPlace q)
    (hr : t.get q = some r) (hslot : SlotAt s q slot) :
    ∃ p, env.machine.run (loadSlot slot) s = done p s ∧ Refers s r p := by
  cases q with
  | root =>
    obtain rfl : slot = .root := hslot
    have hroot := h.root
    rw [show t.root = some r from hr] at hroot
    exact ⟨s.root, run_loadRoot, hroot⟩
  | edge n b =>
    obtain ⟨nd, i, hnd, hi, rfl⟩ := hslot
    obtain ⟨nd', hnd', hrep⟩ := h.node n hq
    obtain rfl : nd = nd' := by simpa [hnd] using hnd'
    obtain ⟨p, hp, href⟩ := childAt hrep hr
    obtain ⟨i', hi', hpi⟩ := ArtNode.childAt_eq_some.mp hp
    obtain rfl : i = i' := by simpa [hi] using hi'
    refine ⟨p, ?_, href⟩
    rw [← hpi]
    exact run_load hnd (ArtNode.slotOf_lt hrep.ok hi)

omit h in
/-- The comparison of the prefix of a node with a key whose path comes to the node: the
label and the key agree up to the position it returns and differ there. -/
theorem prefixMatch_spec {n : Addr} {nd : ArtNode} (hrep : NodeRep s t n nd)
    {q : Place Addr UInt8} (hq : t.IsPlace q) (hget : t.get q = some (.node n)) {key : Key}
    (hpath : t.path q <+: key) :
    prefixMatch nd key (t.path q).length ≤ getPrefixLen nd.version ∧
      (∀ i < (t.path q).length + prefixMatch nd key (t.path q).length,
        key[i]? = (t.label n)[i]?) ∧
      (prefixMatch nd key (t.path q).length < getPrefixLen nd.version →
        key[(t.path q).length + prefixMatch nd key (t.path q).length]? ≠
          (t.label n)[(t.path q).length + prefixMatch nd key (t.path q).length]?) := by
  have hoff := (hrep.place q hq hget).2
  have hword : t.path q <+: t.label n := Trie.path_prefix_word hq hget
  have hle : prefixMatch nd key (t.path q).length ≤ 0 + getPrefixLen nd.version := scan_le
  refine ⟨by omega, fun i hi => ?_, fun hlt => ?_⟩
  · by_cases hio : i < (t.path q).length
    · rw [hpath.getElem?_eq hio, hword.getElem?_eq hio]
    · obtain ⟨j, rfl⟩ : ∃ j, i = (t.path q).length + j := ⟨i - (t.path q).length, by omega⟩
      have hj : j < prefixMatch nd key (t.path q).length := by omega
      have hkey : key[(t.path q).length + j]? = some (nd.prefix_ j) :=
        of_lt_scan (Nat.zero_le j) hj
      rw [hkey, ← hoff, hrep.prefix_ j (by omega)]
  · have hne := not_scan (P := fun i => key[(t.path q).length + i]? = some (nd.prefix_ i))
      (k := getPrefixLen nd.version) (i := 0) (by unfold prefixMatch at hlt; omega)
    have hlab := hrep.prefix_ _ hlt
    rw [hoff] at hlab
    exact fun he => hne (he.trans hlab)

omit h in
/-- The prefix of a node agrees with a key exactly when its label is a prefix of the key. -/
theorem prefixMatch_eq_iff {n : Addr} {nd : ArtNode} (hrep : NodeRep s t n nd)
    {q : Place Addr UInt8} (hq : t.IsPlace q) (hget : t.get q = some (.node n)) {key : Key}
    (hpath : t.path q <+: key) :
    prefixMatch nd key (t.path q).length = getPrefixLen nd.version ↔ t.label n <+: key := by
  obtain ⟨hle, hagree, hdiff⟩ := prefixMatch_spec hrep hq hget hpath
  have hoff := (hrep.place q hq hget).2
  have hlen := hrep.length
  constructor
  · intro hp
    refine List.prefix_iff_getElem?.mpr fun i hi => ?_
    rw [hagree i (by omega), List.getElem?_eq_getElem hi]
  · intro hp
    by_contra hne
    have hlt : prefixMatch nd key (t.path q).length < getPrefixLen nd.version := by omega
    exact hdiff hlt (hp.getElem?_eq (by omega))

/-! ### Reachable nodes -/

/-- The nodes of the trie are the reachable nodes of the memory. -/
theorem reachable_iff (n : Addr) : Reachable s n ↔ t.live n := by
  constructor
  · intro hr
    induction hr with
    | root h0 hl =>
      have hroot := h.root
      cases hr : t.root with
      | none => exact absurd (by rwa [hr] at hroot) h0
      | some r =>
        rw [hr] at hroot
        cases r with
        | leaf k => exact absurd (hroot : Refers s _ _).1 (by simp [hl])
        | node c =>
          obtain rfl : s.root = c := hroot
          exact t.root_node _ hr
    | child hr hn hb hl ih =>
      obtain ⟨nd, hnd, hrep⟩ := h.node _ ih
      obtain rfl := Option.some.inj (hnd.symm.trans hn)
      obtain ⟨r, hr, href⟩ := edge_of_childAt hrep hb
      cases r with
      | leaf k => exact absurd href.1 (by simp [hl])
      | node c =>
        obtain rfl : _ = c := href
        exact t.edge_node _ _ _ ih hr
  · intro hn
    induction hd : (t.label n).length using Nat.strong_induction_on generalizing n with
    | _ d ih =>
      rcases t.incoming n hn with hr | ⟨m, b, hm, hmn⟩
      · have hroot := h.root
        rw [hr] at hroot
        obtain rfl : s.root = n := hroot
        exact .root (h.ne_zero hn) (h.not_isLeaf hn)
      · obtain ⟨nd, hnd, hrep⟩ := h.node m hm
        obtain ⟨p, hp, rfl⟩ := childAt hrep hmn
        exact .child (ih _ (hd ▸ Trie.length_lt_of_edge hm hmn) m hm rfl) hnd hp (h.not_isLeaf hn)

end Represents

end Sidle.Art
