import Sidle.Art.Lookup

/-!
# Updates of a memory and of its trie

Each way an insertion changes the memory is an update of the trie the memory holds:
adding a leaf to a node, splitting a place, and growing a node are `Trie.addLeaf`,
`Trie.split` and `Trie.rename`.  The hypotheses speak of the memory block by block, as the
specifications of the operations describe it.

## Main definitions

* `LeavesKept` — no leaf loses its key.
* `Redirected` — the slot of a place has been written.

## Main results

* `Represents.touch` — counting an access.
* `Represents.addLeaf`, `Represents.split`, `Represents.grow` — the three updates.
-/

namespace Sidle.Art

open Prog Machine Outcome

variable {L : ℕ} {env : Env} {s s' : Mem} {t : Tree L}

/-- Every leaf of `s` is a leaf of `s'` with the same key. -/
def LeavesKept (s s' : Mem) : Prop :=
  ∀ a l, s.leaf? a = some l →
    ∃ l', s'.leaf? a = some l' ∧ l'.key = l.key ∧ l'.keyLength = l.keyLength

theorem LeavesKept.of_heap_eq {a : Addr} {l : LeafNode} (h : s'.heap a = s.heap a)
    (hl : s.leaf? a = some l) :
    ∃ l', s'.leaf? a = some l' ∧ l'.key = l.key ∧ l'.keyLength = l.keyLength :=
  ⟨l, by rw [Mem.leaf?_congr h, hl], rfl, rfl⟩

theorem Refers.mono (hk : LeavesKept s s') {r : Ref Addr UInt8} {p : Ptr} (h : Refers s r p) :
    Refers s' r p := by
  cases r with
  | node c => exact h
  | leaf k =>
    obtain ⟨hl, l, hget, hkey, hlen⟩ := h
    obtain ⟨l', hl', hkey', hlen'⟩ := hk _ l hget
    exact ⟨hl, l', hl', hkey'.trans hkey, by rw [hlen', hlen]⟩

/-- A node that an update leaves alone. -/
theorem NodeRep.transfer {t' : Tree L} {n : Addr} {nd : ArtNode} (h : NodeRep s t n nd)
    (hk : LeavesKept s s') (hlabel : t'.label n = t.label n) (hedge : ∀ b, t'.edge n b = t.edge n b)
    (hplace : ∀ q, t'.IsPlace q → t'.get q = some (.node n) →
      nd.parent = owner q ∧ getOffset nd.version = (t'.path q).length) : NodeRep s' t' n nd where
  ok := h.ok
  old := h.old
  expanding := h.expanding
  length := by rw [hlabel, h.length]
  prefix_ i hi := by rw [hlabel, h.prefix_ i hi]
  child b := by
    rw [hedge]
    have hc := h.child b
    generalize nd.childAt b = o at hc
    generalize t.edge n b = o' at hc
    cases hc with
    | none => exact .none
    | some hr => exact .some (hr.mono hk)
  place := hplace

/-- A memory that has the leaves and the nodes of the trie, and whatever else. -/
theorem Represents.of_kept (h : Represents env s t) (hs' : s'.Fresh env)
    (hu : 0 ≤ s'.global.curLocalMemoryUsage) (hroot : s'.root = s.root) (hk : LeavesKept s s')
    (hnode : ∀ n nd, t.live n → s.node? n = some nd → NodeRep s t n nd →
      ∃ nd', s'.node? n = some nd' ∧ NodeRep s' t n nd') : Represents env s' t := by
  refine ⟨hs', hu, ?_, fun n hn => ?_⟩
  · have hr := h.root
    rw [hroot]
    cases ht : t.root with
    | none => rwa [ht] at hr
    | some r =>
      rw [ht] at hr
      exact hr.mono hk
  · obtain ⟨nd, hnd, hrep⟩ := h.node n hn
    exact hnode n nd hn hnd hrep

/-- The same trie in a memory whose leaves have been touched. -/
theorem Represents.touch {a : Addr} {l : LeafNode} (h : Represents env s t)
    (hl : s.leaf? a = some l) (ht : Touched env s s' a l) : Represents env s' t := by
  have hk : LeavesKept s s' := by
    intro x lx hx
    by_cases hxa : x = a
    · subst hxa
      obtain rfl : l = lx := by simpa [hl] using hx
      exact ⟨_, ht.leaf, rfl, rfl⟩
    · exact LeavesKept.of_heap_eq (ht.other x hxa (by simp [Mem.heap_of_leaf? hx])) hx
  refine h.of_kept ht.fresh ht.usage ht.root hk fun n nd _ hnd hrep => ⟨nd, ?_, hrep.transfer hk rfl
    (fun _ => rfl) hrep.place⟩
  have hne := Mem.ne_of_node?_of_leaf? hnd hl
  rw [Mem.node?_congr (ht.other n hne (by simp [Mem.heap_of_node? hnd])), hnd]

/-! ### Redirecting a slot -/

/-- The slot of the place `q` of `s` holds `p` in `s'`: either it is the root pointer, or the
node it belongs to has only this slot changed. -/
def Redirected (s s' : Mem) (q : Place Addr UInt8) (p : Ptr) : Prop :=
  match q with
  | .root => s'.root = p
  | .edge m b => s'.root = s.root ∧ ∃ nd i, s.node? m = some nd ∧ nd.slotOf b = some i ∧
      s'.node? m = some (nd.setChild i p)

/-- The root after a place has been redirected. -/
theorem Redirected.refers_root {q : Place Addr UInt8} {p : Ptr} {r : Ref Addr UInt8}
    (h : Represents env s t) (hred : Redirected s s' q p) (hk : LeavesKept s s')
    (hp : Refers s' r p) :
    match t.getSet q r .root with
    | none => s'.root = 0
    | some r => Refers s' r s'.root := by
  cases q with
  | root =>
    rw [Trie.getSet_self]
    rw [show s'.root = p from hred]
    exact hp
  | edge m b =>
    rw [Trie.getSet_of_ne t r (by simp), hred.1]
    have hroot := h.root
    simp only [Trie.get_root]
    cases hr : t.root with
    | none => rwa [hr] at hroot
    | some r' =>
      rw [hr] at hroot
      exact hroot.mono hk

/-- The children of the node that owns a redirected slot. -/
theorem Redirected.child {m : Addr} {b : UInt8} {p : Ptr} {r : Ref Addr UInt8} {nd : ArtNode}
    {i : ℕ} (hrep : NodeRep s t m nd) (hi : nd.slotOf b = some i) (hk : LeavesKept s s')
    (hp : Refers s' r p) (hp0 : p ≠ 0) (c : UInt8) :
    Option.Rel (fun p r => Refers s' r p) ((nd.setChild i p).childAt c)
      (t.getSet (.edge m b) r (.edge m c)) := by
  rw [ArtNode.childAt_setChild hrep.ok hi hp0]
  by_cases hcb : c = b
  · rw [if_pos hcb, hcb, Trie.getSet_self]
    exact .some hp
  · rw [if_neg hcb, Trie.getSet_of_ne t r (by simpa using hcb), Trie.get_edge]
    have hc := hrep.child c
    generalize nd.childAt c = o at hc
    generalize t.edge m c = o' at hc
    cases hc with
    | none => exact .none
    | some hr => exact .some (hr.mono hk)

/-! ### Adding a leaf -/

/-- A node of the tree gets a new leaf. -/
theorem Represents.addLeaf (h : Represents env s t) {n : Addr} {nd nd' : ArtNode} {b : UInt8}
    {k : Key} {p : Ptr} (hn : t.live n) (hb : t.edge n b = none) (hw : t.label n ++ [b] <+: k)
    (hkL : k.length = L) (hnd : s.node? n = some nd) (hnd' : s'.node? n = some nd')
    (hok : nd'.Ok) (ho : getOffset nd'.version = getOffset nd.version)
    (hpl : getPrefixLen nd'.version = getPrefixLen nd.version) (hold : isOld nd'.version = false)
    (hex : isExpanding nd'.version = false) (hpfx : nd'.prefix_ = nd.prefix_)
    (hparent : nd'.parent = nd.parent)
    (hchild : ∀ c, nd'.childAt c = if c = b then some p else nd.childAt c)
    (hp : Refers s' (.leaf k) p) (hk : LeavesKept s s')
    (hother : ∀ x nx, x ≠ n → s.node? x = some nx → s'.node? x = some nx)
    (hroot : s'.root = s.root) (hfresh : s'.Fresh env)
    (husage : 0 ≤ s'.global.curLocalMemoryUsage) :
    Represents env s' (t.addLeaf n b k hn hb hw hkL) := by
  have hplace {m : Addr} {q : Place Addr UInt8}
      (hq : (t.addLeaf n b k hn hb hw hkL).get q = some (.node m)) : t.get q = some (.node m) := by
    rcases q with _ | ⟨x, c⟩
    · exact hq
    · rcases Trie.getSet_eq_some hq with ⟨-, hd⟩ | ⟨-, hq⟩
      · simp at hd
      · exact hq
  refine ⟨hfresh, husage, ?_, fun m hm => ?_⟩
  · have hr := h.root
    change match t.root with
      | none => s'.root = 0
      | some r => Refers s' r s'.root
    rw [hroot]
    cases hroot' : t.root with
    | none => rwa [hroot'] at hr
    | some r =>
      rw [hroot'] at hr
      exact hr.mono hk
  · obtain ⟨nm, hnm, hrep⟩ := h.node m hm
    by_cases hmn : m = n
    · subst hmn
      obtain rfl : nd = nm := by simpa [hnd] using hnm
      refine ⟨nd', hnd', hok, hold, hex, ?_, fun i hi => ?_, fun c => ?_, fun q hq hget => ?_⟩
      · rw [ho, hpl]
        exact hrep.length
      · rw [hpfx, ho]
        rw [hpl] at hi
        exact hrep.prefix_ i hi
      · rw [hchild]
        by_cases hcb : c = b
        · rw [if_pos hcb, hcb]
          rw [show (t.addLeaf m b k hn hb hw hkL).edge m b = _ from Trie.getSet_self t _ _]
          exact .some hp
        · rw [if_neg hcb]
          rw [show (t.addLeaf m b k hn hb hw hkL).edge m c = t.get (.edge m c) from
            Trie.getSet_of_ne t _ (by simpa using hcb)]
          have hc := hrep.child c
          rw [Trie.get_edge]
          generalize nd.childAt c = o at hc
          generalize t.edge m c = o' at hc
          cases hc with
          | none => exact .none
          | some hr => exact .some (hr.mono hk)
      · rw [hparent, ho]
        exact hrep.place q hq (hplace hget)
    · refine ⟨nm, hother m nm hmn hnm, hrep.transfer hk rfl (fun c => ?_)
        fun q hq hget => hrep.place q hq (hplace hget)⟩
      exact Trie.getSet_of_ne t _ (by simp [hmn])

/-! ### Splitting a place -/

/-- The node `nd'` is `nd` below a new parent, with the part of its prefix from `off` on. -/
structure Truncated (nd nd' : ArtNode) (par : Addr) (off : ℕ) : Prop where
  ok : nd'.Ok
  childAt : ∀ b, nd'.childAt b = nd.childAt b
  parent : nd'.parent = par
  offset : getOffset nd'.version = off
  offset_le : getOffset nd.version ≤ off
  length : getOffset nd'.version + getPrefixLen nd'.version =
    getOffset nd.version + getPrefixLen nd.version
  prefix_ : ∀ i < getPrefixLen nd'.version,
    nd'.prefix_ i = nd.prefix_ (off - getOffset nd.version + i)
  old : isOld nd'.version = false
  expanding : isExpanding nd'.version = false

/-- The rest of the prefix still agrees with the label. -/
theorem NodeRep.truncated {n : Addr} {nd nd' : ArtNode} {par : Addr} {off : ℕ}
    (h : NodeRep s t n nd) (ht : Truncated nd nd' par off) {i : ℕ}
    (hi : i < getPrefixLen nd'.version) :
    (t.label n)[getOffset nd'.version + i]? = some (nd'.prefix_ i) := by
  have hlen := ht.length
  have hle := ht.offset_le
  rw [ht.prefix_ i hi, ← h.prefix_ _ (by rw [ht.offset] at hlen; omega), ht.offset]
  congr 1
  omega

/-- A place of the tree is split: `nd` is the new node. -/
theorem Represents.split (h : Represents env s t) {q : Place Addr UInt8} {r : Ref Addr UInt8}
    {new_ : Addr} {l : List UInt8} {b' b : UInt8} {k : Key}
    (hc : Trie.CanSplit t q r new_ l b' b k) {nd : ArtNode} {pOld pNew : Ptr}
    (hnew : s'.node? new_ = some nd) (hok : nd.Ok) (hold : isOld nd.version = false)
    (hex : isExpanding nd.version = false) (hparent : nd.parent = owner q)
    (hoff : getOffset nd.version = (t.path q).length)
    (hlen : getOffset nd.version + getPrefixLen nd.version = l.length)
    (hpfx : ∀ i < getPrefixLen nd.version, l[(t.path q).length + i]? = some (nd.prefix_ i))
    (hchild : ∀ c, nd.childAt c = if c = b then some pNew else if c = b' then some pOld else none)
    (hpOld : Refers s' r pOld) (hpNew : Refers s' (.leaf k) pNew) (hnew0 : new_ ≠ 0)
    (hred : Redirected s s' q new_) (hk : LeavesKept s s')
    (hnode : ∀ c nc, r = .node c → s.node? c = some nc →
      ∃ nc', s'.node? c = some nc' ∧ Truncated nc nc' new_ (l.length + 1))
    (hother : ∀ x nx, t.live x → r ≠ .node x → (∀ c, q ≠ .edge x c) → s.node? x = some nx →
      s'.node? x = some nx)
    (hfresh : s'.Fresh env) (husage : 0 ≤ s'.global.curLocalMemoryUsage) :
    Represents env s' (t.split q r new_ l b' b k hc) := by
  have hpath {p : Place Addr UInt8} (hp : t.IsPlace p) :
      (t.split q r new_ l b' b k hc).path p = t.path p := Trie.split_path hc hp
  -- the places of a node that neither is new nor was below the split place
  have hplace {x : Addr} {nx : ArtNode} (hx : t.live x) (hrx : r ≠ .node x)
    (hrep : NodeRep s t x nx)
      (p : Place Addr UInt8) (hp : (t.split q r new_ l b' b k hc).IsPlace p)
      (hget : (t.split q r new_ l b' b k hc).get p = some (.node x)) :
      nx.parent = owner p ∧ getOffset nx.version =
        ((t.split q r new_ l b' b k hc).path p).length := by
    rcases Trie.split_get_node hc hp hget with ⟨-, rfl⟩ | ⟨-, hr⟩ | ⟨hp', hget', -⟩
    · exact absurd hx hc.fresh
    · exact absurd hr hrx
    · rw [hpath hp']
      exact hrep.place p hp' hget'
  refine ⟨hfresh, husage, hred.refers_root h hk rfl, fun x hx => ?_⟩
  rcases hx with rfl | hx
  · -- the new node
    refine ⟨nd, hnew, hok, hold, hex, ?_, fun i hi => ?_, fun c => ?_, fun p hp hget => ?_⟩
    · rw [Trie.split_label_new, hlen]
    · rw [Trie.split_label_new, hoff]
      exact hpfx i hi
    · rw [hchild]
      by_cases hcb : c = b
      · rw [if_pos hcb, hcb]
        rw [show (t.split q r x l b' b k hc).edge x b = _ from Trie.splitEdge_new t]
        exact .some hpNew
      · by_cases hcb' : c = b'
        · rw [if_neg hcb, if_pos hcb', hcb']
          rw [show (t.split q r x l b' b k hc).edge x b' = _ from Trie.splitEdge_old hc]
          exact .some hpOld
        · rw [if_neg hcb, if_neg hcb']
          rw [show (t.split q r x l b' b k hc).edge x c = none by
            simp [Trie.split, Trie.splitEdge, hcb, hcb']]
          exact .none
    · rcases Trie.split_get_node hc hp hget with ⟨rfl, -⟩ | ⟨-, rfl⟩ | ⟨hp', hget', -⟩
      · rw [hpath hc.place]
        exact ⟨hparent, hoff⟩
      · exact absurd (hc.live_of_ref x rfl) hc.fresh
      · exact absurd (Trie.live_of_place hp' hget') hc.fresh
  · obtain ⟨nx, hnx, hrep⟩ := h.node x hx
    have hlabel : (t.split q r new_ l b' b k hc).label x = t.label x :=
      Trie.split_label_of_live hc hx
    by_cases hrx : r = .node x
    · -- the node below the split place
      obtain ⟨nx', hnx', htr⟩ := hnode x nx hrx hnx
      have hqx : ∀ c, Place.edge x c ≠ q := by
        rintro c rfl
        have := Trie.length_lt_of_edge hx (hrx ▸ hc.get)
        omega
      refine ⟨nx', hnx', htr.ok, htr.old, htr.expanding, ?_, fun i hi => ?_, fun c => ?_,
        fun p hp hget => ?_⟩
      · rw [hlabel, htr.length, hrep.length]
      · rw [hlabel]
        exact hrep.truncated htr hi
      · rw [htr.childAt, Trie.split_edge_of_live hc hx, Trie.getSet_of_ne t _ (hqx c),
          Trie.get_edge]
        have hcx := hrep.child c
        generalize nx.childAt c = o at hcx
        generalize t.edge x c = o' at hcx
        cases hcx with
        | none => exact .none
        | some hr => exact .some (hr.mono hk)
      · rcases Trie.split_get_node hc hp hget with ⟨-, rfl⟩ | ⟨rfl, -⟩ | ⟨-, -, hr⟩
        · exact absurd hx hc.fresh
        · refine ⟨htr.parent, ?_⟩
          rw [htr.offset, Trie.path_edge, Trie.split_label_new, List.length_append,
            List.length_singleton]
        · exact absurd hrx hr
    · by_cases hqx : ∃ c, q = .edge x c
      · -- the owner of the split place
        obtain ⟨c, rfl⟩ := hqx
        obtain ⟨-, nx₀, i, hnx₀, hi, hnx'⟩ := hred
        obtain rfl : nx = nx₀ := by simpa [hnx] using hnx₀
        refine ⟨nx.setChild i new_, hnx', hrep.ok.setChild i _, hrep.old, hrep.expanding, ?_,
          fun j hj => ?_, fun d => ?_, fun p hp hget => hplace hx hrx hrep p hp hget⟩
        · rw [hlabel]
          exact hrep.length
        · rw [hlabel]
          exact hrep.prefix_ j hj
        · rw [Trie.split_edge_of_live hc hx]
          exact Redirected.child (r := .node new_) hrep hi hk rfl hnew0 d
      · have hqx' : ∀ c, q ≠ .edge x c := fun c h => hqx ⟨c, h⟩
        refine ⟨nx, hother x nx hx hrx hqx' hnx, hrep.transfer hk hlabel (fun c => ?_)
          (hplace hx hrx hrep)⟩
        rw [Trie.split_edge_of_live hc hx, Trie.getSet_of_ne t _ (Ne.symm (hqx' c)), Trie.get_edge]

/-! ### Growing a node -/

/-- A node of the tree gives way to its copy `nd`. -/
theorem Represents.grow (h : Represents env s t) {q : Place Addr UInt8} {n new_ : Addr}
    (hc : Trie.CanRename t q n new_) {nn nd : ArtNode} (hn : s.node? n = some nn)
    (hnew : s'.node? new_ = some nd) (hok : nd.Ok) (hold : isOld nd.version = false)
    (hex : isExpanding nd.version = false) (hparent : nd.parent = owner q)
    (hoff : getOffset nd.version = getOffset nn.version)
    (hplen : getPrefixLen nd.version = getPrefixLen nn.version) (hpfx : nd.prefix_ = nn.prefix_)
    (hchild : ∀ b, nd.childAt b = nn.childAt b) (hnew0 : new_ ≠ 0) (hred : Redirected s s' q new_)
    (hk : LeavesKept s s')
    (hadopt : ∀ b c nc, t.edge n b = some (.node c) → s.node? c = some nc →
      s'.node? c = some (nc.setParent new_))
    (hother : ∀ x nx, t.live x → x ≠ n → (∀ b, t.edge n b ≠ some (.node x)) →
      (∀ c, q ≠ .edge x c) → s.node? x = some nx → s'.node? x = some nx)
    (hfresh : s'.Fresh env) (husage : 0 ≤ s'.global.curLocalMemoryUsage) :
    Represents env s' (t.rename q n new_ hc) := by
  obtain ⟨nn', hnn', hrepn⟩ := h.node n hc.live
  obtain rfl : nn = nn' := by simpa [hn] using hnn'
  have hpath {p : Place Addr UInt8} (hp : t.IsPlace p) :
      (t.rename q n new_ hc).path p = t.path p := Trie.rename_path hc hp
  refine ⟨hfresh, husage, hred.refers_root h hk rfl, fun x hx => ?_⟩
  rcases hx with rfl | ⟨hx, hxn⟩
  · -- the copy
    refine ⟨nd, hnew, hok, hold, hex, ?_, fun i hi => ?_, fun c => ?_, fun p hp hget => ?_⟩
    · rw [Trie.rename_label_new, hoff, hplen, hrepn.length]
    · rw [Trie.rename_label_new, hoff, hpfx]
      rw [hplen] at hi
      exact hrepn.prefix_ i hi
    · rw [hchild, Trie.rename_edge_new]
      have hcx := hrepn.child c
      generalize nn.childAt c = o at hcx
      generalize t.edge n c = o' at hcx
      cases hcx with
      | none => exact .none
      | some hr => exact .some (hr.mono hk)
    · rcases Trie.rename_get_node hc hp hget with ⟨rfl, -⟩ | ⟨c, -, hx⟩ | ⟨hp', hget', -⟩
      · rw [hpath hc.place, hoff]
        exact ⟨hparent, (hrepn.place p hc.place hc.get).2⟩
      · exact absurd (t.edge_node n c x hc.live hx) hc.fresh
      · exact absurd (Trie.live_of_place hp' hget') hc.fresh
  · obtain ⟨nx, hnx, hrep⟩ := h.node x hx
    have hlabel : (t.rename q n new_ hc).label x = t.label x := Trie.rename_label_of_live hc hx
    by_cases hxc : ∃ b, t.edge n b = some (.node x)
    · -- a child of the old node
      obtain ⟨b, hb⟩ := hxc
      have hqx : ∀ c, Place.edge x c ≠ q := by
        rintro c rfl
        have h₁ := Trie.length_lt_of_edge hx hc.get
        have h₂ := Trie.length_lt_of_edge hc.live hb
        omega
      refine ⟨nx.setParent new_, hadopt b x nx hb hnx, ⟨hrep.ok.type, hrep.ok.count_le,
        hrep.ok.key_inj, hrep.ok.index_le, hrep.ok.index_inj⟩, hrep.old, hrep.expanding, ?_,
        fun i hi => ?_, fun c => ?_, fun p hp hget => ?_⟩
      · rw [hlabel]
        exact hrep.length
      · rw [hlabel]
        exact hrep.prefix_ i hi
      · rw [Trie.rename_edge_of_live hc hx, Trie.getSet_of_ne t _ (hqx c), Trie.get_edge]
        have hcx := hrep.child c
        rw [show (nx.setParent new_).childAt c = nx.childAt c from rfl]
        generalize nx.childAt c = o at hcx
        generalize t.edge x c = o' at hcx
        cases hcx with
        | none => exact .none
        | some hr => exact .some (hr.mono hk)
      · rcases Trie.rename_get_node hc hp hget with ⟨-, rfl⟩ | ⟨c, rfl, hx'⟩ | ⟨hp', hget', hne⟩
        · exact absurd hx hc.fresh
        · refine ⟨rfl, ?_⟩
          have := (hrep.place (.edge n c) hc.live hx').2
          rw [Trie.path_edge, Trie.rename_label_new]
          exact this
        · exact absurd (Trie.place_unique hp' (show t.IsPlace (.edge n b) from hc.live) hget'
            hb) (hne b)
    · have hplace (p : Place Addr UInt8) (hp : (t.rename q n new_ hc).IsPlace p)
          (hget : (t.rename q n new_ hc).get p = some (.node x)) :
          nx.parent = owner p ∧ getOffset nx.version =
            ((t.rename q n new_ hc).path p).length := by
        rcases Trie.rename_get_node hc hp hget with ⟨-, rfl⟩ | ⟨c, -, hx'⟩ | ⟨hp', hget', -⟩
        · exact absurd hx hc.fresh
        · exact absurd ⟨c, hx'⟩ hxc
        · rw [hpath hp']
          exact hrep.place p hp' hget'
      by_cases hqx : ∃ c, q = .edge x c
      · -- the owner of the redirected place
        obtain ⟨c, rfl⟩ := hqx
        obtain ⟨-, nx₀, i, hnx₀, hi, hnx'⟩ := hred
        obtain rfl : nx = nx₀ := by simpa [hnx] using hnx₀
        refine ⟨nx.setChild i new_, hnx', hrep.ok.setChild i _, hrep.old, hrep.expanding, ?_,
          fun j hj => ?_, fun d => ?_, hplace⟩
        · rw [hlabel]
          exact hrep.length
        · rw [hlabel]
          exact hrep.prefix_ j hj
        · rw [Trie.rename_edge_of_live hc hx]
          exact Redirected.child (r := .node new_) hrep hi hk rfl hnew0 d
      · have hqx' : ∀ c, q ≠ .edge x c := fun c h => hqx ⟨c, h⟩
        have hxc' : ∀ b, t.edge n b ≠ some (.node x) := fun b h => hxc ⟨b, h⟩
        refine ⟨nx, hother x nx hx hxn hxc' hqx' hnx, hrep.transfer hk hlabel (fun c => ?_) hplace⟩
        rw [Trie.rename_edge_of_live hc hx, Trie.getSet_of_ne t _ (Ne.symm (hqx' c)), Trie.get_edge]

end Sidle.Art
