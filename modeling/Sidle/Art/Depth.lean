import Sidle.Art.Link

/-!
# Depths

Every node and every leaf records its depth when it is allocated, one more than the node it
is allocated below.  An update that puts a new node above a leaf deepens the leaf, and one
that puts a new node above an internal node deepens that node, but not what lies below it.

## Main definitions

* `DepthsRight` — the root has depth one, and every child one more than its parent.
* `DepthAt` — the same at one place of the trie.

## Main results

* `Represents.depthsRight_iff` — the depths are right when they are right at every place.
* `DepthsRight.split_leaf`, `DepthsRight.addLeaf`, `DepthsRight.rename` — the updates of an
  insertion that keep the depths right.
* `Represents.not_depthsRight_of_split` — **the split of a prefix gets them wrong**.
-/

namespace Sidle.Art

open Prog Machine Outcome

variable {L : ℕ} {env : Env} {s s' s₁ s₂ : Mem} {t t' : Tree L}

/-- The depth that is recorded in what a pointer leads to. -/
def Mem.depth? (s : Mem) (p : Ptr) : Option ℕ :=
  if isLeaf p then (s.leaf? (getLeaf p)).map (·.metadata.depth)
  else (s.node? p).map (·.sidleMeta.depth)

/-- The root has depth one, and every child of a node of the tree is one deeper than the
node. -/
structure DepthsRight (s : Mem) : Prop where
  root : s.root ≠ 0 → s.depth? s.root = some 1
  child : ∀ n nd b p, Reachable s n → s.node? n = some nd → nd.childAt b = some p →
    s.depth? p = some (nd.sidleMeta.depth + 1)

/-! ### Depths at a place -/

/-- The depth of the node above a place, `0` for the root pointer. -/
def Mem.depthAbove (s : Mem) (q : Place Addr UInt8) : ℕ :=
  match s.node? (owner q) with
  | some n => n.sidleMeta.depth
  | none => 0

/-- The pointer `p` lies in the slot of the place. -/
def Mem.PtrAt (s : Mem) : Place Addr UInt8 → Ptr → Prop
  | .root, p => s.root = p ∧ p ≠ 0
  | .edge n b, p => ∃ nd, s.node? n = some nd ∧ nd.childAt b = some p

/-- What the slot of a place leads to is one deeper than the node above. -/
def DepthAt (s : Mem) (q : Place Addr UInt8) : Prop :=
  ∀ p, s.PtrAt q p → s.depth? p = some (s.depthAbove q + 1)

theorem Mem.depthAbove_edge {n : Addr} {nd : ArtNode} (h : s.node? n = some nd) (b : UInt8) :
    s.depthAbove (.edge n b) = nd.sidleMeta.depth := by
  simp [depthAbove, owner, h]

theorem Mem.depthAbove_root (hs : s.Fresh env) : s.depthAbove .root = 0 := by
  simp [depthAbove, owner, hs.node?_zero]

theorem Mem.depth?_of_node? {n : Addr} {nd : ArtNode} (hl : isLeaf n = false)
    (h : s.node? n = some nd) : s.depth? n = some nd.sidleMeta.depth := by
  simp [depth?, hl, h]

theorem Mem.depth?_of_leaf? (hs : s.Fresh env) {a : Addr} {l : LeafNode} (h : s.leaf? a = some l) :
    s.depth? (a + 1) = some l.metadata.depth := by
  obtain ⟨i, -, rfl⟩ := hs.exists_addr_of_leaf? h
  have hal := env.addr_aligned i
  simp [depth?, isLeaf_succ hal, getLeaf_succ hal, h]

namespace Represents

variable (h : Represents env s t)

include h

/-- What lies in the slot of a place is what the place leads to. -/
theorem exists_ref {q : Place Addr UInt8} {p : Ptr} (hq : t.IsPlace q) (hp : s.PtrAt q p) :
    ∃ r, t.get q = some r ∧ Refers s r p := by
  cases q with
  | root =>
    obtain ⟨rfl, h0⟩ := hp
    have hroot := h.root
    cases hr : t.root with
    | none => exact absurd (by rwa [hr] at hroot) h0
    | some r =>
      rw [hr] at hroot
      exact ⟨r, hr, hroot⟩
  | edge n b =>
    obtain ⟨nd, hnd, hb⟩ := hp
    obtain ⟨nd', hnd', hrep⟩ := h.node n hq
    obtain rfl := Option.some.inj (hnd.symm.trans hnd')
    exact edge_of_childAt hrep hb

/-- The depths are right when they are right at every place. -/
theorem depthsRight_iff : DepthsRight s ↔ ∀ q, t.IsPlace q → DepthAt s q := by
  constructor
  · intro hd q hq p hp
    cases q with
    | root =>
      obtain ⟨rfl, h0⟩ := hp
      rw [Mem.depthAbove_root h.fresh]
      exact hd.root h0
    | edge n b =>
      obtain ⟨nd, hnd, hb⟩ := hp
      rw [Mem.depthAbove_edge hnd]
      exact hd.child n nd b p ((h.reachable_iff n).mpr hq) hnd hb
  · intro hd
    refine ⟨fun h0 => ?_, fun n nd b p hn hnd hb => ?_⟩
    · have := hd .root trivial s.root ⟨rfl, h0⟩
      rwa [Mem.depthAbove_root h.fresh] at this
    · have := hd (.edge n b) ((h.reachable_iff n).mp hn) p ⟨nd, hnd, hb⟩
      rwa [Mem.depthAbove_edge hnd] at this

/-- A node is one deeper than the owner of its place. -/
theorem depth_of_place (hd : DepthsRight s) {q : Place Addr UInt8} {c : Addr} {n : ArtNode}
    (hq : t.IsPlace q) (hget : t.get q = some (.node c)) (hn : s.node? c = some n) :
    n.sidleMeta.depth = s.depthAbove q + 1 := by
  have hself := Mem.depth?_of_node? (h.not_isLeaf (Trie.live_of_place hq hget)) hn
  have hptr : s.PtrAt q c := by
    cases q with
    | root =>
      have hroot := h.root
      rw [show t.root = _ from hget] at hroot
      exact ⟨hroot, h.ne_zero (Trie.live_of_place (q := .root) trivial hget)⟩
    | edge m b =>
      obtain ⟨md, hmd, hrep⟩ := h.node m hq
      obtain ⟨p, hp, hpc⟩ := childAt hrep (show t.edge m b = _ from hget)
      exact ⟨md, hmd, hp.trans (congrArg some hpc)⟩
  have hat := h.depthsRight_iff.mp hd q hq c hptr
  rw [hself] at hat
  exact Option.some.inj hat

/-- The path to a node is at least as long as the node is deep. -/
theorem depth_le (hd : DepthsRight s) {n : Addr} {nd : ArtNode} (hn : t.live n)
    (hnd : s.node? n = some nd) : nd.sidleMeta.depth ≤ (t.label n).length + 1 := by
  induction hlen : (t.label n).length using Nat.strong_induction_on generalizing n nd with
  | _ d ih =>
    rcases t.incoming n hn with hr | ⟨m, b, hm, hmn⟩
    · rw [h.depth_of_place hd (q := .root) trivial hr hnd, Mem.depthAbove_root h.fresh]
      omega
    · obtain ⟨md, hmd, -⟩ := h.node m hm
      have hlt := Trie.length_lt_of_edge hm hmn
      have hle := ih _ (hlen ▸ hlt) hm hmd rfl
      rw [h.depth_of_place hd (q := .edge m b) hm hmn hnd, Mem.depthAbove_edge hmd]
      omega

/-- A place is no deeper than the path to it is long. -/
theorem depthAbove_le (hd : DepthsRight s) {q : Place Addr UInt8} (hq : t.IsPlace q) :
    s.depthAbove q ≤ (t.path q).length := by
  cases q with
  | root =>
    rw [Mem.depthAbove_root h.fresh]
    exact Nat.zero_le _
  | edge m b =>
    obtain ⟨md, hmd, -⟩ := h.node m hq
    rw [Mem.depthAbove_edge hmd, Trie.path_edge, List.length_append, List.length_singleton]
    exact h.depth_le hd hq hmd

/-- A new node below the owner of a place gets the depth that belongs to the place. -/
theorem newMeta_depth (hL : L ≤ 8) (hd : DepthsRight s) {q : Place Addr UInt8} (hq : t.IsPlace q)
    {r : Ref Addr UInt8} (hr : t.get q = some r)
    (hs₁ : (s₁.node? (owner q)).map (·.sidleMeta.depth) =
    (s.node? (owner q)).map (·.sidleMeta.depth))
    (target : NodeMemType) :
    (s₁.newMeta (owner q) target).depth = s.depthAbove q + 1 := by
  have hle := h.depthAbove_le hd hq
  have hpath := (Trie.path_prefix_word hq hr).length_le
  have hword : (r.word t.label).length ≤ L := by
    cases r with
    | node c => exact Nat.le_of_lt (t.label_length c (Trie.live_of_place hq hr))
    | leaf k => exact Nat.le_of_eq (Trie.length_of_stored ⟨q, hq, hr⟩)
  have hdepth : (s₁.newMeta (owner q) target).depth = s₁.childDepth (owner q) % 64 := rfl
  rw [hdepth, Mem.childDepth]
  unfold Mem.depthAbove at hle ⊢
  cases hn : s.node? (owner q) with
  | none =>
    rw [hn, Option.map_none, Option.map_eq_none_iff] at hs₁
    simp only [hs₁]
  | some n =>
    rw [hn, Option.map_some, Option.map_eq_some_iff] at hs₁
    obtain ⟨n₁, hn₁, heq⟩ := hs₁
    rw [hn] at hle
    simp only [hn₁, heq] at hle ⊢
    rw [Nat.mod_eq_of_lt (show n.sidleMeta.depth + 1 < 256 by omega), Nat.mod_eq_of_lt (by omega)]

end Represents

/-! ### Updates -/

/-- The slot of a place is not written, and the depth of its owner does not change. -/
def SlotKept (s s' : Mem) : Place Addr UInt8 → Prop
  | .root => s'.root = s.root
  | .edge m b => ∃ n n', s.node? m = some n ∧ s'.node? m = some n' ∧
      n'.sidleMeta.depth = n.sidleMeta.depth ∧ n'.childAt b = n.childAt b

theorem SlotKept.of_node? {m : Addr} {n : ArtNode} (h : s.node? m = some n)
    (h' : s'.node? m = some n) (b : UInt8) : SlotKept s s' (.edge m b) := ⟨n, n, h, h', rfl, rfl⟩

/-- An update that leaves the depths alone, except at places where they are right after it,
keeps the depths right. -/
theorem DepthsRight.update (hd : DepthsRight s) (h : Represents env s t)
    (h' : Represents env s' t') (hplace : ∀ p, t'.IsPlace p → DepthAt s' p ∨
      (t.IsPlace p ∧ SlotKept s s' p ∧ ∀ c, s.PtrAt p c → s'.depth? c = s.depth? c)) :
    DepthsRight s' := by
  refine h'.depthsRight_iff.mpr fun p hp => ?_
  rcases hplace p hp with hat | ⟨hpt, hkept, hsame⟩
  · exact hat
  have hat := h.depthsRight_iff.mp hd p hpt
  intro c hc
  cases p with
  | root =>
    have hc₀ : s.PtrAt .root c := by
      rwa [Mem.PtrAt, show s'.root = s.root from hkept] at hc
    rw [Mem.depthAbove_root h'.fresh, hsame c hc₀, hat c hc₀, Mem.depthAbove_root h.fresh]
  | edge m b =>
    obtain ⟨n, n', hn, hn', hdepth, hchild⟩ := hkept
    obtain ⟨nd, hnd, hb⟩ := hc
    obtain rfl : n' = nd := Option.some.inj (hn'.symm.trans hnd)
    have hc₀ : s.PtrAt (.edge m b) c := ⟨n, hn, by rwa [← hchild]⟩
    rw [Mem.depthAbove_edge hn', hsame c hc₀, hat c hc₀, Mem.depthAbove_edge hn, hdepth]

/-- What lies in a slot keeps its depth when the nodes and the leaf of the slot do. -/
theorem Represents.depth?_eq (h : Represents env s t) {p : Place Addr UInt8} {c : Ptr}
    (hp : t.IsPlace p) (hc : s.PtrAt p c)
    (hnode : ∀ n, t.get p = some (.node c) → s.node? c = some n →
      ∃ n', s'.node? c = some n' ∧ n'.sidleMeta.depth = n.sidleMeta.depth)
    (hleaf : ∀ a l, c = a + 1 → s.leaf? a = some l → t.get p = some (.leaf l.key) →
      ∃ l', s'.leaf? a = some l' ∧ l'.metadata.depth = l.metadata.depth) :
    s'.depth? c = s.depth? c := by
  obtain ⟨r, hr, href⟩ := h.exists_ref hp hc
  cases r with
  | leaf k =>
    obtain ⟨a, l, rfl, hl, rfl, -⟩ := href.of_leaf
    obtain ⟨l', hl', hdepth⟩ := hleaf a l rfl hl hr
    rw [Mem.depth?_of_leaf? h.fresh hl, ← hdepth]
    obtain ⟨i, -, rfl⟩ := h.fresh.exists_addr_of_leaf? hl
    have hal := env.addr_aligned i
    simp [Mem.depth?, isLeaf_succ hal, getLeaf_succ hal, hl']
  | node m =>
    obtain rfl : c = m := href
    have hm := Trie.live_of_place hp hr
    obtain ⟨n, hn, -⟩ := h.node c hm
    obtain ⟨n', hn', hdepth⟩ := hnode n hr hn
    rw [Mem.depth?_of_node? (h.not_isLeaf hm) hn, Mem.depth?_of_node? (h.not_isLeaf hm) hn', hdepth]

/-- The pointer that is loaded from the slot of a place. -/
theorem ptrAt_of_load (h : Represents env s t) {q : Place Addr UInt8} {slot : Slot} {p : Ptr}
    (hq : t.IsPlace q) (hslot : SlotAt s q slot)
    (hload : env.machine.run (loadSlot slot) s = done p s) (hp : p ≠ 0) : s.PtrAt q p := by
  cases q with
  | root =>
    obtain rfl : slot = .root := hslot
    exact ⟨by simpa [loadSlot, run_loadRoot] using hload, hp⟩
  | edge m b =>
    obtain ⟨nd, i, hnd, hi, rfl⟩ := hslot
    obtain ⟨nd', hnd', hrep⟩ := h.node m hq
    obtain rfl : nd = nd' := Option.some.inj (hnd.symm.trans hnd')
    have hget : env.machine.run (load m (.child i)) s = done (nd.child i) s :=
      run_load hnd (ArtNode.slotOf_lt hrep.ok hi)
    obtain rfl : nd.child i = p := by simpa using hget.symm.trans hload
    exact ⟨nd, hnd, ArtNode.childAt_eq_some.mpr ⟨i, hi, rfl⟩⟩

namespace Redirected

variable {q : Place Addr UInt8} {p : Ptr} (h : Represents env s t) (hq : t.IsPlace q)
  (hred : Redirected s s' q p) (hp : p ≠ 0)

include h hred

/-- The depth above a redirected place does not change. -/
theorem depthAbove (h' : s'.Fresh env) : s'.depthAbove q = s.depthAbove q := by
  cases q with
  | root => rw [Mem.depthAbove_root h.fresh, Mem.depthAbove_root h']
  | edge m b =>
    obtain ⟨-, nd, i, hnd, hi, hnd'⟩ := hred
    rw [Mem.depthAbove_edge hnd, Mem.depthAbove_edge hnd']
    rfl

/-- The owner of a redirected place keeps its depth. -/
theorem depth_owner {n : ArtNode} (hn : s.node? (owner q) = some n) :
    ∃ n', s'.node? (owner q) = some n' ∧ n'.sidleMeta.depth = n.sidleMeta.depth := by
  cases q with
  | root => simp [owner, h.fresh.node?_zero] at hn
  | edge m b =>
    obtain ⟨-, nd, i, hnd, hi, hnd'⟩ := hred
    obtain rfl : nd = n := Option.some.inj (hnd.symm.trans hn)
    exact ⟨_, hnd', rfl⟩

include hq hp

/-- What lies in the slot of a redirected place. -/
theorem eq_of_ptrAt {c : Ptr} (hc : s'.PtrAt q c) : c = p := by
  cases q with
  | root => exact hc.1.symm.trans hred
  | edge m b =>
    obtain ⟨-, nd, i, hnd, hi, hnd'⟩ := hred
    obtain ⟨nd₀, hnd₀, hrep⟩ := h.node m hq
    obtain rfl : nd = nd₀ := Option.some.inj (hnd.symm.trans hnd₀)
    obtain ⟨nd₁, hnd₁, hc⟩ := hc
    obtain rfl : nd.setChild i p = nd₁ := Option.some.inj (hnd'.symm.trans hnd₁)
    rw [ArtNode.childAt_setChild hrep.ok hi hp, if_pos rfl] at hc
    exact (Option.some.inj hc).symm

/-- The other slots are kept. -/
theorem slotKept {x : Place Addr UInt8} (hx : t.IsPlace x) (hxq : x ≠ q)
    (hother : ∀ m n b, x = .edge m b → m ≠ owner q → s.node? m = some n → ∃ n',
      s'.node? m = some n' ∧ n'.sidleMeta.depth = n.sidleMeta.depth ∧
        ∀ b, n'.childAt b = n.childAt b) :
    SlotKept s s' x := by
  cases x with
  | root =>
    cases q with
    | root => exact absurd rfl hxq
    | edge m b => exact hred.1
  | edge m b =>
    obtain ⟨n, hn, hrep⟩ := h.node m hx
    by_cases hm : m = owner q
    · cases q with
      | root => exact absurd hm (h.ne_zero hx)
      | edge m' b' =>
        obtain rfl : m = m' := hm
        obtain ⟨-, nd, i, hnd, hi, hnd'⟩ := hred
        obtain rfl : nd = n := Option.some.inj (hnd.symm.trans hn)
        refine ⟨nd, nd.setChild i p, hn, hnd', rfl, ?_⟩
        rw [ArtNode.childAt_setChild hrep.ok hi hp, if_neg]
        rintro rfl
        exact hxq rfl
    · obtain ⟨n', hn', hdepth, hchild⟩ := hother m n b rfl hm hn
      exact ⟨n, n', hn, hn', hdepth, hchild b⟩

end Redirected

/-! ### The updates of an insertion -/

/-- An access to a leaf keeps the depths right. -/
theorem DepthsRight.touch (hd : DepthsRight s) (h : Represents env s t) {a : Addr} {l : LeafNode}
    (hl : s.leaf? a = some l) (ht : Touched env s s' a l) : DepthsRight s' := by
  have hnode {m : Addr} {n : ArtNode} (hn : s.node? m = some n) : s'.node? m = some n := by
    rw [Mem.node?_congr (ht.other m (Mem.ne_of_node?_of_leaf? hn hl)
      (by simp [Mem.heap_of_node? hn])),
      hn]
  refine hd.update h (h.touch hl ht) fun p hp => .inr ⟨hp, ?_, fun c hc => ?_⟩
  · cases p with
    | root => exact ht.root
    | edge m b =>
      obtain ⟨n, hn, -⟩ := h.node m hp
      exact .of_node? hn (hnode hn) b
  · refine h.depth?_eq hp hc (fun n _ hn => ⟨n, hnode hn, rfl⟩) fun x lx _ hx _ => ?_
    by_cases hxa : x = a
    · subst hxa
      obtain rfl : l = lx := Option.some.inj (hl.symm.trans hx)
      exact ⟨_, ht.leaf, rfl⟩
    · exact ⟨lx, by rw [Mem.leaf?_congr (ht.other x hxa (by simp [Mem.heap_of_leaf? hx])), hx], rfl⟩

/-- **The split of a leaf** keeps the depths right: the new node gets the depth that the leaf
had, and the leaf is deepened. -/
theorem DepthsRight.split_leaf (hd : DepthsRight s) (h : Represents env s t) (hL : L ≤ 8)
    {q : Place Addr UInt8} {a : Addr} {l : LeafNode} {key : Key} {nd : ArtNode} {off len : ℕ}
    {f : ℕ → UInt8} {b c : UInt8} (hq : t.IsPlace q) (hget : t.get q = some (.leaf l.key))
    (hl : s.leaf? a = some l) (hptr : s.PtrAt q (a + 1)) (hls : LeafSplit env s s₁ a l key nd)
    (hfork : ForkNode s (owner q) off len f b (a + 1) c (env.addr (s.allocated + 1) + 1) nd)
    (hlink : Linked env s s₁ s₂ q (env.addr s.allocated)) (h' : Represents env s₂ t')
    (hlive : ∀ x, t'.live x ↔ x = env.addr s.allocated ∨ t.live x) : DepthsRight s₂ := by
  have hle : s.depthAbove q ≤ 8 :=
    Nat.le_trans (h.depthAbove_le hd hq) (Nat.le_trans (Trie.path_prefix_word hq hget).length_le
      (Nat.le_trans (Nat.le_of_eq (Trie.length_of_stored (t := t) ⟨q, hq, hget⟩)) hL))
  have hdepth : nd.sidleMeta.depth = s.depthAbove q + 1 := by
    rw [hfork.sidleMeta, h.newMeta_depth hL hd hq hget rfl]
  have hldepth : l.metadata.depth = s.depthAbove q + 1 := by
    have hat := h.depthsRight_iff.mp hd q hq _ hptr
    rw [Mem.depth?_of_leaf? h.fresh hl] at hat
    exact Option.some.inj hat
  -- the blocks that differ are not the owner of the place
  have hν : env.addr s.allocated ≠ owner q :=
    (h.fresh.ne_addr (h.owner_used hq) (Nat.le_refl _)).symm
  have hlam : env.addr (s.allocated + 1) ≠ owner q :=
    (h.fresh.ne_addr (h.owner_used hq) (Nat.le_succ _)).symm
  have hnew₂ : s₂.node? (env.addr s.allocated) = some nd := by
    rw [Mem.node?_congr (hlink.other _ hν), hls.new_]
  have hleaf₂ : s₂.leaf? (env.addr (s.allocated + 1)) = some (childLeaf nd.sidleMeta key) := by
    rw [Mem.leaf?_congr (hlink.other _ hlam), hls.newLeaf]
  have hold₂ : s₂.leaf? a = some (l.deepen nd.sidleMeta) := by
    rw [Mem.leaf?_congr (hlink.other _ (h.leaf_ne_owner hq hl)), hls.leaf]
  have hrest {x : Addr} (hx : s.heap x ≠ none) (hxa : x ≠ a) (hxo : x ≠ owner q) :
      s₂.heap x = s.heap x := by
    rw [hlink.other x hxo, hls.other x (h.fresh.ne_addr (Or.inr hx) (Nat.le_refl _))
      (h.fresh.ne_addr (Or.inr hx) (Nat.le_succ _)) hxa]
  have hnode {m : Addr} {n : ArtNode} (hmo : m ≠ owner q) (hn : s.node? m = some n) :
      s₂.node? m = some n := by
    rw [Mem.node?_congr (hrest (by simp [Mem.heap_of_node? hn])
      (Mem.ne_of_node?_of_leaf? hn hl) hmo),
      hn]
  refine hd.update h h' fun p hp => ?_
  by_cases hpq : p = q
  · -- the slot of the new node
    subst hpq
    refine .inl fun x hx => ?_
    obtain rfl := hlink.redirected.eq_of_ptrAt h hq (Nat.ne_of_gt (env.addr_pos _)) hx
    rw [Mem.depth?_of_node? (not_isLeaf_of_aligned (env.addr_aligned _)) hnew₂, hdepth,
      hlink.redirected.depthAbove h hlink.fresh]
  by_cases hpν : ∃ d, p = .edge (env.addr s.allocated) d
  · -- the slots of the new node
    obtain ⟨d, rfl⟩ := hpν
    refine .inl fun x hx => ?_
    obtain ⟨nd', hnd', hx⟩ := hx
    obtain rfl : nd = nd' := Option.some.inj (hnew₂.symm.trans hnd')
    rw [hfork.childAt] at hx
    rw [Mem.depthAbove_edge hnew₂, hdepth]
    split at hx
    · obtain rfl := Option.some.inj hx
      rw [Mem.depth?_of_leaf? h'.fresh hleaf₂]
      simp only [childLeaf, NodeMetadata.make, hdepth]
      rw [Nat.mod_eq_of_lt (show s.depthAbove q + 1 + 1 < 256 by omega),
        Nat.mod_eq_of_lt (by omega)]
    · split at hx
      · obtain rfl := Option.some.inj hx
        rw [Mem.depth?_of_leaf? h'.fresh hold₂]
        simp only [LeafNode.deepen, hldepth, hdepth]
        rw [Nat.mod_eq_of_lt (show s.depthAbove q + 1 + 1 < 256 by omega),
          Nat.max_eq_right (Nat.le_succ _), Nat.mod_eq_of_lt (by omega)]
      · simp at hx
  have hpt : t.IsPlace p := by
    cases p with
    | root => trivial
    | edge m d => exact ((hlive m).mp hp).resolve_left fun hm => hpν ⟨d, hm ▸ rfl⟩
  refine .inr ⟨hpt, hlink.redirected.slotKept h hq (Nat.ne_of_gt (env.addr_pos _)) hpt hpq
    (fun m n d _ hmo hn => ⟨n, hnode hmo hn, rfl, fun _ => rfl⟩), fun x hx => ?_⟩
  refine h.depth?_eq hpt hx (fun n _ hn => ?_) fun y ly _ hy hyk => ?_
  · by_cases hxo : x = owner q
    · subst hxo
      exact hlink.redirected.depth_owner h hn
    · exact ⟨n, hnode hxo hn, rfl⟩
  · have hya : y ≠ a := by
      rintro rfl
      obtain rfl : l = ly := Option.some.inj (hl.symm.trans hy)
      exact hpq (Trie.leaf_place_unique hpt hq hyk hget)
    exact ⟨ly, by rw [Mem.leaf?_congr (hrest (by simp [Mem.heap_of_leaf? hy]) hya
      (h.leaf_ne_owner hq hy)), hy], rfl⟩

/-- A new leaf keeps the depths right. -/
theorem DepthsRight.addLeaf (hd : DepthsRight s) (h : Represents env s t)
    (h' : Represents env s' t') (hL : L ≤ 8) {c lam : Addr} {n n' : ArtNode} {b : UInt8} {key : Key}
    (hc : t.live c) (hn : s.node? c = some n) (hn' : s'.node? c = some n')
    (hdepth : n'.sidleMeta.depth = n.sidleMeta.depth)
    (hchild : ∀ d, n'.childAt d = if d = b then some (lam + 1) else n.childAt d)
    (hlam : s'.leaf? lam = some (childLeaf n.sidleMeta key))
    (hleaf : ∀ x l, s.leaf? x = some l → s'.leaf? x = some l)
    (hnode : ∀ x nx, x ≠ c → s.node? x = some nx → s'.node? x = some nx)
    (hroot : s'.root = s.root) (hlive : ∀ x, t'.live x → t.live x) : DepthsRight s' := by
  refine hd.update h h' fun p hp => ?_
  by_cases hpc : p = .edge c b
  · -- the slot of the new leaf
    subst hpc
    refine .inl fun x hx => ?_
    obtain ⟨nd, hnd, hx⟩ := hx
    obtain rfl : n' = nd := Option.some.inj (hn'.symm.trans hnd)
    rw [hchild, if_pos rfl] at hx
    obtain rfl := Option.some.inj hx
    have hle := h.depth_le hd hc hn
    have hlabel := t.label_length c hc
    rw [Mem.depth?_of_leaf? h'.fresh hlam, Mem.depthAbove_edge hn', hdepth]
    simp only [childLeaf, NodeMetadata.make]
    rw [Nat.mod_eq_of_lt (show n.sidleMeta.depth + 1 < 256 by omega), Nat.mod_eq_of_lt (by omega)]
  have hpt : t.IsPlace p := by
    cases p with
    | root => trivial
    | edge m d => exact hlive m hp
  refine .inr ⟨hpt, ?_, fun x hx => ?_⟩
  · cases p with
    | root => exact hroot
    | edge m d =>
      obtain ⟨nm, hnm, -⟩ := h.node m hpt
      by_cases hmc : m = c
      · subst hmc
        refine ⟨n, n', hn, hn', hdepth, ?_⟩
        rw [hchild, if_neg]
        rintro rfl
        exact hpc rfl
      · exact .of_node? hnm (hnode m nm hmc hnm) d
  · refine h.depth?_eq hpt hx (fun nx _ hnx => ?_) fun y l _ hl _ => ⟨l, hleaf y l hl, rfl⟩
    by_cases hxc : x = c
    · subst hxc
      obtain rfl : n = nx := Option.some.inj (hn.symm.trans hnx)
      exact ⟨n', hn', hdepth⟩
    · exact ⟨nx, hnode x nx hxc hnx, rfl⟩

/-- A node that gives way to a copy of its own depth keeps the depths right. -/
theorem DepthsRight.rename (hd : DepthsRight s) (h : Represents env s t) {q : Place Addr UInt8}
    {c ν : Addr} (hc : Trie.CanRename t q c ν) (h' : Represents env s' (t.rename q c ν hc))
    {n nd : ArtNode} (hn : s.node? c = some n) (hnew : s'.node? ν = some nd)
    (hdepth : nd.sidleMeta.depth = n.sidleMeta.depth) (hchild : ∀ b, nd.childAt b = n.childAt b)
    (hν : ν ≠ 0) (hred : Redirected s s' q ν)
    (hleaf : ∀ x l, s.leaf? x = some l → s'.leaf? x = some l)
    (hnode : ∀ x nx, t.live x → x ≠ c → x ≠ owner q → s.node? x = some nx → ∃ nx',
      s'.node? x = some nx' ∧ nx'.sidleMeta.depth = nx.sidleMeta.depth ∧
        ∀ b, nx'.childAt b = nx.childAt b) : DepthsRight s' := by
  have hat := h.depthsRight_iff.mp hd
  -- what lies in a slot of the old tree, the one of the old node apart, keeps its depth
  have hsame {p : Place Addr UInt8} (hp : t.IsPlace p) (hpq : p ≠ q) {x : Ptr} (hx : s.PtrAt p x) :
      s'.depth? x = s.depth? x := by
    refine h.depth?_eq hp hx (fun nx hpx hnx => ?_) fun y l _ hl _ => ⟨l, hleaf y l hl, rfl⟩
    by_cases hxo : x = owner q
    · subst hxo
      exact hred.depth_owner h hnx
    · have hxc : x ≠ c := by
        rintro rfl
        exact hc.get_ne hp hpq hpx
      obtain ⟨nx', hnx', hdx, -⟩ := hnode x nx (Trie.live_of_place hp hpx) hxc hxo hnx
      exact ⟨nx', hnx', hdx⟩
  have hnewdepth : s'.depth? ν = some n.sidleMeta.depth := by
    rw [Mem.depth?_of_node? (h'.not_isLeaf (Or.inl rfl)) hnew, hdepth]
  refine hd.update h h' fun p hp => ?_
  by_cases hpq : p = q
  · -- the slot of the copy
    subst hpq
    refine .inl fun x hx => ?_
    obtain rfl := hred.eq_of_ptrAt h hc.place hν hx
    rw [hnewdepth, h.depth_of_place hd hc.place hc.get hn, hred.depthAbove h h'.fresh]
  cases p with
  | root =>
    exact .inr ⟨trivial, hred.slotKept h hc.place hν trivial hpq (fun m n b heq => by simp at heq),
      fun x hx => hsame (p := .root) trivial hpq hx⟩
  | edge m d =>
    rcases hp with rfl | ⟨hm, hmc⟩
    · -- the slots of the copy
      refine .inl fun x hx => ?_
      obtain ⟨nd', hnd', hx⟩ := hx
      obtain rfl : nd = nd' := Option.some.inj (hnew.symm.trans hnd')
      rw [hchild] at hx
      have hold := hat (.edge c d) hc.live x ⟨n, hn, hx⟩
      rw [hsame (p := .edge c d) hc.live hc.place_edge_ne ⟨n, hn, hx⟩, hold, Mem.depthAbove_edge hn,
        Mem.depthAbove_edge hnew, hdepth]
    · exact .inr ⟨hm, hred.slotKept h hc.place hν hm hpq
        (fun m' n' b heq hmo hn' => by
          obtain ⟨rfl, rfl⟩ : m = m' ∧ d = b := by simpa using heq
          exact hnode m n' hm hmc hmo hn'), fun x hx => hsame (p := .edge m d) hm hpq hx⟩

/-- The split of a prefix gets the depths wrong: the node below the new one is deepened, and
its children are not. -/
theorem Represents.not_depthsRight_of_split (h : Represents env s t) (ht : t.Branching)
    (hd : DepthsRight s)
    {q : Place Addr UInt8} {c : Addr} {n n' : ArtNode} (hq : t.IsPlace q)
    (hget : t.get q = some (.node c)) (hn : s.node? c = some n) (h' : Represents env s' t')
    (hc : t'.live c) (hn' : s'.node? c = some n') (hchild : ∀ b, n'.childAt b = n.childAt b)
    (hdepth : n'.sidleMeta.depth ≠ n.sidleMeta.depth)
    (hnode : ∀ x nx, x ≠ c → x ≠ owner q → s.node? x = some nx → s'.node? x = some nx)
    (hleaf : ∀ x l, s.leaf? x = some l → s'.leaf? x = some l) : ¬ DepthsRight s' := by
  intro hd'
  have hlive := Trie.live_of_place hq hget
  obtain ⟨n₀, hn₀, hrep⟩ := h.node c hlive
  obtain rfl : n = n₀ := Option.some.inj (hn.symm.trans hn₀)
  obtain ⟨b, -, -, hb, -⟩ := ht c hlive
  obtain ⟨r, hr⟩ := Option.ne_none_iff_exists'.mp hb
  obtain ⟨p, hp, -⟩ := childAt hrep hr
  have hpat : s.PtrAt (.edge c b) p := ⟨n, hn, hp⟩
  -- the child has kept the depth that belongs to the old depth of the node
  have hsame : s'.depth? p = s.depth? p := by
    refine h.depth?_eq (p := .edge c b) hlive hpat
      (fun nx hpx hnx => ⟨nx, hnode p nx ?_ ?_ hnx, rfl⟩)
      fun y l _ hl _ => ⟨l, hleaf y l hl, rfl⟩
    · rintro rfl
      exact absurd (Trie.length_lt_of_edge hlive hpx) (Nat.lt_irrefl _)
    · rintro rfl
      cases q with
      | root => exact h.ne_zero (t.edge_node c b _ hlive hpx) rfl
      | edge m b' =>
        have h₁ := Trie.length_lt_of_edge hq hget
        have h₂ : (t.label c).length < (t.label m).length := Trie.length_lt_of_edge hlive hpx
        omega
  have hold := h.depthsRight_iff.mp hd (.edge c b) hlive p hpat
  have hnew := h'.depthsRight_iff.mp hd' (.edge c b) hc p ⟨n', hn', (hchild b).trans hp⟩
  rw [hsame, hold, Mem.depthAbove_edge hn, Mem.depthAbove_edge hn'] at hnew
  exact hdepth (Nat.succ.inj (Option.some.inj hnew)).symm

end Sidle.Art
