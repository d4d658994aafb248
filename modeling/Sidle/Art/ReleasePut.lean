import Sidle.Art.Outcomes
import Sidle.Art.Release
import Sidle.Art.Wiring

/-!
# Insertions without assertions

A build without assertions makes a node of a split that has no children.  Such a node takes the
place of the leaf, or of the node whose prefix the key leaves, and with it goes what lies below.
The tree that is left is at rest all the same, whatever the keys are, and when no key is longer than
eight bytes its depths are right.

## Main definitions

* `Settled` — a tree at rest in a memory whose usage is known.
* `Walk` — how far an insertion has come.
* `KeyRun` — a sequence of insertions of keys of any length.

## Main results

* `ensures_walk_release` — an insertion leaves a tree at rest, wherever it ends.
* `KeyRun.settled`, `PutRun.settled` — a run leaves a tree at rest.
* `puts_depthsRight_iff` — **when insertions get the depths right**.
-/

namespace Sidle.Art

open Prog Machine Outcome

variable {D : Prop} {env : Env} {s s' s₁ s₂ : Mem} {n c a : Addr} {nd cn : ArtNode} {b : UInt8}
  {p : Ptr} {q : Place Addr UInt8} {slot : Slot} {key : Key} {off : ℕ}

/-- A tree at rest, and a usage of local memory that is not negative. -/
structure Settled (D : Prop) (env : Env) (s : Mem) : Prop where
  wired : Wired D env s
  usage : 0 ≤ s.global.curLocalMemoryUsage

/-- An insertion has come to the slot of the place `q`, with `off` bytes of the key behind it. -/
structure Walk (D : Prop) (s : Mem) (key : Key) (q : Place Addr UInt8) (slot : Slot) (off : ℕ) :
    Prop where
  place : s.IsPlace q
  slot : SlotAt s q slot
  ptr : ∃ p, s.PtrAt q p
  byte : ∀ m b, q = .edge m b → ∃ k, off = k + 1 ∧ key[k]? = some b
  deep : D → s.depthAbove q ≤ off ∧ off ≤ 8

theorem Wired.freeSlot (h : Wired D env s) (hq : s.IsPlace q) (hslot : SlotAt s q slot) :
    FreeSlot s q slot := by
  cases q with
  | root =>
    obtain rfl : slot = .root := hslot
    exact .root
  | edge n b =>
    obtain ⟨nd, i, hnd, hi, rfl⟩ := hslot
    have hrest := h.rest n nd hq hnd
    exact .edge (h.fresh.ne_zero_of_node? hnd) hnd hrest.ok hrest.old hrest.unlocked hrest.expanding
      hi

namespace Walk

variable (hw : Walk D s key q slot off) (h : Wired D env s)

include hw

/-- A new node at the slot gets the depth that belongs there. -/
theorem newMeta_depth (hD : D) (hown : (s₁.node? (owner q)).map (·.sidleMeta.depth) =
      (s.node? (owner q)).map (·.sidleMeta.depth)) (target : NodeMemType) :
    (s₁.newMeta (owner q) target).depth = s.depthAbove q + 1 := by
  have hle := hw.deep hD
  change s₁.childDepth (owner q) % 64 = _
  unfold Mem.childDepth
  unfold Mem.depthAbove at hle ⊢
  cases hn : s.node? (owner q) with
  | none =>
    rw [hn, Option.map_none, Option.map_eq_none_iff] at hown
    simp [hown]
  | some n =>
    rw [hn, Option.map_some, Option.map_eq_some_iff] at hown
    obtain ⟨n₁, hn₁, hd⟩ := hown
    rw [hn] at hle
    simp only [hn₁, hd] at hle ⊢
    omega

include h

theorem loadSlot (hp : s.PtrAt q p) :
    env.machine.run (loadSlot slot) s = done p s := by
  have hslot := hw.slot
  cases q with
  | root =>
    obtain rfl : slot = .root := hslot
    exact hp.1 ▸ run_loadRoot
  | edge n b =>
    obtain ⟨nd, i, hnd, hi, rfl⟩ := hslot
    obtain ⟨nd', hnd', hb⟩ := hp
    obtain rfl := Option.some.inj (hnd.symm.trans hnd')
    obtain ⟨j, hj, rfl⟩ := ArtNode.childAt_eq_some.mp hb
    obtain rfl := Option.some.inj (hi.symm.trans hj)
    exact run_load (f := .child i) hnd (ArtNode.slotOf_lt (h.rest n nd hw.place hnd).ok hi)

/-- The byte that leads to the slot. -/
theorem run_keyBefore : ∃ byte, (∀ m b, q = .edge m b → byte = b) ∧
    ∀ st, env.machine.run (keyBefore (owner q) key off) st = done byte st := by
  cases q with
  | root => exact ⟨0, by simp, fun st => by simp [keyBefore, owner]⟩
  | edge m b =>
    obtain ⟨k, rfl, hk⟩ := hw.byte m b rfl
    obtain ⟨md, hmd⟩ := h.node hw.place
    obtain ⟨hlt, hkb⟩ := List.getElem?_eq_some_iff.mp hk
    refine ⟨b, by simp, fun st => ?_⟩
    rw [keyBefore, if_pos (show owner (.edge m b) ≠ 0 from h.fresh.ne_zero_of_node? hmd),
      if_neg (Nat.succ_ne_zero k), Nat.add_sub_cancel, run_keyAt hlt, hkb]

end Walk

/-! ### A node without children in a slot -/

/-- The node that a split makes when assertions are removed. -/
structure Barren (par : Addr) (nd : ArtNode) : Prop where
  rest : nd.AtRest
  parent : nd.parent = par
  childAt : ∀ b, nd.childAt b = none

/-- The block `o` holds what `old` points to, as far as the tree goes. -/
structure BlockOf (s : Mem) (old : Ptr) (o : Addr) : Prop where
  leaf : ∀ a l, s.leaf? a = some l → a + 1 ≠ old → a ≠ o
  node : ∀ x xd, s.node? x = some xd → x ≠ old → x ≠ o

theorem blockOf_leaf {l : LeafNode} (hl : s.leaf? a = some l) : BlockOf s (a + 1) a :=
  ⟨fun _ _ _ hne heq => hne (congrArg (· + 1) heq),
    fun _ _ hx _ => Mem.ne_of_node?_of_leaf? hx hl⟩

theorem blockOf_node (hc : s.node? c = some cn) : BlockOf s c c :=
  ⟨fun _ _ hl _ => (Mem.ne_of_node?_of_leaf? hc hl).symm, fun _ _ _ hne => hne⟩

/-- A new node without children has taken the place of `old`. -/
theorem nodePut_of_barren {old : Ptr} {o : Addr} (h : Wired D env s) (hq : s.IsPlace q)
    (ho : BlockOf s old o) (hfresh : s'.Fresh env)
    (hred : Redirected s s' q (env.addr s.allocated))
    (hnew : s'.node? (env.addr s.allocated) = some nd) (hnd : Barren (owner q) nd)
    (hdeep : D → DeepBelow s q nd)
    (hother : ∀ x, s.heap x ≠ none → x ≠ owner q → x ≠ o → s'.heap x = s.heap x) :
    NodePut D env s s' q old (env.addr s.allocated) nd where
  fresh := hfresh
  redirected := hred
  new_eq := ⟨_, Nat.le_refl _, rfl⟩
  node := hnew
  rest := hnd.rest
  parent := hnd.parent
  deep := hdeep
  child b p hb := by
    rw [hnd.childAt b] at hb
    cases hb
  other x xd _ hxo hxold hxd := by
    refine Or.inl ((Mem.node?_congr (hother x ?_ hxo (ho.node x xd hxd hxold))).trans hxd)
    simp [Mem.heap_of_node? hxd]
  leaf a l hl hne := by
    have hao := h.leaf_ne_owner hq hl
    refine ⟨l, (Mem.leaf?_congr (hother a ?_ hao (ho.leaf a l hl hne))).trans hl, rfl⟩
    simp [Mem.heap_of_leaf? hl]

/-! ### Building the node -/

/-- Only the block `c` is written. -/
structure Aside (env : Env) (c : Addr) (s s' : Mem) : Prop where
  fresh : s.Fresh env → s'.Fresh env
  root : s'.root = s.root
  global : s'.global = s.global
  other : ∀ x, x ≠ c → s'.heap x = s.heap x

instance : IsPreorder Mem (Aside env c) where
  refl _ := ⟨id, rfl, rfl, fun _ _ => rfl⟩
  trans _ _ _ h h' := ⟨fun hs => h'.fresh (h.fresh hs), h'.root.trans h.root,
    h'.global.trans h.global, fun x hx => (h'.other x hx).trans (h.other x hx)⟩

theorem aside_setNode (hc : s.node? c = some cn) (cn' : ArtNode) :
    Aside env c s (s.setNode c cn') :=
  ⟨fun hs => hs.setNode (hs.exists_addr_of_node? hc) _, rfl, rfl,
    fun _ hx => Function.update_of_ne hx _ _⟩

theorem keeps_load_aside {β : Type} {f : NodeField β} :
    env.machine.Keeps (Aside env c) (load n f) :=
  fun s => ensures_load fun _ _ _ => refl s

theorem keeps_store_aside {β : Type} {f : NodeField β} {x : β} :
    env.machine.Keeps (Aside env c) (store c f x) :=
  fun _ => ensures_store fun _ hc _ => aside_setNode hc _

theorem keeps_truncate_aside (k : ℕ) :
    env.machine.Keeps (Aside env c) (artNodeTruncatePrefix c k) := by
  refine keeps_load_aside.bind fun version => keeps_store_aside.bind fun _ => ?_
  refine keeps_load_aside.bind fun ret => Keeps.bind ?_ fun _ => ?_
  · exact keeps_forRange _ _ fun i => keeps_load_aside.bind fun _ => keeps_store_aside
  · exact keeps_store_aside.bind fun _ => keeps_pure

theorem keeps_unlock_aside : env.machine.Keeps (Aside env c) (artNodeUnlock c) :=
  keeps_load_aside.bind fun _ => keeps_store_aside

theorem Aside.redirected {new_ : Addr} (h : Aside env c s₁ s₂) (hc : c ≠ owner q)
    (hred : Redirected s s₁ q new_) : Redirected s s₂ q new_ := by
  cases q with
  | root => exact h.root.trans hred
  | edge m b =>
    obtain ⟨hroot, nd, i, hnd, hi, hnew⟩ := hred
    exact ⟨h.root.trans hroot, nd, i, hnd, hi, (Mem.node?_congr (h.other m hc.symm)).trans hnew⟩

/-- The access changes nothing. -/
def Reads (env : Env) {α : Type} (m : ArtM α) : Prop :=
  ∀ s, env.machine.Ensures m s fun _ s' => s' = s

theorem reads_load {β : Type} {f : NodeField β} : Reads env (load n f) :=
  fun _ => ensures_load fun _ _ _ => rfl

theorem reads_loadLeaf {β : Type} {f : LeafField β} : Reads env (loadLeaf a f) :=
  fun _ => ensures_loadLeaf fun _ _ _ => rfl

theorem reads_keyAt (key : Key) (k : ℕ) : Reads env (keyAt key k) :=
  fun _ => ensures_keyAt fun _ _ => rfl

theorem reads_keyByte (key : Key) (k : ℕ) : Reads env (keyByte key k) :=
  fun s => ensures_ite (fun _ => ensures_pure.mpr rfl) fun _ => reads_keyAt key k s

theorem reads_leafByte (l k : ℕ) : Reads env (leafByte a l k) :=
  fun s => ensures_ite (fun _ => ensures_pure.mpr rfl) fun _ => reads_loadLeaf s

theorem Reads.then {α β : Type} {m : ArtM α} {f : α → ArtM β} {Q : β → Mem → Prop}
    (hm : Reads env m) (hf : ∀ a, env.machine.Ensures (f a) s Q) :
    env.machine.Ensures (m >>= f) s Q :=
  (hm s).bind fun a s' hs' => by
    subst hs'
    exact hf a

theorem reads_leafCompareLoop (l : ℕ) (key : Key) (k i : ℕ) :
    Reads env (leafCompareLoop a l key k i) := by
  induction k generalizing i with
  | zero => exact fun s => ensures_pure.mpr rfl
  | succ k ih =>
    refine fun s => ensures_ite (fun _ => ?_) fun _ => ensures_pure.mpr rfl
    refine Reads.then reads_loadLeaf fun _ => Reads.then (reads_keyAt key i) fun _ => ?_
    exact ensures_ite (fun _ => ih (i + 1) s) fun _ => ensures_pure.mpr rfl

/-- The loop that fills the prefix of a new node, with bytes from anywhere. -/
theorem ensures_fillPrefix {t : NodeType} {g : Global} {X : ℕ → ArtM UInt8}
    (hX : ∀ i, Reads env (X i)) (len : ℕ) :
    env.machine.Ensures (do
      forRange 0 len fun i => do
        let b ← X i
        store (env.addr s.allocated) (.prefix_ i) b
      let version ← load (env.addr s.allocated) .version
      store (env.addr s.allocated) .version (setPrefixLen version len)) (s.withNode env t nd g)
      fun _ s' => len ≤ 8 ∧ ∃ f, s' = s.withNode env t
        { nd with prefix_ := f, version := setPrefixLen nd.version len } g := by
  let fill (i : ℕ) : ArtM Unit := do
    let b ← X i
    store (env.addr s.allocated) (.prefix_ i) b
  let filled (st : Mem) : Prop := ∃ f, st = s.withNode env t { nd with prefix_ := f } g
  have hfill : env.machine.Ensures (forRange 0 len fill) (s.withNode env t nd g)
      fun _ st => filled st := by
    refine ensures_forRange 0 len (I := fun _ => filled) (fun i st _ _ => ?_) ⟨nd.prefix_, rfl⟩
    rintro ⟨f, rfl⟩
    exact Reads.then (hX i) fun b => ensures_store_withNode ⟨_, rfl⟩
  have hlt : env.machine.Ensures (forRange 0 len fill) (s.withNode env t nd g)
      fun _ _ => len = 0 ∨ 0 + len ≤ 8 :=
    ensures_forRange_lt 0 len 8 fun i st =>
      Reads.then (hX i) fun b => ensures_store fun _ _ hi => hi
  refine (hfill.and hlt).bind fun _ st hst => ?_
  obtain ⟨⟨f, rfl⟩, hlen⟩ := hst
  refine ensures_bind_of_done (run_load (f := .version) (Mem.node?_withNode_self ..) trivial) ?_
  exact ensures_store_withNode ⟨by omega, f, rfl⟩

/-- A split begins with a new node. -/
theorem ensures_forkHeader {α : Type} (hb : env.build.assertions = false)
    (hu : 0 ≤ s.global.curLocalMemoryUsage) {parent : Addr} (hp : s.NullOrNode parent)
    {fuel : ℕ} {k : Addr → ArtM α} {Q : α → Mem → Prop}
    (hk : ∀ nd g o, ForkHeader s parent o false nd → (off < 256 → o = off) →
      0 ≤ g.curLocalMemoryUsage →
      env.machine.Ensures (k (env.addr s.allocated)) (s.withNode env .node4 nd g) Q) :
    env.machine.Ensures (do
      let new_ ← newArtNode env parent
      store new_ .parent parent
      artNodeSetOffset new_ off
      assertTrue env.build (do
        let r ← artNodeLock fuel new_
        pure (r == 0))
      k new_) s Q := by
  obtain ⟨nd, g, o, hhead, hfh, ho, hg⟩ := run_forkHeader_release (α := α) hb hu hp off fuel
  exact fun a s' hrun => hk nd g o hfh ho hg a s' ((hhead k).symm.trans hrun)

/-- A new node without children, which has the prefix of a split. -/
theorem ForkHeader.barren {par : Addr} {o len : ℕ} {nd : ArtNode}
    (h : ForkHeader s par o false nd) (hlen : len ≤ 8) (f : ℕ → UInt8) :
    Barren par { nd with prefix_ := f, version := setPrefixLen nd.version len } ∧
      getOffset (setPrefixLen nd.version len) = o := by
  have hv : Art.view (setPrefixLen nd.version len) =
      ⟨o, 0, len, .node4, false, false, false, 0⟩ := by
    rw [view_setPrefixLen _ (by omega), h.view]
  obtain ⟨ho, hc, hpl, hty, hold, hl, hex⟩ := view_fields hv
  have hempty : EmptyNode { nd with prefix_ := f, version := setPrefixLen nd.version len } :=
    ⟨h.layout, hty, hc⟩
  exact ⟨⟨⟨hempty.ok, hold, hl, hex, hpl.trans_le hlen⟩, h.parent, hempty.childAt⟩, ho⟩

/-- The memory `s'` is `s` with the new node `nd` in the next block, but for the block `o`. -/
structure Forked (env : Env) (s s' : Mem) (o : Addr) (nd : ArtNode) : Prop where
  fresh : s'.Fresh env
  root : s'.root = s.root
  usage : 0 ≤ s'.global.curLocalMemoryUsage
  new_ : s'.node? (env.addr s.allocated) = some nd
  other : ∀ x, x ≠ env.addr s.allocated → x ≠ o → s'.heap x = s.heap x

/-- The split of a leaf, or the access to a leaf that holds the key. -/
theorem ensures_replaceLeafChild_release (hb : env.build.assertions = false) (hs : s.Fresh env)
    (hu : 0 ≤ s.global.curLocalMemoryUsage) {parent : Addr} (hp : s.NullOrNode parent)
    {l : LeafNode} (hl : s.leaf? a = some l) (key : Key) (off fuel : ℕ) :
    env.machine.Ensures (artNodeReplaceLeafChild env fuel parent (a + 1) key off) s
      fun new_ s' => new_ = 0 ∧ Touched env s s' a l ∨
        new_ = env.addr s.allocated ∧ ∃ nd, Forked env s s' a nd ∧ Barren parent nd ∧
          nd.sidleMeta = s.newMeta parent .unknown ∧ (off < 256 → getOffset nd.version = off) := by
  have hleaf : getLeaf (a + 1) = a := by
    obtain ⟨i, -, rfl⟩ := hs.exists_addr_of_leaf? hl
    exact getLeaf_succ (env.addr_aligned i)
  have haν : a ≠ env.addr s.allocated := hs.ne_of_leaf? hl
  unfold artNodeReplaceLeafChild
  simp only [hleaf]
  refine Reads.then reads_loadLeaf fun len => ?_
  refine Reads.then (reads_leafCompareLoop _ key _ off) fun i =>
    ensures_ite (fun _ => ?_) fun _ => ?_
  · -- the key is there
    obtain ⟨s', hrun, ht⟩ := run_touchDuplicate hs hu hp hl key
    exact ensures_bind_of_done hrun (ensures_pure.mpr (Or.inl ⟨rfl, ht⟩))
  · refine ensures_forkHeader hb hu hp fun nd g o hfh ho hg => ?_
    have hskip (e : ArtM Bool) (st : Mem) :
        env.machine.run (assertTrue env.build e) st = done () st :=
      run_assertTrue_release hb
    refine ensures_bind_of_done (hskip _ _) ?_
    refine (ensures_fillPrefix (fun i => reads_loadLeaf) (i - off)).bind fun _ st hst => ?_
    obtain ⟨hlen, f, rfl⟩ := hst
    let nd₁ : ArtNode := { nd with prefix_ := f, version := setPrefixLen nd.version (i - off) }
    obtain ⟨hnd₁, ho₁⟩ : Barren parent nd₁ ∧ getOffset nd₁.version = o := hfh.barren hlen f
    have hl₁ : (s.withNode env .node4 nd₁ g).leaf? a = some l := by
      rw [Mem.leaf?_congr (Mem.heap_withNode_of_ne haν), hl]
    refine Reads.then (reads_leafByte _ i) fun _ => ensures_bind_of_done (hskip _ _) ?_
    refine Reads.then (reads_keyByte key i) fun _ => ensures_bind_of_done (hskip _ _) ?_
    refine ensures_bind_of_done (run_loadLeaf (f := .metadata) hl₁ trivial) ?_
    refine ensures_bind_of_done
      (run_load (f := .sidleMeta) (Mem.node?_withNode_self .node4 nd₁ g) trivial) ?_
    refine ensures_bind_of_done (run_storeLeaf (f := .metadata) hl₁ trivial) ?_
    have hν : ((s.withNode env .node4 nd₁ g).setLeaf a (l.deepen nd₁.sidleMeta)).node?
        (env.addr s.allocated) = some nd₁ :=
      (Mem.node?_setLeaf_of_ne _ _ haν.symm).trans (Mem.node?_withNode_self .node4 nd₁ g)
    have hunlock := @run_artNodeUnlock env _ _ _ hν
    rw [unlockedVersion_of_unlocked hnd₁.rest.unlocked hnd₁.rest.expanding,
      ArtNode.setVersion_self, Mem.setNode_eq_self hν] at hunlock
    refine ensures_bind_of_done hunlock (ensures_pure.mpr (Or.inr ⟨rfl, nd₁, ?_, hnd₁,
      hfh.sidleMeta, fun hoff => ho₁.trans (ho hoff)⟩))
    have hs₁ : (s.withNode env .node4 nd₁ g).Fresh env := hs.withNode _ _ _
    refine ⟨hs₁.setLeaf (hs₁.exists_addr_of_leaf? hl₁) _, rfl, hg, hν, fun x hxν hxa => ?_⟩
    rw [Mem.setLeaf_heap, Function.update_of_ne hxa, Mem.heap_withNode_of_ne hxν]

/-- The split of a prefix: what is done to the node below is of no account. -/
theorem ensures_expandAndInsert_release (hb : env.build.assertions = false)
    (hu : 0 ≤ s.global.curLocalMemoryUsage) {parent : Addr} (hp : s.NullOrNode parent)
    (key : Key) (off k fuel : ℕ) :
    env.machine.Ensures (artNodeExpandAndInsert env fuel parent c key off k) s fun new_ s' =>
      new_ = env.addr s.allocated ∧ ∃ nd g, Barren parent nd ∧
        nd.sidleMeta = s.newMeta parent .unknown ∧ (off < 256 → getOffset nd.version = off) ∧
        0 ≤ g.curLocalMemoryUsage ∧ Aside env c (s.withNode env .node4 nd g) s' := by
  unfold artNodeExpandAndInsert
  refine ensures_forkHeader hb hu hp fun nd g o hfh ho hg => ?_
  refine (ensures_fillPrefix (fun i => reads_keyAt key (off + i)) k).bind fun _ st hst => ?_
  obtain ⟨hlen, f, rfl⟩ := hst
  obtain ⟨hnd₁, ho₁⟩ := hfh.barren hlen f
  have hskip (e : ArtM Bool) (st : Mem) :
      env.machine.run (assertTrue env.build e) st = done () st :=
    run_assertTrue_release hb
  refine ensures_ite (fun _ => Reads.then (reads_keyAt key (off + k)) fun byte => ?_) fun _ =>
    ensures_bind.mpr (ensures_pure.mpr ?_)
  all_goals
    refine ensures_bind_of_done (hskip _ _) ?_
    refine ((keeps_truncate_aside k : env.machine.Keeps (Aside env c) _) _).bind
      fun byte s₁ haside => ?_
    refine ensures_bind_of_done (hskip _ _) ?_
    refine Reads.then reads_load fun m => Reads.then reads_load fun mn => ?_
    refine ((keeps_store_aside : env.machine.Keeps (Aside env c) _) s₁).bind
      fun _ s₂ haside' => ?_
    exact ensures_pure.mpr ⟨rfl, _, g, hnd₁, hfh.sidleMeta, fun hoff => ho₁.trans (ho hoff), hg,
      trans_of (Aside env c) haside haside'⟩

namespace Walk

variable (hw : Walk D s key q slot off) (h : Settled D env s)

include hw h

theorem leaf_ne_owner {l : LeafNode} (hl : s.leaf? a = some l) : a ≠ owner q :=
  h.wired.leaf_ne_owner hw.place hl

/-- A node without children has taken the place of `old`. -/
theorem settled_of_barren {old : Ptr} {o : Addr} (hp : s.PtrAt q old) (ho : BlockOf s old o)
    (hfresh : s'.Fresh env) (hu : 0 ≤ s'.global.curLocalMemoryUsage)
    (hred : Redirected s s' q (env.addr s.allocated))
    (hnew : s'.node? (env.addr s.allocated) = some nd) (hnd : Barren (owner q) nd)
    (hmeta : nd.sidleMeta = s₁.newMeta (owner q) .unknown)
    (hown : (s₁.node? (owner q)).map (·.sidleMeta.depth) =
      (s.node? (owner q)).map (·.sidleMeta.depth))
    (hoff : off < 256 → getOffset nd.version = off)
    (hother : ∀ x, s.heap x ≠ none → x ≠ owner q → x ≠ o → s'.heap x = s.heap x) :
    Settled D env s' := by
  refine ⟨(nodePut_of_barren h.wired hw.place ho hfresh hred hnew hnd (fun hD => ?_) hother).wired
    h.wired hw.place hp, hu⟩
  obtain ⟨hle, h8⟩ := hw.deep hD
  have hd : nd.sidleMeta.depth = s.depthAbove q + 1 := by
    rw [hmeta, hw.newMeta_depth hD hown]
  have ho := hoff (by omega)
  exact ⟨hd, by omega, by omega⟩

/-- The walk ends at a leaf. -/
theorem ensures_replaceLeaf (hb : env.build.assertions = false) {l : LeafNode}
    (hp : s.PtrAt q (a + 1)) (hl : s.leaf? a = some l) (fuel : ℕ) :
    env.machine.Ensures (adaptiveRadixTreeReplaceLeaf env fuel (owner q) slot (a + 1) key off) s
      fun _ s' => Settled D env s' := by
  refine Ensures.of_le (adaptiveRadixTreeReplaceLeaf_le_succ env ..) fun r s' hrun => ?_
  have hw' := hrun
  unfold adaptiveRadixTreeReplaceLeaf at hw'
  obtain ⟨new_, s₁, hbuild, hrest⟩ := env.machine.run_bind_eq_done.mp hw'
  rcases ensures_replaceLeafChild_release hb h.wired.fresh h.usage
    (h.wired.nullOrNode_owner hw.place) hl key off (fuel + 1) new_ s₁ hbuild with
    ⟨rfl, ht⟩ | ⟨rfl, nd, hf, hnd, hmeta, hoff⟩
  · rw [if_pos rfl] at hrest
    cases hrest
    exact ⟨(ht.undisturbed hl).wired h.wired, ht.usage⟩
  · have hao := hw.leaf_ne_owner h hl
    have hνo := (h.wired.fresh.ne_addr (h.wired.owner_used hw.place) (Nat.le_refl _))
    obtain ⟨s₂, hrun₂, hlink⟩ := (h.wired.freeSlot hw.place hw.slot).run_replaceLeaf
      (hw.loadSlot h.wired hp) hbuild (Nat.ne_of_gt (env.addr_pos _))
      (Mem.node?_congr (hf.other _ hνo hao.symm)) hf.root hf.fresh
    obtain ⟨-, rfl⟩ := Outcome.done.inj (hrun₂.symm.trans hrun)
    refine hw.settled_of_barren h hp (blockOf_leaf hl) hlink.fresh (hlink.global ▸ hf.usage)
      hlink.redirected ((Mem.node?_congr (hlink.other _ hνo.symm)).trans hf.new_) hnd hmeta rfl hoff
      fun x hx hxo hxa => ?_
    rw [hlink.other x hxo, hf.other x (h.wired.fresh.ne_of_heap hx) hxa]

/-- The key leaves the prefix of a node. -/
theorem ensures_prefixMismatch (hb : env.build.assertions = false) (hp : s.PtrAt q c)
    (hc : s.node? c = some cn) (hparent : cn.parent = owner q) (goBegin : ArtM ℤ) (k fuel : ℕ) :
    env.machine.Ensures (putPrefixMismatch env fuel goBegin slot c cn.version key off k) s
      fun _ s' => Settled D env s' := by
  have hle (n : ℕ) : putPrefixMismatch env n goBegin slot c cn.version key off k ≤
      putPrefixMismatch env (n + 1) goBegin slot c cn.version key off k :=
    putPrefixMismatch_le_succ env (le_refl goBegin) ..
  refine .of_le (hle fuel) (.of_le (hle (fuel + 1)) ?_)
  have hs := h.wired.fresh
  have hrest := h.wired.rest c cn (hw.place.reachable hp (hs.not_isLeaf hc)) hc
  have hco : c ≠ owner q := h.wired.owner_ne hw.place hp
  have hfree := h.wired.freeSlot hw.place hw.slot
  -- the node and its parent are locked
  let n₁ := cn.setVersion (setLock cn.version)
  have hn₁ : (s.setNode c n₁).node? c = some n₁ := Mem.node?_setNode_self ..
  have hown₁ : (s.setNode c n₁).node? (owner q) = s.node? (owner q) :=
    Mem.node?_setNode_of_ne _ _ hco.symm
  have hs₁ : (s.setNode c n₁).Fresh env := hs.setNode (hs.exists_addr_of_node? hc) _
  let s₁ := (s.setNode c n₁).lockNode (owner q)
  have hlocked : s₁.node? (owner q) = (s.lockNode (owner q)).node? (owner q) :=
    Mem.node?_lockNode_congr hown₁
  have halloc : s₁.allocated = s.allocated := Mem.allocated_lockNode _
  have hpar : s₁.NullOrNode (owner q) :=
    .lockNode hs₁ ((h.wired.nullOrNode_owner hw.place).congr hs₁ hown₁)
  unfold putPrefixMismatch
  refine ensures_bind_of_done (run_artNodeLock hc hrest.unlocked hrest.old (fuel + 1)) ?_
  rw [if_neg (by simp)]
  refine ensures_bind_of_done (run_artNodeGetVersion hn₁) ?_
  rw [if_neg (by simp [n₁, compareExpand_setLock])]
  refine ensures_bind_of_done (hfree.run_getLockedParent hs hco hn₁ hparent hown₁ fuel) ?_
  refine (ensures_expandAndInsert_release (c := c) hb
    (show 0 ≤ s₁.global.curLocalMemoryUsage by simpa [s₁] using h.usage) hpar key off k
    (fuel + 2)).bind fun new_ s₂ h₂ => ?_
  obtain ⟨rfl, nd, g, hnd, hmeta, hoff, hg, haside₂⟩ := h₂
  rw [halloc]
  let ν := env.addr s.allocated
  have hνo : ν ≠ owner q := (hs.ne_addr (h.wired.owner_used hw.place) (Nat.le_refl _)).symm
  have hνc : ν ≠ c := (hs.ne_of_node? hc).symm
  -- the slot is redirected
  refine ((keeps_store_aside : env.machine.Keeps (Aside env c) _) s₂).bind fun _ s₃ haside => ?_
  have haside₃ := trans_of (Aside env c) haside₂ haside
  have hheap₃ {x : Addr} (hxν : x ≠ ν) (hxc : x ≠ c) : s₃.heap x = s₁.heap x := by
    rw [haside₃.other x hxc, Mem.heap_withNode_of_ne (halloc ▸ hxν)]
  have hnew₃ : s₃.node? ν = some nd := by
    rw [Mem.node?_congr (haside₃.other ν hνc)]
    have hν : ν = env.addr s₁.allocated := congrArg env.addr halloc.symm
    rw [hν]
    exact Mem.node?_withNode_self .node4 nd g
  have hs₃ : s₃.Fresh env := haside₃.fresh ((hs₁.lockNode _).withNode _ _ _)
  obtain ⟨byte, hbyte, hrunb⟩ := hw.run_keyBefore h.wired
  refine ensures_bind_of_done (hrunb s₃) ?_
  obtain ⟨s₄, hrun₄, hlink⟩ := hfree.run_linkNewNode hbyte
    ((Mem.node?_congr (hheap₃ hνo.symm hco.symm)).trans hlocked)
    (haside₃.root.trans (Mem.root_lockNode _)) hs₃ hnew₃ hnd.parent hνo
  refine ensures_bind_of_done hrun₄ ?_
  -- and the old node unlocked
  refine (keeps_unlock_aside s₄).bind fun _ s₅ haside₅ => ensures_pure.mpr ?_
  refine hw.settled_of_barren h hp (blockOf_node hc) (haside₅.fresh hlink.fresh) ?_
    (haside₅.redirected hco hlink.redirected) ?_ hnd hmeta
    ((congrArg _ hlocked).trans (Mem.depth_lockNode _)) hoff fun x hx hxo hxc => ?_
  · rw [haside₅.global, hlink.global, haside₃.global]
    exact hg
  · rw [Mem.node?_congr (haside₅.other ν hνc), Mem.node?_congr (hlink.other ν hνo), hnew₃]
  · rw [haside₅.other x hxc, hlink.other x hxo, hheap₃ (hs.ne_of_heap hx) hxc,
      Mem.heap_lockNode_of_ne hxo, Mem.setNode_heap, Function.update_of_ne hxc]

end Walk

/-! ### A new leaf -/

/-- The depth of a new leaf below a node. -/
theorem DeepBelow.childLeaf_depth (hd : DeepBelow s q cn) (key : Key) :
    (childLeaf cn.sidleMeta key).metadata.depth = cn.sidleMeta.depth + 1 := by
  have hle := hd.le_offset
  have ho := hd.offset
  change (cn.sidleMeta.depth + 1) % 256 % 64 = _
  omega

/-- What growth needs of a node of a tree at rest that has been locked. -/
theorem Wired.growPre (h : Wired D env s) (hn : Reachable s c) (hc : s.node? c = some cn)
    (hpar : s.NullOrNode cn.parent) (hused : cn.parent = 0 ∨ s.heap cn.parent ≠ none)
    (hco : c ≠ cn.parent) (key : Key) {g : Global}
    (hg : 0 ≤ g.curLocalMemoryUsage) :
    GrowPre env (s.lockedWithLeaf env c cn key g) c (cn.setVersion (setLock cn.version)) := by
  have hlk := lockedNode cn
  have hs := h.fresh.lockedWithLeaf hc key g
  have hsame {x : Addr} {xd : ArtNode} (hx : s.node? x = some xd) (hxc : x ≠ c) :
      (s.lockedWithLeaf env c cn key g).node? x = some xd := by
    rw [Mem.node?_congr (Mem.heap_lockedWithLeaf h.fresh key g
      (Or.inr (by simp [Mem.heap_of_node? hx])) hxc), hx]
  refine ⟨hs, hg, Mem.node?_lockedWithLeaf h.fresh hc key g, hlk.ok (h.rest c cn hn hc).ok, ?_,
    fun b p hb => ?_⟩
  · exact hpar.congr hs (Mem.node?_congr (Mem.heap_lockedWithLeaf h.fresh key g hused hco.symm))
  · rw [hlk.childAt] at hb
    have hpt : s.PtrAt (.edge c b) p := ⟨cn, hc, hb⟩
    have hne : p ≠ c := h.owner_ne (q := .edge c b) hn hpt
    have hleads := h.leads (.edge c b) p hn hpt
    refine ⟨hne, hleads.ne_zero h.fresh, ?_⟩
    rcases hleads with ⟨a, l, rfl, hl, -⟩ | ⟨nd, hnd, -⟩
    · exact Or.inl (h.fresh.isLeaf_of_leaf? hl)
    · exact Or.inr ⟨nd, hsame hnd hne⟩

/-- The node with the new child `p`, locked and unlocked again. -/
def ArtNode.linked (cn : ArtNode) (b : UInt8) (p : Ptr) : ArtNode :=
  let n := (cn.setVersion (setLock cn.version)).addChild b p
  n.setVersion (unlockedVersion n.version)

/-- The memory after the key has become a leaf of the node `c`. -/
def Mem.leafAdded (env : Env) (s : Mem) (c : Addr) (cn : ArtNode) (key : Key) (b : UInt8)
    (g : Global) : Mem :=
  (s.lockedWithLeaf env c cn key g).setNode c (cn.linked b (env.addr s.allocated + 1))

namespace Walk

variable (hw : Walk D s key q slot off) (h : Settled D env s)

include hw h

/-- The node has room for a new leaf. -/
theorem leafPut_of_room (hp : s.PtrAt q c) (hc : s.node? c = some cn)
    (hdeep : D → DeepBelow s q cn) (hroom : cn.HasRoom) (hb : cn.slotOf b = none) (g : Global) :
    LeafPut D env s (s.leafAdded env c cn key b g) c cn (cn.linked b (env.addr s.allocated + 1)) b
        s.allocated ∧
      (s.leafAdded env c cn key b g).leaf? (env.addr s.allocated) =
        some (childLeaf cn.sidleMeta key) ∧
      getPrefixLen (cn.linked b (env.addr s.allocated + 1)).version = getPrefixLen cn.version := by
  have hs := h.wired.fresh
  have hrest := h.wired.rest c cn (hw.place.reachable hp (hs.not_isLeaf hc)) hc
  let n₁ := cn.setVersion (setLock cn.version)
  have hlk : LockedNode cn n₁ := lockedNode cn
  let lam := env.addr s.allocated
  let s₂ := s.lockedWithLeaf env c cn key g
  have hclam : c ≠ lam := hs.ne_of_node? hc
  have hn₂ : s₂.node? c = some n₁ := Mem.node?_lockedWithLeaf hs hc key g
  have hslotb : n₁.slotOf b = none := (hlk.slotOf b).trans hb
  have hroom₁ : n₁.HasRoom := hlk.room.mpr hroom
  let n₂ := n₁.addChild b (lam + 1)
  let n₃ := cn.linked b (lam + 1)
  obtain ⟨ho₂, hc₂, hpl₂, hty₂, hold₂, -, hex₂⟩ :=
    view_fields (ArtNode.view_addChild (b := b) hroom₁ (lam + 1))
  have hexp₂ : isExpanding n₂.version = false := hex₂.trans (hlk.expanding.trans hrest.expanding)
  obtain ⟨ho₃, hc₃, hpl₃, hty₃, hold₃, hl₃, hex₃⟩ := view_fields (view_unlockedVersion hexp₂)
  have hs₂ : s₂.Fresh env := hs.lockedWithLeaf hc key g
  have hheap {x : Addr} (hx : s.heap x ≠ none) (hxc : x ≠ c) :
      (s₂.setNode c n₃).heap x = s.heap x := by
    rw [Mem.setNode_heap, Function.update_of_ne hxc,
      Mem.heap_lockedWithLeaf hs key g (Or.inr hx) hxc]
  have hnew : (s₂.setNode c n₃).leaf? lam = some (childLeaf cn.sidleMeta key) := by
    rw [Mem.leaf?_setNode_of_ne _ _ hclam.symm]
    exact Mem.leaf?_lockedWithLeaf key g
  have hplen : getPrefixLen n₃.version = getPrefixLen cn.version :=
    hpl₃.trans (hpl₂.trans hlk.prefixLen)
  refine ⟨?_, hnew, hplen⟩
  exact {
    fresh := hs₂.setNode (hs₂.exists_addr_of_node? hn₂) _
    root := rfl
    node := hc
    node' := Mem.node?_setNode_self ..
    rest := {
      ok := ((hlk.ok hrest.ok).addChild hroom₁ hslotb _).setVersion hty₃ hc₃
      old := hold₃.trans (hold₂.trans (hlk.old.trans hrest.old))
      unlocked := hl₃
      expanding := hex₃.trans hexp₂
      prefixLen := hplen.trans_le hrest.prefixLen }
    sidleMeta := ArtNode.sidleMeta_addChild ..
    offset := ho₃.trans (ho₂.trans hlk.offset)
    parent := ArtNode.parent_addChild ..
    childAt := fun d => by
      rw [ArtNode.linked, ArtNode.childAt_setVersion hc₃,
        ArtNode.childAt_addChild (hlk.ok hrest.ok) hroom₁ hslotb (Nat.succ_ne_zero lam),
        hlk.childAt]
    new_ := ⟨Nat.le_refl _, childLeaf cn.sidleMeta key, hnew, fun hD =>
      (hdeep hD).childLeaf_depth key⟩
    other := fun x xd hxc hx =>
      (Mem.node?_congr (hheap (by simp [Mem.heap_of_node? hx]) hxc)).trans hx
    leaf := fun a l hl _ => ⟨l, (Mem.leaf?_congr (hheap (by simp [Mem.heap_of_leaf? hl])
      (Mem.ne_of_node?_of_leaf? hc hl).symm)).trans hl, rfl⟩ }

/-- The node with room gets the leaf. -/
theorem run_addChild_room (hp : s.PtrAt q c) (hc : s.node? c = some cn) (hroom : cn.HasRoom)
    {m : ℕ} (hkb : key[m]? = some b) (hb : cn.slotOf b = none) (k : ℕ) :
    ∃ g, 0 ≤ g.curLocalMemoryUsage ∧ ∀ goBegin descend fuel,
      env.machine.run (putAddChild env (fuel + 1) goBegin descend slot c key m k) s =
        done 0 (s.leafAdded env c cn key b g) := by
  have hs := h.wired.fresh
  have hrest := h.wired.rest c cn (hw.place.reachable hp (hs.not_isLeaf hc)) hc
  let n₁ := cn.setVersion (setLock cn.version)
  have hlk : LockedNode cn n₁ := lockedNode cn
  have hn₁ : (s.setNode c n₁).node? c = some n₁ := Mem.node?_setNode_self ..
  have hs₁ : (s.setNode c n₁).Fresh env := hs.setNode (hs.exists_addr_of_node? hc) _
  obtain ⟨g, hg, hgu⟩ := run_allocLeaf env (s := s.setNode c n₁) h.usage
    (hs₁.nullOrNode_of_node? hn₁) key .remote
  rw [newLeaf_remote hn₁] at hg
  obtain ⟨hlt, rfl⟩ := List.getElem?_eq_some_iff.mp hkb
  have hn₂ : (s.lockedWithLeaf env c cn key g).node? c = some n₁ :=
    Mem.node?_lockedWithLeaf hs hc key g
  refine ⟨g, hgu, fun goBegin descend fuel => ?_⟩
  unfold putAddChild
  refine (env.machine.run_bind_of_done
    (run_artNodeLock hc hrest.unlocked hrest.old fuel)).trans ?_
  rw [if_neg (by simp)]
  refine (env.machine.run_bind_of_done (run_keyAt hlt)).trans ?_
  refine (env.machine.run_bind_of_done hg).trans ?_
  refine (env.machine.run_bind_of_done (run_artNodeAddChild_leaf hn₂ (hlk.ok hrest.ok)
    (hlk.room.mpr hroom) ((hlk.slotOf _).trans hb) (isLeaf_succ (env.addr_aligned s.allocated))
    (fuel + 1) true)).trans ?_
  simp only [ne_eq, not_true_eq_false, if_false]
  refine (env.machine.run_bind_of_done (run_artNodeUnlock (Mem.node?_setNode_self ..))).trans ?_
  rw [Mem.setNode_setNode]
  rfl

/-- The grown copy of the node is in its place. -/
theorem settled_of_grown (hp : s.PtrAt q c) (hc : s.node? c = some cn)
    (hparent : cn.parent = owner q) (hdeep : D → DeepBelow s q cn) {g : Global} {s₃ : Mem}
    (hgm : GrownMem env (s.lockedWithLeaf env c cn key g) s₃ (cn.setVersion (setLock cn.version))
      nd)
    (hga : GrownAdd (s.lockedWithLeaf env c cn key g) (cn.setVersion (setLock cn.version)) nd b
      (env.addr s.allocated + 1))
    (hfresh : s'.Fresh env) (hu : 0 ≤ s'.global.curLocalMemoryUsage)
    (hred : Redirected s s' q (env.addr (s.allocated + 1)))
    (hother : ∀ x, x ≠ c → x ≠ owner q → s'.heap x = s₃.heap x) : Settled D env s' := by
  have hs := h.wired.fresh
  have hreach := hw.place.reachable hp (hs.not_isLeaf hc)
  have hlk := lockedNode cn
  have hco : c ≠ owner q := h.wired.owner_ne hw.place hp
  let ν := env.addr (s.allocated + 1)
  let lam := env.addr s.allocated
  have hνo : ν ≠ owner q := (hs.ne_addr (h.wired.owner_used hw.place) (Nat.le_succ _)).symm
  have hνc : ν ≠ c := (hs.ne_addr (Or.inr (by simp [Mem.heap_of_node? hc])) (Nat.le_succ _)).symm
  have hlamc : lam ≠ c := (hs.ne_of_node? hc).symm
  -- the blocks that are left alone
  have hkept {x : Addr} (hx : s.heap x ≠ none) (hxc : x ≠ c) (hxo : x ≠ owner q)
      (hchild : ∀ d, cn.childAt d = some x → isLeaf x = true) : s'.heap x = s.heap x := by
    rw [hother x hxc hxo, hgm.other x (hs.ne_addr (Or.inr hx) (Nat.le_succ _))
      (fun d hd => hchild d (by rwa [hlk.childAt] at hd)),
      Mem.heap_lockedWithLeaf hs key g (Or.inr hx) hxc]
  -- the children of the node
  have hadopted {x : Addr} {xd : ArtNode} {d : UInt8} (hd : cn.childAt d = some x)
      (hxd : s.node? x = some xd) : s'.node? x = some (xd.setParent ν) := by
    have hpt : s.PtrAt (.edge c d) x := ⟨cn, hc, hd⟩
    have hxc : x ≠ c := h.wired.owner_ne (q := .edge c d) hreach hpt
    have hxo : x ≠ owner q := h.wired.below_ne_owner hw.place hp (hs.not_isLeaf hc) hpt
    rw [Mem.node?_congr (hother x hxc hxo)]
    refine hgm.child d x xd (by rwa [hlk.childAt]) (hs.not_isLeaf hxd) ?_
    rw [Mem.node?_congr (Mem.heap_lockedWithLeaf hs key g
      (Or.inr (by simp [Mem.heap_of_node? hxd])) hxc), hxd]
  -- the copy is as deep as the node
  have hmeta (hD : D) : nd.sidleMeta.depth = s.depthAbove q + 1 := by
    rw [hga.sidleMeta]
    change (Mem.newMeta _ cn.parent _).depth = _
    rw [hparent]
    refine hw.newMeta_depth hD (congrArg _ ?_) _
    exact Mem.node?_congr (Mem.heap_lockedWithLeaf hs key g (h.wired.owner_used hw.place) hco.symm)
  have hput : NodePut D env s s' q c ν nd := {
    fresh := hfresh
    redirected := hred
    new_eq := ⟨_, Nat.le_succ _, rfl⟩
    node := by
      rw [Mem.node?_congr (hother ν hνc hνo)]
      exact hgm.new_
    rest := ⟨hga.ok, hga.old, hga.locked, hga.expanding,
      (hga.prefixLen.trans hlk.prefixLen).trans_le (h.wired.rest c cn hreach hc).prefixLen⟩
    parent := hga.parent.trans hparent
    deep := fun hD => by
      have hd := hdeep hD
      have ho : getOffset nd.version = getOffset cn.version := hga.offset.trans hlk.offset
      exact ⟨hmeta hD, by rw [hmeta hD, ← hd.depth, ho]; exact hd.le_offset,
        by rw [ho]; exact hd.offset⟩
    child := fun d p hd => by
      rw [hga.childAt] at hd
      split at hd
      · -- the new leaf
        obtain rfl := Option.some.inj hd
        refine Or.inr ⟨s.allocated, childLeaf cn.sidleMeta key, Nat.le_refl _, rfl, ?_,
          fun hD => ?_, fun d' hd' => ?_⟩
        · have hlo : lam ≠ owner q :=
            (hs.ne_addr (h.wired.owner_used hw.place) (Nat.le_refl _)).symm
          have hlν : lam ≠ ν := fun heq => by
            have := env.addr_injective heq
            omega
          rw [Mem.leaf?_congr (hother lam hlamc hlo),
            Mem.leaf?_congr (hgm.other lam hlν fun d' hd' => ?_)]
          · exact Mem.leaf?_lockedWithLeaf key g
          · rw [hlk.childAt] at hd'
            exact absurd rfl ((h.wired.leads (.edge c d') lam hreach ⟨cn, hc, hd'⟩).ne_addr hs
              (Nat.le_refl _))
        · rw [(hdeep hD).childLeaf_depth, (hdeep hD).depth, hmeta hD]
        · rw [hga.childAt] at hd'
          split at hd'
          · exact ‹d' = b›.trans ‹d = b›.symm
          · rw [hlk.childAt] at hd'
            exact absurd rfl ((h.wired.leads (.edge c d') _ hreach ⟨cn, hc, hd'⟩).ne_addr_succ hs
              (Nat.le_refl _))
      · rw [hlk.childAt] at hd
        exact Or.inl ⟨hreach, ⟨cn, hc, hd⟩, fun xd hxd => hadopted hd hxd⟩
    other := fun x xd hx hxo hxc hxd => by
      by_cases hchild : ∃ d, cn.childAt d = some x
      · obtain ⟨d, hd⟩ := hchild
        refine Or.inr ⟨hreach, ?_, hadopted hd hxd⟩
        obtain ⟨xd', hxd', hpar, -⟩ := (h.wired.leads (.edge c d) x hreach ⟨cn, hc, hd⟩).node hs
          (hs.not_isLeaf hxd)
        obtain rfl := Option.some.inj (hxd.symm.trans hxd')
        exact hpar
      · refine Or.inl ((Mem.node?_congr (hkept (by simp [Mem.heap_of_node? hxd]) hxc hxo
          fun d hd => absurd ⟨d, hd⟩ hchild)).trans hxd)
    leaf := fun a l hl _ => by
      refine ⟨l, (Mem.leaf?_congr (hkept (by simp [Mem.heap_of_leaf? hl])
        (Mem.ne_of_node?_of_leaf? hc hl).symm (hw.leaf_ne_owner h hl) fun d hd => ?_)).trans hl,
        rfl⟩
      rcases h.wired.leads (.edge c d) a hreach ⟨cn, hc, hd⟩ with
        ⟨a', l', rfl, hl', -⟩ | ⟨xd, hxd, -⟩
      · exact hs.isLeaf_of_leaf? hl'
      · exact absurd rfl (Mem.ne_of_node?_of_leaf? hxd hl) }
  exact ⟨hput.wired h.wired hw.place hp, hu⟩

/-- The node has no child for the byte. -/
theorem ensures_addChild (hp : s.PtrAt q c) (hc : s.node? c = some cn)
    (hparent : cn.parent = owner q) (hdeep : D → DeepBelow s q cn) {k : ℕ}
    (hnone : ∀ b, key[off + k]? = some b → cn.slotOf b = none) (goBegin : ArtM ℤ)
    (descend : Slot → ArtM ℤ) (fuel : ℕ) :
    env.machine.Ensures (putAddChild env fuel goBegin descend slot c key (off + k) k) s
      fun _ s' => Settled D env s' := by
  have hle (m : ℕ) : putAddChild env m goBegin descend slot c key (off + k) k ≤
      putAddChild env (m + 1) goBegin descend slot c key (off + k) k :=
    putAddChild_le_succ env (le_refl goBegin) (fun _ => le_refl _) ..
  refine .of_le (hle fuel) (.of_le (hle (fuel + 1)) ?_)
  have hs := h.wired.fresh
  have hreach := hw.place.reachable hp (hs.not_isLeaf hc)
  have hrest := h.wired.rest c cn hreach hc
  have hco : c ≠ owner q := h.wired.owner_ne hw.place hp
  let n₁ := cn.setVersion (setLock cn.version)
  have hlk : LockedNode cn n₁ := lockedNode cn
  have hn₁ : (s.setNode c n₁).node? c = some n₁ := Mem.node?_setNode_self ..
  have hs₁ : (s.setNode c n₁).Fresh env := hs.setNode (hs.exists_addr_of_node? hc) _
  unfold putAddChild
  refine ensures_bind_of_done (run_artNodeLock hc hrest.unlocked hrest.old (fuel + 1)) ?_
  rw [if_neg (by simp)]
  refine ensures_bind.mpr (ensures_keyAt fun b hb => ?_)
  have hslotb : n₁.slotOf b = none := (hlk.slotOf b).trans (hnone b hb)
  obtain ⟨g, hg, hgu⟩ := run_allocLeaf env (s := s.setNode c n₁) h.usage
    (hs₁.nullOrNode_of_node? hn₁) key .remote
  rw [newLeaf_remote hn₁] at hg
  refine ensures_bind_of_done hg ?_
  let lam := env.addr s.allocated
  let s₂ := s.lockedWithLeaf env c cn key g
  have hn₂ : s₂.node? c = some n₁ := Mem.node?_lockedWithLeaf hs hc key g
  have hisleaf : isLeaf (lam + 1) = true := isLeaf_succ (env.addr_aligned s.allocated)
  by_cases hroom : cn.HasRoom
  · refine ensures_bind_of_done (run_artNodeAddChild_leaf hn₂ (hlk.ok hrest.ok)
      (hlk.room.mpr hroom) hslotb hisleaf (fuel + 2) true) ?_
    simp only [ne_eq, not_true_eq_false, if_false]
    refine ensures_bind_of_done (run_artNodeUnlock (Mem.node?_setNode_self ..)) ?_
    rw [Mem.setNode_setNode]
    exact ensures_pure.mpr
      ⟨(hw.leafPut_of_room h hp hc hdeep hroom (hnone b hb) g).1.wired h.wired, hgu⟩
  · have hpre := h.wired.growPre hreach hc (hparent ▸ h.wired.nullOrNode_owner hw.place)
      (hparent ▸ h.wired.owner_used hw.place) (hparent ▸ hco) key hgu
    obtain ⟨nd, s₃, hadd, hgm, hga⟩ := run_artNodeAddChild_full hpre (hlk.room.not.mpr hroom) hslotb
      hisleaf (Nat.succ_ne_zero _) (fuel + 1)
    refine ensures_bind_of_done hadd ?_
    simp only [ne_eq, Nat.ne_of_gt (env.addr_pos _), not_false_eq_true, if_true]
    let ν := env.addr (s.allocated + 1)
    have hνo : ν ≠ owner q := (hs.ne_addr (h.wired.owner_used hw.place) (Nat.le_succ _)).symm
    have hνc : ν ≠ c := (hs.ne_addr (Or.inr (by simp [Mem.heap_of_node? hc])) (Nat.le_succ _)).symm
    let s₄ := s₃.setNode c (n₁.retired ν)
    have hs₃ : s₃.Fresh env := hgm.fresh hpre
    have hs₄ : s₄.Fresh env := hs₃.setNode (hs₃.exists_addr_of_node? (hgm.node?_an hpre)) _
    have hc₄ : s₄.node? c = some (n₁.retired ν) := Mem.node?_setNode_self ..
    -- growth does not touch the owner of the place
    have hown : s₄.node? (owner q) = s.node? (owner q) := by
      rw [Mem.node?_setNode_of_ne _ _ hco.symm,
        Mem.node?_congr (hgm.other _ hνo.symm fun d hd => ?_),
        Mem.node?_congr (Mem.heap_lockedWithLeaf hs key g (h.wired.owner_used hw.place) hco.symm)]
      rw [hlk.childAt] at hd
      exact absurd rfl (h.wired.below_ne_owner hw.place hp (hs.not_isLeaf hc) ⟨cn, hc, hd⟩)
    have hfree := h.wired.freeSlot hw.place hw.slot
    refine ensures_bind_of_done (hfree.run_getLockedParent hs hco hc₄ hparent hown fuel) ?_
    obtain ⟨byte, hbyte, hrunb⟩ := hw.run_keyBefore h.wired
    rw [Nat.add_sub_cancel]
    refine ensures_bind_of_done (hrunb _) ?_
    let s₅ := s₄.lockNode (owner q)
    have hnew₅ : s₅.node? ν = some nd := by
      rw [Mem.node?_lockNode_of_ne hνo, Mem.node?_setNode_of_ne _ _ hνc]
      exact hgm.new_
    obtain ⟨s₆, hrun₆, hlink⟩ := hfree.run_linkNewNode hbyte (Mem.node?_lockNode_congr hown)
      ((Mem.root_lockNode _).trans hgm.root) (hs₄.lockNode _) hnew₅ (hga.parent.trans hparent) hνo
    refine ensures_bind_of_done hrun₆ ?_
    refine ((keeps_unlock_aside : env.machine.Keeps (Aside env c) _) s₆).bind fun _ s₇ haside =>
      ensures_pure.mpr ?_
    refine hw.settled_of_grown h hp hc hparent hdeep hgm hga (haside.fresh hlink.fresh) ?_
      (haside.redirected hco hlink.redirected) fun x hxc hxo => ?_
    · rw [haside.global, hlink.global]
      exact (congrArg Global.curLocalMemoryUsage (Mem.global_lockNode _)).symm ▸ hgm.usage
    · rw [haside.other x hxc, hlink.other x hxo, Mem.heap_lockNode_of_ne hxo, Mem.setNode_heap,
        Function.update_of_ne hxc]

/-- The slot of a child, and the walk to it. -/
theorem step (hkey : D → key.length ≤ 8) (hp : s.PtrAt q c) (hc : s.node? c = some cn)
    (hdeep : D → DeepBelow s q cn) (hoff : getOffset cn.version = off) {k i : ℕ}
    (hb : key[off + k]? = some b) (hi : cn.slotOf b = some i) :
    Walk D s key (.edge c b) (.child c i) (off + k + 1) where
  place := hw.place.reachable hp (h.wired.fresh.not_isLeaf hc)
  slot := ⟨cn, i, hc, hi, rfl⟩
  ptr := ⟨_, cn, hc, ArtNode.childAt_eq_some.mpr ⟨i, hi, rfl⟩⟩
  byte m b' hq := by
    obtain ⟨rfl, rfl⟩ := Place.edge.inj hq
    exact ⟨_, rfl, hb⟩
  deep hD := by
    obtain ⟨hlt, -⟩ := List.getElem?_eq_some_iff.mp hb
    have hle := (hdeep hD).le_offset
    have := hkey hD
    rw [Mem.depthAbove_edge hc]
    omega

end Walk

/-- **An insertion leaves a tree at rest**, wherever it ends.  The induction is on the fuel. -/
theorem ensures_walk_release (hb : env.build.assertions = false) (hkey : D → key.length ≤ 8)
    (h : Settled D env s) (hw : Walk D s key q slot off) (first : Bool) (fuel : ℕ) :
    env.machine.Ensures (_adaptiveRadixTreePut env key fuel first (owner q) slot off) s
      fun _ s' => Settled D env s' := by
  induction fuel generalizing q slot off first with
  | zero => exact ensures_diverge
  | succ fuel ih =>
    have hs := h.wired.fresh
    obtain ⟨p, hp⟩ := hw.ptr
    unfold _adaptiveRadixTreePut
    have hstale : Reads env (parentIsOld first (owner q)) := fun s =>
      ensures_ite (fun _ => ensures_pure.mpr rfl) fun _ =>
        Reads.then reads_load fun _ => ensures_pure.mpr rfl
    refine Reads.then hstale fun stale => ensures_ite (fun _ => ensures_pure.mpr h) fun _ => ?_
    refine ensures_bind_of_done (hw.loadSlot h.wired hp) ?_
    refine ensures_ite (fun hl => ?_) fun hl => ?_
    · -- a leaf
      rcases h.wired.leads q p hw.place hp with ⟨a, l, rfl, hleaf, -⟩ | ⟨nd, hnd, -⟩
      · exact hw.ensures_replaceLeaf h hb hp hleaf fuel
      · rw [hs.not_isLeaf hnd] at hl
        cases hl
    · obtain ⟨cn, hc, hparent, hdeep⟩ :=
        (h.wired.leads q p hw.place hp).node hs (by simpa using hl)
      have hrest := h.wired.rest p cn (hw.place.reachable hp (hs.not_isLeaf hc)) hc
      refine .of_le (bind_mono (artNodeGetStableExpandVersion_le_succ p fuel) fun _ => le_refl _) ?_
      refine ensures_bind_of_done (run_artNodeGetStableExpandVersion hc hrest.expanding fuel) ?_
      refine ensures_ite (fun _ => ih hw false) fun hoff => ?_
      have hoff : getOffset cn.version = off := by simpa using hoff
      refine ensures_ite (fun _ => ih hw false) fun _ => ?_
      refine ensures_bind_of_done (run_artNodePrefixCompare hc hrest.prefixLen key off) ?_
      refine ensures_bind_of_done (run_artNodeGetVersion hc) ?_
      refine ensures_ite (fun _ => ih hw false) fun _ => ensures_ite (fun _ => ?_) fun _ => ?_
      · exact hw.ensures_prefixMismatch h hb hp hc hparent _ _ fuel
      · unfold putDescend
        refine ensures_bind.mpr (ensures_keyAt fun b hkb => ?_)
        refine ensures_bind_of_done (run_artNodeFindChild hc hrest.ok b) ?_
        refine ensures_bind_of_done (run_artNodeGetVersion hc) ?_
        refine ensures_ite (fun _ => ih hw false) fun _ => ?_
        cases hi : cn.slotOf b with
        | none =>
          refine hw.ensures_addChild h hp hc hparent hdeep (fun b' hb' => ?_) _ _ fuel
          obtain rfl := Option.some.inj (hkb.symm.trans hb')
          exact hi
        | some i => exact ih (hw.step h hkey hp hc hdeep hoff hkb hi) true

/-! ### Runs -/

/-- The walk from the root. -/
theorem ensures_rootWalk_release (hb : env.build.assertions = false) (hkey : D → key.length ≤ 8)
    (h : Settled D env s) (fuel : ℕ) :
    env.machine.Ensures (_adaptiveRadixTreePut env key fuel true 0 .root 0) s
      fun _ s' => Settled D env s' := by
  by_cases h0 : s.root = 0
  · -- there is no node to read
    have hnone : s.node? 0 = none := h.wired.fresh.node?_zero
    have hver (fuel : ℕ) :
        env.machine.Ensures (artNodeGetStableExpandVersion fuel 0) s fun _ _ => False := by
      cases fuel with
      | zero => exact ensures_diverge
      | succ fuel =>
        exact Ensures.bind (P := fun _ _ => False)
          (ensures_load fun n hn _ => by rw [hnone] at hn; cases hn) fun _ _ hF => hF.elim
    cases fuel with
    | zero => exact ensures_diverge
    | succ fuel =>
      unfold _adaptiveRadixTreePut
      refine ensures_bind_of_done (env.machine.run_ret false s) ?_
      refine ensures_bind_of_done
        (h0 ▸ run_loadRoot : env.machine.run (loadSlot .root) s = done 0 s) ?_
      refine ensures_ite (fun hl => absurd hl (by decide)) fun _ => ?_
      exact (hver fuel).bind fun _ _ hF => hF.elim
  · refine ensures_walk_release hb hkey h (q := .root)
      ⟨trivial, rfl, ⟨_, rfl, h0⟩, by simp, fun _ => ?_⟩ true fuel
    simp [Mem.depthAbove_root h.wired.fresh]

theorem ensures_putRetry (hb : env.build.assertions = false) (hkey : D → key.length ≤ 8)
    (h : Settled D env s) (fuel : ℕ) :
    env.machine.Ensures (putRetry env key fuel) s fun _ s' => Settled D env s' := by
  induction fuel generalizing s with
  | zero => exact ensures_diverge
  | succ fuel ih =>
    refine (ensures_rootWalk_release hb hkey h fuel).bind fun ret s₁ h₁ => ?_
    exact ensures_ite (fun _ => ih h₁) fun _ => ensures_pure.mpr h₁

/-- What an insertion that has returned leaves. -/
theorem Settled.put (hb : env.build.assertions = false) (hkey : D → key.length ≤ 8)
    (h : Settled D env s) {r : ℤ}
    (hput : env.machine.Converges (adaptiveRadixTreePut env key) s r s') : Settled D env s' := by
  obtain ⟨fuel, hrun⟩ := hput
  by_cases h0 : s.root = 0
  · -- the first key
    have hs := h.wired.fresh
    obtain ⟨g, hg, hfirst⟩ := run_put_null hs h.usage h0 key
    obtain ⟨-, rfl⟩ := Outcome.done.inj ((hfirst fuel).symm.trans hrun)
    have hleaf : (s.withRootLeaf env (newLeaf s 0 key .remote) g).leaf? (env.addr s.allocated) =
        some (newLeaf s 0 key .remote) := Mem.leaf?_withLeaf_self _ _ g
    refine ⟨.of_leaf (hs.withRootLeaf _ g) rfl hleaf fun _ => ?_, hg⟩
    simp [newLeaf, Mem.newMeta, Mem.childDepth, hs.node?_zero, NodeMetadata.make]
  · refine ensures_putRetry hb hkey h fuel r s' ?_
    unfold adaptiveRadixTreePut at hrun
    rw [env.machine.run_bind_of_done run_loadRoot, if_neg h0] at hrun
    exact hrun

theorem Settled.init {g : Global} (hg : 0 ≤ g.curLocalMemoryUsage) :
    Settled D env (Mem.init g) :=
  ⟨.of_empty (fun _ ha => absurd rfl ha) rfl, hg⟩

theorem Settled.setGlobal (h : Settled D env s) {g : Global} (hg : 0 ≤ g.curLocalMemoryUsage) :
    Settled D env (s.setGlobal g) := by
  have hu : Undisturbed env s (s.setGlobal g) :=
    ⟨h.wired.fresh.setGlobal g, rfl, fun _ _ _ hx => hx, fun _ l hl _ => ⟨l, hl, rfl⟩⟩
  exact ⟨hu.wired h.wired, hg⟩

/-- Insertions of keys of any length.  Between two insertions the state shared with the workers may
change in any way. -/
inductive KeyRun (env : Env) : List Key → Mem → Prop
  | init {g : Global} (hg : 0 ≤ g.curLocalMemoryUsage) : KeyRun env [] (Mem.init g)
  | adjust {ks : List Key} {s : Mem} (h : KeyRun env ks s) {g : Global}
      (hg : 0 ≤ g.curLocalMemoryUsage) : KeyRun env ks (s.setGlobal g)
  | put {ks : List Key} {s s' : Mem} {key : Key} {r : ℤ} (h : KeyRun env ks s)
      (hput : env.machine.Converges (adaptiveRadixTreePut env key) s r s') :
      KeyRun env (ks ++ [key]) s'

/-- **A run leaves a tree at rest**, whatever its keys are. -/
theorem KeyRun.settled (hb : env.build.assertions = false) {ks : List Key} (h : KeyRun env ks s) :
    Settled False env s := by
  induction h with
  | init hg => exact .init hg
  | adjust _ hg ih => exact ih.setGlobal hg
  | put _ hput ih => exact ih.put hb False.elim hput

/-- A run with short keys leaves a tree at rest whose depths are followed. -/
theorem PutRun.settled {L : ℕ} (hb : env.build.assertions = false) (hL : L ≤ 8)
    {rs : List (Key × ℤ)} (h : PutRun env L rs s) : Settled True env s := by
  induction h with
  | init hg => exact .init hg
  | adjust _ hg ih => exact ih.setGlobal hg
  | put _ hkey hput ih => exact ih.put hb (fun _ => hkey ▸ hL) hput

/-- **When insertions get the depths right.**  After every initial part of a sequence of insertions
the depth of the root is one, and that of every node and leaf below it one more than that of its
parent, exactly when the build removes the assertions, or no key of the sequence splits a prefix
that two keys before it share. -/
theorem puts_depthsRight_iff {L : ℕ} (hL : L ≤ 8) {ks : List Key} (hlen : ∀ k ∈ ks, k.length = L) :
    (∀ rs s, PutRun env L rs s → keysOf rs <+: ks → DepthsRight s) ↔
      env.build.assertions = false ∨ ¬ SomeSplits ks := by
  cases hb : env.build.assertions with
  | false =>
    refine iff_of_true (fun rs s h _ => ?_) (Or.inl rfl)
    exact (h.settled hb hL).wired.depthsRight
  | true =>
    rw [depthsRight_iff_of_assertions hb hL hlen]
    simp

/-- The keys of `put_and_get_correct_of_three` split no prefix. -/
theorem puts_depthsRight_iff_of_three :
    (∀ rs s, PutRun sampleEnv 2 rs s → keysOf rs <+: [[1, 2], [1, 3], [1, 2]] → DepthsRight s) ↔
      sampleEnv.build.assertions = false ∨ ¬ SomeSplits [[1, 2], [1, 3], [1, 2]] :=
  puts_depthsRight_iff (by decide) (by decide)

end Sidle.Art
