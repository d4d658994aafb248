import Sidle.Art.NodeSpec
import Sidle.Prog.Ensures

/-!
# What the accesses of the tree ensure

The rules of partial correctness for the accesses of the radix tree: what holds whenever an
access returns.

## Main results

* `ensures_load`, `ensures_store`, … — the rules for the accesses.
* `ensures_forRange_lt` — a loop that returns has stayed where its rounds return.
-/

namespace Sidle.Art

open Prog Machine Outcome

variable {env : Env} {s : Mem} {an : Addr} {α β : Type}

theorem ensures_load {f : NodeField β} {Q : β → Mem → Prop}
    (h : ∀ n, s.node? an = some n → f.InBounds n.layout → Q (f.get n) s) :
    env.machine.Ensures (load an f) s Q := by
  refine ensures_lift.mpr fun b s' hexec => ?_
  change env.exec (.load an f) s = .ok (b, s') at hexec
  simp only [Env.exec] at hexec
  cases hn : s.node? an with
  | none => simp [hn] at hexec
  | some n =>
    simp only [hn] at hexec
    split at hexec
    · cases hexec
      exact h n hn ‹_›
    · cases hexec

theorem ensures_store {f : NodeField β} {x : β} {Q : Unit → Mem → Prop}
    (h : ∀ n, s.node? an = some n → f.InBounds n.layout → Q () (s.setNode an (f.set x n))) :
    env.machine.Ensures (store an f x) s Q := by
  refine ensures_lift.mpr fun b s' hexec => ?_
  change env.exec (.store an f x) s = .ok (b, s') at hexec
  simp only [Env.exec] at hexec
  cases hn : s.node? an with
  | none => simp [hn] at hexec
  | some n =>
    simp only [hn] at hexec
    split at hexec
    · cases hexec
      exact h n hn ‹_›
    · cases hexec

theorem ensures_loadLeaf {f : LeafField β} {Q : β → Mem → Prop}
    (h : ∀ l, s.leaf? an = some l → f.InBounds l → Q (f.get l) s) :
    env.machine.Ensures (loadLeaf an f) s Q := by
  refine ensures_lift.mpr fun b s' hexec => ?_
  change env.exec (.loadLeaf an f) s = .ok (b, s') at hexec
  simp only [Env.exec] at hexec
  cases hl : s.leaf? an with
  | none => simp [hl] at hexec
  | some l =>
    simp only [hl] at hexec
    split at hexec
    · cases hexec
      exact h l hl ‹_›
    · cases hexec

theorem ensures_storeLeaf {f : LeafField β} {x : β} {Q : Unit → Mem → Prop}
    (h : ∀ l, s.leaf? an = some l → f.InBounds l → Q () (s.setLeaf an (f.set x l))) :
    env.machine.Ensures (storeLeaf an f x) s Q := by
  refine ensures_lift.mpr fun b s' hexec => ?_
  change env.exec (.storeLeaf an f x) s = .ok (b, s') at hexec
  simp only [Env.exec] at hexec
  cases hl : s.leaf? an with
  | none => simp [hl] at hexec
  | some l =>
    simp only [hl] at hexec
    split at hexec
    · cases hexec
      exact h l hl ‹_›
    · cases hexec

theorem ensures_casVersion {expected desired : Version} {Q : Bool → Mem → Prop}
    (hs : ∀ n, s.node? an = some n → n.version = expected →
      Q true (s.setNode an { n with version := desired })) (hf : Q false s) :
    env.machine.Ensures (lift (.casVersion an expected desired)) s Q := by
  refine ensures_lift.mpr fun b s' hexec => ?_
  change env.exec (.casVersion an expected desired) s = .ok (b, s') at hexec
  simp only [Env.exec] at hexec
  cases hn : s.node? an with
  | none => simp [hn] at hexec
  | some n =>
    simp only [hn] at hexec
    split at hexec
    · cases hexec
      exact hs n hn ‹_›
    · cases hexec
      exact hf

theorem ensures_loadRoot {Q : Ptr → Mem → Prop} (h : Q s.root s) :
    env.machine.Ensures (lift .loadRoot) s Q := ensures_lift.mpr fun _ _ hexec => by
  cases hexec
  exact h

theorem ensures_casRoot {expected desired : Ptr} {Q : Bool → Mem → Prop}
    (h : ∀ b, Q b s) (h' : Q true (s.setRoot desired)) :
    env.machine.Ensures (lift (.casRoot expected desired)) s Q := by
  refine ensures_lift.mpr fun b s' hexec => ?_
  change env.exec (.casRoot expected desired) s = .ok (b, s') at hexec
  simp only [Env.exec] at hexec
  split at hexec
  · cases hexec
    exact h'
  · cases hexec
    exact h false

theorem ensures_onGlobal {f : Global → Option (β × Global)} {Q : β → Mem → Prop}
    (h : ∀ b g, f s.global = some (b, g) → Q b (s.setGlobal g)) :
    env.machine.Ensures (lift (.onGlobal f)) s Q := by
  refine ensures_lift.mpr fun b s' hexec => ?_
  change env.exec (.onGlobal f) s = .ok (b, s') at hexec
  simp only [Env.exec] at hexec
  cases hf : f s.global with
  | none => simp [hf] at hexec
  | some bg =>
    obtain ⟨b', g⟩ := bg
    simp only [hf] at hexec
    cases hexec
    exact h _ _ hf

theorem ensures_keyAt {key : Key} {off : ℕ} {Q : UInt8 → Mem → Prop}
    (h : ∀ b, key[off]? = some b → Q b s) : env.machine.Ensures (keyAt key off) s Q := by
  unfold keyAt
  split
  · exact ensures_pure.mpr (h _ ‹_›)
  · exact ensures_fail

/-- An assertion whose expression keeps a preorder. -/
theorem keeps_assertTrue {R : Mem → Mem → Prop} [IsPreorder Mem R] {build : Build} {e : ArtM Bool}
    (h : env.machine.Keeps R e) : env.machine.Keeps R (assertTrue build e) :=
  keeps_ite (h.bind fun _ => keeps_ite keeps_pure keeps_fail) keeps_pure

/-- A loop whose rounds do not return from `m` on has fewer rounds when it returns. -/
theorem ensures_forRange_lt (start n m : ℕ) {body : ℕ → ArtM Unit}
    (h : ∀ i s, env.machine.Ensures (body i) s fun _ _ => i < m) :
    env.machine.Ensures (forRange start n body) s fun _ _ => n = 0 ∨ start + n ≤ m := by
  induction n generalizing start s with
  | zero => exact ensures_ret.mpr (Or.inl rfl)
  | succ n ih =>
    refine (h start s).bind fun _ s' hlt => (ih (start + 1)).imp fun _ _ hn => Or.inr ?_
    omega

/-- The bytes of a leaf fit into the prefix of a node when they have been copied. -/
theorem ensures_setPrefixFromLeaf (leaf : Addr) (off n : ℕ) :
    env.machine.Ensures (setPrefixFromLeaf an leaf off n) s fun _ _ => n ≤ 8 := by
  refine (ensures_forRange_lt 0 n 8 fun i s => ?_).bind fun _ s' hn => fun _ _ _ => by omega
  exact Ensures.bind (P := fun _ _ => True) (fun _ _ _ => trivial) fun _ _ _ =>
    ensures_store fun _ _ hi => hi

/-! ### Allocation -/

theorem ensures_childDepth (parent : Addr) {Q : ℕ → Mem → Prop} (h : ∀ d, Q d s) :
    env.machine.Ensures (childDepth parent) s Q := by
  unfold childDepth
  exact ensures_ite (fun _ => ensures_pure.mpr (h _)) fun _ =>
    (ensures_load (Q := fun _ s' => s' = s) fun _ _ _ => rfl).bind fun _ _ hs => by
      subst hs
      exact ensures_pure.mpr (h _)

theorem ensures_newNodeType (parent : Addr) (targetType : NodeMemType) (curDepth : ℕ)
    {Q : NodeMemType → Mem → Prop} (h : ∀ t, Q t s) :
    env.machine.Ensures (newNodeType parent targetType curDepth) s Q := by
  have hdecide (t : NodeMemType) : env.machine.Ensures (decideNewNodePosition t curDepth) s Q :=
    ensures_onGlobal fun b g hg => by
      cases hg
      exact h _
  unfold newNodeType
  refine ensures_ite (fun _ => ?_) fun _ => ensures_pure.mpr (h _)
  refine ensures_ite (fun _ => hdecide _) fun _ => ?_
  exact (ensures_load (Q := fun _ s' => s' = s) fun _ _ _ => rfl).bind fun _ _ hs => by
    subst hs
    exact hdecide _

theorem ensures_updateLocalMemoryUsage (type : NodeMemType) (curDepth : ℕ) (size : ℤ)
    (isMigration isLeaf : Bool) {Q : Unit → Mem → Prop} (h : ∀ g, Q () (s.setGlobal g)) :
    env.machine.Ensures (updateLocalMemoryUsage env type curDepth size isMigration isLeaf) s Q :=
  ensures_onGlobal fun _ g _ => h g

theorem ensures_accountAlloc (type : NodeMemType) (curDepth : ℕ) (size : ℤ)
    (isMigration isLeaf : Bool)
    {Q : Unit → Mem → Prop} (h : ∀ g, Q () (s.setGlobal g)) :
    env.machine.Ensures (accountAlloc env type curDepth size isMigration isLeaf) s Q :=
  ensures_ite (fun _ => ensures_updateLocalMemoryUsage _ _ _ _ _ h)
    fun _ => ensures_pure.mpr (h s.global)

theorem ensures_mallocLeaf (len : ℕ) {Q : Addr → Mem → Prop}
    (h : Q (env.addr s.allocated) (env.mallocLeaf s len)) :
    env.machine.Ensures (lift (.mallocLeaf len)) s Q := ensures_lift.mpr fun _ _ hexec => by
  cases hexec
  exact h

/-- A field of a leaf that has just been allocated. -/
theorem ensures_storeLeaf_withLeaf {len : ℕ} {l : LeafNode} {g : Global} {f : LeafField β} {x : β}
    {Q : Unit → Mem → Prop} (h : Q () (s.withLeaf env len (f.set x l) g)) :
    env.machine.Ensures (storeLeaf (env.addr s.allocated) f x) (s.withLeaf env len l g) Q :=
  ensures_storeLeaf fun l' hl' _ => by
    obtain rfl : l = l' := by simpa using hl'
    rwa [Mem.setLeaf_withLeaf]

/-- What `alloc_leaf` does: a new block holds the key, and the state that is shared with the workers
may have changed. -/
theorem ensures_allocLeaf (parent : Addr) (key : Key) (targetType : NodeMemType)
    (isMigration : Bool)
    {Q : Ptr → Mem → Prop}
    (h : ∀ m g, Q (env.addr s.allocated + 1)
      (s.withLeaf env key.length ⟨UInt8.ofNat key.length, m, 0, key⟩ g)) :
    env.machine.Ensures (allocLeaf env parent key targetType isMigration) s Q := by
  refine ensures_bind.mpr (ensures_childDepth parent fun d => ?_)
  refine ensures_bind.mpr (ensures_newNodeType parent targetType d fun t => ?_)
  refine ensures_bind.mpr (ensures_mallocLeaf key.length ?_)
  have hblank : env.mallocLeaf s key.length =
      s.withLeaf env key.length (Env.blankLeaf key.length) s.global := by
    simp [Mem.withLeaf, Env.mallocLeaf, Mem.setLeaf, Mem.setGlobal, Env.blankLeaf]
  rw [hblank]
  refine ensures_bind.mpr (ensures_storeLeaf_withLeaf ?_)
  refine ensures_bind.mpr (ensures_storeLeaf_withLeaf ?_)
  refine ensures_bind.mpr (ensures_accountAlloc _ _ _ _ _ fun g => ?_)
  refine ensures_bind.mpr (ensures_storeLeaf_withLeaf (g := g) ?_)
  refine ensures_bind.mpr (ensures_storeLeaf_withLeaf (g := g) ?_)
  rw [makeLeaf_succ (env.addr_aligned _)]
  exact ensures_pure.mpr (h _ g)

/-- What the block of a new node holds for certain. -/
structure ClearedNode (t : NodeType) (nd : ArtNode) : Prop where
  layout : nd.layout = t
  version : nd.version = setType 0 t
  index : t = .node48 → ∀ b, nd.index b = 0
  child : t = .node256 → ∀ i < 256, nd.child i = 0

/-- A field of a node that has just been allocated. -/
theorem ensures_store_withNode {t : NodeType} {nd : ArtNode} {g : Global} {f : NodeField β} {x : β}
    {Q : Unit → Mem → Prop} (h : Q () (s.withNode env t (f.set x nd) g)) :
    env.machine.Ensures (store (env.addr s.allocated) f x) (s.withNode env t nd g) Q :=
  ensures_store fun nd' hnd' _ => by
    obtain rfl : nd = nd' := by simpa using hnd'
    rwa [Mem.setNode_withNode]

/-- What `new_art_node4` … `new_art_node256` do: a new block holds a node without children. -/
theorem ensures_newArtNodeOf (t : NodeType) (parent : Addr) (oldSize : ℕ) {Q : Addr → Mem → Prop}
    (h : ∀ nd g, ClearedNode t nd → Q (env.addr s.allocated) (s.withNode env t nd g)) :
    env.machine.Ensures (newArtNodeOf env t parent oldSize) s Q := by
  -- `sidle_alloc`
  have halloc : env.machine.Ensures (sidleAllocNode env t parent .unknown false oldSize) s
      fun an s' => an = env.addr s.allocated ∧ ∃ nd g,
        nd.layout = t ∧ s' = s.withNode env t nd g := by
    refine ensures_bind.mpr (ensures_childDepth parent fun d => ?_)
    refine ensures_bind.mpr (ensures_newNodeType parent .unknown d fun type => ?_)
    refine ensures_bind.mpr (ensures_lift.mpr fun a s' hexec => ?_)
    cases hexec
    have hblank : env.mallocNode s t = s.withNode env t (env.blankNode s t) s.global := by
      simp [Mem.withNode, Env.mallocNode, Mem.setNode, Mem.setGlobal, Env.blankNode]
    rw [hblank]
    refine ensures_bind.mpr (ensures_store_withNode ?_)
    refine ensures_bind.mpr (ensures_accountAlloc _ _ _ _ _ fun g => ?_)
    exact ensures_pure.mpr ⟨rfl, _, g, rfl, rfl⟩
  refine ensures_bind.mpr (halloc.bind fun an s' hs' => ?_)
  obtain ⟨rfl, nd, g, hnd, rfl⟩ := hs'
  refine ensures_bind.mpr (ensures_store_withNode ?_)
  refine ensures_bind.mpr (ensures_store_withNode ?_)
  refine ensures_bind.mpr (ensures_store_withNode ?_)
  refine ensures_pure.mpr ?_
  -- the layout and the arrays
  refine ensures_bind_of_done (run_load (f := .version) (Mem.node?_withNode_self ..) trivial) ?_
  refine ensures_bind.mpr (ensures_store_withNode ?_)
  let nd₁ : ArtNode := { nd with version := setType 0 t, new_ := 0, parent := 0 }
  have hnode : (s.withNode env t nd₁ g).node? (env.addr s.allocated) = some nd₁ :=
    Mem.node?_withNode_self t nd₁ g
  obtain ⟨index, child, hrun, hindex, hchild⟩ := run_memsetBody env hnode hnd
  refine ensures_bind_of_done hrun ?_
  rw [Mem.setNode_withNode]
  exact ensures_pure.mpr (h _ g ⟨hnd, rfl, hindex, hchild⟩)

end Sidle.Art
