import Sidle.Art.NodeSpec

/-!
# Adding a child, with growth

A full node grows by copying itself into a fresh node of the next layout, whose children
are made to point to it as their parent.  What the copying loops do to the rest of the
memory is the relation `Adopted`: some internal nodes get another parent and nothing
else happens.

## Main definitions

* `Mem.Adopted` — the memory in which a set of children has been given a new parent.
* `GrowPre` — what growth needs of the node it copies.

## Main results

* `run_artNodeAddChild` — adding a child to a node with room.
* `run_artNodeGrow` — the grown node has the same children, prefix and offset.
* `run_artNodeAddChild_full` — adding a child to a full node.
-/

namespace Sidle.Art

open Prog Machine Outcome

variable {env : Env} {s : Mem} {an : Addr} {n : ArtNode}

/-! ### Adopting children -/

/-- The node with another parent. -/
def ArtNode.setParent (n : ArtNode) (p : Addr) : ArtNode := { n with parent := p }

/-- The memory `s'` is `s` after the internal nodes of `D` have been given the parent `p`.
The block at `p` itself is left open. -/
structure Mem.Adopted (s s' : Mem) (p : Addr) (D : Ptr → Prop) : Prop where
  child : ∀ a, a ≠ p → D a → isLeaf a = false → ∀ m, s.node? a = some m →
    s'.node? a = some (m.setParent p)
  other : ∀ a, a ≠ p → (D a → isLeaf a = true) → s'.heap a = s.heap a
  allocated : s'.allocated = s.allocated
  root : s'.root = s.root
  global : s'.global = s.global

theorem Mem.Adopted.refl (s : Mem) (p : Addr) : s.Adopted s p fun _ => False :=
  ⟨fun _ _ h => h.elim, fun _ _ _ => rfl, rfl, rfl, rfl⟩

theorem Mem.Adopted.congr {s s' : Mem} {p : Addr} {D D' : Ptr → Prop} (h : s.Adopted s' p D)
    (hD : ∀ a, D a ↔ D' a) : s.Adopted s' p D' :=
  (funext fun a => propext (hD a) : D = D') ▸ h

/-- The block at `p` may be anything. -/
theorem Mem.Adopted.setNode {s s' : Mem} {p : Addr} {D : Ptr → Prop} (h : s.Adopted s' p D)
    (n : ArtNode) : s.Adopted (s'.setNode p n) p D where
  child a ha hD hl m hm := by rw [Mem.node?_setNode_of_ne _ _ ha, h.child a ha hD hl m hm]
  other a ha hD := by rw [Mem.setNode_heap, Function.update_of_ne ha, h.other a ha hD]
  allocated := h.allocated
  root := h.root
  global := h.global

variable (env) in
/-- One more child is adopted. -/
theorem Mem.Adopted.run_adopt {s s' : Mem} {p : Addr} {D : Ptr → Prop} (h : s.Adopted s' p D)
    {c : Ptr} (hc : isLeaf c = true ∨ ∃ m, s.node? c = some m) (hcp : c ≠ p) :
    ∃ s'', env.machine.run (adopt c p) s' = done () s'' ∧ s''.heap p = s'.heap p ∧
      s.Adopted s'' p fun a => D a ∨ a = c := by
  unfold adopt
  by_cases hl : isLeaf c = true
  · rw [if_pos hl]
    refine ⟨s', rfl, rfl, ⟨?_, ?_, h.allocated, h.root, h.global⟩⟩
    · rintro a ha (hD | rfl) hla m hm
      · exact h.child a ha hD hla m hm
      · simp [hl] at hla
    · exact fun a ha hD => h.other a ha fun hDa => hD (Or.inl hDa)
  · rw [if_neg hl]
    obtain ⟨m, hm⟩ := hc.resolve_left hl
    -- the child has its old parent or has been adopted before
    obtain ⟨m', hm', heq⟩ : ∃ m', s'.node? c = some m' ∧ m'.setParent p = m.setParent p := by
      by_cases hD : D c
      · exact ⟨_, h.child c hcp hD (by simpa using hl) m hm, rfl⟩
      · exact ⟨m, by rw [Mem.node?_congr (h.other c hcp fun h => absurd h hD), hm], rfl⟩
    refine ⟨_, run_store (f := .parent) hm' trivial, Function.update_of_ne (Ne.symm hcp) _ _,
      ⟨?_, ?_, h.allocated, h.root, h.global⟩⟩
    · intro a ha hD hla m₁ hm₁
      by_cases hac : a = c
      · subst hac
        obtain rfl : m = m₁ := by simpa [hm] using hm₁
        exact (Mem.node?_setNode_self ..).trans (congrArg some heq)
      · rw [Mem.node?_setNode_of_ne _ _ hac]
        exact h.child a ha (hD.resolve_right hac) hla m₁ hm₁
    · intro a ha hD
      have hac : a ≠ c := by
        rintro rfl
        exact hl (hD (Or.inr rfl))
      rw [Mem.setNode_heap, Function.update_of_ne hac]
      exact h.other a ha fun hDa => hD (Or.inl hDa)

/-! ### A node with room -/

theorem run_artNodeAddChild_leaf (h : s.node? an = some n) (hok : n.Ok) (hr : n.HasRoom)
    {byte : UInt8} (hb : n.slotOf byte = none) {p : Ptr} (hp : isLeaf p = true) (fuel : ℕ)
    (wantNew : Bool) :
    env.machine.run (artNodeAddChild env fuel an byte p wantNew) s =
      done (none, 0) (s.setNode an (n.addChild byte p)) := by
  unfold artNodeAddChild
  refine (env.machine.run_bind_of_done (run_load (f := .version) h trivial)).trans ?_
  refine (env.machine.run_bind_of_done (run_artNodeFindChild h hok byte)).trans ?_
  simp only [hb, Option.map_none, Option.isSome_none, Bool.false_eq_true, if_false]
  refine (env.machine.run_bind_of_done (run_artNodeIsFull h hok)).trans ?_
  simp only [hr, decide_true, Bool.not_true, Bool.false_eq_true, if_false]
  refine (env.machine.run_bind_of_done (run_addChildBody h hok hr byte p)).trans ?_
  simp [adopt, hp]

theorem run_artNodeAddChild_node (h : s.node? an = some n) (hok : n.Ok) (hr : n.HasRoom)
    {byte : UInt8} (hb : n.slotOf byte = none) {p : Ptr} (hp : isLeaf p = false) {m : ArtNode}
    (hm : s.node? p = some m) (hne : p ≠ an) (fuel : ℕ) (wantNew : Bool) :
    env.machine.run (artNodeAddChild env fuel an byte p wantNew) s =
      done (none, 0) ((s.setNode an (n.addChild byte p)).setNode p (m.setParent an)) := by
  unfold artNodeAddChild
  refine (env.machine.run_bind_of_done (run_load (f := .version) h trivial)).trans ?_
  refine (env.machine.run_bind_of_done (run_artNodeFindChild h hok byte)).trans ?_
  simp only [hb, Option.map_none, Option.isSome_none, Bool.false_eq_true, if_false]
  refine (env.machine.run_bind_of_done (run_artNodeIsFull h hok)).trans ?_
  simp only [hr, decide_true, Bool.not_true, Bool.false_eq_true, if_false]
  refine (env.machine.run_bind_of_done (run_addChildBody h hok hr byte p)).trans ?_
  simp only [adopt, hp, Bool.false_eq_true, if_false]
  have hm' : (s.setNode an (n.addChild byte p)).node? p = some m := by
    rw [Mem.node?_setNode_of_ne _ _ hne, hm]
  refine (env.machine.run_bind_of_done (run_store (f := .parent) hm' trivial)).trans ?_
  rfl

/-! ### Growth -/

/-- What growth needs of the node it copies. -/
structure GrowPre (env : Env) (s : Mem) (an : Addr) (n : ArtNode) : Prop where
  fresh : s.Fresh env
  usage : 0 ≤ s.global.curLocalMemoryUsage
  node : s.node? an = some n
  ok : n.Ok
  parent : s.NullOrNode n.parent
  child : ∀ b c, n.childAt b = some c → c ≠ an ∧ c ≠ 0 ∧ (isLeaf c = true ∨ ∃ m, s.node? c = some m)

/-- The layout a full node grows into. -/
def NodeType.next : NodeType → NodeType
  | .node4 => .node16
  | .node16 => .node48
  | _ => .node256

/-- The node `nd` is a copy of the full node `n` in the next layout. -/
structure Grown (s : Mem) (n nd : ArtNode) : Prop where
  layout : nd.layout = n.layout.next
  ok : nd.Ok
  room : nd.HasRoom
  childAt : ∀ b, nd.childAt b = n.childAt b
  prefix_ : nd.prefix_ = n.prefix_
  parent : nd.parent = n.parent
  sidleMeta : nd.sidleMeta = s.newMeta n.parent .unknown
  prefixLen : getPrefixLen nd.version = getPrefixLen n.version
  old : isOld nd.version = false
  expanding : isExpanding nd.version = false

/-- The memory `s'` is `s` with the copy `nd` of `n` in the next block, which has adopted
the children of `n`. -/
structure GrownMem (env : Env) (s s' : Mem) (n nd : ArtNode) : Prop where
  new_ : s'.node? (env.addr s.allocated) = some nd
  child : ∀ b c m, n.childAt b = some c → isLeaf c = false → s.node? c = some m →
    s'.node? c = some (m.setParent (env.addr s.allocated))
  other : ∀ a, a ≠ env.addr s.allocated → (∀ b, n.childAt b = some a → isLeaf a = true) →
    s'.heap a = s.heap a
  allocated : s'.allocated = s.allocated + 1
  root : s'.root = s.root
  usage : 0 ≤ s'.global.curLocalMemoryUsage

namespace GrowPre

variable (hp : GrowPre env s an n)

include hp

theorem an_ne : an ≠ env.addr s.allocated := hp.fresh.ne_of_node? hp.node

theorem child_ne {b : UInt8} {c : Ptr} (h : n.childAt b = some c) : c ≠ env.addr s.allocated := by
  rintro rfl
  rcases (hp.child b _ h).2.2 with hl | ⟨m, hm⟩
  · rw [not_isLeaf_of_aligned (env.addr_aligned _)] at hl
    simp at hl
  · exact hp.fresh.ne_of_node? hm rfl

end GrowPre

/-- The fresh node `nd` with the prefix and the parent of `n`. -/
def headerNode (t : NodeType) (n nd : ArtNode) : ArtNode :=
  { nd with
    prefix_ := n.prefix_
    version := setPrefixLen (setType 0 t) (getPrefixLen n.version)
    parent := n.parent }

/-- The common beginning of growth: a fresh node with the prefix and the parent. -/
theorem run_growHeader (hp : GrowPre env s an n) {t : NodeType} (oldSize : ℕ)
    (ho : oldSize ≤ t.size) :
    ∃ nd g, env.machine.run (growHeader env t an n.version oldSize) s =
        done (env.addr s.allocated) (s.withNode env t (headerNode t n nd) g) ∧
      NewNode s t n.parent nd ∧ 0 ≤ g.curLocalMemoryUsage := by
  obtain ⟨nd, g, hnew, hnd, hg⟩ := run_newArtNodeOf env hp.usage hp.parent oldSize ho
  refine ⟨nd, g, ?_, hnd, hg⟩
  have hself (nd : ArtNode) : (s.withNode env t nd g).node? an = some n := by
    rw [Mem.withNode, Mem.node?_setGlobal, Mem.node?_setNode_of_ne _ _ hp.an_ne,
      Mem.node?_congr (env.heap_mallocNode_of_ne t hp.an_ne), hp.node]
  unfold growHeader
  refine (env.machine.run_bind_of_done (run_load (f := .parent) hp.node trivial)).trans ?_
  refine (env.machine.run_bind_of_done hnew).trans ?_
  refine (env.machine.run_bind_of_done (run_load (f := .prefixes) (hself nd) trivial)).trans ?_
  refine (env.machine.run_bind_of_done
    (run_store (f := .prefixes) (Mem.node?_withNode_self t nd g) trivial)).trans ?_
  rw [Mem.setNode_withNode]
  refine (env.machine.run_bind_of_done
    (run_load (f := .version) (Mem.node?_withNode_self t _ g) trivial)).trans ?_
  refine (env.machine.run_bind_of_done
    (run_store (f := .version) (Mem.node?_withNode_self t _ g) trivial)).trans ?_
  rw [Mem.setNode_withNode]
  refine (env.machine.run_bind_of_done (run_load (f := .parent) (hself _) trivial)).trans ?_
  refine (env.machine.run_bind_of_done
    (run_store (f := .parent) (Mem.node?_withNode_self t _ g) trivial)).trans ?_
  rw [Mem.setNode_withNode]
  simp [NodeField.set, NodeField.get, hnd.version, headerNode]

/-! ### The copying loops -/

section Loops

variable {s₁ : Mem} {p : Addr} {nd : ArtNode}

/-- What the loops need of the children in the slots below `k`. -/
def CanAdopt (s₁ : Mem) (an p : Addr) (n : ArtNode) (k : ℕ) : Prop :=
  ∀ j < k, n.child j ≠ an ∧ n.child j ≠ p ∧
    (isLeaf (n.child j) = true ∨ ∃ m, s₁.node? (n.child j) = some m)

/-- The copies of the first `i` elements of an array. -/
def copied {α : Type} (f g : ℕ → α) (i j : ℕ) : α := if j < i then f j else g j

theorem copied_zero {α : Type} (f g : ℕ → α) : copied f g 0 = g := by
  funext j
  simp [copied]

theorem update_copied {α : Type} (f g : ℕ → α) (i : ℕ) :
    Function.update (copied f g i) i (f i) = copied f g (i + 1) := by
  funext j
  by_cases hji : j = i
  · simp [hji, copied]
  · rw [Function.update_of_ne hji]
    simp only [copied, show j < i + 1 ↔ j < i by omega]

theorem copied_of_lt {α : Type} {f g : ℕ → α} {i j : ℕ} (h : j < i) :
    copied f g i j = f j := if_pos h

/-- The memory in the middle of a copying loop: the new node is `nd`, and the children `D`
have been adopted. -/
structure CopyState (s₁ s' : Mem) (p : Addr) (nd : ArtNode) (D : Ptr → Prop) : Prop where
  new_ : s'.node? p = some nd
  adopted : s₁.Adopted s' p D

variable (env) in
/-- The part that the three loops share: a child is copied and adopted. -/
theorem CopyState.run_child {s' : Mem} {nd : ArtNode} {D : Ptr → Prop}
    (h : CopyState s₁ s' p nd D) (hn : s₁.node? an = some n) (hne : an ≠ p) (hD : ¬ D an) {i j : ℕ}
    (hi : i < n.layout.capacity) (hj : j < nd.layout.capacity) (hp : n.child i ≠ p)
    (hc : isLeaf (n.child i) = true ∨ ∃ m, s₁.node? (n.child i) = some m) :
    ∃ s'', env.machine.run (do
        let c ← load an (.child i)
        store p (.child j) c
        adopt c p) s' = done () s'' ∧
      CopyState s₁ s'' p { nd with child := Function.update nd.child j (n.child i) }
        fun a => D a ∨ a = n.child i := by
  have hself : s'.node? an = some n := by
    rw [Mem.node?_congr (h.adopted.other an hne fun h => absurd h hD), hn]
  obtain ⟨s'', hrun, hp', ha⟩ := (h.adopted.setNode
    { nd with child := Function.update nd.child j (n.child i) }).run_adopt env hc hp
  refine ⟨s'', ?_, by rw [Mem.node?_congr hp', Mem.node?_setNode_self], ha⟩
  refine (env.machine.run_bind_of_done (run_load (f := .child i) hself hi)).trans ?_
  exact (env.machine.run_bind_of_done (run_store (f := .child j) h.new_ hj)).trans hrun

theorem CopyState.node?_an {s' : Mem} {nd : ArtNode} {D : Ptr → Prop}
    (h : CopyState s₁ s' p nd D) (hn : s₁.node? an = some n) (hne : an ≠ p) (hD : ¬ D an) :
    s'.node? an = some n := by
  rw [Mem.node?_congr (h.adopted.other an hne fun h => absurd h hD), hn]

/-- Another field of the new node is written. -/
theorem CopyState.setNode {s' : Mem} {nd : ArtNode} {D : Ptr → Prop}
    (h : CopyState s₁ s' p nd D) (nd' : ArtNode) : CopyState s₁ (s'.setNode p nd') p nd' D :=
  ⟨Mem.node?_setNode_self .., h.adopted.setNode nd'⟩

theorem CopyState.congr {s' : Mem} {nd nd' : ArtNode} {D D' : Ptr → Prop}
    (h : CopyState s₁ s' p nd D) (hnd : nd = nd') (hD : ∀ a, D a ↔ D' a) :
    CopyState s₁ s' p nd' D' :=
  ⟨hnd ▸ h.new_, h.adopted.congr hD⟩

theorem exists_lt_succ_iff (f : ℕ → Ptr) (i : ℕ) (a : Ptr) :
    ((∃ j < i, f j = a) ∨ a = f i) ↔ ∃ j < i + 1, f j = a := by
  constructor
  · rintro (⟨j, hj, rfl⟩ | rfl)
    · exact ⟨j, by omega, rfl⟩
    · exact ⟨i, by omega, rfl⟩
  · rintro ⟨j, hj, rfl⟩
    rcases Nat.lt_succ_iff_lt_or_eq.mp hj with hlt | rfl
    · exact Or.inl ⟨j, hlt, rfl⟩
    · exact Or.inr rfl

variable (env) in
/-- The growth from a `node4` copies keys and children. -/
theorem run_growTo16 (hn : s₁.node? an = some n) (hne : an ≠ p) (ht : n.layout = .node4)
    (hp : s₁.node? p = some nd) (hnd : nd.layout = .node16) (hc : CanAdopt s₁ an p n 4) :
    ∃ s', env.machine.run (forRange 0 4 (growTo16 an p)) s₁ = done () s' ∧
      CopyState s₁ s' p
        { nd with key := copied n.key nd.key 4, child := copied n.child nd.child 4 }
        fun a => ∃ j < 4, n.child j = a := by
  refine env.machine.exists_run_forRange 0 4 (I := fun i s' => CopyState s₁ s' p
    { nd with key := copied n.key nd.key i, child := copied n.child nd.child i }
    fun a => ∃ j < i, n.child j = a) (fun i s' _ hi h => ?_) ⟨?_, ?_⟩
  · have hi4 : i < 4 := by omega
    have hD : ¬ ∃ j < i, n.child j = an := fun ⟨j, hj, h⟩ => (hc j (by omega)).1 h
    have hkey : (NodeField.key i).InBounds n.layout := by simpa [NodeField.InBounds, ht] using hi4
    have hkey' : (NodeField.key i).InBounds nd.layout := by
      simp only [NodeField.InBounds, hnd, NodeType.keyCapacity]
      omega
    obtain ⟨s'', hrun, h'⟩ := (h.setNode { nd with
        key := Function.update (copied n.key nd.key i) i (n.key i)
        child := copied n.child nd.child i }).run_child env hn hne hD (i := i) (j := i)
      (by simpa [ht] using hi4) (by simp only [hnd, NodeType.capacity]; omega) (hc i hi4).2.1
      (hc i hi4).2.2
    refine ⟨s'', ?_, h'.congr ?_ (exists_lt_succ_iff n.child i)⟩
    · unfold growTo16
      refine (env.machine.run_bind_of_done
        (run_load (f := .key i) (h.node?_an hn hne hD) hkey)).trans ?_
      exact (env.machine.run_bind_of_done (run_store (f := .key i) h.new_ hkey')).trans hrun
    · simp only [update_copied]
  · rw [copied_zero, copied_zero, hp]
  · exact (Mem.Adopted.refl s₁ p).congr fun a => by simp

variable (env) in
/-- The growth from a `node16` copies the children and indexes their keys. -/
theorem run_growTo48 (hn : s₁.node? an = some n) (hne : an ≠ p) (ht : n.layout = .node16)
    (hp : s₁.node? p = some nd) (hnd : nd.layout = .node48) (hindex : ∀ b, nd.index b = 0)
    (hc : CanAdopt s₁ an p n 16) :
    ∃ s', env.machine.run (forRange 0 16 (growTo48 an p)) s₁ = done () s' ∧
      CopyState s₁ s' p
        { nd with
          index := ArtNode.indexOfKeys n.key 16
          child := copied n.child nd.child 16 }
        fun a => ∃ j < 16, n.child j = a := by
  refine env.machine.exists_run_forRange 0 16 (I := fun i s' =>
    CopyState s₁ s' p
      { nd with
        index := ArtNode.indexOfKeys n.key i
        child := copied n.child nd.child i }
      fun a => ∃ j < i, n.child j = a) (fun i s' _ hi h => ?_) ⟨?_, ?_⟩
  · have hi16 : i < 16 := by omega
    have hD : ¬ ∃ j < i, n.child j = an := fun ⟨j, hj, h⟩ => (hc j (by omega)).1 h
    have hD' : ¬ ((∃ j < i, n.child j = an) ∨ an = n.child i) := by
      rintro (h | h)
      · exact hD h
      · exact (hc i hi16).1 h.symm
    have hkey : (NodeField.key i).InBounds n.layout := by simpa [NodeField.InBounds, ht] using hi16
    obtain ⟨s'', hrun, h'⟩ := h.run_child env hn hne hD (i := i) (j := i)
      (by simpa [ht] using hi16) (by simp only [hnd, NodeType.capacity]; omega) (hc i hi16).2.1
      (hc i hi16).2.2
    have hsplit : growTo48 an p i = (do
        let c ← load an (.child i)
        store p (.child i) c
        adopt c p) >>= fun _ => (do
        let k ← load an (.key i)
        store p (.index k) (UInt8.ofNat (i + 1))) := by simp only [growTo48, bind_assoc']
    refine ⟨s''.setNode p
      { nd with
        index := ArtNode.indexOfKeys n.key (i + 1)
        child := copied n.child nd.child (i + 1) }, ?_,
      (h'.setNode _).congr rfl (exists_lt_succ_iff n.child i)⟩
    rw [hsplit, env.machine.run_bind_of_done hrun]
    refine (env.machine.run_bind_of_done
      (run_load (f := .key i) (h'.node?_an hn hne hD') hkey)).trans ?_
    refine (run_store (f := .index (n.key i)) h'.new_ hnd).trans ?_
    simp only [NodeField.set, update_copied, ArtNode.indexOfKeys]
  · rw [copied_zero, hp, show nd = { nd with index := fun _ => 0 } by
      rw [← show nd.index = fun _ => 0 from funext hindex]]
    rfl
  · exact (Mem.Adopted.refl s₁ p).congr fun a => by simp

/-- The children of a `node48`, in the order of their bytes. -/
theorem exists_childAt_succ_iff {i : ℕ} (hi : i < 256) (a : Ptr) :
    ((∃ b : UInt8, b.toNat < i ∧ n.childAt b = some a) ∨ n.childAt (UInt8.ofNat i) = some a) ↔
      ∃ b : UInt8, b.toNat < i + 1 ∧ n.childAt b = some a := by
  have htn : (UInt8.ofNat i).toNat = i := by
    rw [UInt8.toNat_ofNat', Nat.mod_eq_of_lt (by omega)]
  constructor
  · rintro (⟨b, hb, h⟩ | h)
    · exact ⟨b, by omega, h⟩
    · exact ⟨_, by omega, h⟩
  · rintro ⟨b, hb, h⟩
    rcases Nat.lt_succ_iff_lt_or_eq.mp hb with hlt | rfl
    · exact Or.inl ⟨b, hlt, h⟩
    · exact Or.inr (by simpa using h)

variable (env) in
/-- The growth from a `node48` copies the children of all bytes. -/
theorem run_growTo256 (hn : s₁.node? an = some n) (hne : an ≠ p) (hok : n.Ok)
    (ht : n.layout = .node48) (hp : s₁.node? p = some nd) (hnd : nd.layout = .node256)
    (hchild : ∀ i < 256, nd.child i = 0)
    (hc : ∀ b c, n.childAt b = some c → c ≠ an ∧ c ≠ p ∧
      (isLeaf c = true ∨ ∃ m, s₁.node? c = some m)) :
    ∃ s' child, env.machine.run (forRange 0 256 (growTo256 an p)) s₁ = done () s' ∧
      CopyState s₁ s' p { nd with child := child } (fun a => ∃ b, n.childAt b = some a) ∧
      ∀ b : UInt8, child b.toNat = (n.childAt b).getD 0 := by
  let child (i j : ℕ) : Ptr :=
    copied (fun j => (n.childAt (UInt8.ofNat j)).getD 0) nd.child i j
  have hloop := env.machine.exists_run_forRange 0 256 (p := growTo256 an p) (s := s₁)
    (I := fun i s' => CopyState s₁ s' p { nd with child := child i }
      fun a => ∃ b : UInt8, b.toNat < i ∧ n.childAt b = some a) (fun i s' _ hi h => ?_) ⟨?_, ?_⟩
  · obtain ⟨s', hrun, h'⟩ := hloop
    refine ⟨s', child 256, hrun, h'.congr rfl fun a => ?_, fun b => ?_⟩
    · exact ⟨fun ⟨b, _, h⟩ => ⟨b, h⟩, fun ⟨b, h⟩ => ⟨b, by simpa using b.toNat_lt, h⟩⟩
    · simp only [child, copied, b.toNat_lt, if_true]
      simp
  · have hi256 : i < 256 := by omega
    have hD : ¬ ∃ b : UInt8, b.toNat < i ∧ n.childAt b = some an :=
      fun ⟨b, _, h⟩ => (hc b _ h).1 rfl
    have hindex : (NodeField.index (UInt8.ofNat i)).InBounds n.layout := ht
    unfold growTo256
    have hload : env.machine.run (load an (.index (UInt8.ofNat i))) s' = _ :=
      run_load (h.node?_an hn hne hD) hindex
    simp only [NodeField.get] at hload
    by_cases hz : n.index (UInt8.ofNat i) = 0
    · have hnone : n.childAt (UInt8.ofNat i) = none := by
        rw [ArtNode.childAt_eq_none, ArtNode.slotOf_node48 ht, if_neg (by simpa using hz)]
      refine ⟨s', ?_, h.congr ?_ fun a => ?_⟩
      · rw [env.machine.run_bind_of_done hload, if_neg (by simpa using hz)]
        rfl
      · congr 1
        funext j
        by_cases hji : j = i
        · simp only [child, copied, hji, Nat.lt_irrefl, if_false, Nat.lt_succ_self, if_true, hnone,
            hchild i hi256, Option.getD_none]
        · simp only [child, copied, show j < i + 1 ↔ j < i by omega]
      · rw [← exists_childAt_succ_iff hi256, hnone]
        simp
    · have hslot : n.slotOf (UInt8.ofNat i) = some ((n.index (UInt8.ofNat i)).toNat - 1) := by
        rw [ArtNode.slotOf_node48 ht, if_pos hz]
      have hsome : n.childAt (UInt8.ofNat i) =
          some (n.child ((n.index (UInt8.ofNat i)).toNat - 1)) :=
        ArtNode.childAt_eq_some.mpr ⟨_, hslot, rfl⟩
      obtain ⟨s'', hrun, h'⟩ := h.run_child env hn hne hD
        (i := (n.index (UInt8.ofNat i)).toNat - 1) (j := i) (ArtNode.slotOf_lt hok hslot)
        (by simpa [hnd] using hi256) (hc _ _ hsome).2.1 (hc _ _ hsome).2.2
      refine ⟨s'', ?_, h'.congr ?_ fun a => ?_⟩
      · rw [env.machine.run_bind_of_done hload, if_pos hz]
        exact hrun
      · have := update_copied (fun j => (n.childAt (UInt8.ofNat j)).getD 0) nd.child i
        simp only [hsome, Option.getD_some] at this
        simp only [child, this]
      · rw [← exists_childAt_succ_iff hi256, hsome, Option.some.injEq, eq_comm (a := a)]
  · rw [hp, show child 0 = nd.child from copied_zero _ _]
  · exact (Mem.Adopted.refl s₁ p).congr fun a => by simp

end Loops

/-! ### The grown node -/

/-- The layout laws do not depend on the offset, the prefix length and the status bits. -/
theorem ArtNode.Ok.setVersion {v : Version} (hok : n.Ok)
    (ht : getNodeType v = getNodeType n.version)
    (hc : getCount v = getCount n.version) : (n.setVersion v).Ok where
  type := by rw [setVersion_version, ht, hok.type]; rfl
  count_le := by rw [setVersion_version, hc]; exact hok.count_le
  key_inj hk := by rw [setVersion_version, hc]; exact hok.key_inj hk
  index_le hk := by rw [setVersion_version, hc]; exact hok.index_le hk
  index_inj := hok.index_inj

theorem ArtNode.slotOf_setVersion {v : Version} (hc : getCount v = getCount n.version) (b : UInt8) :
    (n.setVersion v).slotOf b = n.slotOf b := by
  unfold slotOf
  rw [setVersion_version, hc]
  rfl

theorem ArtNode.childAt_setVersion {v : Version} (hc : getCount v = getCount n.version)
    (b : UInt8) :
    (n.setVersion v).childAt b = n.childAt b := by
  rw [childAt, slotOf_setVersion hc]
  rfl

theorem ArtNode.HasRoom.setVersion {v : Version} (hr : n.HasRoom)
    (hc : getCount v = getCount n.version) : (n.setVersion v).HasRoom := by
  unfold HasRoom at hr ⊢
  rwa [setVersion_version, hc]

theorem Grown.setVersion {nd : ArtNode} {v : Version} (h : Grown s n nd)
    (ht : getNodeType v = getNodeType nd.version) (hc : getCount v = getCount nd.version)
    (hp : getPrefixLen v = getPrefixLen nd.version) (ho : isOld v = false)
    (he : isExpanding v = false) : Grown s n (nd.setVersion v) where
  layout := h.layout
  ok := h.ok.setVersion ht hc
  room := h.room.setVersion hc
  childAt b := by rw [ArtNode.childAt_setVersion hc, h.childAt]
  prefix_ := h.prefix_
  parent := h.parent
  sidleMeta := h.sidleMeta
  prefixLen := by rw [ArtNode.setVersion_version, hp, h.prefixLen]
  old := ho
  expanding := he

theorem GrownMem.setNode {s' : Mem} {nd : ArtNode} (hp : GrowPre env s an n)
    (h : GrownMem env s s' n nd) (nd' : ArtNode) :
    GrownMem env s (s'.setNode (env.addr s.allocated) nd') n nd' where
  new_ := Mem.node?_setNode_self ..
  child b c m hb hl hm := by
    rw [Mem.node?_setNode_of_ne _ _ (hp.child_ne hb), h.child b c m hb hl hm]
  other a ha hD := by rw [Mem.setNode_heap, Function.update_of_ne ha, h.other a ha hD]
  allocated := h.allocated
  root := h.root
  usage := h.usage

theorem Mem.heap_withNode_of_ne {t : NodeType} {nd : ArtNode} {g : Global} {a : Addr}
    (h : a ≠ env.addr s.allocated) : (s.withNode env t nd g).heap a = s.heap a := by
  rw [withNode, setGlobal_heap, setNode_heap, Function.update_of_ne h,
    env.heap_mallocNode_of_ne t h]

theorem Mem.node?_withNode_of_ne {t : NodeType} {nd : ArtNode} {g : Global} {a : Addr}
    (h : a ≠ env.addr s.allocated) : (s.withNode env t nd g).node? a = s.node? a :=
  node?_congr (heap_withNode_of_ne h)

/-- A finished copying loop that has adopted all children. -/
theorem CopyState.grownMem {s' : Mem} {t : NodeType} {nd₁ nd : ArtNode} {g : Global}
    {D : Ptr → Prop}
    (hp : GrowPre env s an n) (hg : 0 ≤ g.curLocalMemoryUsage)
    (h : CopyState (s.withNode env t nd₁ g) s' (env.addr s.allocated) nd D)
    (hD : ∀ a, D a ↔ ∃ b, n.childAt b = some a) : GrownMem env s s' n nd where
  new_ := h.new_
  child b c m hb hl hm := by
    refine h.adopted.child c (hp.child_ne hb) ((hD c).mpr ⟨b, hb⟩) hl m ?_
    rw [Mem.node?_withNode_of_ne (hp.child_ne hb), hm]
  other a ha hall := by
    rw [h.adopted.other a ha fun hDa => ?_, Mem.heap_withNode_of_ne ha]
    obtain ⟨b, hb⟩ := (hD a).mp hDa
    exact hall b hb
  allocated := h.adopted.allocated
  root := h.adopted.root
  usage := by rw [h.adopted.global]; exact hg

theorem run_artNodeSetCount (h : s.node? an = some n) (count : ℕ) :
    env.machine.run (artNodeSetCount an count) s =
      done () (s.setNode an (n.setVersion (setCount n.version count))) :=
  (env.machine.run_bind_of_done (run_load (f := .version) h trivial)).trans
    (run_store (f := .version) h trivial)

/-- The version word of a new node with the prefix length of the old one. -/
theorem view_header (t : NodeType) {len : ℕ} (hl : len < 256) :
    view (setPrefixLen (setType 0 t) len) = ⟨0, 0, len, t, false, false, false, 0⟩ := by
  rw [view_setPrefixLen _ hl, view_setType_zero]

/-- The version word of a grown node with its count. -/
theorem view_headerCount (t : NodeType) {len count : ℕ} (hl : len < 256) (hc : count < 256) :
    view (setCount (setPrefixLen (setType 0 t) len) count) =
      ⟨0, count, len, t, false, false, false, 0⟩ := by
  rw [view_setCount _ hc, view_header t hl]

/-- A word and its view. -/
theorem view_fields {v : Version} {w : View} (h : view v = w) :
    getOffset v = w.offset ∧ getCount v = w.count ∧ getPrefixLen v = w.prefixLen ∧
      getNodeType v = w.type ∧ isOld v = w.old ∧ isLocked v = w.locked ∧
      isExpanding v = w.expanding := by
  subst h
  exact ⟨rfl, rfl, rfl, rfl, rfl, rfl, rfl⟩

theorem count_of_full (hok : n.Ok) (hfull : ¬ n.HasRoom) :
    n.layout ≠ .node256 ∧ getCount n.version = n.layout.capacity := by
  unfold ArtNode.HasRoom at hfull
  have := hok.count_le
  exact ⟨fun h => hfull (Or.inl h), by have := fun h => hfull (Or.inr h); omega⟩

/-- The slots of a full node with a `key` array are its children. -/
theorem keyed_child_iff (hok : n.Ok) (hk : n.layout.Keyed) (a : Ptr) :
    (∃ j < getCount n.version, n.child j = a) ↔ ∃ b, n.childAt b = some a := by
  constructor
  · rintro ⟨j, hj, rfl⟩
    exact ⟨n.key j, ArtNode.childAt_eq_some.mpr
      ⟨j, (ArtNode.slotOf_keyed_eq_some hok hk).mpr ⟨hj, rfl⟩, rfl⟩⟩
  · rintro ⟨b, hb⟩
    obtain ⟨j, hj, rfl⟩ := ArtNode.childAt_eq_some.mp hb
    exact ⟨j, ((ArtNode.slotOf_keyed_eq_some hok hk).mp hj).1, rfl⟩

theorem GrowPre.canAdopt (hp : GrowPre env s an n) (hk : n.layout.Keyed) {t : NodeType}
    (nd : ArtNode) {g : Global} :
    CanAdopt (s.withNode env t nd g) an (env.addr s.allocated) n (getCount n.version) := by
  intro j hj
  obtain ⟨b, hb⟩ := (keyed_child_iff hp.ok hk (n.child j)).mp ⟨j, hj, rfl⟩
  obtain ⟨han, -, hc⟩ := hp.child b _ hb
  exact ⟨han, hp.child_ne hb, hc.imp_right fun ⟨m, hm⟩ =>
    ⟨m, by rw [Mem.node?_withNode_of_ne (hp.child_ne hb), hm]⟩⟩

/-- A grown node, from the fields the loops have filled. -/
theorem Grown.of_header {nd nd' : ArtNode} {t : NodeType} {count : ℕ}
    (hnd : NewNode s t n.parent nd)
    (ht : t = n.layout.next) (hv : view nd'.version =
      ⟨0, count, getPrefixLen n.version, t, false, false, false, 0⟩)
    (hl : nd'.layout = t) (hok : nd'.Ok) (hroom : nd'.HasRoom)
    (hchild : ∀ b, nd'.childAt b = n.childAt b) (hpfx : nd'.prefix_ = n.prefix_)
    (hparent : nd'.parent = n.parent) (hmeta : nd'.sidleMeta = nd.sidleMeta) : Grown s n nd' where
  layout := hl.trans ht
  ok := hok
  room := hroom
  childAt := hchild
  prefix_ := hpfx
  parent := hparent
  sidleMeta := hmeta.trans hnd.sidleMeta
  prefixLen := (view_fields hv).2.2.1
  old := (view_fields hv).2.2.2.2.1
  expanding := (view_fields hv).2.2.2.2.2.2

/-- Growth of a `node4`. -/
theorem run_growBody_node4 (hp : GrowPre env s an n) (hfull : ¬ n.HasRoom)
    (ht : n.layout = .node4) :
    ∃ nd s', env.machine.run (growBody env an n.version) s = done (env.addr s.allocated) s' ∧
      GrownMem env s s' n nd ∧ Grown s n nd ∧ isLocked nd.version = false := by
  have hk : n.layout.Keyed := Or.inl ht
  have hcount : getCount n.version = 4 := by simpa [ht] using (count_of_full hp.ok hfull).2
  obtain ⟨nd, g, hhead, hnd, hg⟩ := run_growHeader hp (t := .node16)
    (NodeType.node16.size - NodeType.node4.size) (by decide)
  have hadopt := hp.canAdopt hk (t := .node16) (headerNode .node16 n nd) (g := g)
  rw [hcount] at hadopt
  obtain ⟨s', hloop, hcs⟩ := run_growTo16 env
    ((Mem.node?_withNode_of_ne hp.an_ne).trans hp.node) hp.an_ne ht
    (Mem.node?_withNode_self .node16 (headerNode .node16 n nd) g) hnd.layout hadopt
  have hgm := hcs.grownMem hp hg fun a => by
    rw [← keyed_child_iff hp.ok hk, hcount]
  have hv := view_headerCount .node16 (getPrefixLen_lt n.version) (show 4 < 256 by decide)
  have hvf := view_fields hv
  let nd₁ : ArtNode := { headerNode .node16 n nd with
    key := copied n.key (headerNode .node16 n nd).key 4
    child := copied n.child (headerNode .node16 n nd).child 4 }
  have hl₁ : nd₁.layout = .node16 := hnd.layout
  have hc₁ : getCount (setCount nd₁.version 4) = 4 := hvf.2.1
  have hcap : nd₁.layout.capacity = 16 := by rw [hl₁]; rfl
  refine ⟨nd₁.setVersion (setCount nd₁.version 4), _, ?_, hgm.setNode hp _, ?_, hvf.2.2.2.2.2.1⟩
  · unfold growBody
    rw [hp.ok.type, ht]
    refine (env.machine.run_bind_of_done hhead).trans ?_
    refine (env.machine.run_bind_of_done hloop).trans ?_
    exact env.machine.run_bind_of_done (run_artNodeSetCount hcs.new_ 4)
  · refine Grown.of_header hnd (by rw [ht]; rfl) hv hnd.layout ?_ ?_ ?_ rfl rfl rfl
    · refine ⟨hvf.2.2.2.1.trans hnd.layout.symm, ?_, fun _ i j hi hj hij => ?_, fun h => ?_,
        fun h => ?_⟩
      · rw [ArtNode.setVersion_version, hc₁]
        change 4 ≤ nd₁.layout.capacity
        omega
      · rw [ArtNode.setVersion_version, hc₁] at hi hj
        refine hp.ok.key_inj hk i j (by rwa [hcount]) (by rwa [hcount]) ?_
        have hi' := copied_of_lt (f := n.key) (g := (headerNode .node16 n nd).key) hi
        have hj' := copied_of_lt (f := n.key) (g := (headerNode .node16 n nd).key) hj
        exact hi'.symm.trans (hij.trans hj')
      all_goals exact absurd (hnd.layout.symm.trans h) (by decide)
    · refine Or.inr ?_
      rw [ArtNode.setVersion_version, hc₁]
      change 4 < nd₁.layout.capacity
      omega
    · refine ArtNode.childAt_of_grow16 ht hnd.layout (hvf.2.1.trans hcount.symm) ?_ ?_
      all_goals
        rw [hcount]
        exact fun i hi => copied_of_lt hi

/-- Growth of a `node16`. -/
theorem run_growBody_node16 (hp : GrowPre env s an n) (hfull : ¬ n.HasRoom)
    (ht : n.layout = .node16) :
    ∃ nd s', env.machine.run (growBody env an n.version) s = done (env.addr s.allocated) s' ∧
      GrownMem env s s' n nd ∧ Grown s n nd ∧ isLocked nd.version = false := by
  have hk : n.layout.Keyed := Or.inr ht
  have hcount : getCount n.version = 16 := by simpa [ht] using (count_of_full hp.ok hfull).2
  obtain ⟨nd, g, hhead, hnd, hg⟩ := run_growHeader hp (t := .node48)
    (NodeType.node48.size - NodeType.node16.size) (by decide)
  have hadopt := hp.canAdopt hk (t := .node48) (headerNode .node48 n nd) (g := g)
  rw [hcount] at hadopt
  obtain ⟨s', hloop, hcs⟩ := run_growTo48 env
    ((Mem.node?_withNode_of_ne hp.an_ne).trans hp.node) hp.an_ne ht
    (Mem.node?_withNode_self .node48 (headerNode .node48 n nd) g) hnd.layout (hnd.index rfl) hadopt
  have hgm := hcs.grownMem hp hg fun a => by
    rw [← keyed_child_iff hp.ok hk, hcount]
  have hv := view_headerCount .node48 (getPrefixLen_lt n.version) (show 16 < 256 by decide)
  have hvf := view_fields hv
  let nd₁ : ArtNode := { headerNode .node48 n nd with
    index := ArtNode.indexOfKeys n.key 16
    child := copied n.child (headerNode .node48 n nd).child 16 }
  have hl₁ : nd₁.layout = .node48 := hnd.layout
  have hc₁ : getCount (setCount nd₁.version 16) = 16 := hvf.2.1
  have hcap : nd₁.layout.capacity = 48 := by rw [hl₁]; rfl
  refine ⟨nd₁.setVersion (setCount nd₁.version 16), _, ?_, hgm.setNode hp _, ?_, hvf.2.2.2.2.2.1⟩
  · unfold growBody
    rw [hp.ok.type, ht]
    refine (env.machine.run_bind_of_done hhead).trans ?_
    refine (env.machine.run_bind_of_done hloop).trans ?_
    exact env.machine.run_bind_of_done (run_artNodeSetCount hcs.new_ 16)
  · refine Grown.of_header hnd (by rw [ht]; rfl) hv hnd.layout ?_ ?_ ?_ rfl rfl rfl
    · exact hp.ok.of_grow48 ht (hvf.2.2.2.1.trans hnd.layout.symm) hnd.layout
        (hvf.2.1.trans hcount.symm) (by rw [hcount]; rfl)
    · refine Or.inr ?_
      rw [ArtNode.setVersion_version, hc₁]
      change 16 < nd₁.layout.capacity
      omega
    · refine ArtNode.childAt_of_grow48 hp.ok ht hnd.layout (by rw [hcount]; rfl) ?_
      rw [hcount]
      exact fun i hi => copied_of_lt hi

/-- Growth of a `node48`. -/
theorem run_growBody_node48 (hp : GrowPre env s an n) (ht : n.layout = .node48) :
    ∃ nd s', env.machine.run (growBody env an n.version) s = done (env.addr s.allocated) s' ∧
      GrownMem env s s' n nd ∧ Grown s n nd ∧ isLocked nd.version = false := by
  obtain ⟨nd, g, hhead, hnd, hg⟩ := run_growHeader hp (t := .node256)
    (NodeType.node256.size - NodeType.node48.size) (by decide)
  obtain ⟨s', child, hloop, hcs, hchild⟩ := run_growTo256 env
    ((Mem.node?_withNode_of_ne hp.an_ne).trans hp.node) hp.an_ne hp.ok ht
    (Mem.node?_withNode_self .node256 (headerNode .node256 n nd) g) hnd.layout (hnd.child rfl)
    fun b c hb => by
      obtain ⟨han, -, hc⟩ := hp.child b c hb
      exact ⟨han, hp.child_ne hb, hc.imp_right fun ⟨m, hm⟩ =>
        ⟨m, by rw [Mem.node?_withNode_of_ne (hp.child_ne hb), hm]⟩⟩
  have hgm := hcs.grownMem hp hg fun a => Iff.rfl
  have hv := view_header .node256 (getPrefixLen_lt n.version)
  have hvf := view_fields hv
  refine ⟨_, _, ?_, hgm, ?_, hvf.2.2.2.2.2.1⟩
  · unfold growBody
    rw [hp.ok.type, ht]
    refine (env.machine.run_bind_of_done hhead).trans ?_
    exact env.machine.run_bind_of_done hloop
  · refine Grown.of_header hnd (by rw [ht]; rfl) hv hnd.layout ?_ (Or.inl hnd.layout) ?_ rfl rfl rfl
    · refine ⟨hvf.2.2.2.1.trans hnd.layout.symm, ?_, fun h => ?_, fun h => ?_, fun h => ?_⟩
      · exact Nat.le_trans (Nat.le_of_eq hvf.2.1) (Nat.zero_le _)
      · exact absurd hnd.layout (ArtNode.ne_node256 h)
      all_goals exact absurd (hnd.layout.symm.trans h) (by decide)
    · exact ArtNode.childAt_of_grow256 hnd.layout hchild fun b hb => (hp.child b 0 hb).2.1 rfl

/-- The part of growth that depends on the layout. -/
theorem run_growBody (hp : GrowPre env s an n) (hfull : ¬ n.HasRoom) :
    ∃ nd s', env.machine.run (growBody env an n.version) s = done (env.addr s.allocated) s' ∧
      GrownMem env s s' n nd ∧ Grown s n nd ∧ isLocked nd.version = false := by
  cases ht : n.layout with
  | node4 => exact run_growBody_node4 hp hfull ht
  | node16 => exact run_growBody_node16 hp hfull ht
  | node48 => exact run_growBody_node48 hp ht
  | node256 => exact absurd ht (count_of_full hp.ok hfull).1

/-- The node that has been replaced by its copy at `new_`. -/
def ArtNode.retired (n : ArtNode) (new_ : Addr) : ArtNode :=
  { n with new_ := new_, version := setOld n.version }

theorem GrownMem.node?_an {s' : Mem} {nd : ArtNode} (hp : GrowPre env s an n)
    (h : GrownMem env s s' n nd) : s'.node? an = some n := by
  rw [Mem.node?_congr (h.other an hp.an_ne fun b hb => absurd rfl (hp.child b _ hb).1), hp.node]

theorem run_artNodeSetOffset (h : s.node? an = some n) (off : ℕ) :
    env.machine.run (artNodeSetOffset an off) s =
      done () (s.setNode an (n.setVersion (setOffset n.version off))) :=
  (env.machine.run_bind_of_done (run_load (f := .version) h trivial)).trans
    (run_store (f := .version) h trivial)

/-- The lock of the copy, which only a build with assertions takes. -/
theorem run_assertLock {s' : Mem} {nd : ArtNode} (h : s'.node? an = some nd)
    (hl : isLocked nd.version = false) (ho : isOld nd.version = false) (fuel : ℕ) :
    ∃ v lk, view v = { view nd.version with locked := lk } ∧
      env.machine.run (assertTrue env.build (do
        let r ← artNodeLock (fuel + 1) an
        pure (r == 0))) s' = done () (s'.setNode an (nd.setVersion v)) := by
  cases hb : env.build.assertions with
  | true =>
    exact ⟨setLock nd.version, true, view_setLock _,
      run_assertTrue hb (env.machine.run_bind_of_done (run_artNodeLock h hl ho fuel))⟩
  | false =>
    refine ⟨nd.version, false, by rw [← hl]; rfl, (run_assertTrue_release hb).trans ?_⟩
    rw [ArtNode.setVersion_self, Mem.setNode_eq_self h]

/-- `art_node_grow`: the copy has the offset of the old node, which is marked old. -/
theorem run_artNodeGrow (hp : GrowPre env s an n) (hfull : ¬ n.HasRoom) (fuel : ℕ) :
    ∃ nd s', env.machine.run (artNodeGrow env (fuel + 1) an) s =
        done (env.addr s.allocated) (s'.setNode an (n.retired (env.addr s.allocated))) ∧
      GrownMem env s s' n nd ∧ Grown s n nd ∧ getOffset nd.version = getOffset n.version := by
  obtain ⟨nd, s', hbody, hgm, hgr, hl⟩ := run_growBody hp hfull
  obtain ⟨w, lk, hw, hlock⟩ := @run_assertLock env _ _ _ hgm.new_ hl hgr.old fuel
  let v := setOffset w (getOffset n.version)
  have hv : view v = { view nd.version with locked := lk, offset := getOffset n.version } := by
    simp only [v, view_setOffset _ (getOffset_lt n.version), hw]
  obtain ⟨ho, hc, hpl, hty, hold, -, hex⟩ := view_fields hv
  have hgm' := hgm.setNode hp (nd.setVersion v)
  refine ⟨nd.setVersion v, _, ?_, hgm', hgr.setVersion hty hc hpl (hold.trans hgr.old)
    (hex.trans hgr.expanding), ho⟩
  unfold artNodeGrow
  refine (env.machine.run_bind_of_done (run_load (f := .version) hp.node trivial)).trans ?_
  refine (env.machine.run_bind_of_done hbody).trans ?_
  refine (env.machine.run_bind_of_done hlock).trans ?_
  refine (env.machine.run_bind_of_done
    (run_artNodeSetOffset (Mem.node?_setNode_self ..) (getOffset n.version))).trans ?_
  rw [Mem.setNode_setNode]
  refine (env.machine.run_bind_of_done
    (run_store (f := .new_) (hgm'.node?_an hp) trivial)).trans ?_
  refine (env.machine.run_bind_of_done
    (run_store (f := .version) (Mem.node?_setNode_self ..) trivial)).trans ?_
  rw [Mem.setNode_setNode]
  rfl

/-- What unlocking makes of a version word without an expansion in progress. -/
theorem view_unlockedVersion {v : Version} (he : isExpanding v = false) :
    view (unlockedVersion v) = { view v with locked := false } := by
  simp only [unlockedVersion, he, Bool.false_eq_true, if_false, view_unsetLock]

/-- The unlocked copy `nd` of `n` with the child `p` added at `byte`. -/
structure GrownAdd (s : Mem) (n nd : ArtNode) (byte : UInt8) (p : Ptr) : Prop where
  ok : nd.Ok
  childAt : ∀ b, nd.childAt b = if b = byte then some p else n.childAt b
  prefix_ : nd.prefix_ = n.prefix_
  parent : nd.parent = n.parent
  sidleMeta : nd.sidleMeta = s.newMeta n.parent .unknown
  offset : getOffset nd.version = getOffset n.version
  prefixLen : getPrefixLen nd.version = getPrefixLen n.version
  old : isOld nd.version = false
  locked : isLocked nd.version = false
  expanding : isExpanding nd.version = false

@[simp] theorem ArtNode.prefix_addChild (b : UInt8) (p : Ptr) :
    (n.addChild b p).prefix_ = n.prefix_ := by
  unfold addChild; split <;> rfl

@[simp] theorem ArtNode.parent_addChild (b : UInt8) (p : Ptr) :
    (n.addChild b p).parent = n.parent := by
  unfold addChild; split <;> rfl

@[simp] theorem ArtNode.sidleMeta_addChild (b : UInt8) (p : Ptr) :
    (n.addChild b p).sidleMeta = n.sidleMeta := by
  unfold addChild; split <;> rfl

/-- `art_node_add_child` on a full node. -/
theorem run_artNodeAddChild_full (hp : GrowPre env s an n) (hfull : ¬ n.HasRoom) {byte : UInt8}
    (hbyte : n.slotOf byte = none) {p : Ptr} (hleaf : isLeaf p = true) (hp0 : p ≠ 0) (fuel : ℕ) :
    ∃ nd s', env.machine.run (artNodeAddChild env (fuel + 1) an byte p true) s =
        done (none, env.addr s.allocated) (s'.setNode an (n.retired (env.addr s.allocated))) ∧
      GrownMem env s s' n nd ∧ GrownAdd s n nd byte p := by
  obtain ⟨nd, s', hgrow, hgm, hgr, ho⟩ := run_artNodeGrow hp hfull fuel
  have hbyte' : nd.slotOf byte = none := by
    rw [← ArtNode.childAt_eq_none, hgr.childAt, ArtNode.childAt_eq_none, hbyte]
  let nd₁ := nd.addChild byte p
  have hv₁ := ArtNode.view_addChild (b := byte) hgr.room p
  obtain ⟨ho₁, hc₁, hpl₁, hty₁, hold₁, hlo₁, hex₁⟩ := view_fields hv₁
  have hv₂ := view_unlockedVersion (hex₁.trans hgr.expanding)
  obtain ⟨ho₂, hc₂, hpl₂, hty₂, hold₂, hlo₂, hex₂⟩ := view_fields hv₂
  have hgm' := hgm.setNode hp (nd₁.setVersion (unlockedVersion nd₁.version))
  refine ⟨nd₁.setVersion (unlockedVersion nd₁.version), _, ?_, hgm', ?_⟩
  · have hself : (s'.setNode an (n.retired (env.addr s.allocated))).node? (env.addr s.allocated) =
        some nd := by rw [Mem.node?_setNode_of_ne _ _ hp.an_ne.symm, hgm.new_]
    unfold artNodeAddChild
    refine (env.machine.run_bind_of_done (run_load (f := .version) hp.node trivial)).trans ?_
    refine (env.machine.run_bind_of_done (run_artNodeFindChild hp.node hp.ok byte)).trans ?_
    simp only [hbyte, Option.map_none, Option.isSome_none, Bool.false_eq_true, if_false]
    refine (env.machine.run_bind_of_done (run_artNodeIsFull hp.node hp.ok)).trans ?_
    simp only [hfull, decide_false, Bool.not_false, if_true]
    refine (env.machine.run_bind_of_done hgrow).trans ?_
    refine (env.machine.run_bind_of_done (run_load (f := .version) hself trivial)).trans ?_
    refine (env.machine.run_bind_of_done
      (run_addChildBody hself hgr.ok hgr.room byte p)).trans ?_
    simp only [adopt, hleaf, if_true, pure_eq_ret, ret_bind]
    refine (env.machine.run_bind_of_done (run_artNodeUnlock (Mem.node?_setNode_self ..))).trans ?_
    simp only [Mem.setNode_setNode, run_ret]
    rw [Mem.setNode_comm _ _ _ hp.an_ne]
  · have hok := hgr.ok.addChild hgr.room hbyte' p
    refine ⟨hok.setVersion hty₂ hc₂, fun b => ?_, ?_, ?_, ?_, ?_, ?_, ?_, hlo₂, ?_⟩
    · rw [ArtNode.childAt_setVersion hc₂, ArtNode.childAt_addChild hgr.ok hgr.room hbyte' hp0,
        hgr.childAt]
    · exact (ArtNode.prefix_addChild ..).trans hgr.prefix_
    · exact (ArtNode.parent_addChild ..).trans hgr.parent
    · exact (ArtNode.sidleMeta_addChild ..).trans hgr.sidleMeta
    · exact ho₂.trans (ho₁.trans ho)
    · exact hpl₂.trans (hpl₁.trans hgr.prefixLen)
    · exact hold₂.trans (hold₁.trans hgr.old)
    · exact hex₂.trans (hex₁.trans hgr.expanding)

end Sidle.Art
