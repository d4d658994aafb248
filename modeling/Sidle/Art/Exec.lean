import Sidle.Art.Layout

/-!
# Running single accesses

What each access of the tree does to the memory, as equations for `Machine.run`, and
the frame lemmas of the memory updates: an update of one block leaves the others alone.

## Main definitions

* `Mem.setGlobal`, `Mem.setRoot`, `Mem.adopt` — updates of the memory.
* `Mem.Fresh` — every block of the heap has been handed out by the allocator.

## Main results

* `run_load`, `run_store`, … — the accesses.
* `run_adopt` — setting the parent of a child.
-/

namespace Sidle.Art

open Prog Machine Outcome

/-! ### Updates of the memory -/

namespace Mem

/-- The memory with another state shared with the workers. -/
def setGlobal (s : Mem) (g : Global) : Mem := { s with global := g }

/-- The memory with another root pointer. -/
def setRoot (s : Mem) (p : Ptr) : Mem := { s with root := p }

variable (s : Mem) (a b : Addr) (n m : ArtNode) (l k : LeafNode) (g : Global) (p : Ptr)

@[simp] theorem setNode_heap :
    (s.setNode a n).heap = Function.update s.heap a (some (.node n)) := rfl
@[simp] theorem setNode_allocated : (s.setNode a n).allocated = s.allocated := rfl
@[simp] theorem setNode_root : (s.setNode a n).root = s.root := rfl
@[simp] theorem setNode_global : (s.setNode a n).global = s.global := rfl
@[simp] theorem setLeaf_heap :
    (s.setLeaf a l).heap = Function.update s.heap a (some (.leaf l)) := rfl
@[simp] theorem setLeaf_allocated : (s.setLeaf a l).allocated = s.allocated := rfl
@[simp] theorem setLeaf_root : (s.setLeaf a l).root = s.root := rfl
@[simp] theorem setLeaf_global : (s.setLeaf a l).global = s.global := rfl
@[simp] theorem setGlobal_heap : (s.setGlobal g).heap = s.heap := rfl
@[simp] theorem setGlobal_allocated : (s.setGlobal g).allocated = s.allocated := rfl
@[simp] theorem setGlobal_root : (s.setGlobal g).root = s.root := rfl
@[simp] theorem setGlobal_global : (s.setGlobal g).global = g := rfl
@[simp] theorem setRoot_heap : (s.setRoot p).heap = s.heap := rfl
@[simp] theorem setRoot_allocated : (s.setRoot p).allocated = s.allocated := rfl
@[simp] theorem setRoot_root : (s.setRoot p).root = p := rfl
@[simp] theorem setRoot_global : (s.setRoot p).global = s.global := rfl

@[simp] theorem node?_setGlobal : (s.setGlobal g).node? a = s.node? a := rfl
@[simp] theorem leaf?_setGlobal : (s.setGlobal g).leaf? a = s.leaf? a := rfl
@[simp] theorem node?_setRoot : (s.setRoot p).node? a = s.node? a := rfl
@[simp] theorem leaf?_setRoot : (s.setRoot p).leaf? a = s.leaf? a := rfl

@[simp] theorem node?_setNode_self : (s.setNode a n).node? a = some n := by simp [node?]

@[simp] theorem leaf?_setLeaf_self : (s.setLeaf a l).leaf? a = some l := by simp [leaf?]

variable {a b}

theorem heap_of_node? {s : Mem} {n : ArtNode} (h : s.node? a = some n) :
    s.heap a = some (.node n) := by
  unfold node? at h
  split at h <;> simp_all

theorem heap_of_leaf? {s : Mem} {l : LeafNode} (h : s.leaf? a = some l) :
    s.heap a = some (.leaf l) := by
  unfold leaf? at h
  split at h <;> simp_all

/-- A block is a node or a leaf, not both. -/
theorem ne_of_node?_of_leaf? {s : Mem} {n : ArtNode} {l : LeafNode} (hn : s.node? a = some n)
    (hl : s.leaf? b = some l) : a ≠ b := by
  rintro rfl
  have := (heap_of_node? hn).symm.trans (heap_of_leaf? hl)
  simp at this

theorem node?_congr {s s' : Mem} (h : s'.heap a = s.heap a) : s'.node? a = s.node? a := by
  simp [node?, h]

theorem leaf?_congr {s s' : Mem} (h : s'.heap a = s.heap a) : s'.leaf? a = s.leaf? a := by
  simp [leaf?, h]

theorem node?_setNode_of_ne (h : b ≠ a) : (s.setNode a n).node? b = s.node? b :=
  node?_congr (Function.update_of_ne h _ _)

theorem leaf?_setNode_of_ne (h : b ≠ a) : (s.setNode a n).leaf? b = s.leaf? b :=
  leaf?_congr (Function.update_of_ne h _ _)

theorem node?_setLeaf_of_ne (h : b ≠ a) : (s.setLeaf a l).node? b = s.node? b :=
  node?_congr (Function.update_of_ne h _ _)

theorem leaf?_setLeaf_of_ne (h : b ≠ a) : (s.setLeaf a l).leaf? b = s.leaf? b :=
  leaf?_congr (Function.update_of_ne h _ _)

@[simp] theorem setNode_setNode : (s.setNode a n).setNode a m = s.setNode a m := by
  simp [setNode]

theorem setNode_comm (h : a ≠ b) : (s.setNode a n).setNode b m = (s.setNode b m).setNode a n := by
  simp only [setNode, Function.update_comm h]

@[simp] theorem setLeaf_setLeaf : (s.setLeaf a l).setLeaf a k = s.setLeaf a k := by
  simp [setLeaf]

@[simp] theorem setGlobal_setNode : (s.setGlobal g).setNode a n = (s.setNode a n).setGlobal g := rfl

@[simp] theorem setGlobal_setLeaf : (s.setGlobal g).setLeaf a l = (s.setLeaf a l).setGlobal g := rfl

/-- Writing back what is there. -/
theorem setNode_eq_self {s : Mem} {n : ArtNode} (h : s.node? a = some n) : s.setNode a n = s := by
  unfold setNode
  rw [← heap_of_node? h, Function.update_eq_self]

end Mem

/-! ### Accesses -/

section Accesses

variable {env : Env} {s : Mem} {an : Addr} {n : ArtNode} {l : LeafNode} {β α : Type}

theorem run_load {f : NodeField β} (h : s.node? an = some n) (hb : f.InBounds n.layout) :
    env.machine.run (load an f) s = done (f.get n) s := by
  simp [load, lift, run, Env.machine, Env.exec, h, hb]

theorem run_store {f : NodeField β} {x : β} (h : s.node? an = some n)
    (hb : f.InBounds n.layout) :
    env.machine.run (store an f x) s = done () (s.setNode an (f.set x n)) := by
  simp [store, lift, run, Env.machine, Env.exec, h, hb]

theorem run_loadLeaf {f : LeafField β} (h : s.leaf? an = some l) (hb : f.InBounds l) :
    env.machine.run (loadLeaf an f) s = done (f.get l) s := by
  simp [loadLeaf, lift, run, Env.machine, Env.exec, h, hb]

theorem run_storeLeaf {f : LeafField β} {x : β} (h : s.leaf? an = some l) (hb : f.InBounds l) :
    env.machine.run (storeLeaf an f x) s = done () (s.setLeaf an (f.set x l)) := by
  simp [storeLeaf, lift, run, Env.machine, Env.exec, h, hb]

theorem run_loadRoot : env.machine.run (lift .loadRoot) s = done s.root s := rfl

theorem run_storeRoot (p : Ptr) :
    env.machine.run (lift (.storeRoot p)) s = done () (s.setRoot p) := rfl

theorem run_casRoot (p : Ptr) :
    env.machine.run (lift (.casRoot s.root p)) s = done true (s.setRoot p) := by
  simp [lift, run, Env.machine, Env.exec, Mem.setRoot]

theorem run_casVersion (h : s.node? an = some n) (v : Version) :
    env.machine.run (lift (.casVersion an n.version v)) s =
      done true (s.setNode an { n with version := v }) := by
  simp [lift, run, Env.machine, Env.exec, h]

theorem run_mallocNode (t : NodeType) :
    env.machine.run (lift (.mallocNode t)) s = done (env.addr s.allocated) (env.mallocNode s t) :=
  rfl

theorem run_mallocLeaf (len : ℕ) :
    env.machine.run (lift (.mallocLeaf len)) s =
      done (env.addr s.allocated) (env.mallocLeaf s len) := rfl

theorem run_onGlobal {f : Global → Option (β × Global)} {b : β} {g : Global}
    (h : f s.global = some (b, g)) :
    env.machine.run (lift (.onGlobal f)) s = done b (s.setGlobal g) := by
  simp [lift, run, Env.machine, Env.exec, h, Mem.setGlobal]

theorem run_keyAt {key : Key} {off : ℕ} (h : off < key.length) :
    env.machine.run (keyAt key off) s = done key[off] s := by
  simp [keyAt, h]

/-- An assertion that evaluates an expression. -/
theorem run_assertTrue {build : Build} (hb : build.assertions = true) {e : ArtM Bool} {s' : Mem}
    (h : env.machine.run e s = done true s') :
    env.machine.run (assertTrue build e) s = done () s' := by
  simp [assertTrue, hb, env.machine.run_bind_of_done h]

theorem run_assertTrue_release {build : Build} (hb : build.assertions = false) {e : ArtM Bool} :
    env.machine.run (assertTrue build e) s = done () s := by
  simp [assertTrue, hb]

end Accesses

/-! ### The allocator -/

/-- Every block of the heap has been handed out by the allocator. -/
def Mem.Fresh (env : Env) (s : Mem) : Prop :=
  ∀ a, s.heap a ≠ none → ∃ i, i < s.allocated ∧ env.addr i = a

namespace Env

variable (env : Env) (s : Mem)

@[simp] theorem mallocNode_allocated (t : NodeType) :
    (env.mallocNode s t).allocated = s.allocated + 1 := rfl
@[simp] theorem mallocNode_root (t : NodeType) : (env.mallocNode s t).root = s.root := rfl
@[simp] theorem mallocNode_global (t : NodeType) : (env.mallocNode s t).global = s.global := rfl
@[simp] theorem mallocLeaf_allocated (len : ℕ) :
    (env.mallocLeaf s len).allocated = s.allocated + 1 := rfl
@[simp] theorem mallocLeaf_root (len : ℕ) : (env.mallocLeaf s len).root = s.root := rfl
@[simp] theorem mallocLeaf_global (len : ℕ) : (env.mallocLeaf s len).global = s.global := rfl

/-- The bytes of a fresh node block. -/
def blankNode (t : NodeType) : ArtNode := { env.junk s.allocated with layout := t }

/-- The bytes of a fresh leaf block. -/
def blankLeaf (len : ℕ) : LeafNode := { (default : LeafNode) with key := List.replicate len 0 }

@[simp] theorem node?_mallocNode_self (t : NodeType) :
    (env.mallocNode s t).node? (env.addr s.allocated) = some (env.blankNode s t) := by
  simp [mallocNode, Mem.node?, blankNode]

@[simp] theorem leaf?_mallocLeaf_self (len : ℕ) :
    (env.mallocLeaf s len).leaf? (env.addr s.allocated) = some (blankLeaf len) := by
  simp [mallocLeaf, Mem.leaf?, blankLeaf]

variable {s} {a : Addr}

theorem heap_mallocNode_of_ne (t : NodeType) (h : a ≠ env.addr s.allocated) :
    (env.mallocNode s t).heap a = s.heap a := Function.update_of_ne h _ _

theorem heap_mallocLeaf_of_ne (len : ℕ) (h : a ≠ env.addr s.allocated) :
    (env.mallocLeaf s len).heap a = s.heap a := Function.update_of_ne h _ _

variable {env}

/-- A block that is in use is not the next one. -/
theorem ne_addr (hs : s.Fresh env) (h : s.heap a ≠ none) : a ≠ env.addr s.allocated := by
  obtain ⟨i, hi, rfl⟩ := hs a h
  exact fun h => Nat.ne_of_lt hi (env.addr_injective h)

theorem heap_addr (hs : s.Fresh env) : s.heap (env.addr s.allocated) = none := by
  by_contra h
  exact ne_addr hs h rfl

end Env

namespace Mem.Fresh

variable {env : Env} {s : Mem} {a : Addr}

theorem ne_of_heap (hs : s.Fresh env) (h : s.heap a ≠ none) : a ≠ env.addr s.allocated :=
  Env.ne_addr hs h

theorem ne_of_node? (hs : s.Fresh env) {n : ArtNode} (h : s.node? a = some n) :
    a ≠ env.addr s.allocated :=
  Env.ne_addr hs (by simp [Mem.heap_of_node? h])

theorem ne_of_leaf? (hs : s.Fresh env) {l : LeafNode} (h : s.leaf? a = some l) :
    a ≠ env.addr s.allocated :=
  Env.ne_addr hs (by simp [Mem.heap_of_leaf? h])

theorem exists_addr_of_node? (hs : s.Fresh env) {n : ArtNode} (h : s.node? a = some n) :
    ∃ i, i < s.allocated ∧ env.addr i = a := hs a (by simp [Mem.heap_of_node? h])

theorem exists_addr_of_leaf? (hs : s.Fresh env) {l : LeafNode} (h : s.leaf? a = some l) :
    ∃ i, i < s.allocated ∧ env.addr i = a := hs a (by simp [Mem.heap_of_leaf? h])

/-- Updating a block that is in use. -/
theorem of_heap {s' : Mem} (hs : s.Fresh env) (hle : s.allocated ≤ s'.allocated)
    (h : ∀ a, s'.heap a ≠ none → s.heap a = none → ∃ i, i < s'.allocated ∧ env.addr i = a) :
    s'.Fresh env := by
  intro a ha
  by_cases hsa : s.heap a = none
  · exact h a ha hsa
  · obtain ⟨i, hi, rfl⟩ := hs a hsa
    exact ⟨i, by omega, rfl⟩

theorem setNode (hs : s.Fresh env) (h : ∃ i, i < s.allocated ∧ env.addr i = a) (n : ArtNode) :
    (s.setNode a n).Fresh env :=
  hs.of_heap (Nat.le_refl _) fun b hb hsb => by
    by_cases hba : b = a
    · exact hba ▸ h
    · rw [Mem.setNode_heap, Function.update_of_ne hba] at hb
      exact absurd hsb hb

theorem setLeaf (hs : s.Fresh env) (h : ∃ i, i < s.allocated ∧ env.addr i = a) (l : LeafNode) :
    (s.setLeaf a l).Fresh env :=
  hs.of_heap (Nat.le_refl _) fun b hb hsb => by
    by_cases hba : b = a
    · exact hba ▸ h
    · rw [Mem.setLeaf_heap, Function.update_of_ne hba] at hb
      exact absurd hsb hb

theorem setGlobal (hs : s.Fresh env) (g : Global) : (s.setGlobal g).Fresh env := hs

theorem setRoot (hs : s.Fresh env) (p : Ptr) : (s.setRoot p).Fresh env := hs

theorem mallocNode (hs : s.Fresh env) (t : NodeType) : (env.mallocNode s t).Fresh env :=
  hs.of_heap (Nat.le_succ _) fun a ha hsa => by
    refine ⟨s.allocated, Nat.lt_succ_self _, ?_⟩
    by_contra hne
    exact ha (by rwa [env.heap_mallocNode_of_ne t (Ne.symm hne)])

theorem mallocLeaf (hs : s.Fresh env) (len : ℕ) : (env.mallocLeaf s len).Fresh env :=
  hs.of_heap (Nat.le_succ _) fun a ha hsa => by
    refine ⟨s.allocated, Nat.lt_succ_self _, ?_⟩
    by_contra hne
    exact ha (by rwa [env.heap_mallocLeaf_of_ne len (Ne.symm hne)])

theorem free (hs : s.Fresh env) (a : Addr) :
    Mem.Fresh env { s with heap := Function.update s.heap a none } :=
  hs.of_heap (Nat.le_refl _) fun b hb hsb => by
    by_cases hba : b = a
    · simp [hba] at hb
    · exact absurd hsb (by simpa [hba] using hb)

/-- No access hands out a block that the allocator has not handed out. -/
theorem exec {β : Type} {o : ArtOp β} {b : β} {s' : Mem} (hs : s.Fresh env)
    (h : env.exec o s = .ok (b, s')) : s'.Fresh env := by
  cases o with
  | loadRoot | storeRoot | mallocNode | mallocLeaf =>
    cases h
    first | exact hs | exact hs.mallocNode _ | exact hs.mallocLeaf _
  | casRoot =>
    simp only [Env.exec] at h
    split at h <;> (cases h; exact hs)
  | load =>
    simp only [Env.exec] at h
    split at h
    · split at h <;> cases h
      exact hs
    · cases h
  | loadLeaf =>
    simp only [Env.exec] at h
    split at h
    · split at h <;> cases h
      exact hs
    · cases h
  | store =>
    simp only [Env.exec] at h
    split at h
    · split at h <;> cases h
      exact hs.setNode (hs.exists_addr_of_node? ‹_›) _
    · cases h
  | storeLeaf =>
    simp only [Env.exec] at h
    split at h
    · split at h <;> cases h
      exact hs.setLeaf (hs.exists_addr_of_leaf? ‹_›) _
    · cases h
  | casVersion =>
    simp only [Env.exec] at h
    split at h
    · split at h <;> cases h
      · exact hs.setNode (hs.exists_addr_of_node? ‹_›) _
      · exact hs
    · cases h
  | copy =>
    simp only [Env.exec] at h
    split at h
    · split at h <;> cases h
      exact hs.setNode (hs.exists_addr_of_node? ‹_›) _
    · cases h
  | free an =>
    simp only [Env.exec] at h
    split at h <;> cases h
    exact hs.free an
  | onGlobal =>
    simp only [Env.exec] at h
    split at h <;> cases h
    exact hs

end Mem.Fresh

/-! ### Tagged pointers -/

section Tags

theorem isLeaf_iff (p : ℕ) : isLeaf p = decide (p % 2 = 1) := by
  simp [isLeaf, Nat.and_one_is_mod]
  rcases Nat.mod_two_eq_zero_or_one p with h | h <;> simp [h]

theorem not_isLeaf_of_aligned {a : ℕ} (h : 8 ∣ a) : isLeaf a = false := by
  rw [isLeaf_iff]
  simp only [decide_eq_false_iff_not]
  omega

/-- `make_leaf` on the byte after an aligned address is the tagged address. -/
theorem makeLeaf_succ {a : ℕ} (h : 8 ∣ a) : makeLeaf (a + 1) = a + 1 := by
  have ha : a % 2 = 0 := by omega
  simp only [makeLeaf, Nat.add_sub_cancel]
  refine Nat.eq_of_testBit_eq fun i => ?_
  rw [Nat.testBit_or]
  cases i with
  | zero => simp [Nat.testBit_zero]; omega
  | succ i => simp only [Nat.testBit_succ, show (a + 1) / 2 = a / 2 by omega]; simp

theorem isLeaf_succ {a : ℕ} (h : 8 ∣ a) : isLeaf (a + 1) = true := by
  rw [isLeaf_iff]
  simp only [decide_eq_true_eq]
  omega

theorem getLeaf_succ {a : ℕ} (h : 8 ∣ a) : getLeaf (a + 1) = a := by
  change (a + 1) / 2 * 2 = a
  omega

theorem getLeaf_of_isLeaf {p : ℕ} (h : isLeaf p = true) : p = getLeaf p + 1 := by
  rw [isLeaf_iff, decide_eq_true_eq] at h
  change p = p / 2 * 2 + 1
  omega

end Tags

end Sidle.Art
