import Sidle.Masstree.Routing
import Sidle.Masstree.Upkeep

/-!
# What a search reads

A search in the tree reads the entries of leaves, the keys and children of internodes, the pointer
to a parent and the root flag of a version word.  The scene of a memory is that and no more: no
locks or counters, no neighbours in a list of leaves, no metadata, and of a suffix only the string,
wherever its bag lies.

## Main definitions

* `Face`, `Scene`, `Mem.scene` — what is seen of a node, and of a memory.
* `Mem.Tidy` — the invariant under which stores to one node are not seen at another.
* `sceneView` — the view of a tidy memory that shows the scene.

## Main results

* `seen_store`, `seen_writeLeaf`, `seen_setParent`, … — **the rules for an access**.
* `unseen_lock`, `seen_unlock`, `seen_makeLeaf`, … — the functions that only use a node or two.
-/

namespace Sidle.Masstree

open Art (Build Fault)
open Prog Machine Outcome Word Worker

/-! ### Scenes -/

/-- A leaf without what a search does not read, its suffixes in a bag of its own. -/
def Leaf.bare (l : Leaf) (external : Stringbag) : Leaf :=
  { l with
    version := NodeVersion.make true
    metadata := ⟨.unknown, 0⟩
    accessTime := 0
    extrasize64 := 0
    modstate := .insert
    ksuf := 0
    next := 0
    prev := 0
    parent := 0
    iksuf := ⟨0, 0, l.ksufAt external⟩ }

/-- An internode without what a search does not read. -/
def Internode.bare (y : Internode) : Internode :=
  { y with version := NodeVersion.make false, sidleMeta := ⟨.unknown, 0⟩, parent := 0 }

/-- What is seen of a node: two flags of its version word, the pointer to its parent, and the bare
node. -/
structure Face where
  root : Bool
  splitting : Bool
  parent : Addr
  node : Node

/-- What is seen of all nodes, and the pointer of the table. -/
structure Scene where
  root : Addr
  face : Addr → Option Face

/-- The bare node. -/
def Mem.bare (mem : Mem) : Node → Node
  | .leaf l => .leaf (l.bare (mem.externalBag l))
  | .internode y => .internode y.bare

/-- What is seen of a node. -/
def Mem.look (mem : Mem) (n : Node) : Face :=
  ⟨n.version.isRoot, n.version.splitting, n.parent, mem.bare n⟩

/-- What is seen of the memory. -/
def Mem.scene (mem : Mem) : Scene := ⟨mem.root, fun a => (mem.node? a).map mem.look⟩

/-- Another face at `a`. -/
def Scene.set (x : Scene) (a : Addr) (f : Face) : Scene :=
  { x with face := Function.update x.face a (some f) }

/-- The pointer to the bag of a leaf. -/
def Node.bagPtr : Node → Option Addr
  | leaf l => some l.ksuf
  | internode _ => none

/-- A leaf that has a bag of its own for its suffixes knows it. -/
def Node.Outside : Node → Prop
  | leaf l => l.ksuf ≠ 0 → l.extrasize64 < 0
  | internode _ => True

/-- The version word says what the node is, and it does not migrate. -/
structure Genuine (n : Node) : Prop where
  isleaf : n.version.isleaf = n.sketch.leaf
  migrating : n.version.migrating = false
  outside : n.Outside

/-- Stores to one node are not seen at another. -/
structure Mem.Tidy (mem : Mem) : Prop where
  null : mem.blocks 0 = none
  lt : ∀ ⦃a⦄, mem.blocks a ≠ none → a < mem.fresh
  bag_lt : ∀ ⦃k⦄, mem.bags k ≠ none → k < mem.fresh
  genuine : ∀ ⦃a n⦄, mem.node? a = some n → Genuine n
  bag : ∀ ⦃a n k⦄, mem.node? a = some n → n.bagPtr = some k → k ≠ 0 → mem.bags k ≠ none
  own : ∀ ⦃a b m n k⦄, mem.node? a = some m → mem.node? b = some n → m.bagPtr = some k →
    n.bagPtr = some k → k ≠ 0 → a = b

/-- The view of a tidy memory that shows the scene. -/
def sceneView : View Mem Scene := ⟨Mem.Tidy, Mem.scene⟩

section Scenes

variable {x : Scene} {a b : Addr} {f g : Face}

@[simp] theorem Scene.root_set : (x.set a f).root = x.root := rfl

@[simp] theorem Scene.face_set_self : (x.set a f).face a = some f := Function.update_self ..

theorem Scene.face_set_of_ne (h : b ≠ a) : (x.set a f).face b = x.face b :=
  Function.update_of_ne h ..

theorem Scene.face_set : (x.set a f).face b = if b = a then some f else x.face b :=
  Function.update_apply ..

@[simp] theorem Scene.set_set : (x.set a f).set a g = x.set a g := by
  simp only [Scene.set, Function.update_idem]

theorem Scene.set_eq_self (h : x.face a = some f) : x.set a f = x := by
  rw [Scene.set, ← h, Function.update_eq_self]

end Scenes

section Tidy

variable {mem : Mem} {a b : Addr} {m n : Node} {l : Leaf} {k : Addr}

theorem Mem.Tidy.ne_zero (h : mem.Tidy) (hn : mem.node? a = some n) : a ≠ 0 := by
  rintro rfl
  rw [Mem.node?, h.null] at hn
  cases hn

theorem Mem.Tidy.fresh (h : mem.Tidy) : mem.node? mem.fresh = none := by
  cases hb : mem.blocks mem.fresh with
  | none =>
    rw [Mem.node?, hb]
    rfl
  | some b => exact absurd (h.lt (by rw [hb]; simp)) (Nat.lt_irrefl _)

theorem face_scene (h : mem.node? a = some n) : mem.scene.face a = some (mem.look n) := by
  simp only [Mem.scene, h, Option.map_some]

theorem face_scene_eq_some {f : Face} :
    mem.scene.face a = some f ↔ ∃ n, mem.node? a = some n ∧ mem.look n = f := Option.map_eq_some_iff

/-- A node with the same bag takes the place of another. -/
structure Kin (m n : Node) : Prop where
  genuine : Genuine n
  bag : n.bagPtr = m.bagPtr

theorem Mem.Tidy.setNode (h : mem.Tidy) (hm : mem.node? a = some m) (hkin : Kin m n) :
    (mem.setNode a n).Tidy := by
  have hnone (b : Addr) : (mem.setNode a n).blocks b = none ↔ mem.blocks b = none := by
    by_cases hb : b = a
    · simp [Mem.setNode, hb]
    · simp [Mem.setNode, Function.update_of_ne hb]
  -- a node whose pointer to a bag is the one it was before
  have hnode ⦃b : Addr⦄ ⦃q : Node⦄ (hq : (mem.setNode a n).node? b = some q) :
      ∃ q', mem.node? b = some q' ∧ q.bagPtr = q'.bagPtr := by
    rw [node?_setNode_eq hm] at hq
    split at hq
    · rename_i hb
      cases hq
      exact ⟨m, hb ▸ hm, hkin.bag⟩
    · exact ⟨q, hq, rfl⟩
  refine ⟨(hnone 0).mpr h.null, ?_, h.bag_lt, ?_, ?_, ?_⟩
  · intro b hb
    exact h.lt ((hnone b).not.mp hb)
  · intro b q hq
    rw [node?_setNode_eq hm] at hq
    split at hq
    · cases hq
      exact hkin.genuine
    · exact h.genuine hq
  · intro b q k hq hk h0
    obtain ⟨q', hq', heq⟩ := hnode hq
    exact h.bag hq' (heq ▸ hk) h0
  · intro b c q r k hq hr hk hk' h0
    obtain ⟨q', hq', heq⟩ := hnode hq
    obtain ⟨r', hr', heq'⟩ := hnode hr
    exact h.own hq' hr' (heq ▸ hk) (heq' ▸ hk') h0

theorem look_setNode : (mem.setNode a n).look = mem.look := by
  funext q
  cases q <;> rfl

theorem scene_setNode (hm : mem.node? a = some m) :
    (mem.setNode a n).scene = mem.scene.set a (mem.look n) := by
  refine congrArg (Scene.mk mem.root) (funext fun b => ?_)
  rw [node?_setNode_eq hm, look_setNode, Function.update_apply]
  split
  · rfl
  · rfl

theorem Mem.Tidy.congr {mem' : Mem} (h : mem.Tidy) (hb : mem'.blocks = mem.blocks)
    (hg : mem'.bags = mem.bags) (ha : mem'.allocated = mem.allocated) : mem'.Tidy := by
  have hnode : mem'.node? = mem.node? := by
    funext a
    rw [Mem.node?, hb]
    rfl
  have hfresh : mem'.fresh = mem.fresh := by
    rw [Mem.fresh, ha]
    rfl
  refine ⟨by rw [hb]; exact h.null, ?_, ?_, ?_, ?_, ?_⟩
  · rw [hb, hfresh]
    exact h.lt
  · rw [hg, hfresh]
    exact h.bag_lt
  · rw [hnode]
    exact h.genuine
  · rw [hnode, hg]
    exact h.bag
  · rw [hnode]
    exact h.own

end Tidy

/-! ### The rules for an access -/

section Rules

variable {α β : Type} {a p : Addr} {x : Scene}

theorem seen_access {find : Mem → Option α} {f : α → Mem → β × Mem} {Q : β → Scene → Prop}
    (h : ∀ mem c, mem.Tidy → mem.scene = x → find mem = some c →
      (f c mem).2.Tidy ∧ Q (f c mem).1 (f c mem).2.scene) :
    machine.Tracks sceneView (access find f) x Q := by
  intro mem hs hx
  exact ensures_access fun c hc => h mem c hs hx hc

/-- A read. -/
theorem seen_read {find : Mem → Option α} {g : α → β} {Q : β → Scene → Prop}
    (h : ∀ mem c, mem.Tidy → mem.scene = x → find mem = some c → Q (g c) x) :
    machine.Tracks sceneView (access find fun c mem => (g c, mem)) x Q := by
  refine seen_access fun mem c hs hx hc => ⟨hs, ?_⟩
  simp only [hx]
  exact h mem c hs hx hc

theorem unseen_read {find : Mem → Option α} {g : α → β} :
    machine.Blind sceneView (access find fun c mem => (g c, mem)) := fun _ =>
  seen_read fun _ _ _ _ _ => rfl

/-- **A store** to the node at `a`. -/
theorem seen_store {find : Mem → Option α} {f : α → Mem → β × Mem} {Q : β → Scene → Prop}
    (h : ∀ mem c, mem.Tidy → mem.scene = x → find mem = some c → ∃ m n,
      mem.node? a = some m ∧ (f c mem).2 = mem.setNode a n ∧ Kin m n ∧
        Q (f c mem).1 (x.set a (mem.look n))) :
    machine.Tracks sceneView (access find f) x Q := by
  refine seen_access fun mem c hs hx hc => ?_
  obtain ⟨m, n, hm, heq, hkin, hQ⟩ := h mem c hs hx hc
  rw [heq, scene_setNode hm, hx]
  exact ⟨hs.setNode hm hkin, hQ⟩

theorem ensures_externalBag {mem : Mem} {l : Leaf} :
    machine.Ensures (externalBag l) mem fun b mem' => mem' = mem ∧
      ∀ q, l.ksufAt b q = l.ksufAt (mem.externalBag l) q := by
  refine ensures_ite (fun _ => ?_) fun h0 => ensures_ret.mpr ⟨rfl, fun q => ?_⟩
  · refine ensures_read.imp fun b mem' hb => ?_
    obtain ⟨rfl, c, hc, rfl⟩ := hb
    refine ⟨rfl, fun q => ?_⟩
    rw [Mem.externalBag, hc]
    rfl
  · rw [Leaf.ksufAt, Leaf.ksufAt, Leaf.bag, Leaf.bag, if_neg h0, if_neg h0]

theorem seen_readLeaf {Q : Leaf → Scene → Prop}
    (h : ∀ f l external, x.face a = some f → f.node = .leaf (l.bare external) →
      f.root = l.version.isRoot → f.splitting = l.version.splitting → Q l x) :
    machine.Tracks sceneView (readLeaf a) x Q := by
  refine seen_read fun mem l hs hx hl => ?_
  have hface := face_scene (leaf?_eq_some.mp hl)
  rw [hx] at hface
  exact h _ l _ hface rfl rfl rfl

theorem seen_readInternode {Q : Internode → Scene → Prop}
    (h : ∀ f y, x.face a = some f → f.node = .internode y.bare → Q y x) :
    machine.Tracks sceneView (readInternode a) x Q := by
  refine seen_read fun mem y hs hx hy => ?_
  have hface := face_scene (internode?_eq_some.mp hy)
  rw [hx] at hface
  exact h _ y hface rfl

theorem seen_readVersion {Q : NodeVersion → Scene → Prop}
    (h : ∀ f v, x.face a = some f → v.isleaf = f.node.sketch.leaf → v.migrating = false →
      v.isRoot = f.root → v.splitting = f.splitting → Q v x) :
    machine.Tracks sceneView (readVersion a) x Q := by
  refine seen_read fun mem n hs hx hn => ?_
  have hface := face_scene hn
  rw [hx] at hface
  have hgenuine := hs.genuine hn
  refine h _ _ hface ?_ hgenuine.migrating rfl rfl
  rw [hgenuine.isleaf]
  cases n <;> rfl

theorem seen_readParent {Q : Addr → Scene → Prop}
    (h : ∀ f, x.face a = some f → Q f.parent x) :
    machine.Tracks sceneView (readParent a) x Q := by
  refine seen_read fun mem n hs hx hn => ?_
  have hface := face_scene hn
  rw [hx] at hface
  exact h _ hface

/-- **A store to a leaf**, which does to the bare leaf what `g` does. -/
theorem seen_writeLeaf {f g : Leaf → Leaf} {Q : Unit → Scene → Prop}
    (hv : ∀ l, (f l).version = l.version) (hk : ∀ l, (f l).ksuf = l.ksuf)
    (he : ∀ l, (f l).extrasize64 = l.extrasize64) (hp : ∀ l, (f l).parent = l.parent)
    (hbare : ∀ l external, (f l).bare external = g (l.bare external))
    (hQ : ∀ c l, x.face a = some c → c.node = .leaf l →
      Q () (x.set a { c with node := .leaf (g l) })) :
    machine.Tracks sceneView (writeLeaf a f) x Q := by
  refine seen_store (a := a) fun mem l hs hx hl => ?_
  have hm := leaf?_eq_some.mp hl
  have hface := face_scene hm
  rw [hx] at hface
  have hgenuine := hs.genuine hm
  refine ⟨.leaf l, .leaf (f l), hm, rfl, ⟨⟨?_, ?_, ?_⟩, ?_⟩, ?_⟩
  · simp only [Node.version, hv]
    exact hgenuine.isleaf
  · simp only [Node.version, hv]
    exact hgenuine.migrating
  · simp only [Node.Outside, hk, he]
    exact hgenuine.outside
  · simp only [Node.bagPtr, hk]
  · have hlook : mem.look (.leaf (f l)) =
        { mem.look (.leaf l) with node := .leaf (g (l.bare (mem.externalBag l))) } := by
      have hext : mem.externalBag (f l) = mem.externalBag l := by
        rw [Mem.externalBag, hk]
        rfl
      simp only [Mem.look, Mem.bare, Node.version, Node.parent, hv, hp, hext, hbare]
    simp only [hlook]
    exact hQ _ _ hface rfl

/-- A store to a leaf that is not seen. -/
theorem unseen_writeLeaf {f : Leaf → Leaf} (hv : ∀ l, (f l).version = l.version)
    (hk : ∀ l, (f l).ksuf = l.ksuf) (he : ∀ l, (f l).extrasize64 = l.extrasize64)
    (hp : ∀ l, (f l).parent = l.parent)
    (hbare : ∀ l external, (f l).bare external = l.bare external) :
    machine.Blind sceneView (writeLeaf a f) := by
  intro x
  refine seen_writeLeaf (g := id) hv hk he hp hbare fun c l hc hl => ?_
  refine Scene.set_eq_self ?_
  rw [hc, id, ← hl]

/-- **A store to an internode**. -/
theorem seen_writeInternode {f g : Internode → Internode} {Q : Unit → Scene → Prop}
    (hv : ∀ y, (f y).version = y.version) (hp : ∀ y, (f y).parent = y.parent)
    (hbare : ∀ y, (f y).bare = g y.bare)
    (hQ : ∀ c y, x.face a = some c → c.node = .internode y →
      Q () (x.set a { c with node := .internode (g y) })) :
    machine.Tracks sceneView (writeInternode a f) x Q := by
  refine seen_store (a := a) fun mem y hs hx hy => ?_
  have hm := internode?_eq_some.mp hy
  have hface := face_scene hm
  rw [hx] at hface
  have hgenuine := hs.genuine hm
  refine ⟨.internode y, .internode (f y), hm, rfl, ⟨⟨?_, ?_, trivial⟩, rfl⟩, ?_⟩
  · simp only [Node.version, hv]
    exact hgenuine.isleaf
  · simp only [Node.version, hv]
    exact hgenuine.migrating
  · have hlook : mem.look (.internode (f y)) =
        { mem.look (.internode y) with node := .internode (g y.bare) } := by
      simp only [Mem.look, Mem.bare, Node.version, Node.parent, hv, hp, hbare]
    simp only [hlook]
    exact hQ _ _ hface rfl

/-- **Another parent**. -/
theorem seen_setParent {Q : Unit → Scene → Prop}
    (hQ : ∀ c, x.face a = some c → Q () (x.set a { c with parent := p })) :
    machine.Tracks sceneView (setParent a p) x Q := by
  refine seen_store (a := a) fun mem m hs hx hm => ?_
  have hface := face_scene hm
  rw [hx] at hface
  have hgenuine := hs.genuine hm
  refine ⟨m, m.setParent p, hm, rfl, ⟨⟨?_, ?_, ?_⟩, ?_⟩, ?_⟩
  · rw [version_setParent, hgenuine.isleaf]
    cases m <;> rfl
  · rw [version_setParent]
    exact hgenuine.migrating
  · have houtside := hgenuine.outside
    cases m <;> exact houtside
  · cases m <;> rfl
  · have hlook : mem.look (m.setParent p) = { mem.look m with parent := p } := by
      cases m <;> rfl
    rw [hlook]
    exact hQ _ hface

/-- **Another version word**. -/
theorem seen_writeVersion {f : NodeVersion → NodeVersion} {Q : Unit → Scene → Prop}
    (h : ∀ c v, x.face a = some c → v.isleaf = c.node.sketch.leaf → v.migrating = false →
      v.isRoot = c.root → v.splitting = c.splitting →
        (f v).isleaf = v.isleaf ∧ (f v).migrating = false ∧
          Q () (x.set a { c with root := (f v).isRoot, splitting := (f v).splitting })) :
    machine.Tracks sceneView (writeVersion a f) x Q := by
  refine seen_store (a := a) fun mem m hs hx hm => ?_
  have hface := face_scene hm
  rw [hx] at hface
  have hgenuine := hs.genuine hm
  have hleaf : m.version.isleaf = (mem.look m).node.sketch.leaf := by
    rw [hgenuine.isleaf]
    cases m <;> rfl
  obtain ⟨hisleaf, hmigrating, hQ⟩ := h _ _ hface hleaf hgenuine.migrating rfl rfl
  refine ⟨m, m.setVersion (f m.version), hm, rfl, ⟨⟨?_, ?_, ?_⟩, ?_⟩, ?_⟩
  · rw [version_setVersion, hisleaf, hgenuine.isleaf]
    cases m <;> rfl
  · rw [version_setVersion]
    exact hmigrating
  · have houtside := hgenuine.outside
    cases m <;> exact houtside
  · cases m <;> rfl
  · have hlook : mem.look (m.setVersion (f m.version)) =
        { mem.look m with
          root := (f m.version).isRoot
          splitting := (f m.version).splitting } := by
      cases m <;> rfl
    rw [hlook]
    exact hQ

theorem unseen_assert (on c : Bool) : machine.Blind sceneView (check on c) :=
  blind_ite blind_fail blind_ret

theorem unseen_onGlobal (f : Global → Option (β × Global)) :
    machine.Blind sceneView (onGlobal f) :=
  fun _ _ hs hx => ensures_onGlobal fun _ _ _ => ⟨hs.congr rfl rfl rfl, hx⟩

/-- The table points to another root. -/
theorem seen_casRoot {expected desired : Addr} : machine.Tracks sceneView (casRoot expected desired)
    x fun _ y => y = if x.root = expected then { x with root := desired } else x := by
  refine seen_access fun mem _ hs hx _ => ?_
  subst hx
  by_cases h : mem.root = expected
  · simp only [if_pos h]
    exact ⟨hs.congr rfl rfl rfl, (if_pos h).symm⟩
  · simp only [if_neg h]
    exact ⟨hs, (if_neg h).symm⟩

end Rules

/-! ### Locks -/

section Locks

variable {build : Build} {a p : Addr} {x : Scene} {fuel : ℕ} {v : NodeVersion}

theorem flag_lock {k : ℕ} (hk : k < 32) (h0 : k ≠ 0) : flag k v.lock = flag k v :=
  flag_setFlag_of_ne hk v h0

/-- A lock is not seen. -/
theorem unseen_casVersion (expected : NodeVersion) :
    machine.Blind sceneView (casVersion a expected expected.lock) := by
  intro x
  refine seen_access fun mem m hs hx hm => ?_
  subst hx
  split
  · rename_i hv
    have hgenuine := hs.genuine hm
    rw [← hv]
    have hkin : Kin m (m.setVersion m.version.lock) := by
      refine ⟨⟨?_, ?_, ?_⟩, ?_⟩
      · rw [version_setVersion, NodeVersion.isleaf, flag_lock (by decide) (by decide)]
        exact hgenuine.isleaf.trans (by cases m <;> rfl)
      · rw [version_setVersion, NodeVersion.migrating, flag_lock (by decide) (by decide)]
        exact hgenuine.migrating
      · have houtside := hgenuine.outside
        cases m <;> exact houtside
      · cases m <;> rfl
    refine ⟨hs.setNode hm hkin, ?_⟩
    rw [scene_setNode hm]
    refine Scene.set_eq_self ((face_scene hm).trans ?_)
    have hroot : m.version.lock.isRoot = m.version.isRoot := flag_lock (by decide) (by decide)
    have hsplit : m.version.lock.splitting = m.version.splitting :=
      flag_lock (by decide) (by decide)
    rw [Mem.look, Mem.look, version_setVersion, hroot, hsplit]
    cases m <;> rfl
  · exact ⟨hs, rfl⟩

theorem unseen_lockFrom (v : NodeVersion) : machine.Blind sceneView (lockFrom build a fuel v) := by
  induction fuel generalizing v with
  | zero => exact blind_diverge
  | succ fuel ih =>
    intro x
    have hfirst : machine.Tracks sceneView
        (if v.locked then pure false else casVersion a v v.lock) x fun _ y => y = x :=
      blind_ite blind_ret (unseen_casVersion v) x
    refine tracks_join hfirst fun b y hy => ?_
    subst hy
    refine tracks_ite (fun _ => ?_) fun _ => ?_
    · refine (unseen_assert _ _).then fun _ => unseen_read.then fun _ => ?_
      exact (unseen_assert _ _).then fun _ => tracks_ret rfl
    · exact unseen_read.then fun w => ih w _

theorem unseen_lock : machine.Blind sceneView (lock build fuel a) :=
  unseen_read.bind fun v => unseen_lockFrom v

/-- The face of a node that has been unlocked. -/
def Face.unlock (c : Face) : Face := { c with root := c.root && !c.splitting, splitting := false }

theorem isRoot_unlock_eq (h : v.migrating = false) :
    v.unlock.isRoot = (v.isRoot && !v.splitting) := by
  have hcarry : ¬v.CarriesOut := by
    intro hc
    rw [NodeVersion.CarriesOut, h] at hc
    cases hc.1
  have hok := (NodeVersion.unlockOk_iff v).mpr hcarry
  cases hs : v.splitting with
  | false => simp [hok.isRoot hs]
  | true => simp [NodeVersion.isRoot_unlock hs]

/-- **An unlock** shows if the node was split: its root flag goes. -/
theorem seen_unlock {Q : Unit → Scene → Prop}
    (hQ : ∀ c, x.face a = some c → Q () (x.set a c.unlock)) :
    machine.Tracks sceneView (unlock build a) x Q := by
  refine (seen_readVersion (Q := fun v y => y = x ∧ v.migrating = false ∧ ∃ c,
    x.face a = some c ∧ v.isleaf = c.node.sketch.leaf ∧ v.isRoot = c.root ∧
      v.splitting = c.splitting) ?_).bind fun v y hy => ?_
  · intro c v hc hl hm hr hs
    exact ⟨rfl, hm, c, hc, hl, hr, hs⟩
  · obtain ⟨rfl, hm, c, hc, hl, hr, hs⟩ := hy
    refine (unseen_assert _ _).then fun _ => seen_writeVersion fun c' w hc' hl' _ _ _ => ?_
    rw [hc] at hc'
    cases hc'
    have hcarry : ¬v.CarriesOut := by
      intro hcarry
      rw [NodeVersion.CarriesOut, hm] at hcarry
      cases hcarry.1
    have hok := (NodeVersion.unlockOk_iff v).mpr hcarry
    refine ⟨hok.isleaf.trans (hl.trans hl'.symm), hok.migrating, ?_⟩
    rw [isRoot_unlock_eq hm, hok.splitting, hr, hs]
    exact hQ c hc

/-- The unlock of a node that was not split is not seen. -/
theorem unseen_unlock (h : ∀ c, x.face a = some c → c.splitting = false) :
    machine.Tracks sceneView (unlock build a) x fun _ y => y = x := by
  refine seen_unlock fun c hc => Scene.set_eq_self (hc.trans ?_)
  have hs := h c hc
  simp only [Face.unlock, hs, Bool.not_false, Bool.and_true]
  rw [← hs]

/-- A mark that is not seen. -/
theorem unseen_markInsert :
    machine.Blind sceneView (markLocked build a NodeVersion.markInsert) := by
  intro x
  refine unseen_read.then fun v => (unseen_assert _ _).then fun _ => ?_
  refine seen_writeVersion fun c w hc _ hm hr hs => ?_
  have hflag {k : ℕ} (hk : k < 32) (hne : k ≠ 1) : flag k w.markInsert = flag k w :=
    flag_setFlag_of_ne hk w hne
  refine ⟨hflag (by decide) (by decide), (hflag (by decide) (by decide)).trans hm, ?_⟩
  have hroot : w.markInsert.isRoot = c.root := (hflag (by decide) (by decide)).trans hr
  have hsplit : w.markInsert.splitting = c.splitting :=
    (hflag (by decide) (by decide)).trans hs
  rw [hroot, hsplit]
  exact Scene.set_eq_self hc

/-- The mark of a split. -/
theorem seen_markSplit {Q : Unit → Scene → Prop}
    (hQ : ∀ c, x.face a = some c → Q () (x.set a { c with splitting := true })) :
    machine.Tracks sceneView (markLocked build a NodeVersion.markSplit) x Q := by
  refine unseen_read.then fun v => (unseen_assert _ _).then fun _ => ?_
  refine seen_writeVersion fun c w hc _ hm hr hs => ?_
  have hflag {k : ℕ} (hk : k < 32) (hne : k ≠ 2) : flag k w.markSplit = flag k w :=
    flag_setFlag_of_ne hk w hne
  refine ⟨hflag (by decide) (by decide), (hflag (by decide) (by decide)).trans hm, ?_⟩
  have hroot : w.markSplit.isRoot = c.root := (hflag (by decide) (by decide)).trans hr
  have hsplit : w.markSplit.splitting = true := flag_setFlag (by decide) w
  rw [hroot, hsplit]
  exact hQ c hc

/-- `mark_nonroot`. -/
theorem seen_clearRoot {Q : Unit → Scene → Prop}
    (hQ : ∀ c, x.face a = some c → Q () (x.set a { c with root := false })) :
    machine.Tracks sceneView (markLocked build a (Word.clearFlag 30)) x Q := by
  refine unseen_read.then fun v => (unseen_assert _ _).then fun _ => ?_
  refine seen_writeVersion fun c w hc _ hm hr hs => ?_
  have hflag {k : ℕ} (hk : k < 32) (hne : k ≠ 30) : flag k (clearFlag 30 w) = flag k w :=
    flag_clearFlag_of_ne hk w hne
  refine ⟨hflag (by decide) (by decide), (hflag (by decide) (by decide)).trans hm, ?_⟩
  have hroot : NodeVersion.isRoot (clearFlag 30 w) = false := flag_clearFlag (by decide) w
  have hsplit : NodeVersion.splitting (clearFlag 30 w) = c.splitting :=
    (hflag (by decide) (by decide)).trans hs
  rw [hroot, hsplit]
  exact hQ c hc

/-- `make_layer_root`. -/
theorem seen_makeLayerRoot {Q : Unit → Scene → Prop}
    (hQ : ∀ c, x.face a = some c →
      Q () (x.set a { c with root := true, parent := 0 })) :
    machine.Tracks sceneView (makeLayerRoot a) x Q := by
  refine (seen_setParent (Q := fun _ y => ∃ c, x.face a = some c ∧
    y = x.set a { c with parent := 0 }) fun c hc => ⟨c, hc, rfl⟩).bind
      fun _ y hy => ?_
  obtain ⟨c, hc, rfl⟩ := hy
  refine seen_writeVersion fun c' w hc' _ hm hr hs => ?_
  rw [Scene.face_set_self] at hc'
  cases hc'
  have hflag {k : ℕ} (hk : k < 32) (hne : k ≠ 30) : flag k (setFlag 30 w) = flag k w :=
    flag_setFlag_of_ne hk w hne
  refine ⟨hflag (by decide) (by decide), (hflag (by decide) (by decide)).trans hm, ?_⟩
  have hroot : NodeVersion.isRoot (setFlag 30 w) = true := flag_setFlag (by decide) w
  have hsplit : NodeVersion.splitting (setFlag 30 w) = c.splitting :=
    (hflag (by decide) (by decide)).trans hs
  rw [hroot, hsplit, Scene.set_set]
  exact hQ c hc

/-- `locked_parent` answers the parent. -/
theorem unseen_lockedParent : machine.Tracks sceneView (lockedParent build a fuel) x fun p y =>
    y = x ∧ ∃ c, x.face a = some c ∧ c.parent = p := by
  cases fuel with
  | zero => exact tracks_diverge
  | succ fuel =>
    refine unseen_read.then fun _ => (unseen_assert _ _).then fun _ => ?_
    refine (seen_readParent (Q := fun p y => y = x ∧ ∃ c, x.face a = some c ∧ c.parent = p)
      fun c hc => ⟨rfl, c, hc, rfl⟩).bind fun p y hy => ?_
    obtain ⟨rfl, c, hc, rfl⟩ := hy
    refine tracks_ite (fun h0 => tracks_ret ⟨rfl, c, hc, h0⟩) fun _ => ?_
    refine unseen_lock.then fun _ => ?_
    refine (seen_readParent (Q := fun p z => z = y ∧ p = c.parent) ?_).bind fun p z hz => ?_
    · intro c' hc'
      rw [hc] at hc'
      cases hc'
      exact ⟨rfl, rfl⟩
    obtain ⟨rfl, rfl⟩ := hz
    refine tracks_ite (fun _ => ?_) fun h => absurd rfl h
    exact unseen_read.then fun _ => (unseen_assert _ _).then fun _ =>
      tracks_ret ⟨rfl, c, hc, rfl⟩

end Locks

/-! ### Allocations -/

section Allocations

variable {env : Env} {a p : Addr} {x : Scene} {t : NodeMemType} {depth ksufsize : ℕ}

/-- What is seen of a new leaf. -/
def Face.newLeaf : Face :=
  ⟨false, false, 0, .leaf ((Leaf.make 0 .unknown 0 0).bare (Stringbag.external 0))⟩

/-- What is seen of a new internode. -/
def Face.newInternode (height : ℕ) : Face :=
  ⟨false, false, 0, .internode (Internode.make height .unknown 0).bare⟩

theorem unseen_updateLocalMemoryUsage {size : ℕ} {isMigration isLeaf : Bool} :
    machine.Blind sceneView (updateLocalMemoryUsage env t depth size isMigration isLeaf) :=
  unseen_onGlobal _

theorem unseen_decideNewNodePosition :
    machine.Blind sceneView (decideNewNodePosition t depth) :=
  unseen_onGlobal fun g => some (g.decideNewNodePosition t depth, g)

/-- There is a new node at `a`, with the face `c`. -/
def Appeared (c : Face) (x : Scene) (a : Addr) (y : Scene) : Prop :=
  a ≠ 0 ∧ x.face a = none ∧ y = x.set a c

theorem Mem.Tidy.alloc {mem : Mem} {size : ℕ} {n : Node} (h : mem.Tidy) (hn : Genuine n)
    (hbag : ∀ k, n.bagPtr = some k → k = 0) : (mem.alloc size n).Tidy := by
  have hblocks {b : Addr} (hb : b ≠ mem.fresh) : (mem.alloc size n).blocks b = mem.blocks b :=
    Function.update_of_ne hb _ _
  have hlt {b : Addr} (hb : b < mem.fresh) : b < (mem.alloc size n).fresh := hb.trans fresh_lt_alloc
  have hnode ⦃b : Addr⦄ ⦃q : Node⦄ (hq : (mem.alloc size n).node? b = some q) :
      q = n ∨ mem.node? b = some q := by
    rw [node?_alloc] at hq
    split at hq
    · exact Or.inl (Option.some.inj hq).symm
    · exact Or.inr hq
  refine ⟨(hblocks fresh_ne_zero.symm).trans h.null, ?_, fun k hk => hlt (h.bag_lt hk), ?_, ?_, ?_⟩
  · intro b hb
    by_cases hbf : b = mem.fresh
    · exact hbf ▸ fresh_lt_alloc
    · exact hlt (h.lt (hblocks hbf ▸ hb))
  · intro b q hq
    rcases hnode hq with rfl | hq
    · exact hn
    · exact h.genuine hq
  · intro b q k hq hk h0
    rcases hnode hq with rfl | hq
    · exact absurd (hbag k hk) h0
    · exact h.bag hq hk h0
  · intro b c q r k hq hr hk hk' h0
    rcases hnode hq with rfl | hq
    · exact absurd (hbag k hk) h0
    · rcases hnode hr with rfl | hr
      · exact absurd (hbag k hk') h0
      · exact h.own hq hr hk hk' h0

theorem look_alloc {mem : Mem} {size : ℕ} {n : Node} : (mem.alloc size n).look = mem.look := by
  funext q
  cases q <;> rfl

/-- **A new node**. -/
theorem seen_poolAllocate {size : ℕ} {n : Node} {c : Face} (hn : Genuine n)
    (hbag : ∀ k, n.bagPtr = some k → k = 0) (hc : ∀ mem : Mem, mem.look n = c) :
    machine.Tracks sceneView (poolAllocate size n) x fun a y => Appeared c x a y := by
  refine seen_access fun mem _ hs hx _ => ⟨hs.alloc hn hbag, fresh_ne_zero, ?_, ?_⟩
  · rw [← hx, Mem.scene]
    simp only [hs.fresh, Option.map_none]
  · rw [← hx]
    refine congrArg (Scene.mk mem.root) (funext fun b => ?_)
    rw [node?_alloc, look_alloc, Function.update_apply]
    split
    · rw [Option.map_some, hc]
    · rfl

theorem genuine_make (leaf : Bool) : (NodeVersion.make leaf).isleaf = leaf ∧
    (NodeVersion.make leaf).migrating = false := by
  cases leaf <;> decide

theorem seen_makeLeaf {accessTime : ℕ} {isMigration : Bool} :
    machine.Tracks sceneView (makeLeaf env ksufsize depth t accessTime isMigration) x
      fun a y => Appeared .newLeaf x a y := by
  refine (seen_poolAllocate ?_ ?_ ?_).bind fun _ _ hy =>
    unseen_updateLocalMemoryUsage.then fun _ => tracks_ret hy
  · exact ⟨(genuine_make true).1, (genuine_make true).2, fun h => absurd rfl h⟩
  · intro k hk
    cases hk
    rfl
  · intro mem
    have hroot : (NodeVersion.make true).isRoot = false := by decide
    have hsplit : (NodeVersion.make true).splitting = false := by decide
    simp only [Mem.look, Mem.bare, Node.version, Node.parent, Leaf.make, hroot, hsplit,
      Face.newLeaf]
    rfl

theorem seen_makeInternode {height : ℕ} {isMigration : Bool} :
    machine.Tracks sceneView (makeInternode env height depth t isMigration) x
      fun a y => Appeared (.newInternode height) x a y := by
  refine (seen_poolAllocate ?_ ?_ ?_).bind fun _ _ hy =>
    unseen_updateLocalMemoryUsage.then fun _ => tracks_ret hy
  · exact ⟨(genuine_make false).1, (genuine_make false).2, trivial⟩
  · intro k hk
    cases hk
  · intro mem
    have hroot : (NodeVersion.make false).isRoot = false := by decide
    have hsplit : (NodeVersion.make false).splitting = false := by decide
    simp only [Mem.look, Mem.bare, Node.version, Node.parent, Internode.make, hroot, hsplit,
      Face.newInternode]
    rfl

end Allocations

end Sidle.Masstree
