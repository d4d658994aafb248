import Sidle.Masstree.Insert
import Sidle.Masstree.Held

/-!
# What holds of every node

An invariant of the memory that speaks of each node for itself, whatever tree the nodes make up:
its status bits, the pointer to its parent, the list of leaves it stands in, and its bag of
suffixes.  Of a program that keeps it only a sketch of every node has to be followed.

## Main definitions

* `Sketch`, `Mem.outline` — what has to be followed of a node, and of all nodes.
* `Mem.Sound` — the invariant.
* `outlineView` — the view of a sound memory that shows the outline.

## Main results

* `Mem.Sound.setNode`, `Mem.Sound.alloc` — stores and allocations keep the invariant.
* `traced_store`, `sketched_store` — **the rules for an access**.
-/

namespace Sidle.Masstree

open Art (Build Fault)
open Prog Machine Outcome Word Worker

/-! ### Outlines -/

/-- What has to be followed of a node. -/
structure Sketch where
  leaf : Bool
  locked : Bool
  deleted : Bool
  /-- It has no neighbour in a list of leaves. -/
  single : Bool
  nkeys : ℕ

/-- The sketch of a node. -/
def Node.sketch : Node → Sketch
  | leaf l => ⟨true, l.version.locked, l.version.deleted, l.next == 0 && l.prev == 0, 0⟩
  | internode x => ⟨false, x.version.locked, x.version.deleted, true, x.nkeys⟩

/-- The sketches of all nodes. -/
abbrev Outline : Type := Addr → Option Sketch

/-- The outline of the memory. -/
def Mem.outline (mem : Mem) : Outline := fun a => (mem.node? a).map Node.sketch

/-- A leaf in its list: the leaves beside it, and whether it has been taken out. -/
structure Link where
  next : ℕ
  prev : Addr
  deleted : Bool

/-- Where a leaf stands. -/
def Node.link? : Node → Option Link
  | leaf l => some ⟨l.next, l.prev, l.version.deleted⟩
  | internode _ => none

/-- Where the leaves of the memory stand. -/
def Mem.links (mem : Mem) (a : Addr) : Option Link := (mem.node? a).bind Node.link?

/-- The bag of a leaf, and the size that the leaf says it has. -/
def Node.suffixes : Node → Option (Addr × ℕ)
  | leaf l => some (l.ksuf, l.allocatedSize)
  | internode _ => none

/-! ### The invariant -/

/-- The leaves that are in a list know each other. -/
structure Chained (G : Addr → Option Link) : Prop where
  unmarked : ∀ ⦃a k⦄, G a = some k → k.deleted = false → isMarked k.next = false
  next : ∀ ⦃a k⦄, G a = some k → k.deleted = false → k.next ≠ 0 →
    k.next ≠ a ∧ ∃ r, G k.next = some r ∧ r.deleted = false ∧ r.prev = a
  prev : ∀ ⦃a k⦄, G a = some k → k.deleted = false → k.prev ≠ 0 →
    ∃ r, G k.prev = some r ∧ r.deleted = false ∧ r.next = a

/-- What holds of the version word of a node. -/
structure VersionOk (leaf : Bool) (v : NodeVersion) : Prop where
  isleaf : v.isleaf = leaf
  migrating : v.migrating = false
  deleted : leaf = false → v.deleted = false
  calm : v.locked = false → v.inserting = false ∧ v.splitting = false

/-- What holds of every node for itself. -/
structure Mem.NodesOk (mem : Mem) : Prop where
  null : mem.blocks 0 = none
  lt : ∀ ⦃a⦄, mem.blocks a ≠ none → a < mem.fresh ∧ a % 8 = 0
  bag_lt : ∀ ⦃a⦄, mem.bags a ≠ none → a < mem.fresh
  version : ∀ ⦃a n⦄, mem.node? a = some n → VersionOk n.sketch.leaf n.version
  parent : ∀ ⦃a n⦄, mem.node? a = some n → n.parent ≠ 0 →
    ∃ y, mem.node? n.parent = some (.internode y)
  nkeys : ∀ ⦃a n⦄, mem.node? a = some n → n.sketch.nkeys ≤ width
  size : ∀ ⦃a b k sz⦄, mem.blocks a = some b → b.node.suffixes = some (k, sz) → sz = b.size
  bag : ∀ ⦃a n k sz⦄, mem.node? a = some n → n.suffixes = some (k, sz) → k ≠ 0 →
    ∃ b, mem.bags k = some b ∧ b.retired = false
  own : ∀ ⦃a a' n n' k sz sz'⦄, mem.node? a = some n → mem.node? a' = some n' →
    n.suffixes = some (k, sz) → n'.suffixes = some (k, sz') → k ≠ 0 → a = a'
  live : ∀ ⦃a b⦄, mem.blocks a = some b → b.retired = true → b.node.sketch.deleted = true

/-- **The invariant**: the nodes are in order, and so are the lists of leaves. -/
structure Mem.Sound (mem : Mem) : Prop extends mem.NodesOk where
  chained : Chained mem.links

/-- The view of a sound memory that shows the outline. -/
def outlineView : View Mem Outline := ⟨Mem.Sound, Mem.outline⟩

/-! ### Version words -/

section Versions

variable {leaf : Bool} {v : NodeVersion}

theorem VersionOk.not_carriesOut (h : VersionOk leaf v) : ¬v.CarriesOut := by
  intro hc
  rw [NodeVersion.CarriesOut, h.migrating] at hc
  cases hc.1

theorem VersionOk.of_marks {w : NodeVersion} (h : VersionOk leaf v) (hl : w.isleaf = v.isleaf)
    (hm : w.migrating = v.migrating) (hd : w.deleted = v.deleted) (hw : w.locked = true) :
    VersionOk leaf w :=
  ⟨hl.trans h.isleaf, hm.trans h.migrating, fun hf => hd.trans (h.deleted hf), by simp [hw]⟩

theorem versionOk_make (leaf : Bool) : VersionOk leaf (NodeVersion.make leaf) := by
  cases leaf <;> constructor <;> decide

@[simp] theorem NodeVersion.locked_lock (v : NodeVersion) : v.lock.locked = true :=
  flag_setFlag (by decide) v

/-- A flag that is raised under the lock. -/
theorem VersionOk.setFlag (h : VersionOk leaf v) (hv : v.locked = true) {k : ℕ}
    (hk : k = 0 ∨ k = 1 ∨ k = 2) : VersionOk leaf (Word.setFlag k v) := by
  have hflag {j : ℕ} (hj : j < 32) (hne : j ≠ k) : flag j (Word.setFlag k v) = flag j v :=
    flag_setFlag_of_ne hj v hne
  refine h.of_marks (hflag (by decide) (by omega)) (hflag (by decide) (by omega))
    (hflag (by decide) (by omega)) ?_
  by_cases h0 : k = 0
  · subst h0
    exact flag_setFlag (by decide) v
  · exact (hflag (by decide) (Ne.symm h0)).trans hv

theorem VersionOk.lock (h : VersionOk leaf v) : VersionOk leaf v.lock := by
  have hflag {j : ℕ} (hj : j < 32) (hne : j ≠ 0) : flag j v.lock = flag j v :=
    flag_setFlag_of_ne hj v hne
  exact h.of_marks (hflag (by decide) (by decide)) (hflag (by decide) (by decide))
    (hflag (by decide) (by decide)) (NodeVersion.locked_lock v)

theorem VersionOk.unlock (h : VersionOk leaf v) : VersionOk leaf v.unlock := by
  have hok := (NodeVersion.unlockOk_iff v).mpr h.not_carriesOut
  exact ⟨hok.isleaf.trans h.isleaf, hok.migrating, fun hf => hok.deleted.trans (h.deleted hf),
    fun _ => ⟨hok.inserting, hok.splitting⟩⟩

theorem VersionOk.deleted_unlock (h : VersionOk leaf v) : v.unlock.deleted = v.deleted :=
  ((NodeVersion.unlockOk_iff v).mpr h.not_carriesOut).deleted

/-- The root flag matters to none of this. -/
theorem VersionOk.of_root {w : NodeVersion} (h : VersionOk leaf v)
    (hw : ∀ j < 32, j ≠ 30 → flag j w = flag j v) : VersionOk leaf w := by
  have hlocked : w.locked = v.locked := hw 0 (by decide) (by decide)
  have hinserting : w.inserting = v.inserting := hw 1 (by decide) (by decide)
  have hsplitting : w.splitting = v.splitting := hw 2 (by decide) (by decide)
  have hmigrating : w.migrating = v.migrating := hw 28 (by decide) (by decide)
  have hdeleted : w.deleted = v.deleted := hw 29 (by decide) (by decide)
  have hisleaf : w.isleaf = v.isleaf := hw 31 (by decide) (by decide)
  refine ⟨hisleaf.trans h.isleaf, hmigrating.trans h.migrating, ?_, ?_⟩
  · intro hf
    exact hdeleted.trans (h.deleted hf)
  · intro hl
    obtain ⟨hi, hs⟩ := h.calm (hlocked.symm.trans hl)
    exact ⟨hinserting.trans hi, hsplitting.trans hs⟩

theorem VersionOk.setRoot (h : VersionOk leaf v) : VersionOk leaf (Word.setFlag 30 v) :=
  h.of_root fun _ hj hne => flag_setFlag_of_ne hj v hne

theorem VersionOk.clearRoot (h : VersionOk leaf v) : VersionOk leaf (Word.clearFlag 30 v) :=
  h.of_root fun _ hj hne => flag_clearFlag_of_ne hj v hne

end Versions

/-! ### Stores -/

section Stores

variable {mem : Mem} {a b p : Addr} {m n : Node}

theorem outline_of_node? (h : mem.node? a = some n) : mem.outline a = some n.sketch := by
  rw [Mem.outline, h]
  rfl

theorem outline_eq_some {s : Sketch} :
    mem.outline a = some s ↔ ∃ n, mem.node? a = some n ∧ n.sketch = s := Option.map_eq_some_iff

theorem outline_setNode (h : mem.node? a = some m) :
    (mem.setNode a n).outline = Function.update mem.outline a (some n.sketch) := by
  funext b
  by_cases hb : b = a
  · subst hb
    rw [outline_of_node? (node?_setNode h), Function.update_self]
  · rw [Function.update_of_ne hb, Mem.outline, node?_setNode_of_ne hb]
    rfl

/-- The node `n` may take the place of the node `m` at `a`. -/
structure Fits (mem : Mem) (a : Addr) (m n : Node) : Prop where
  version : VersionOk n.sketch.leaf n.version
  leaf : n.sketch.leaf = m.sketch.leaf
  deleted : m.sketch.deleted = true → n.sketch.deleted = true
  parent : n.parent ≠ 0 → ∃ y, mem.node? n.parent = some (.internode y)
  nkeys : n.sketch.nkeys ≤ width
  size : n.suffixes.map (·.2) = m.suffixes.map (·.2)
  bag : ∀ ⦃k sz⦄, n.suffixes = some (k, sz) → k ≠ 0 → ∃ b, mem.bags k = some b ∧ b.retired = false
  own : ∀ ⦃b k k' sz sz'⦄, n.suffixes = some (k, sz) → k ≠ 0 → mem.node? b = some k' →
    k'.suffixes = some (k, sz') → b = a

/-- A node that is an internode stays one. -/
theorem exists_internode_setNode (hm : mem.node? a = some m) (h : n.sketch.leaf = m.sketch.leaf)
    (hp : ∃ y, mem.node? p = some (.internode y)) :
    ∃ y, (mem.setNode a n).node? p = some (.internode y) := by
  obtain ⟨y, hy⟩ := hp
  rw [node?_setNode_eq hm]
  split
  · rename_i hpa
    rw [hpa, hm] at hy
    cases hy
    cases n with
    | leaf l => cases h
    | internode z => exact ⟨z, rfl⟩
  · exact ⟨y, hy⟩

/-- A store keeps the nodes in order if the new node fits. -/
theorem Mem.NodesOk.setNode (h : mem.NodesOk) (hm : mem.node? a = some m)
    (hfit : Fits mem a m n) : (mem.setNode a n).NodesOk := by
  have hnone (b : Addr) : (mem.setNode a n).blocks b = none ↔ mem.blocks b = none := by
    by_cases hba : b = a
    · subst hba
      simp [Mem.setNode]
    · simp [Mem.setNode, Function.update_of_ne hba]
  -- every node is `n` at `a`, or it was there before
  have hnode ⦃b : Addr⦄ ⦃k : Node⦄ (hk : (mem.setNode a n).node? b = some k) :
      b = a ∧ k = n ∨ b ≠ a ∧ mem.node? b = some k := by
    rw [node?_setNode_eq hm] at hk
    split at hk
    · rename_i hba
      cases hk
      exact Or.inl ⟨hba, rfl⟩
    · rename_i hba
      exact Or.inr ⟨hba, hk⟩
  have hblock ⦃b : Addr⦄ ⦃c : Block⦄ (hc : (mem.setNode a n).blocks b = some c) :
      ∃ c', mem.blocks b = some c' ∧ c'.size = c.size ∧ c'.retired = c.retired ∧
        (c.node = c'.node ∨ c.node = n ∧ c'.node = m) := by
    by_cases hba : b = a
    · subst hba
      obtain ⟨c', hc', rfl⟩ := node?_eq_some.mp hm
      simp only [Mem.setNode, Function.update_self, hc', Option.map_some, Option.some.injEq] at hc
      subst hc
      exact ⟨c', hc', rfl, rfl, Or.inr ⟨rfl, rfl⟩⟩
    · simp only [Mem.setNode, Function.update_of_ne hba] at hc
      exact ⟨c, hc, rfl, rfl, Or.inl rfl⟩
  constructor
  · exact (hnone 0).mpr h.null
  · intro b hb
    exact h.lt ((hnone b).not.mp hb)
  · intro b hb
    exact h.bag_lt hb
  · intro b k hk
    rcases hnode hk with ⟨-, rfl⟩ | ⟨-, hk⟩
    · exact hfit.version
    · exact h.version hk
  · intro b k hk hp
    refine exists_internode_setNode hm hfit.leaf ?_
    rcases hnode hk with ⟨-, rfl⟩ | ⟨-, hk⟩
    · exact hfit.parent hp
    · exact h.parent hk hp
  · intro b k hk
    rcases hnode hk with ⟨-, rfl⟩ | ⟨-, hk⟩
    · exact hfit.nkeys
    · exact h.nkeys hk
  · intro b c k sz hc hk
    obtain ⟨c', hc', hsize, -, hcc⟩ := hblock hc
    rcases hcc with hcc | ⟨hcn, hcm⟩
    · exact (h.size hc' (hcc ▸ hk)).trans hsize
    · have hsz := hfit.size
      rw [← hcn, hk] at hsz
      obtain ⟨⟨k', sz'⟩, hm', hsz'⟩ := Option.map_eq_some_iff.mp hsz.symm
      obtain rfl : sz' = sz := hsz'
      exact (h.size hc' (hcm ▸ hm')).trans hsize
  · intro b k q sz hk hq h0
    rcases hnode hk with ⟨-, rfl⟩ | ⟨-, hk⟩
    · exact hfit.bag hq h0
    · exact h.bag hk hq h0
  · intro b b' k k' q sz sz' hk hk' hq hq' h0
    rcases hnode hk with ⟨rfl, rfl⟩ | ⟨-, hk₁⟩
    · rcases hnode hk' with ⟨rfl, -⟩ | ⟨-, hk₂⟩
      · rfl
      · exact (hfit.own hq h0 hk₂ hq').symm
    · rcases hnode hk' with ⟨rfl, rfl⟩ | ⟨-, hk₂⟩
      · exact hfit.own hq' h0 hk₁ hq
      · exact h.own hk₁ hk₂ hq hq' h0
  · intro b c hc hret
    obtain ⟨c', hc', -, hret', hcc⟩ := hblock hc
    have hdel := h.live hc' (hret'.trans hret)
    rcases hcc with hcc | ⟨hcn, hcm⟩
    · rwa [hcc]
    · rw [hcn]
      exact hfit.deleted (hcm ▸ hdel)

theorem links_setNode (hm : mem.node? a = some m) :
    (mem.setNode a n).links = Function.update mem.links a n.link? := by
  funext b
  rw [Mem.links, node?_setNode_eq hm]
  by_cases hb : b = a
  · subst hb
    rw [if_pos rfl, Function.update_self]
    rfl
  · rw [if_neg hb, Function.update_of_ne hb]
    rfl

/-- **A store keeps the invariant** if the new node fits and stands where the old one stood. -/
theorem Mem.Sound.setNode (h : mem.Sound) (hm : mem.node? a = some m) (hfit : Fits mem a m n)
    (hlink : n.link? = m.link?) : (mem.setNode a n).Sound := by
  refine ⟨h.toNodesOk.setNode hm hfit, ?_⟩
  have hsame : m.link? = mem.links a := by
    rw [Mem.links, hm]
    rfl
  rw [links_setNode hm, hlink, hsame, Function.update_eq_self]
  exact h.chained

/-- A node with the same suffixes fits if the rest of it does. -/
theorem Mem.NodesOk.fits (h : mem.NodesOk) (hm : mem.node? a = some m)
    (hv : VersionOk n.sketch.leaf n.version)
    (hp : n.parent ≠ 0 → ∃ y, mem.node? n.parent = some (.internode y))
    (hk : n.sketch.nkeys ≤ width) (hleaf : n.sketch.leaf = m.sketch.leaf)
    (hd : n.sketch.deleted = m.sketch.deleted) (hs : n.suffixes = m.suffixes) : Fits mem a m n where
  version := hv
  leaf := hleaf
  deleted hm := hd.trans hm
  parent := hp
  nkeys := hk
  size := by rw [hs]
  bag _ _ hq h0 := h.bag hm (hs ▸ hq) h0
  own _ _ _ _ _ hq h0 hk' hq' := h.own hk' hm hq' (hs ▸ hq) h0

end Stores

/-! ### Allocations -/

section Allocations

variable {mem : Mem} {a b p : Addr} {m n : Node}

theorem Mem.NodesOk.fresh (h : mem.NodesOk) : mem.node? mem.fresh = none := by
  cases hb : mem.blocks mem.fresh with
  | none => rw [Mem.node?, hb]; rfl
  | some b => exact absurd (h.lt (by rw [hb]; simp)).1 (Nat.lt_irrefl _)

/-- A leaf that stands alone joins no list. -/
theorem Chained.update {G : Addr → Option Link} (h : Chained G) (ha : G a = none) :
    Chained (Function.update G a (some ⟨0, 0, false⟩)) := by
  have hold {b : Addr} {k : Link} (hk : Function.update G a (some ⟨0, 0, false⟩) b = some k) :
      b = a ∧ k = ⟨0, 0, false⟩ ∨ G b = some k := by
    by_cases hb : b = a
    · rw [hb, Function.update_self] at hk
      exact Or.inl ⟨hb, (Option.some.inj hk).symm⟩
    · rw [Function.update_of_ne hb] at hk
      exact Or.inr hk
  have hkept {b : Addr} {k : Link} (hk : G b = some k) :
      Function.update G a (some ⟨0, 0, false⟩) b = some k := by
    rw [Function.update_of_ne, hk]
    rintro rfl
    rw [ha] at hk
    cases hk
  constructor
  · intro b k hk hd
    rcases hold hk with ⟨-, rfl⟩ | hk
    · rfl
    · exact h.unmarked hk hd
  · intro b k hk hd h0
    rcases hold hk with ⟨-, rfl⟩ | hk
    · exact absurd rfl h0
    · obtain ⟨hne, r, hr, hrest⟩ := h.next hk hd h0
      exact ⟨hne, r, hkept hr, hrest⟩
  · intro b k hk hd h0
    rcases hold hk with ⟨-, rfl⟩ | hk
    · exact absurd rfl h0
    · obtain ⟨r, hr, hrest⟩ := h.prev hk hd h0
      exact ⟨r, hkept hr, hrest⟩

/-- The sketch of a new node. -/
def newSketch (leaf : Bool) : Sketch := ⟨leaf, false, false, true, 0⟩

/-- A node as a constructor makes it for a block of `size` bytes. -/
structure New (size : ℕ) (n : Node) : Prop where
  version : VersionOk n.sketch.leaf n.version
  sketch : n.sketch = newSketch n.sketch.leaf
  parent : n.parent = 0
  link : ∀ ⦃k⦄, n.link? = some k → k = ⟨0, 0, false⟩
  suffixes : ∀ ⦃k sz⦄, n.suffixes = some (k, sz) → k = 0 ∧ sz = size

theorem outline_alloc {size : ℕ} :
    (mem.alloc size n).outline = Function.update mem.outline mem.fresh (some n.sketch) := by
  funext b
  rw [Mem.outline, node?_alloc]
  by_cases hb : b = mem.fresh
  · subst hb
    rw [if_pos rfl, Function.update_self]
    rfl
  · rw [if_neg hb, Function.update_of_ne hb]
    rfl

/-- **A new node keeps the invariant.** -/
theorem Mem.Sound.alloc (h : mem.Sound) {size : ℕ} (hn : New size n) :
    (mem.alloc size n).Sound := by
  have hfresh := h.toNodesOk.fresh
  have hnode ⦃b : Addr⦄ ⦃k : Node⦄ (hk : (mem.alloc size n).node? b = some k) :
      b = mem.fresh ∧ k = n ∨ mem.node? b = some k := by
    rw [node?_alloc] at hk
    split at hk
    · rename_i hb
      exact Or.inl ⟨hb, (Option.some.inj hk).symm⟩
    · exact Or.inr hk
  have hkept {b : Addr} {k : Node} (hk : mem.node? b = some k) :
      (mem.alloc size n).node? b = some k := by
    rw [node?_alloc, if_neg, hk]
    rintro rfl
    rw [hfresh] at hk
    cases hk
  have hblocks {b : Addr} (hb : b ≠ mem.fresh) : (mem.alloc size n).blocks b = mem.blocks b :=
    Function.update_of_ne hb _ _
  have hblock ⦃b : Addr⦄ ⦃c : Block⦄ (hc : (mem.alloc size n).blocks b = some c) :
      c = ⟨n, size, false⟩ ∨ mem.blocks b = some c := by
    by_cases hb : b = mem.fresh
    · simp only [Mem.alloc, hb, Function.update_self, Option.some.injEq] at hc
      exact Or.inl hc.symm
    · exact Or.inr (hblocks hb ▸ hc)
  have hlt {b : Addr} (hb : b < mem.fresh) : b < (mem.alloc size n).fresh := hb.trans fresh_lt_alloc
  refine ⟨⟨?_, ?_, ?_, ?_, ?_, ?_, ?_, ?_, ?_, ?_⟩, ?_⟩
  · exact (hblocks fresh_ne_zero.symm).trans h.null
  · intro b hb
    by_cases hbf : b = mem.fresh
    · subst hbf
      exact ⟨fresh_lt_alloc, Nat.mul_mod_right 8 _⟩
    · have hb' := h.lt (hblocks hbf ▸ hb)
      exact ⟨hlt hb'.1, hb'.2⟩
  · intro b hb
    exact hlt (h.bag_lt hb)
  · intro b k hk
    rcases hnode hk with ⟨-, rfl⟩ | hk
    · exact hn.version
    · exact h.version hk
  · intro b k hk hp
    rcases hnode hk with ⟨-, rfl⟩ | hk
    · exact absurd hn.parent hp
    · obtain ⟨y, hy⟩ := h.parent hk hp
      exact ⟨y, hkept hy⟩
  · intro b k hk
    rcases hnode hk with ⟨-, rfl⟩ | hk
    · rw [hn.sketch]
      exact Nat.zero_le _
    · exact h.nkeys hk
  · intro b c k sz hc hk
    rcases hblock hc with rfl | hc
    · exact (hn.suffixes hk).2
    · exact h.size hc hk
  · intro b k q sz hk hq h0
    rcases hnode hk with ⟨-, rfl⟩ | hk
    · exact absurd (hn.suffixes hq).1 h0
    · exact h.bag hk hq h0
  · intro b b' k k' q sz sz' hk hk' hq hq' h0
    rcases hnode hk with ⟨-, rfl⟩ | hk
    · exact absurd (hn.suffixes hq).1 h0
    · rcases hnode hk' with ⟨-, rfl⟩ | hk'
      · exact absurd (hn.suffixes hq').1 h0
      · exact h.own hk hk' hq hq' h0
  · intro b c hc hret
    rcases hblock hc with rfl | hc
    · cases hret
    · exact h.live hc hret
  · have hlinks : (mem.alloc size n).links = Function.update mem.links mem.fresh n.link? := by
      funext b
      rw [Mem.links, node?_alloc]
      by_cases hb : b = mem.fresh
      · subst hb
        rw [if_pos rfl, Function.update_self]
        rfl
      · rw [if_neg hb, Function.update_of_ne hb]
        rfl
    have hnone : mem.links mem.fresh = none := by
      rw [Mem.links, hfresh]
      rfl
    rw [hlinks]
    cases hl : n.link? with
    | none =>
      rw [← hnone, Function.update_eq_self]
      exact h.chained
    | some k =>
      obtain rfl := hn.link hl
      exact h.chained.update hnone

end Allocations

/-! ### Bags of suffixes -/

section Bags

variable {mem : Mem} {a k : Addr} {m n : Node} {b : Stringbag}

theorem Mem.Sound.of_bags {mem' : Mem} (h : mem.Sound) (hb : mem'.blocks = mem.blocks)
    (ha : mem.allocated ≤ mem'.allocated) (hlt : ∀ ⦃k⦄, mem'.bags k ≠ none → k < mem'.fresh)
    (hbag : ∀ ⦃a n k sz⦄, mem.node? a = some n → n.suffixes = some (k, sz) → k ≠ 0 →
      ∃ b, mem'.bags k = some b ∧ b.retired = false) : mem'.Sound := by
  have hnode (b : Addr) : mem'.node? b = mem.node? b := by rw [Mem.node?, hb]; rfl
  have hfresh : mem.fresh ≤ mem'.fresh := Nat.mul_le_mul_left 8 (Nat.succ_le_succ ha)
  have hlinks : mem'.links = mem.links := by
    funext b
    rw [Mem.links, hnode]
    rfl
  refine ⟨⟨?_, ?_, hlt, ?_, ?_, ?_, ?_, ?_, ?_, ?_⟩, ?_⟩
  · rw [hb]
    exact h.null
  · intro b hne
    rw [hb] at hne
    exact ⟨(h.lt hne).1.trans_le hfresh, (h.lt hne).2⟩
  · simp only [hnode]
    exact h.version
  · simp only [hnode]
    exact h.parent
  · simp only [hnode]
    exact h.nkeys
  · rw [hb]
    exact h.size
  · simp only [hnode]
    exact hbag
  · simp only [hnode]
    exact h.own
  · rw [hb]
    exact h.live
  · rw [hlinks]
    exact h.chained

/-- A change of the shared state. -/
theorem Mem.Sound.congr {mem' : Mem} (h : mem.Sound) (hb : mem'.blocks = mem.blocks)
    (hg : mem'.bags = mem.bags) (ha : mem'.allocated = mem.allocated) : mem'.Sound := by
  refine h.of_bags hb (Nat.le_of_eq ha.symm) ?_ ?_
  · intro k hk
    have hfresh : mem'.fresh = mem.fresh := by rw [Mem.fresh, ha]; rfl
    rw [hfresh]
    exact h.bag_lt (hg ▸ hk)
  · rw [hg]
    exact h.bag

theorem Mem.Sound.setBag (h : mem.Sound) : (mem.setBag k b).Sound := by
  have hsome {j : Addr} {c : BagBlock} (hc : mem.bags j = some c) :
      ∃ c', (mem.setBag k b).bags j = some c' ∧ c'.retired = c.retired := by
    by_cases hj : j = k
    · subst hj
      exact ⟨{ c with bag := b }, by simp [Mem.setBag, hc], rfl⟩
    · exact ⟨c, by simp [Mem.setBag, Function.update_of_ne hj, hc], rfl⟩
  refine h.of_bags rfl le_rfl ?_ ?_
  · intro j hj
    refine h.bag_lt fun hnone => hj ?_
    by_cases hjk : j = k
    · subst hjk
      simp [Mem.setBag, hnone]
    · simp [Mem.setBag, Function.update_of_ne hjk, hnone]
  · intro a n j sz hn hs h0
    obtain ⟨c, hc, hret⟩ := h.bag hn hs h0
    obtain ⟨c', hc', hret'⟩ := hsome hc
    exact ⟨c', hc', hret'.trans hret⟩

theorem Mem.Sound.allocBag (h : mem.Sound) : (mem.allocBag b).Sound := by
  have hbags {j : Addr} (hj : j ≠ mem.fresh) : (mem.allocBag b).bags j = mem.bags j :=
    Function.update_of_ne hj _ _
  have hfresh : mem.fresh < (mem.allocBag b).fresh :=
    Nat.mul_lt_mul_of_pos_left (Nat.lt_succ_self _) (by decide)
  refine h.of_bags rfl (Nat.le_succ _) ?_ ?_
  · intro j hj
    by_cases hjf : j = mem.fresh
    · exact hjf ▸ hfresh
    · exact (h.bag_lt (hbags hjf ▸ hj)).trans hfresh
  · intro a n j sz hn hs h0
    obtain ⟨c, hc, hret⟩ := h.bag hn hs h0
    refine ⟨c, (hbags ?_).trans hc, hret⟩
    exact Nat.ne_of_lt (h.bag_lt (by rw [hc]; simp))

/-- A bag that no leaf points to may be retired. -/
theorem Mem.Sound.retireBag (h : mem.Sound)
    (hk : ∀ ⦃a n sz⦄, mem.node? a = some n → n.suffixes ≠ some (k, sz)) :
    (mem.retireBag k).Sound := by
  have hbags {j : Addr} (hj : j ≠ k) : (mem.retireBag k).bags j = mem.bags j :=
    Function.update_of_ne hj _ _
  refine h.of_bags rfl le_rfl ?_ ?_
  · intro j hj
    by_cases hjk : j = k
    · subst hjk
      refine h.bag_lt fun hnone => hj ?_
      simp [Mem.retireBag, hnone]
    · exact h.bag_lt (hbags hjk ▸ hj)
  · intro a n j sz hn hs h0
    obtain ⟨c, hc, hret⟩ := h.bag hn hs h0
    refine ⟨c, (hbags ?_).trans hc, hret⟩
    rintro rfl
    exact hk hn hs

end Bags

/-! ### The rules for an access -/

section Rules

variable {α β : Type} {a p : Addr} {x : Outline}

/-- The nodes look the same, and stand where they stood. -/
structure Alike (m n : Node) : Prop where
  version : n.version = m.version
  parent : n.parent = m.parent
  sketch : n.sketch = m.sketch
  link : n.link? = m.link?
  suffixes : n.suffixes = m.suffixes

theorem traced_access {find : Mem → Option α} {f : α → Mem → β × Mem} {Q : β → Outline → Prop}
    (h : ∀ mem c, mem.Sound → mem.outline = x → find mem = some c →
      (f c mem).2.Sound ∧ Q (f c mem).1 (f c mem).2.outline) :
    machine.Tracks outlineView (access find f) x Q := by
  intro mem hs hx
  exact ensures_access fun c hc => h mem c hs hx hc

/-- **A store** to the node at `a`. -/
theorem traced_store {find : Mem → Option α} {f : α → Mem → β × Mem} {Q : β → Outline → Prop}
    (h : ∀ mem c, mem.Sound → mem.outline = x → find mem = some c → ∃ m n,
      mem.node? a = some m ∧ (f c mem).2 = mem.setNode a n ∧ Fits mem a m n ∧ n.link? = m.link? ∧
        Q (f c mem).1 (Function.update x a (some n.sketch))) :
    machine.Tracks outlineView (access find f) x Q := by
  refine traced_access fun mem c hs hx hc => ?_
  obtain ⟨m, n, hm, heq, hfit, hlink, hQ⟩ := h mem c hs hx hc
  rw [heq, outline_setNode hm, hx]
  exact ⟨hs.setNode hm hfit hlink, hQ⟩

/-- A read. -/
theorem traced_read {find : Mem → Option α} {g : α → β} {Q : β → Outline → Prop}
    (h : ∀ mem c, mem.Sound → mem.outline = x → find mem = some c → Q (g c) x) :
    machine.Tracks outlineView (access find fun c mem => (g c, mem)) x Q := by
  refine traced_access fun mem c hs hx hc => ⟨hs, ?_⟩
  simp only [hx]
  exact h mem c hs hx hc

theorem sketched_read {find : Mem → Option α} {g : α → β} :
    machine.Blind outlineView (access find fun c mem => (g c, mem)) := fun _ =>
  traced_read fun _ _ _ _ _ => rfl

/-- A store that does not show. -/
theorem sketched_store {find : Mem → Option α} {f : α → Mem → β × Mem}
    (h : ∀ mem c, find mem = some c → ∃ a m n, mem.node? a = some m ∧ Alike m n ∧
      (f c mem).2 = mem.setNode a n) : machine.Blind outlineView (access find f) := by
  intro x
  refine traced_access fun mem c hs hx hc => ?_
  obtain ⟨a, m, n, hm, halike, heq⟩ := h mem c hc
  have hv : VersionOk n.sketch.leaf n.version := by
    rw [halike.sketch, halike.version]
    exact hs.version hm
  have hp : n.parent ≠ 0 → ∃ y, mem.node? n.parent = some (.internode y) := by
    rw [halike.parent]
    exact hs.parent hm
  have hk : n.sketch.nkeys ≤ width := by
    rw [halike.sketch]
    exact hs.nkeys hm
  have hfit : Fits mem a m n := hs.toNodesOk.fits hm hv hp hk (by rw [halike.sketch])
    (by rw [halike.sketch]) halike.suffixes
  rw [heq, outline_setNode hm, halike.sketch, ← outline_of_node? hm, Function.update_eq_self]
  exact ⟨hs.setNode hm hfit halike.link, hx⟩

/-- A store to a leaf that does not show. -/
theorem sketched_writeLeaf {f : Leaf → Leaf} (h : ∀ l, Alike (.leaf l) (.leaf (f l))) :
    machine.Blind outlineView (writeLeaf a f) :=
  sketched_store fun _ l hl => ⟨a, .leaf l, .leaf (f l), leaf?_eq_some.mp hl, h l, rfl⟩

/-- A store to an internode that does not show. -/
theorem sketched_writeInternode {f : Internode → Internode}
    (h : ∀ y, Alike (.internode y) (.internode (f y))) :
    machine.Blind outlineView (writeInternode a f) :=
  sketched_store fun _ y hy =>
    ⟨a, .internode y, .internode (f y), internode?_eq_some.mp hy, h y, rfl⟩

theorem sketched_assert (on c : Bool) : machine.Blind outlineView (check on c) :=
  blind_ite blind_fail blind_ret

theorem sketched_onGlobal (f : Global → Option (β × Global)) :
    machine.Blind outlineView (onGlobal f) :=
  fun _ _ hs hx => ensures_onGlobal fun _ _ _ => ⟨hs.congr rfl rfl rfl, hx⟩

theorem sketched_casRoot (expected desired : Addr) :
    machine.Blind outlineView (casRoot expected desired) := fun _ =>
  traced_access fun mem _ hs hx _ => by
    split
    · exact ⟨hs.congr rfl rfl rfl, hx⟩
    · exact ⟨hs, hx⟩

theorem sketched_writeBag (b : Stringbag) : machine.Blind outlineView (writeBag a b) := fun _ =>
  traced_access fun _ _ hs hx _ => ⟨hs.setBag, hx⟩

/-- The number of the keys of an internode is changed. -/
theorem traced_writeInternode {f : Internode → Internode} {g : ℕ → ℕ} {Q : Unit → Outline → Prop}
    (h : ∀ y, (f y).version = y.version ∧ (f y).parent = y.parent ∧ (f y).nkeys = g y.nkeys)
    (hQ : ∀ s, x a = some s → s.leaf = false → g s.nkeys ≤ width ∧
      Q () (Function.update x a (some { s with nkeys := g s.nkeys }))) :
    machine.Tracks outlineView (writeInternode a f) x Q := by
  refine traced_store (a := a) fun mem y hs hx hy => ?_
  have hm := internode?_eq_some.mp hy
  obtain ⟨hv, hp, hk⟩ := h y
  have hxa : x a = some (Node.internode y).sketch := hx ▸ outline_of_node? hm
  obtain ⟨hwidth, hQ⟩ := hQ _ hxa rfl
  have hsketch : (Node.internode (f y)).sketch =
      { (Node.internode y).sketch with nkeys := g y.nkeys } := by
    simp only [Node.sketch, hv, hk]
  refine ⟨.internode y, .internode (f y), hm, rfl, ?_, rfl, ?_⟩
  refine hs.toNodesOk.fits hm ?_ ?_ ?_ rfl ?_ rfl
  · have hver := hs.version hm
    simp only [Node.version, Node.sketch, hv] at hver ⊢
    exact hver
  · have hpar := hs.parent hm
    simp only [Node.parent, hp] at hpar ⊢
    exact hpar
  · rw [hsketch]
    exact hwidth
  · rw [hsketch]
  · rw [hsketch]
    exact hQ

/-- The parent of a node is set to an internode, or to null. -/
theorem traced_setParent (hp : p ≠ 0 → ∃ s, x p = some s ∧ s.leaf = false) :
    machine.Tracks outlineView (setParent a p) x fun _ y => y = x := by
  refine traced_store (a := a) fun mem m hs hx hm => ?_
  have hsketch : (m.setParent p).sketch = m.sketch := by cases m <;> rfl
  refine ⟨m, m.setParent p, hm, rfl, hs.toNodesOk.fits hm ?_ ?_ ?_ ?_ ?_ ?_, ?_, ?_⟩
  · rw [hsketch, version_setParent]
    exact hs.version hm
  · rw [parent_setParent]
    intro h0
    obtain ⟨s, hxp, hleaf⟩ := hp h0
    obtain ⟨k, hk, rfl⟩ := outline_eq_some.mp (hx ▸ hxp)
    cases k with
    | leaf l => cases hleaf
    | internode y => exact ⟨y, hk⟩
  · rw [hsketch]
    exact hs.nkeys hm
  · rw [hsketch]
  · rw [hsketch]
  · cases m <;> rfl
  · cases m <;> rfl
  · have hxa := outline_of_node? hm
    rw [hx] at hxa
    rw [hsketch, ← hxa, Function.update_eq_self]

/-- The version word of a node is changed, but not its deleted bit. -/
theorem Mem.Sound.setVersion {mem : Mem} {m : Node} {v : NodeVersion} (hs : mem.Sound)
    (hm : mem.node? a = some m) (hok : VersionOk m.sketch.leaf v)
    (hdel : v.deleted = m.sketch.deleted) : (mem.setNode a (m.setVersion v)).Sound ∧
      (mem.setNode a (m.setVersion v)).outline =
        Function.update mem.outline a (some { m.sketch with locked := v.locked }) := by
  have hsketch : (m.setVersion v).sketch = { m.sketch with locked := v.locked } := by
    cases m with
    | leaf l =>
      simp only [Node.setVersion, Node.sketch] at hdel ⊢
      rw [hdel]
    | internode y =>
      simp only [Node.setVersion, Node.sketch] at hdel ⊢
      rw [hdel]
  refine ⟨hs.setNode hm (hs.toNodesOk.fits hm ?_ ?_ ?_ ?_ ?_ ?_) ?_, ?_⟩
  · rw [hsketch, version_setVersion]
    exact hok
  · rw [parent_setVersion]
    exact hs.parent hm
  · rw [hsketch]
    exact hs.nkeys hm
  · rw [hsketch]
  · rw [hsketch]
  · cases m <;> rfl
  · cases m with
    | leaf l =>
      simp only [Node.setVersion, Node.link?, Node.sketch] at hdel ⊢
      rw [hdel]
    | internode y => rfl
  · rw [outline_setNode hm, hsketch]

/-- What the sketch says of the version word. -/
theorem Node.locked_sketch (m : Node) : m.version.locked = m.sketch.locked := by cases m <;> rfl

theorem Node.deleted_sketch (m : Node) : m.version.deleted = m.sketch.deleted := by cases m <;> rfl

/-- The version word of a node is changed. -/
theorem traced_writeVersion {f : NodeVersion → NodeVersion} {Q : Unit → Outline → Prop}
    (h : ∀ s v, x a = some s → VersionOk s.leaf v → v.locked = s.locked → v.deleted = s.deleted →
      VersionOk s.leaf (f v) ∧ (f v).deleted = s.deleted ∧
        Q () (Function.update x a (some { s with locked := (f v).locked }))) :
    machine.Tracks outlineView (writeVersion a f) x Q := by
  refine traced_access fun mem m hs hx hm => ?_
  have hxa : x a = some m.sketch := hx ▸ outline_of_node? hm
  obtain ⟨hok, hdel, hQ⟩ := h _ _ hxa (hs.version hm) m.locked_sketch m.deleted_sketch
  obtain ⟨hsound, houtline⟩ := hs.setVersion hm hok hdel
  refine ⟨hsound, ?_⟩
  simp only [houtline, hx]
  exact hQ

/-- What is known of a version word that has been read. -/
theorem traced_readVersion {Q : NodeVersion → Outline → Prop}
    (h : ∀ s v, x a = some s → VersionOk s.leaf v → v.locked = s.locked →
      v.deleted = s.deleted → Q v x) : machine.Tracks outlineView (readVersion a) x Q := by
  refine traced_read fun mem m hs hx hm => ?_
  have hxa : x a = some m.sketch := hx ▸ outline_of_node? hm
  exact h _ _ hxa (hs.version hm) m.locked_sketch m.deleted_sketch

/-- An internode that has been read is one. -/
theorem traced_readInternode {Q : Internode → Outline → Prop}
    (h : ∀ s y, x a = some s → s.leaf = false → y.nkeys = s.nkeys → Q y x) :
    machine.Tracks outlineView (readInternode a) x Q := by
  refine traced_read fun mem y hs hx hy => ?_
  have hxa : x a = some (Node.internode y).sketch :=
    hx ▸ outline_of_node? (internode?_eq_some.mp hy)
  exact h _ y hxa rfl rfl

/-- A leaf that has been read is one. -/
theorem traced_readLeaf {Q : Leaf → Outline → Prop}
    (h : ∀ s l, x a = some s → s.leaf = true → Q l x) :
    machine.Tracks outlineView (readLeaf a) x Q := by
  refine traced_read fun mem l hs hx hl => ?_
  have hxa : x a = some (Node.leaf l).sketch := hx ▸ outline_of_node? (leaf?_eq_some.mp hl)
  exact h _ l hxa rfl

end Rules

end Sidle.Masstree
