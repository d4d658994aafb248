import Sidle.Masstree.Outline

/-!
# What an insertion keeps

The functions of an insertion, each with what it does to the outline of a sound memory: which
nodes it locks and unlocks, which it makes, and how many keys it leaves in an internode.  All of
them keep the memory sound.

## Main results

* `traced_lock`, `traced_lockedParent`, … — the locks.
* `traced_makeLeaf`, `traced_makeInternode` — the allocations.
* `sketched_assign` — a slot is filled.
* `traced_linkSplit` — a leaf enters the list.
-/

namespace Sidle.Masstree

open Art (Build Fault)
open Prog Machine Outcome Word Worker

/-! ### Locks -/

section Locks

variable {build : Build} {a p : Addr} {x : Outline} {fuel : ℕ}

/-- The node at `a` is locked. -/
def Held (x : Outline) (a : Addr) : Prop := ∃ s, x a = some s ∧ s.locked = true

/-- The outline once the node at `a`, with the sketch `s`, is locked. -/
abbrev locking (x : Outline) (a : Addr) (s : Sketch) : Outline :=
  Function.update x a (some { s with locked := true })

theorem traced_casVersion {expected : NodeVersion} (hfree : expected.locked = false) :
    machine.Tracks outlineView (casVersion a expected expected.lock) x fun b y =>
      (b = false ∧ y = x) ∨
        (b = true ∧ ∃ s, x a = some s ∧ s.locked = false ∧ y = locking x a s) := by
  refine traced_access fun mem m hs hx hm => ?_
  split
  · rename_i hv
    have hxa : x a = some m.sketch := hx ▸ outline_of_node? hm
    have hok : VersionOk m.sketch.leaf expected := hv ▸ hs.version hm
    have hdel : expected.lock.deleted = m.sketch.deleted := by
      rw [← m.deleted_sketch, hv]
      exact NodeVersion.deleted_setFlag _ (by decide)
    obtain ⟨hsound, houtline⟩ := hs.setVersion hm hok.lock hdel
    refine ⟨hsound, Or.inr ⟨rfl, m.sketch, hxa, ?_, ?_⟩⟩
    · rw [← m.locked_sketch, hv]
      exact hfree
    · rw [houtline, hx, NodeVersion.locked_lock]
  · exact ⟨hs, Or.inl ⟨rfl, hx⟩⟩

/-- A lock that has been taken was free. -/
theorem traced_lockFrom (v : NodeVersion) :
    machine.Tracks outlineView (lockFrom build a fuel v) x fun _ y =>
      ∃ s, x a = some s ∧ s.locked = false ∧ y = locking x a s := by
  induction fuel generalizing v with
  | zero => exact tracks_diverge
  | succ fuel ih =>
    have hfirst : machine.Tracks outlineView
        (if v.locked then pure false else casVersion a v v.lock) x fun b y =>
          (b = false ∧ y = x) ∨
            (b = true ∧ ∃ s, x a = some s ∧ s.locked = false ∧ y = locking x a s) := by
      refine tracks_ite (fun _ => tracks_ret (Or.inl ⟨rfl, rfl⟩)) fun hv => ?_
      exact traced_casVersion (by simpa using hv)
    refine tracks_join hfirst fun b y hy => ?_
    rcases hy with ⟨rfl, rfl⟩ | ⟨rfl, s, hs, hfree, rfl⟩
    · exact sketched_read.then fun w => ih w
    · refine (sketched_assert _ _).then fun _ => sketched_read.then fun _ => ?_
      exact (sketched_assert _ _).then fun _ => tracks_ret ⟨s, hs, hfree, rfl⟩

theorem traced_lock : machine.Tracks outlineView (lock build fuel a) x fun _ y =>
    ∃ s, x a = some s ∧ s.locked = false ∧ y = locking x a s :=
  sketched_read.then fun v => traced_lockFrom v

theorem traced_unlock : machine.Tracks outlineView (unlock build a) x fun _ y =>
    ∃ s, x a = some s ∧ y = Function.update x a (some { s with locked := false }) := by
  refine (traced_readVersion (Q := fun v y => y = x ∧ ∃ s, x a = some s ∧ VersionOk s.leaf v ∧
    v.deleted = s.deleted) ?_).bind fun v y hy => ?_
  · intro s v hs hok _ hdel
    exact ⟨rfl, s, hs, hok, hdel⟩
  · obtain ⟨rfl, s, hs, hok, hdel⟩ := hy
    refine (sketched_assert _ _).then fun _ => traced_writeVersion fun s' w hs' _ _ _ => ?_
    rw [hs] at hs'
    cases hs'
    refine ⟨hok.unlock, hok.deleted_unlock.trans hdel, s, hs, ?_⟩
    rw [NodeVersion.locked_unlock]

/-- A lock that has just been taken is given back. -/
theorem traced_unlock_locking {s : Sketch} (hs : x a = some s) (hfree : s.locked = false) :
    machine.Tracks outlineView (unlock build a) (locking x a s) fun _ y => y = x := by
  refine traced_unlock.imp fun _ y hy => ?_
  obtain ⟨s', hs', rfl⟩ := hy
  rw [locking, Function.update_self] at hs'
  cases hs'
  rw [Function.update_idem]
  refine Function.update_eq_self_iff.mpr ?_
  rw [hs, ← hfree]

/-- The mark `f` of a node whose lock is held. -/
structure MarkOk (f : NodeVersion → NodeVersion) : Prop where
  ok : ∀ ⦃leaf v⦄, VersionOk leaf v → v.locked = true → VersionOk leaf (f v)
  deleted : ∀ v, (f v).deleted = v.deleted
  locked : ∀ v, (f v).locked = v.locked

theorem markOk_markInsert : MarkOk NodeVersion.markInsert where
  ok _ _ h hl := h.setFlag hl (Or.inr (Or.inl rfl))
  deleted v := NodeVersion.deleted_setFlag v (by decide)
  locked v := NodeVersion.locked_setFlag v (by decide)

theorem markOk_markSplit : MarkOk NodeVersion.markSplit where
  ok _ _ h hl := h.setFlag hl (Or.inr (Or.inr rfl))
  deleted v := NodeVersion.deleted_setFlag v (by decide)
  locked v := NodeVersion.locked_setFlag v (by decide)

theorem markOk_clearRoot : MarkOk (Word.clearFlag 30) where
  ok _ _ h _ := h.clearRoot
  deleted v := flag_clearFlag_of_ne (by decide) v (by decide)
  locked v := flag_clearFlag_of_ne (by decide) v (by decide)

theorem traced_markLocked {f : NodeVersion → NodeVersion} (hf : MarkOk f) (ha : Held x a) :
    machine.Tracks outlineView (markLocked build a f) x fun _ y => y = x := by
  obtain ⟨s, hs, hlocked⟩ := ha
  refine sketched_read.then fun v => (sketched_assert _ _).then fun _ => ?_
  refine traced_writeVersion fun s' w hs' hok hl hd => ?_
  rw [hs] at hs'
  cases hs'
  refine ⟨hf.ok hok (hl.trans hlocked), (hf.deleted w).trans hd, ?_⟩
  rw [hf.locked, hl, ← hs, Function.update_eq_self]

/-- A parent is an internode. -/
theorem traced_readParent {Q : Addr → Outline → Prop}
    (h : ∀ p, (p ≠ 0 → ∃ s, x p = some s ∧ s.leaf = false) → Q p x) :
    machine.Tracks outlineView (readParent a) x Q := by
  refine traced_read fun mem m hs hx hm => h _ fun hp => ?_
  obtain ⟨y, hy⟩ := hs.parent hm hp
  exact ⟨_, hx ▸ outline_of_node? hy, rfl⟩

/-- The lock of a parent that has been taken was free. -/
theorem traced_lockedParent : machine.Tracks outlineView (lockedParent build a fuel) x fun p y =>
    (p = 0 ∧ y = x) ∨
      (p ≠ 0 ∧ ∃ s, x p = some s ∧ s.leaf = false ∧ s.locked = false ∧ y = locking x p s) := by
  induction fuel with
  | zero => exact tracks_diverge
  | succ fuel ih =>
    refine sketched_read.then fun _ => (sketched_assert _ _).then fun _ => ?_
    refine (traced_readParent (Q := fun p y => y = x ∧ (p ≠ 0 → ∃ s, x p = some s ∧ s.leaf = false))
      fun p hp => ⟨rfl, hp⟩).bind fun p y hy => ?_
    obtain ⟨rfl, hp⟩ := hy
    refine tracks_ite (fun _ => tracks_ret (Or.inl ⟨rfl, rfl⟩)) fun h0 => ?_
    obtain ⟨s, hs, hleaf⟩ := hp h0
    refine traced_lock.bind fun _ y hy => ?_
    obtain ⟨s', hs', hfree, rfl⟩ := hy
    rw [hs] at hs'
    cases hs'
    refine sketched_read.then fun p' => tracks_ite (fun _ => ?_) fun _ => ?_
    · exact sketched_read.then fun _ => (sketched_assert _ _).then fun _ =>
        tracks_ret (Or.inr ⟨h0, s, hs, hleaf, hfree, rfl⟩)
    · exact (traced_unlock_locking hs hfree).bind fun _ z hz => hz ▸ ih

end Locks

/-! ### Allocations -/

section Allocations

variable {env : Env} {a : Addr} {x : Outline} {t : NodeMemType}

/-- There is a new node at `a`. -/
def Made (leaf : Bool) (x : Outline) (a : Addr) (y : Outline) : Prop :=
  a ≠ 0 ∧ x a = none ∧ y = Function.update x a (some (newSketch leaf))

theorem sketched_updateLocalMemoryUsage {depth size : ℕ} {isMigration isLeaf : Bool} :
    machine.Blind outlineView (updateLocalMemoryUsage env t depth size isMigration isLeaf) :=
  sketched_onGlobal _

theorem traced_poolAllocate {size : ℕ} {n : Node} (hn : New size n) :
    machine.Tracks outlineView (poolAllocate size n) x fun a y => Made n.sketch.leaf x a y := by
  refine traced_access fun mem _ hs hx _ => ⟨hs.alloc hn, fresh_ne_zero, ?_, ?_⟩
  · rw [← hx, Mem.outline, hs.toNodesOk.fresh]
    rfl
  · simp only [outline_alloc, hx]
    rw [← hn.sketch]

theorem deleted_make (leaf : Bool) : (NodeVersion.make leaf).deleted = false := by
  cases leaf <;> decide

theorem new_internode (height depth : ℕ) :
    New Internode.sizeof (.internode (Internode.make height t depth)) where
  version := versionOk_make false
  sketch := by
    simp only [Node.sketch, Internode.make, newSketch, locked_make, deleted_make]
  parent := rfl
  link _ h := by cases h
  suffixes _ _ h := by cases h

/-- A new leaf knows its size. -/
theorem allocatedSize_make (ksufsize depth accessTime : ℕ) :
    (Leaf.make (Leaf.allocationSize ksufsize) t depth accessTime).allocatedSize =
      Leaf.allocationSize ksufsize := by
  have hle : min ksufsize 128 ≤ 128 := min_le_right _ _
  simp only [Leaf.allocatedSize, Leaf.make, Leaf.allocationSize, Leaf.sizeof, iceil64]
  omega

theorem new_leaf (ksufsize depth accessTime : ℕ) : New (Leaf.allocationSize ksufsize)
    (.leaf (Leaf.make (Leaf.allocationSize ksufsize) t depth accessTime)) where
  version := versionOk_make true
  sketch := by
    simp only [Node.sketch, Leaf.make, newSketch, locked_make, deleted_make, beq_self_eq_true,
      Bool.and_self]
  parent := rfl
  link k h := by
    cases h
    simp only [Leaf.make, deleted_make]
  suffixes k sz h := by
    simp only [Node.suffixes, Option.some.injEq, Prod.mk.injEq] at h
    obtain ⟨rfl, rfl⟩ := h
    exact ⟨rfl, allocatedSize_make ksufsize depth accessTime⟩

theorem traced_makeInternode {height depth : ℕ} {isMigration : Bool} :
    machine.Tracks outlineView (makeInternode env height depth t isMigration) x
      fun a y => Made false x a y :=
  (traced_poolAllocate (new_internode height depth)).bind fun _ _ hy =>
    sketched_updateLocalMemoryUsage.then fun _ => tracks_ret hy

theorem traced_makeLeaf {ksufsize depth accessTime : ℕ} {isMigration : Bool} :
    machine.Tracks outlineView (makeLeaf env ksufsize depth t accessTime isMigration) x
      fun a y => Made true x a y :=
  (traced_poolAllocate (new_leaf ksufsize depth accessTime)).bind fun _ _ hy =>
    sketched_updateLocalMemoryUsage.then fun _ => tracks_ret hy

theorem sketched_decideNewNodePosition {parentType : NodeMemType} {depth : ℕ} :
    machine.Blind outlineView (decideNewNodePosition parentType depth) :=
  sketched_onGlobal fun g => some (g.decideNewNodePosition parentType depth, g)

/-- A node becomes the root of its layer. -/
theorem sketched_makeLayerRoot : machine.Blind outlineView (makeLayerRoot a) := by
  intro x
  refine (traced_setParent fun h => absurd rfl h).bind fun _ y hy => ?_
  subst hy
  refine traced_writeVersion fun s v hs hok hl hd => ?_
  refine ⟨hok.setRoot, (NodeVersion.deleted_setFlag v (by decide)).trans hd, ?_⟩
  rw [NodeVersion.locked_setFlag v (by decide), hl, ← hs, Function.update_eq_self]

end Allocations

/-! ### Suffixes -/

section Suffixes

variable {build : Build} {env : Env} {mem : Mem} {a : Addr} {l : Leaf} {p : ℕ} {s : Str}
  {initializing : Bool} {ka : Key}

/-- The sign of `extrasize64_` says where the suffixes lie, not how large the leaf is. -/
theorem allocatedSize_extrasize64 (l : Leaf) :
    Leaf.allocatedSize { l with
      extrasize64 := if 0 ≤ l.extrasize64 then -l.extrasize64 - 1 else l.extrasize64 } =
        l.allocatedSize := by
  simp only [Leaf.allocatedSize]
  congr 3
  by_cases h : 0 ≤ l.extrasize64
  · rw [if_pos h, if_pos h, if_neg (by omega)]
    omega
  · rw [if_neg h, if_neg h]

theorem keeps_externalBag (l : Leaf) : machine.Keeps Eq (externalBag l) :=
  keeps_ite keeps_read keeps_ret

/-- The leaf gets the bag `nksuf`, and its old one is retired. -/
theorem ensures_changeBag (hs : mem.Sound) (hl : mem.node? a = some (.leaf l))
    (nksuf : Stringbag) : machine.Ensures (do
      let nksufPtr ← allocateBag nksuf
      masstreeInvariant build (l.modstate != .remove)
      writeLeaf a fun l => { l with ksuf := nksufPtr }
      writeLeaf a fun l =>
        { l with extrasize64 := if 0 ≤ l.extrasize64 then -l.extrasize64 - 1 else l.extrasize64 }
      if l.ksuf ≠ 0 then retireBag l.ksuf else pure ()) mem fun _ mem' =>
      mem'.Sound ∧ mem'.outline = mem.outline := by
  refine (ensures_access (Q := fun b mem' => b = mem.fresh ∧ mem' = mem.allocBag nksuf)
    fun _ h => ⟨by cases h; rfl, by cases h; rfl⟩).bind fun b _ h => ?_
  obtain ⟨rfl, rfl⟩ := h
  refine (keeps_assert (R := Eq) _ _).then fun _ _ h => ?_
  subst h
  have hs₁ : (mem.allocBag nksuf).Sound := hs.allocBag
  have hl₁ : (mem.allocBag nksuf).node? a = some (.leaf l) := hl
  -- no leaf points to the new bag yet
  have hfresh {b : Addr} {k : Node} (hk : mem.node? b = some k) (sz : ℕ) :
      k.suffixes ≠ some (mem.fresh, sz) := by
    intro hsuf
    obtain ⟨c, hc, -⟩ := hs.bag hk hsuf fresh_ne_zero
    exact Nat.lt_irrefl _ (hs.bag_lt (by rw [hc]; simp))
  let l₂ : Leaf := { l with ksuf := mem.fresh }
  let l₃ : Leaf :=
    { l₂ with extrasize64 := if 0 ≤ l₂.extrasize64 then -l₂.extrasize64 - 1 else l₂.extrasize64 }
  let mem₂ := (mem.allocBag nksuf).setNode a (.leaf l₂)
  let mem₃ := mem₂.setNode a (.leaf l₃)
  have hl₂ : mem₂.node? a = some (.leaf l₂) := node?_setNode hl₁
  have hs₂ : mem₂.Sound := by
    refine hs₁.setNode hl₁ ?_ rfl
    refine ⟨hs₁.version (n := .leaf l) hl₁, rfl, id, hs₁.parent (n := .leaf l) hl₁,
      Nat.zero_le _, rfl, ?_, ?_⟩
    · intro k sz hk _
      cases hk
      exact ⟨⟨nksuf, false⟩, Function.update_self .., rfl⟩
    · intro b k k' sz sz' hk _ hk' hsuf
      cases hk
      exact absurd hsuf (hfresh hk' _)
  have hs₃ : mem₃.Sound := by
    refine hs₂.setNode hl₂ (hs₂.toNodesOk.fits hl₂ (hs₂.version (n := .leaf l₂) hl₂)
      (hs₂.parent (n := .leaf l₂) hl₂) (Nat.zero_le _) rfl rfl ?_) rfl
    simp only [Node.suffixes]
    rw [allocatedSize_extrasize64 l₂]
  have hout : mem₃.outline = mem.outline := by
    rw [outline_setNode hl₂, outline_setNode hl₁, Function.update_idem]
    exact Function.update_eq_self_iff.mpr (outline_of_node? hl).symm
  refine ensures_bind_of_done (run_writeLeaf hl₁) (ensures_bind_of_done (run_writeLeaf hl₂) ?_)
  refine ensures_ite (fun h0 => ?_) fun _ => ensures_ret.mpr ⟨hs₃, hout⟩
  refine ensures_access fun _ _ => ⟨hs₃.retireBag ?_, hout⟩
  intro b k sz hk hsuf
  rw [node?_setNode_eq hl₂] at hk
  split at hk
  · cases hk
    simp only [Node.suffixes, Option.some.injEq, Prod.mk.injEq] at hsuf
    refine hfresh hl l.allocatedSize ?_
    simp only [Node.suffixes, Option.some.injEq, Prod.mk.injEq, and_true]
    exact hsuf.1.symm
  · rename_i hba
    rw [node?_setNode_of_ne hba] at hk
    exact hba (hs.own hk hl hsuf rfl h0)

/-- The suffixes of the leaf move to a bag of their own. -/
theorem ensures_assignExternal (hs : mem.Sound) (hl : mem.node? a = some (.leaf l)) :
    machine.Ensures (assignExternal build a l p s initializing) mem fun _ mem' =>
      mem'.Sound ∧ mem'.outline = mem.outline := by
  refine (keeps_externalBag l).then fun oksuf _ h => ?_
  subst h
  dsimp only
  split
  · exact ensures_fail
  · exact ensures_changeBag hs hl _

theorem ensures_assignToExternal (hs : mem.Sound) :
    machine.Ensures (assignToExternal l p s) mem fun b mem' =>
      mem'.Sound ∧ mem'.outline = mem.outline ∧ (b = false → mem' = mem) := by
  refine ensures_ite (fun _ => ?_) fun _ => ensures_ret.mpr ⟨hs, rfl, fun _ => rfl⟩
  refine ensures_read.bind fun b _ h => ?_
  obtain ⟨rfl, -⟩ := h
  split
  · rename_i b' _
    refine (sketched_writeBag b' _ _ hs rfl).bind fun _ mem' h => ?_
    exact ensures_ret.mpr ⟨h.1, h.2, fun hb => by cases hb⟩
  · exact ensures_ret.mpr ⟨hs, rfl, fun _ => rfl⟩

theorem sketched_assignKsuf : machine.Blind outlineView (assignKsuf build a p s initializing) := by
  intro x mem hs hx
  refine ensures_read.bind fun l _ h => ?_
  obtain ⟨rfl, l', hl, rfl⟩ := h
  refine (ensures_assignToExternal hs).bind fun b mem₁ h => ?_
  obtain ⟨hs₁, hx₁, hsame⟩ := h
  refine ensures_ite (fun _ => ensures_ret.mpr ⟨hs₁, hx₁.trans hx⟩) fun hb => ?_
  obtain rfl := hsame (Bool.eq_false_iff.mpr hb)
  generalize (if 0 < l.extrasize64 then l.iksuf.assign p s else none) = o
  cases o with
  | some b =>
    refine sketched_writeLeaf ?_ _ _ hs hx
    intro l
    exact ⟨rfl, rfl, rfl, rfl, rfl⟩
  | none =>
    refine (ensures_assignExternal hs (leaf?_eq_some.mp hl)).imp fun _ _ h => ?_
    exact ⟨h.1, h.2.trans hx⟩

/-- **A slot is filled.** -/
theorem sketched_assign : machine.Blind outlineView (assign build a p ka initializing) := by
  refine (sketched_writeLeaf ?_).bind fun _ => blind_ite sketched_assignKsuf blind_ret
  intro l
  exact ⟨rfl, rfl, rfl, rfl, rfl⟩

theorem sketched_assignInitializeFrom {b : Addr} {q : ℕ} :
    machine.Blind outlineView (assignInitializeFrom build a p b q) := by
  have hbag (l : Leaf) : machine.Blind outlineView (externalBag l) :=
    blind_ite sketched_read blind_ret
  refine sketched_read.bind fun l => (sketched_writeLeaf ?_).bind fun _ => ?_
  · intro k
    exact ⟨rfl, rfl, rfl, rfl, rfl⟩
  · exact blind_ite ((hbag l).bind fun _ => sketched_assignKsuf) blind_ret

theorem sketched_assignInitializeForLayer :
    machine.Blind outlineView (assignInitializeForLayer build a p ka) := by
  refine (sketched_assert _ _).bind fun _ => sketched_writeLeaf ?_
  intro l
  exact ⟨rfl, rfl, rfl, rfl, rfl⟩

/-- **The root of a new layer.** -/
theorem traced_makeRoot {x : Outline} {ksufsize : ℕ} {parent : Addr} :
    machine.Tracks outlineView (makeRoot env ksufsize parent) x fun a y => Made true x a y := by
  have hrest (t : NodeMemType) : machine.Tracks outlineView (do
      let n ← makeLeaf env ksufsize 1 t 1 false
      writeLeaf n fun l => { l with next := 0, prev := 0, ikey0 := Function.update l.ikey0 0 0 }
      makeLayerRoot n
      pure n) x fun a y => Made true x a y := by
    refine traced_makeLeaf.bind fun n y hy => ?_
    have hclear : machine.Tracks outlineView (writeLeaf n fun l =>
        { l with next := 0, prev := 0, ikey0 := Function.update l.ikey0 0 0 }) y
          fun _ z => z = y := by
      refine traced_store (a := n) fun mem l hs hx hl => ?_
      have hm := leaf?_eq_some.mp hl
      have hsketch : (Node.leaf l).sketch = newSketch true := by
        have hyn := outline_of_node? hm
        rw [hx, hy.2.2, Function.update_self] at hyn
        exact (Option.some.inj hyn).symm
      have hsingle : (l.next == 0 && l.prev == 0) = true := congrArg Sketch.single hsketch
      simp only [Bool.and_eq_true, beq_iff_eq] at hsingle
      let l' : Leaf := { l with next := 0, prev := 0, ikey0 := Function.update l.ikey0 0 0 }
      have hsame : (Node.leaf l').sketch = (Node.leaf l).sketch := by
        simp only [Node.sketch, hsingle, l']
      have hlink : (Node.leaf l').link? = (Node.leaf l).link? := by
        simp only [Node.link?, hsingle, l']
      refine ⟨.leaf l, .leaf l', hm, rfl, hs.toNodesOk.fits hm (hs.version (n := .leaf l) hm)
        (hs.parent (n := .leaf l) hm) (Nat.zero_le _) rfl ?_ rfl, hlink, ?_⟩
      · rw [hsame]
      · have hyn := outline_of_node? hm
        rw [hx] at hyn
        rw [hsame, ← hyn, Function.update_eq_self]
    refine hclear.bind fun _ z hz => ?_
    subst hz
    exact sketched_makeLayerRoot.then fun _ => tracks_ret hy
  refine tracks_ite (fun _ => hrest _) fun _ => sketched_read.then fun l => ?_
  exact tracks_ite (fun _ => sketched_decideNewNodePosition.then fun t => hrest t) fun _ => hrest _

end Suffixes

/-! ### The list of leaves -/

section Links

/-- The leaf `r`, which was alone, enters a list after the leaf `a`. -/
theorem Chained.split {G G' : Addr → Option Link} {a r : Addr} {k : Link} (h : Chained G)
    (hnull : G 0 = none) (ha : G a = some k) (hk : k.deleted = false)
    (hr : G r = some ⟨0, 0, false⟩) (hne : r ≠ a) (heven : isMarked r = false)
    (hr' : G' r = some ⟨k.next, a, false⟩)
    (hrest : ∀ b, b ≠ r → G' b = (G b).map fun t =>
      ⟨if b = a then r else t.next, if b = k.next then r else t.prev, t.deleted⟩) :
    Chained G' := by
  have ha0 : a ≠ 0 := by
    rintro rfl
    rw [hnull] at ha
    cases ha
  have hr0 : r ≠ 0 := by
    rintro rfl
    rw [hnull] at hr
    cases hr
  -- nobody is beside the leaf that is alone
  have hnext ⦃b : Addr⦄ ⦃j : Link⦄ (hb : G b = some j) (hj : j.deleted = false) : j.next ≠ r := by
    intro hbr
    obtain ⟨-, q, hq, -, rfl⟩ := h.next hb hj (hbr ▸ hr0)
    rw [hbr, hr] at hq
    cases hq
    rw [hnull] at hb
    cases hb
  have hprev ⦃b : Addr⦄ ⦃j : Link⦄ (hb : G b = some j) (hj : j.deleted = false) : j.prev ≠ r := by
    intro hbr
    obtain ⟨q, hq, -, rfl⟩ := h.prev hb hj (hbr ▸ hr0)
    rw [hbr, hr] at hq
    cases hq
    rw [hnull] at hb
    cases hb
  have hold ⦃b : Addr⦄ ⦃j : Link⦄ (hb : G' b = some j) : b = r ∧ j = ⟨k.next, a, false⟩ ∨
      b ≠ r ∧ ∃ t, G b = some t ∧
        j = ⟨if b = a then r else t.next, if b = k.next then r else t.prev, t.deleted⟩ := by
    by_cases hbr : b = r
    · rw [hbr, hr'] at hb
      cases hb
      exact Or.inl ⟨hbr, rfl⟩
    · rw [hrest b hbr] at hb
      obtain ⟨t, ht, rfl⟩ := Option.map_eq_some_iff.mp hb
      exact Or.inr ⟨hbr, t, ht, rfl⟩
  have hkept ⦃b : Addr⦄ ⦃t : Link⦄ (hb : G b = some t) (hbr : b ≠ r) : G' b =
      some ⟨if b = a then r else t.next, if b = k.next then r else t.prev, t.deleted⟩ := by
    rw [hrest b hbr, hb]
    rfl
  constructor
  · intro b j hb hj
    rcases hold hb with ⟨-, rfl⟩ | ⟨-, t, ht, rfl⟩
    · have hkn : isMarked k.next = false := h.unmarked ha hk
      exact hkn
    · by_cases hba : b = a
      · simp only [hba, if_true]
        exact heven
      · simp only [hba, if_false]
        exact h.unmarked ht hj
  · intro b j hb hj h0
    rcases hold hb with ⟨rfl, rfl⟩ | ⟨hbr, t, ht, rfl⟩
    · obtain ⟨-, q, hq, hqd, -⟩ := h.next ha hk h0
      have hkb := hnext ha hk
      exact ⟨hkb, _, hkept hq hkb, hqd, if_pos rfl⟩
    · by_cases hba : b = a
      · simp only [hba, if_true]
        exact ⟨hne, _, hr', rfl, rfl⟩
      · simp only [hba, if_false] at h0 ⊢
        obtain ⟨htb, q, hq, hqd, rfl⟩ := h.next ht hj h0
        refine ⟨htb, _, hkept hq (hnext ht hj), hqd, if_neg ?_⟩
        -- the leaf after `a` has no other leaf before it
        intro hsame
        obtain ⟨-, q', hq', -, hq'a⟩ := h.next ha hk (hsame ▸ h0)
        rw [hsame, hq'] at hq
        cases hq
        exact hba hq'a
  · intro b j hb hj h0
    rcases hold hb with ⟨rfl, rfl⟩ | ⟨hbr, t, ht, rfl⟩
    · exact ⟨_, hkept ha hne.symm, hk, if_pos rfl⟩
    · by_cases hbk : b = k.next
      · simp only [hbk, if_true]
        exact ⟨_, hr', rfl, rfl⟩
      · simp only [hbk, if_false] at h0 ⊢
        obtain ⟨q, hq, hqd, rfl⟩ := h.prev ht hj h0
        refine ⟨_, hkept hq (hprev ht hj), hqd, if_neg ?_⟩
        intro hsame
        rw [hsame, ha] at hq
        cases hq
        exact hbk rfl

variable {mem : Mem} {a n nr : Addr} {k l q : Leaf} {x : Outline}

/-- The links of a leaf are changed. -/
theorem Mem.NodesOk.relink (h : mem.NodesOk) (hl : mem.node? a = some (.leaf l)) (next : ℕ)
    (prev : Addr) : (mem.setNode a (.leaf { l with next := next, prev := prev })).NodesOk :=
  h.setNode hl (h.fits hl (h.version (n := .leaf l) hl) (h.parent (n := .leaf l) hl)
    (Nat.zero_le _) rfl rfl rfl)

/-- The link of a leaf is marked, if it is not null. -/
theorem ensures_lockNext (hl : mem.node? n = some (.leaf l)) (hmark : isMarked l.next = false)
    (fuel : ℕ) : machine.Ensures (lockNext n fuel) mem fun next mem' => next = l.next ∧
      mem' = if l.next = 0 then mem else mem.setNode n (.leaf { l with next := mark l.next }) := by
  cases fuel with
  | zero => exact ensures_diverge
  | succ fuel =>
    refine ensures_bind_of_done (run_readLeaf hl) (ensures_ite (fun h0 => ?_) fun h0 => ?_)
    · exact ensures_ret.mpr ⟨h0.symm, by rw [if_pos h0]⟩
    · rw [hmark]
      have hcas : machine.run (casNext n l.next (mark l.next)) mem =
          done true (mem.setNode n (.leaf { l with next := mark l.next })) := by
        unfold casNext
        rw [run_access (leaf?_eq_some.mpr hl), if_pos rfl]
      refine ensures_ite (fun h => by cases h) fun _ => ensures_bind_of_done hcas ?_
      refine ensures_ite (fun _ => ensures_ret.mpr ⟨rfl, ?_⟩) fun h => absurd rfl h
      rw [if_neg h0]

theorem links_of_leaf (hl : mem.node? a = some (.leaf l)) :
    mem.links a = some ⟨l.next, l.prev, l.version.deleted⟩ := by
  rw [Mem.links, hl]
  rfl

theorem exists_leaf_of_links {k : Link} (h : mem.links a = some k) :
    ∃ l, mem.node? a = some (.leaf l) ∧ k = ⟨l.next, l.prev, l.version.deleted⟩ := by
  obtain ⟨m, hm, hk⟩ := Option.bind_eq_some_iff.mp h
  cases m with
  | leaf l =>
    cases hk
    exact ⟨l, hm, rfl⟩
  | internode y => cases hk

/-- The leaf `nr`, which was `q`, stands in the list after the leaf `n`, which was `l`. -/
structure Linked (mem : Mem) (n nr : Addr) (l q : Leaf) (mem' : Mem) : Prop where
  left : mem'.node? n = some (.leaf { l with next := nr })
  right : mem'.node? nr = some (.leaf { q with next := l.next, prev := n })
  next : l.next ≠ 0 → ∀ t, mem.node? l.next = some (.leaf t) →
    mem'.node? l.next = some (.leaf { t with prev := nr })
  rest : ∀ b, b ≠ n → b ≠ nr → (l.next ≠ 0 → b ≠ l.next) → mem'.node? b = mem.node? b

section Entry

variable {mem' : Mem} (hs : mem.Sound) (hn : mem.node? n = some (.leaf l))
  (hd : l.version.deleted = false) (hr : mem.node? nr = some (.leaf q)) (hnext : q.next = 0)
  (hprev : q.prev = 0) (hqd : q.version.deleted = false) (hne : nr ≠ n)

include hs hn in
theorem ne_zero_of_leaf : n ≠ 0 := by
  rintro rfl
  rw [node?_zero hs.null] at hn
  cases hn

include hs hn hd hr hprev in
/-- The leaf after `n` is none of the two. -/
theorem exists_next (h0 : l.next ≠ 0) : ∃ t, mem.node? l.next = some (.leaf t) ∧ t.prev = n ∧
    l.next ≠ n ∧ l.next ≠ nr := by
  obtain ⟨hne, k, hk, -, hkn⟩ := hs.chained.next (links_of_leaf hn) hd h0
  obtain ⟨t, ht, rfl⟩ := exists_leaf_of_links hk
  refine ⟨t, ht, hkn, hne, ?_⟩
  intro hnr
  simp only at ht hkn
  rw [hnr, hr] at ht
  cases ht
  exact ne_zero_of_leaf hs hn (hkn.symm.trans hprev)

include hs hn hd hr hnext hprev hqd hne in
theorem Linked.sound (h : Linked mem n nr l q mem') (hok : mem'.NodesOk) : mem'.Sound := by
  have hright := links_of_leaf h.right
  refine ⟨hok, ?_⟩
  refine hs.chained.split ?_ (links_of_leaf hn) hd ?_ hne ?_ (hright.trans ?_) fun b hbr => ?_
  · rw [Mem.links, node?_zero hs.null]
    rfl
  · rw [links_of_leaf hr, hnext, hprev, hqd]
  · obtain ⟨c, hc, -⟩ := node?_eq_some.mp hr
    have halign := (hs.lt (a := nr) (by rw [hc]; simp)).2
    have heven : nr % 2 = 0 := by
      rw [← Nat.mod_mod_of_dvd nr (by decide : 2 ∣ 8), halign]
    simp [isMarked, heven]
  · simp only [hqd]
  · by_cases hbn : b = n
    · subst hbn
      rw [links_of_leaf h.left, links_of_leaf hn, Option.map_some, if_pos rfl, if_neg]
      intro hbk
      have h0 : l.next ≠ 0 := fun h0 => ne_zero_of_leaf hs hn (hbk.trans h0)
      obtain ⟨-, -, -, hne, -⟩ := exists_next hs hn hd hr hprev h0
      exact hne hbk.symm
    · by_cases hbk : b = l.next
      · subst hbk
        by_cases h0 : l.next = 0
        · have hzero : mem'.links l.next = none ∧ mem.links l.next = none := by
            rw [h0, Mem.links, Mem.links, node?_zero hs.null, node?_zero hok.null]
            exact ⟨rfl, rfl⟩
          rw [hzero.1, hzero.2]
          rfl
        · obtain ⟨t, ht, -⟩ := exists_next hs hn hd hr hprev h0
          rw [links_of_leaf (h.next h0 t ht), links_of_leaf ht, Option.map_some, if_neg hbn,
            if_pos rfl]
      · rw [Mem.links, h.rest b hbn hbr fun _ => hbk]
        simp only [if_neg hbn, if_neg hbk]
        exact Option.map_id'.symm

include hs hn hd hr hprev hne in
theorem Linked.outline (h : Linked mem n nr l q mem') :
    mem'.outline = Function.update
      (Function.update mem.outline n (some { (Node.leaf l).sketch with single := false }))
      nr (some { (Node.leaf q).sketch with single := false }) := by
  have hn0 := ne_zero_of_leaf hs hn
  have hr0 := ne_zero_of_leaf hs hr
  funext b
  by_cases hbr : b = nr
  · subst hbr
    rw [Function.update_self, outline_of_node? h.right]
    simp [Node.sketch, hn0]
  rw [Function.update_of_ne hbr]
  by_cases hbn : b = n
  · subst hbn
    rw [Function.update_self, outline_of_node? h.left]
    simp [Node.sketch, hr0]
  rw [Function.update_of_ne hbn]
  by_cases hbk : l.next ≠ 0 ∧ b = l.next
  · obtain ⟨h0, rfl⟩ := hbk
    obtain ⟨t, ht, htn, -⟩ := exists_next hs hn hd hr hprev h0
    have hn0' : (n == 0) = false := beq_false_of_ne hn0
    have hr0' : (nr == 0) = false := beq_false_of_ne hr0
    rw [outline_of_node? (h.next h0 t ht), outline_of_node? ht]
    simp only [Node.sketch, htn, hn0', hr0']
  · rw [Mem.outline, h.rest b hbn hbr fun h0 hb => hbk ⟨h0, hb⟩]
    rfl

include hs hn hd hr hprev hne in
/-- What `link_split` does. -/
theorem ensures_linkSplit (fuel : ℕ) : machine.Ensures (linkSplit fuel n nr) mem
    fun _ mem' => mem'.NodesOk ∧ Linked mem n nr l q mem' := by
  let q₁ : Leaf := { q with next := q.next, prev := n }
  let q₂ : Leaf := { q₁ with next := l.next, prev := n }
  let mem₁ := mem.setNode nr (.leaf q₁)
  have hok₁ : mem₁.NodesOk := hs.toNodesOk.relink hr q.next n
  have hn₁ : mem₁.node? n = some (.leaf l) := (node?_setNode_of_ne hne.symm).trans hn
  have hr₁ : mem₁.node? nr = some (.leaf q₁) := node?_setNode hr
  refine ensures_bind_of_done (run_writeLeaf hr) ?_
  have hmark : isMarked l.next = false := hs.chained.unmarked (links_of_leaf hn) hd
  refine (ensures_lockNext hn₁ hmark fuel).bind fun next mem₂ h => ?_
  obtain ⟨rfl, rfl⟩ := h
  by_cases h0 : l.next = 0
  · -- `n` was the last leaf
    rw [if_pos h0]
    let mem₃ := mem₁.setNode nr (.leaf q₂)
    have hok₃ : mem₃.NodesOk := hok₁.relink hr₁ l.next n
    have hn₃ : mem₃.node? n = some (.leaf l) := (node?_setNode_of_ne hne.symm).trans hn₁
    have hr₃ : mem₃.node? nr = some (.leaf q₂) := node?_setNode hr₁
    have hset : machine.run (setPrevOf l.next nr) mem₃ = done () mem₃ := by
      unfold setPrevOf
      rw [if_neg (by simp [h0])]
      rfl
    refine ensures_bind_of_done (run_writeLeaf hr₁) (ensures_bind_of_done hset ?_)
    intro _ mem' hrun
    rw [run_writeLeaf hn₃] at hrun
    cases hrun
    refine ⟨hok₃.relink hn₃ nr l.prev, node?_setNode hn₃, (node?_setNode_of_ne hne).trans hr₃,
      fun h => absurd h0 h, fun b hbn hbr _ => ?_⟩
    rw [node?_setNode_of_ne hbn, node?_setNode_of_ne hbr, node?_setNode_of_ne hbr]
  · rw [if_neg h0]
    obtain ⟨t, ht, -, htn, htr⟩ := exists_next hs hn hd hr hprev h0
    let l₂ : Leaf := { l with next := mark l.next, prev := l.prev }
    let t₄ : Leaf := { t with next := t.next, prev := nr }
    let mem₂ := mem₁.setNode n (.leaf l₂)
    let mem₃ := mem₂.setNode nr (.leaf q₂)
    let mem₄ := mem₃.setNode l.next (.leaf t₄)
    have hok₂ : mem₂.NodesOk := hok₁.relink hn₁ (mark l.next) l.prev
    have hr₂ : mem₂.node? nr = some (.leaf q₁) := (node?_setNode_of_ne hne).trans hr₁
    have hok₃ : mem₃.NodesOk := hok₂.relink hr₂ l.next n
    have hr₃ : mem₃.node? nr = some (.leaf q₂) := node?_setNode hr₂
    have hn₃ : mem₃.node? n = some (.leaf l₂) :=
      (node?_setNode_of_ne hne.symm).trans (node?_setNode hn₁)
    have ht₃ : mem₃.node? l.next = some (.leaf t) := by
      rw [node?_setNode_of_ne htr, node?_setNode_of_ne htn, node?_setNode_of_ne htr, ht]
    have hok₄ : mem₄.NodesOk := hok₃.relink ht₃ t.next nr
    have hn₄ : mem₄.node? n = some (.leaf l₂) := (node?_setNode_of_ne htn.symm).trans hn₃
    have hr₄ : mem₄.node? nr = some (.leaf q₂) := (node?_setNode_of_ne htr.symm).trans hr₃
    have hset : machine.run (setPrevOf l.next nr) mem₃ = done () mem₄ := by
      unfold setPrevOf
      rw [if_pos h0]
      exact run_writeLeaf ht₃
    refine ensures_bind_of_done (run_writeLeaf hr₂) (ensures_bind_of_done hset ?_)
    intro _ mem' hrun
    rw [run_writeLeaf hn₄] at hrun
    cases hrun
    refine ⟨hok₄.relink hn₄ nr l.prev, node?_setNode hn₄, (node?_setNode_of_ne hne).trans hr₄,
      fun _ t' ht' => ?_, fun b hbn hbr hbk => ?_⟩
    · rw [ht] at ht'
      cases ht'
      exact (node?_setNode_of_ne htn).trans (node?_setNode ht₃)
    · rw [node?_setNode_of_ne hbn, node?_setNode_of_ne (hbk h0), node?_setNode_of_ne hbr,
        node?_setNode_of_ne hbn, node?_setNode_of_ne hbr]

end Entry

/-- **A leaf that stands alone enters the list.** -/
theorem traced_linkSplit {s r : Sketch} (hn : x n = some s) (hleaf : s.leaf = true)
    (hd : s.deleted = false) (hr : x nr = some r) (hrleaf : r.leaf = true)
    (hsingle : r.single = true) (hrd : r.deleted = false) (hne : nr ≠ n) (fuel : ℕ) :
    machine.Tracks outlineView (linkSplit fuel n nr) x fun _ y =>
      y = Function.update (Function.update x n (some { s with single := false })) nr
        (some { r with single := false }) := by
  intro mem hs hx
  obtain ⟨m, hm, rfl⟩ := outline_eq_some.mp (hx ▸ hn)
  obtain ⟨k, hk, rfl⟩ := outline_eq_some.mp (hx ▸ hr)
  cases m with
  | internode y => cases hleaf
  | leaf l =>
    cases k with
    | internode y => cases hrleaf
    | leaf q =>
      have hsingle' : (q.next == 0 && q.prev == 0) = true := hsingle
      simp only [Bool.and_eq_true, beq_iff_eq] at hsingle'
      obtain ⟨hqn, hqp⟩ := hsingle'
      refine (ensures_linkSplit hs hm hd hk hqp hne fuel).imp fun _ mem' h => ?_
      obtain ⟨hok, hlinked⟩ := h
      refine ⟨hlinked.sound hs hm hd hk hqn hqp hrd hne hok, ?_⟩
      subst hx
      exact hlinked.outline hs hm hd hk hqp hne

end Links

end Sidle.Masstree
