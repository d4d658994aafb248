import Sidle.Art.Depth

/-!
# Trees at rest

What holds of a tree that no thread works on, whatever its keys are: no node is locked or
old, every slot has its own pointer, and a node points back to the owner of the slot that
leads to it.  When the depths are followed too, what a slot leads to is one deeper than the
owner of the slot.

An update gives one slot a new node, or a node a new leaf.  The slots of the tree after it
come from slots of the tree before it, and this is enough for the shape to be kept.

## Main definitions

* `ArtNode.AtRest`, `LeadsDown` — what holds of a node and of a slot.
* `Wired` — the shape of a tree at rest.
* `Level` — how far below the root a node is.
* `NodePut`, `LeafPut` — the two kinds of updates.

## Main results

* `Wired.level_unique` — a node has one level, so that nothing leads back up.
* `NodePut.wired`, `LeafPut.wired` — **the updates keep the shape**.
-/

namespace Sidle.Art

open Prog Machine Outcome

variable {D : Prop} {env : Env} {s s' : Mem} {n m c : Addr} {nd md : ArtNode} {b b' : UInt8}
  {p : Ptr} {q q' : Place Addr UInt8} {k k' : ℕ}

/-! ### The shape -/

/-- A place of the tree: the root pointer, or the slot of a node that can be reached. -/
def Mem.IsPlace (s : Mem) : Place Addr UInt8 → Prop
  | .root => True
  | .edge n _ => Reachable s n

/-- No thread works on the node. -/
structure ArtNode.AtRest (nd : ArtNode) : Prop where
  ok : nd.Ok
  old : isOld nd.version = false
  unlocked : isLocked nd.version = false
  expanding : isExpanding nd.version = false
  prefixLen : getPrefixLen nd.version ≤ 8

/-- The node is as deep as the place says, and not deeper than its offset allows. -/
structure DeepBelow (s : Mem) (q : Place Addr UInt8) (nd : ArtNode) : Prop where
  depth : nd.sidleMeta.depth = s.depthAbove q + 1
  le_offset : nd.sidleMeta.depth ≤ getOffset nd.version + 1
  offset : getOffset nd.version ≤ 8

/-- What the slot of `q` leads to: a leaf, or a node whose parent owns the slot.  `D` says that the
depths are followed. -/
def LeadsDown (D : Prop) (s : Mem) (q : Place Addr UInt8) (p : Ptr) : Prop :=
  (∃ a l, p = a + 1 ∧ s.leaf? a = some l ∧ (D → l.metadata.depth = s.depthAbove q + 1)) ∨
    ∃ nd, s.node? p = some nd ∧ nd.parent = owner q ∧ (D → DeepBelow s q nd)

/-- The shape of a tree at rest. -/
structure Wired (D : Prop) (env : Env) (s : Mem) : Prop where
  fresh : s.Fresh env
  rest : ∀ n nd, Reachable s n → s.node? n = some nd → nd.AtRest
  leads : ∀ q p, s.IsPlace q → s.PtrAt q p → LeadsDown D s q p
  once : ∀ q q' p, s.IsPlace q → s.IsPlace q' → s.PtrAt q p → s.PtrAt q' p → q = q'

theorem Mem.Fresh.not_isLeaf (hs : s.Fresh env) (hn : s.node? n = some nd) : isLeaf n = false := by
  obtain ⟨i, -, rfl⟩ := hs.exists_addr_of_node? hn
  exact not_isLeaf_of_aligned (env.addr_aligned i)

theorem Mem.Fresh.isLeaf_of_leaf? {a : Addr} {l : LeafNode} (hs : s.Fresh env)
    (hl : s.leaf? a = some l) : isLeaf (a + 1) = true := by
  obtain ⟨i, -, rfl⟩ := hs.exists_addr_of_leaf? hl
  exact isLeaf_succ (env.addr_aligned i)

/-- A pointer that is not tagged leads to a node. -/
theorem LeadsDown.node (h : LeadsDown D s q p) (hs : s.Fresh env) (hl : isLeaf p = false) :
    ∃ nd, s.node? p = some nd ∧ nd.parent = owner q ∧ (D → DeepBelow s q nd) := by
  refine h.resolve_left ?_
  rintro ⟨a, l, rfl, hleaf, -⟩
  rw [hs.isLeaf_of_leaf? hleaf] at hl
  cases hl

theorem LeadsDown.ne_zero (h : LeadsDown D s q p) (hs : s.Fresh env) : p ≠ 0 := by
  rcases h with ⟨a, l, rfl, -⟩ | ⟨nd, hnd, -⟩
  · exact Nat.succ_ne_zero a
  · exact hs.ne_zero_of_node? hnd

/-- Nothing leads to a block that is still to be allocated. -/
theorem LeadsDown.ne_addr (h : LeadsDown D s q p) (hs : s.Fresh env) {j : ℕ}
    (hj : s.allocated ≤ j) : p ≠ env.addr j := by
  rcases h with ⟨a, l, rfl, hl, -⟩ | ⟨nd, hnd, -⟩
  · intro heq
    have := hs.isLeaf_of_leaf? hl
    rw [heq, not_isLeaf_of_aligned (env.addr_aligned j)] at this
    cases this
  · exact hs.ne_addr (Or.inr (by simp [Mem.heap_of_node? hnd])) hj

/-- Nothing leads to a leaf in a block that is still to be allocated. -/
theorem LeadsDown.ne_addr_succ (h : LeadsDown D s q p) (hs : s.Fresh env) {j : ℕ}
    (hj : s.allocated ≤ j) : p ≠ env.addr j + 1 := by
  rcases h with ⟨a, l, rfl, hl, -⟩ | ⟨nd, hnd, -⟩
  · intro heq
    exact hs.ne_addr (Or.inr (by simp [Mem.heap_of_leaf? hl])) hj (Nat.succ.inj heq)
  · rintro rfl
    have := hs.not_isLeaf hnd
    rw [isLeaf_succ (env.addr_aligned j)] at this
    cases this

/-- What the root pointer and the slots lead to is reached. -/
theorem Mem.IsPlace.reachable (hq : s.IsPlace q) (hp : s.PtrAt q p) (hl : isLeaf p = false) :
    Reachable s p := by
  cases q with
  | root =>
    obtain ⟨rfl, h0⟩ := hp
    exact .root h0 hl
  | edge n b =>
    obtain ⟨nd, hnd, hb⟩ := hp
    exact hq.child hnd hb hl

/-- A set of nodes that the root pointer leads into, and that is not left, has all nodes that are
reached. -/
theorem Reachable.cover {X : Addr → Prop} (hn : Reachable s n)
    (hroot : ∀ p, s.PtrAt .root p → isLeaf p = false → X p)
    (hstep : ∀ m b p, X m → s.PtrAt (.edge m b) p → isLeaf p = false → X p) : X n := by
  induction hn with
  | root h0 hl => exact hroot _ ⟨rfl, h0⟩ hl
  | child _ hnd hb hl ih => exact hstep _ _ _ ih ⟨_, hnd, hb⟩ hl

namespace Wired

variable (h : Wired D env s)

include h

/-- A node that is reached lies at a place. -/
theorem exists_place (hn : Reachable s n) : ∃ q nd, s.IsPlace q ∧ s.PtrAt q n ∧
    s.node? n = some nd ∧ nd.parent = owner q ∧ (D → DeepBelow s q nd) := by
  obtain ⟨q, hq, hp, hl⟩ : ∃ q, s.IsPlace q ∧ s.PtrAt q n ∧ isLeaf n = false := by
    cases hn with
    | root h0 hl => exact ⟨.root, trivial, ⟨rfl, h0⟩, hl⟩
    | child hm hmd hb hl => exact ⟨.edge _ _, hm, ⟨_, hmd, hb⟩, hl⟩
  obtain ⟨nd, hnd, hpar, hd⟩ := (h.leads q n hq hp).node h.fresh hl
  exact ⟨q, nd, hq, hp, hnd, hpar, hd⟩

theorem node (hn : Reachable s n) : ∃ nd, s.node? n = some nd := by
  obtain ⟨-, nd, -, -, hnd, -⟩ := h.exists_place hn
  exact ⟨nd, hnd⟩

theorem not_locked (hn : Reachable s n) : ¬ Locked s n := by
  rintro ⟨nd, hnd, hl⟩
  rw [(h.rest n nd hn hnd).unlocked] at hl
  cases hl

theorem owner_used (hq : s.IsPlace q) : owner q = 0 ∨ s.heap (owner q) ≠ none := by
  cases q with
  | root => exact Or.inl rfl
  | edge n b =>
    obtain ⟨nd, hnd⟩ := h.node hq
    exact Or.inr (by simp [owner, Mem.heap_of_node? hnd])

theorem leaf_ne_owner (hq : s.IsPlace q) {a : Addr} {l : LeafNode} (hl : s.leaf? a = some l) :
    a ≠ owner q := by
  cases q with
  | root =>
    obtain ⟨i, -, rfl⟩ := h.fresh.exists_addr_of_leaf? hl
    exact Nat.ne_of_gt (env.addr_pos i)
  | edge m b =>
    obtain ⟨md, hmd⟩ := h.node hq
    exact (Mem.ne_of_node?_of_leaf? hmd hl).symm

theorem nullOrNode_owner (hq : s.IsPlace q) : s.NullOrNode (owner q) := by
  cases q with
  | root => exact h.fresh.nullOrNode_zero
  | edge n b =>
    obtain ⟨nd, hnd⟩ := h.node hq
    exact h.fresh.nullOrNode_of_node? hnd

end Wired

/-! ### Levels -/

/-- The node is `k` steps below the root. -/
inductive Level (s : Mem) : ℕ → Addr → Prop
  | root {n : Addr} (hp : s.PtrAt .root n) (hl : isLeaf n = false) : Level s 0 n
  | child {k : ℕ} {m n : Addr} {b : UInt8} (h : Level s k m) (hm : Reachable s m)
      (hp : s.PtrAt (.edge m b) n) (hl : isLeaf n = false) : Level s (k + 1) n

theorem Reachable.exists_level (hn : Reachable s n) : ∃ k, Level s k n := by
  induction hn with
  | root h0 hl => exact ⟨0, .root ⟨rfl, h0⟩ hl⟩
  | child hm hmd hb hl ih =>
    obtain ⟨k, hk⟩ := ih
    exact ⟨k + 1, hk.child hm ⟨_, hmd, hb⟩ hl⟩

theorem Level.reachable (h : Level s k n) : Reachable s n := by
  cases h with
  | root hp hl => exact Mem.IsPlace.reachable (q := .root) trivial hp hl
  | child _ hm hp hl => exact Mem.IsPlace.reachable (q := .edge _ _) hm hp hl

namespace Wired

variable (h : Wired D env s)

include h

/-- The level of a node is that of its parent and one more. -/
theorem level_parent (hn : Level s k n) (hnd : s.node? n = some nd) :
    nd.parent = 0 ∧ k = 0 ∨ nd.parent ≠ 0 ∧ ∃ k', k = k' + 1 ∧ Level s k' nd.parent := by
  cases hn with
  | root hp hl =>
    obtain ⟨nd', hnd', hpar, -⟩ := (h.leads .root _ trivial hp).node h.fresh hl
    obtain rfl := Option.some.inj (hnd.symm.trans hnd')
    exact Or.inl ⟨hpar, rfl⟩
  | child hk hm hp hl =>
    obtain ⟨nd', hnd', hpar, -⟩ := (h.leads (.edge _ _) _ hm hp).node h.fresh hl
    obtain rfl := Option.some.inj (hnd.symm.trans hnd')
    obtain ⟨md, hmd⟩ := h.node hm
    refine Or.inr ⟨?_, _, rfl, ?_⟩
    · rw [hpar]
      exact h.fresh.ne_zero_of_node? hmd
    · rwa [hpar]

/-- **A node has one level.** -/
theorem level_unique (hk : Level s k n) (hk' : Level s k' n) : k = k' := by
  induction k generalizing k' n with
  | zero =>
    obtain ⟨nd, hnd⟩ := h.node hk.reachable
    rcases h.level_parent hk hnd with ⟨hpar, -⟩ | ⟨-, i, hi, -⟩
    · rcases h.level_parent hk' hnd with ⟨-, hz⟩ | ⟨hne, -⟩
      · exact hz.symm
      · exact absurd hpar hne
    · cases hi
  | succ k ih =>
    obtain ⟨nd, hnd⟩ := h.node hk.reachable
    rcases h.level_parent hk hnd with ⟨-, hz⟩ | ⟨hne, i, hi, hlevel⟩
    · cases hz
    · obtain rfl : k = i := Nat.succ.inj hi
      rcases h.level_parent hk' hnd with ⟨hpar, -⟩ | ⟨-, j, rfl, hlevel'⟩
      · exact absurd hpar hne
      · exact congrArg (· + 1) (ih hlevel hlevel')

/-- The owner of a place is not what the place leads to. -/
theorem owner_ne (hq : s.IsPlace q) (hp : s.PtrAt q p) : p ≠ owner q := by
  cases q with
  | root => exact hp.2
  | edge n b =>
    rintro rfl
    obtain ⟨nd, hnd⟩ := h.node hq
    obtain ⟨k, hk⟩ := Reachable.exists_level hq
    exact absurd (h.level_unique hk (hk.child hq hp (h.fresh.not_isLeaf hnd))) (by omega)

/-- Nothing below what a place leads to is the owner of the place. -/
theorem below_ne_owner (hq : s.IsPlace q) (hp : s.PtrAt q n) (hl : isLeaf n = false)
    (hc : s.PtrAt (.edge n b) c) : c ≠ owner q := by
  have hn := hq.reachable hp hl
  cases q with
  | root => exact (h.leads (.edge n b) c hn hc).ne_zero h.fresh
  | edge m b' =>
    rintro rfl
    obtain ⟨md, hmd⟩ := h.node hq
    obtain ⟨k, hk⟩ := Reachable.exists_level hq
    have hk' := (hk.child hq hp hl).child hn hc (h.fresh.not_isLeaf hmd)
    exact absurd (h.level_unique hk hk') (by omega)

end Wired

/-! ### Updates -/

/-- The slots after an update come from slots before it: `X` has the nodes that are reached, and
every place of `X` leads down and into `X`. -/
theorem Wired.of_cover {X : Addr → Prop} (hs : s.Fresh env)
    (hrest : ∀ n nd, X n → s.node? n = some nd → nd.AtRest)
    (hleads : ∀ q p, (q = .root ∨ X (owner q)) → s.PtrAt q p →
      LeadsDown D s q p ∧ (isLeaf p = false → X p))
    (honce : ∀ q q' p, (q = .root ∨ X (owner q)) → (q' = .root ∨ X (owner q')) → s.PtrAt q p →
      s.PtrAt q' p → q = q') : Wired D env s := by
  have hX {n : Addr} (hn : Reachable s n) : X n :=
    hn.cover (fun p hp hl => (hleads .root p (Or.inl rfl) hp).2 hl)
      fun m b p hm hp hl => (hleads (.edge m b) p (Or.inr hm) hp).2 hl
  have hplace {q : Place Addr UInt8} (hq : s.IsPlace q) : q = .root ∨ X (owner q) := by
    cases q with
    | root => exact Or.inl rfl
    | edge n b => exact Or.inr (hX hq)
  exact ⟨hs, fun n nd hn => hrest n nd (hX hn), fun q p hq hp => (hleads q p (hplace hq) hp).1,
    fun q q' p hq hq' => honce q q' p (hplace hq) (hplace hq')⟩

/-- The leaves, but for one that `old` leads to, are as deep as before. -/
def LeafDepthsKept (s s' : Mem) (old : Ptr) : Prop := ∀ a l, s.leaf? a = some l → a + 1 ≠ old →
  ∃ l', s'.leaf? a = some l' ∧ l'.metadata.depth = l.metadata.depth

theorem DeepBelow.of_eq (hd : s'.depthAbove q' = s.depthAbove q') {md' : ArtNode}
    (hmeta : md'.sidleMeta = md.sidleMeta) (hver : md'.version = md.version)
    (hdeep : DeepBelow s q' md) : DeepBelow s' q' md' :=
  ⟨by rw [hmeta, hd, hdeep.depth], by rw [hmeta, hver]; exact hdeep.le_offset,
    by rw [hver]; exact hdeep.offset⟩

/-- The slot of `q` leads to the new node `nd` now, which has the children of the node that the slot
has led to, if any, and perhaps a new leaf.  The other slots are as before. -/
structure NodePut (D : Prop) (env : Env) (s s' : Mem) (q : Place Addr UInt8) (old : Ptr)
    (new_ : Addr) (nd : ArtNode) : Prop where
  fresh : s'.Fresh env
  redirected : Redirected s s' q new_
  new_eq : ∃ j, s.allocated ≤ j ∧ new_ = env.addr j
  node : s'.node? new_ = some nd
  rest : nd.AtRest
  parent : nd.parent = owner q
  deep : D → DeepBelow s q nd
  /-- The children of the new node. -/
  child : ∀ b p, nd.childAt b = some p →
    (Reachable s old ∧ s.PtrAt (.edge old b) p ∧ ∀ xd, s.node? p = some xd →
      s'.node? p = some (xd.setParent new_)) ∨
    ∃ j l, s.allocated ≤ j ∧ p = env.addr j + 1 ∧ s'.leaf? (env.addr j) = some l ∧
      (D → l.metadata.depth = nd.sidleMeta.depth + 1) ∧
      ∀ b', nd.childAt b' = some p → b' = b
  /-- The nodes that stay are as before, but for a parent that was the old node. -/
  other : ∀ x xd, Reachable s x → x ≠ owner q → x ≠ old → s.node? x = some xd →
    s'.node? x = some xd ∨ Reachable s old ∧ xd.parent = old ∧ s'.node? x = some (xd.setParent new_)
  leaf : LeafDepthsKept s s' old

namespace NodePut

variable {old : Ptr} {new_ : Addr} (h : Wired D env s) (hq : s.IsPlace q) (hp : s.PtrAt q old)
  (hu : NodePut D env s s' q old new_ nd)

/-- The nodes that are reached after the update. -/
def Nodes (s : Mem) (old : Ptr) (new_ n : Addr) : Prop := n = new_ ∨ Reachable s n ∧ n ≠ old

include hu

theorem ne_zero : new_ ≠ 0 := by
  obtain ⟨j, -, rfl⟩ := hu.new_eq
  exact Nat.ne_of_gt (env.addr_pos j)

theorem not_isLeaf : isLeaf new_ = false := by
  obtain ⟨j, -, rfl⟩ := hu.new_eq
  exact not_isLeaf_of_aligned (env.addr_aligned j)

include h

theorem ptr_ne (hq' : s.IsPlace q') (hp' : s.PtrAt q' p) : p ≠ new_ := by
  obtain ⟨j, hj, rfl⟩ := hu.new_eq
  exact (h.leads q' p hq' hp').ne_addr h.fresh hj

/-- A node that stays. -/
theorem kept (hn : Reachable s n) (hne : n ≠ old) (hmd : s.node? n = some md) :
    ∃ md', s'.node? n = some md' ∧ md'.AtRest ∧ md'.sidleMeta = md.sidleMeta ∧
      md'.version = md.version ∧ (md'.parent = md.parent ∨ Reachable s old ∧ md.parent = old) ∧
      ∀ b p, md'.childAt b = some p →
        Place.edge n b = q ∧ p = new_ ∨ Place.edge n b ≠ q ∧ md.childAt b = some p := by
  have hrest := h.rest n md hn hmd
  by_cases ho : n = owner q
  · cases q with
    | root => exact absurd ho (h.fresh.ne_zero_of_node? hmd)
    | edge m b =>
      obtain rfl : n = m := ho
      obtain ⟨-, md', i, hmd', hi, hnew⟩ := hu.redirected
      obtain rfl := Option.some.inj (hmd.symm.trans hmd')
      refine ⟨_, hnew, ⟨hrest.ok.setChild i _, hrest.old, hrest.unlocked, hrest.expanding,
        hrest.prefixLen⟩, rfl, rfl, Or.inl rfl, fun b' p hb' => ?_⟩
      rw [ArtNode.childAt_setChild hrest.ok hi hu.ne_zero] at hb'
      by_cases hbb : b' = b
      · rw [if_pos hbb, Option.some.injEq] at hb'
        exact Or.inl ⟨by rw [hbb], hb'.symm⟩
      · rw [if_neg hbb] at hb'
        exact Or.inr ⟨by simpa using hbb, hb'⟩
  · have hedge (b : UInt8) : Place.edge n b ≠ q := by
      rintro rfl
      exact ho rfl
    rcases hu.other n md hn ho hne hmd with hsame | ⟨hold, hpar, hset⟩
    · exact ⟨md, hsame, hrest, rfl, rfl, Or.inl rfl, fun b p hb => Or.inr ⟨hedge b, hb⟩⟩
    · obtain ⟨⟨h₁, h₂, h₃, h₄, h₅⟩, h₆, h₇, h₈, h₉⟩ := hrest
      exact ⟨_, hset, ⟨⟨h₁, h₂, h₃, h₄, h₅⟩, h₆, h₇, h₈, h₉⟩, rfl, rfl, Or.inr ⟨hold, hpar⟩,
        fun b p hb => Or.inr ⟨hedge b, hb⟩⟩

/-- The depths of the owners that stay. -/
theorem depthAbove (hq' : s.IsPlace q') (ho : owner q' ≠ old) :
    s'.depthAbove q' = s.depthAbove q' := by
  cases q' with
  | root => rw [Mem.depthAbove_root h.fresh, Mem.depthAbove_root hu.fresh]
  | edge n b =>
    obtain ⟨md, hmd⟩ := h.node hq'
    obtain ⟨md', hmd', -, hmeta, -⟩ := kept h hu hq' ho hmd
    rw [Mem.depthAbove_edge hmd, Mem.depthAbove_edge hmd', hmeta]

include hq hp

/-- Where the pointers come from. -/
theorem origin (hq' : q' = .root ∨ Nodes s old new_ (owner q')) (hp' : s'.PtrAt q' p) :
    q' = q ∧ p = new_ ∨ q' ≠ q ∧ s.IsPlace q' ∧ owner q' ≠ old ∧ s.PtrAt q' p ∨
      ∃ b, q' = .edge new_ b ∧ nd.childAt b = some p := by
  cases q' with
  | root =>
    by_cases hroot : q = .root
    · subst hroot
      exact Or.inl ⟨rfl, hp'.1.symm.trans hu.redirected⟩
    · have hold := (h.leads q old hq hp).ne_zero h.fresh
      refine Or.inr (Or.inl ⟨Ne.symm hroot, trivial, hold.symm, ?_, hp'.2⟩)
      cases q with
      | root => exact absurd rfl hroot
      | edge m b => exact hu.redirected.1.symm.trans hp'.1
  | edge n b =>
    obtain ⟨md', hmd', hb⟩ := hp'
    rcases hq'.resolve_left (by simp) with rfl | ⟨hn, hne⟩
    · obtain rfl := Option.some.inj (hmd'.symm.trans hu.node)
      exact Or.inr (Or.inr ⟨b, rfl, hb⟩)
    · obtain ⟨md, hmd⟩ := h.node hn
      obtain ⟨md₁, hmd₁, -, -, -, -, hchild⟩ := kept h hu hn hne hmd
      obtain rfl := Option.some.inj (hmd'.symm.trans hmd₁)
      rcases hchild b p hb with ⟨hqe, hpe⟩ | ⟨hqe, hbe⟩
      · exact Or.inl ⟨hqe, hpe⟩
      · exact Or.inr (Or.inl ⟨hqe, hn, hne, md, hmd, hbe⟩)

/-- The new node is as deep as the old one. -/
theorem depth_old (hold : Reachable s old) (hD : D) (b : UInt8) :
    s.depthAbove (.edge old b) = nd.sidleMeta.depth := by
  obtain ⟨od, hod⟩ := h.node hold
  obtain ⟨od', hod', -, hdeep⟩ := (h.leads q old hq hp).node h.fresh (h.fresh.not_isLeaf hod)
  rw [Mem.depthAbove_edge hod', (hdeep hD).depth, (hu.deep hD).depth]

/-- What the pointers lead to. -/
theorem leads (hq' : q' = .root ∨ Nodes s old new_ (owner q')) (hp' : s'.PtrAt q' p) :
    LeadsDown D s' q' p ∧ (isLeaf p = false → Nodes s old new_ p) := by
  rcases origin h hq hp hu hq' hp' with ⟨rfl, rfl⟩ | ⟨hne, hplace, howner, hpt⟩ | ⟨b, rfl, hb⟩
  · -- the slot that has been redirected
    have hd := depthAbove h hu hq (h.owner_ne hq hp).symm
    exact ⟨Or.inr ⟨nd, hu.node, hu.parent, fun hD =>
      .of_eq hd rfl rfl (hu.deep hD)⟩, fun _ => Or.inl rfl⟩
  · -- another slot
    have hpo : p ≠ old := by
      rintro rfl
      exact hne (h.once _ _ p hplace hq hpt hp)
    have hd := depthAbove h hu hplace howner
    refine ⟨?_, fun hl => Or.inr ⟨hplace.reachable hpt hl, hpo⟩⟩
    rcases h.leads q' p hplace hpt with ⟨a, l, rfl, hl, hdepth⟩ | ⟨md, hmd, hpar, hdeep⟩
    · obtain ⟨l', hl', hmeta⟩ := hu.leaf a l hl hpo
      exact Or.inl ⟨a, l', rfl, hl', fun hD => by rw [hmeta, hd, hdepth hD]⟩
    · have hreach := hplace.reachable hpt (h.fresh.not_isLeaf hmd)
      obtain ⟨md', hmd', -, hmeta, hver, hpar', -⟩ := kept h hu hreach hpo hmd
      refine Or.inr ⟨md', hmd', ?_, fun hD => .of_eq hd hmeta hver (hdeep hD)⟩
      exact (hpar'.resolve_right fun hc => howner (hpar.symm.trans hc.2)).trans hpar
  · -- a slot of the new node
    have hd : s'.depthAbove (.edge new_ b) = nd.sidleMeta.depth := Mem.depthAbove_edge hu.node b
    rcases hu.child b p hb with ⟨hold, hpt, hset⟩ | ⟨j, l, -, rfl, hl, hdepth, -⟩
    · have hpo := h.owner_ne (q := .edge old b) hold hpt
      refine ⟨?_, fun hl => Or.inr ⟨Mem.IsPlace.reachable (q := .edge old b) hold hpt hl, hpo⟩⟩
      have hdo (hD : D) := (depth_old h hq hp hu hold hD b).trans hd.symm
      rcases h.leads (.edge old b) p hold hpt with ⟨a, l, rfl, hl, hdepth⟩ | ⟨md, hmd, -, hdeep⟩
      · obtain ⟨l', hl', hmeta⟩ := hu.leaf a l hl hpo
        exact Or.inl ⟨a, l', rfl, hl', fun hD => by rw [hmeta, hdepth hD, hdo hD]⟩
      · refine Or.inr ⟨_, hset md hmd, rfl, fun hD => ⟨?_, (hdeep hD).le_offset, (hdeep hD).offset⟩⟩
        exact (hdeep hD).depth.trans (by rw [hdo hD])
    · refine ⟨Or.inl ⟨_, l, rfl, hl, fun hD => by rw [hdepth hD, hd]⟩, fun hlf => ?_⟩
      rw [isLeaf_succ (env.addr_aligned j)] at hlf
      cases hlf

/-- **A new node in a slot keeps the shape.** -/
theorem wired : Wired D env s' := by
  refine .of_cover (X := Nodes s old new_) hu.fresh (fun n md hn hmd => ?_)
    (fun q' p hq' hp' => leads h hq hp hu hq' hp') fun q₁ q₂ p hq₁ hq₂ hp₁ hp₂ => ?_
  · rcases hn with rfl | ⟨hn, hne⟩
    · obtain rfl := Option.some.inj (hmd.symm.trans hu.node)
      exact hu.rest
    · obtain ⟨md₀, hmd₀⟩ := h.node hn
      obtain ⟨md', hmd', hrest, -⟩ := kept h hu hn hne hmd₀
      obtain rfl := Option.some.inj (hmd.symm.trans hmd')
      exact hrest
  · -- a pointer of the tree before the update has one slot, and a new one has one too
    have hnew {b : UInt8} (hb : nd.childAt b = some p) : p ≠ new_ := by
      rcases hu.child b p hb with ⟨hold, hpt, -⟩ | ⟨j, l, -, rfl, hl, -⟩
      · exact ptr_ne h hu (show s.IsPlace (.edge old b) from hold) hpt
      · intro heq
        have := hu.not_isLeaf
        rw [← heq, isLeaf_succ (env.addr_aligned j)] at this
        cases this
    have hcross {q₀ : Place Addr UInt8} {b : UInt8} (hq₀ : s.IsPlace q₀) (ho : owner q₀ ≠ old)
        (hp₀ : s.PtrAt q₀ p) (hb : nd.childAt b = some p) : False := by
      rcases hu.child b p hb with ⟨hold, hpt, -⟩ | ⟨j, l, hj, rfl, -⟩
      · obtain rfl := h.once q₀ (.edge old b) p hq₀ hold hp₀ hpt
        exact ho rfl
      · exact (h.leads q₀ _ hq₀ hp₀).ne_addr_succ h.fresh hj rfl
    rcases origin h hq hp hu hq₁ hp₁ with ⟨rfl, rfl⟩ | ⟨-, hpl₁, ho₁, hpt₁⟩ | ⟨b₁, rfl, hb₁⟩ <;>
      rcases origin h hq hp hu hq₂ hp₂ with ⟨rfl, he⟩ | ⟨-, hpl₂, ho₂, hpt₂⟩ | ⟨b₂, rfl, hb₂⟩
    · rfl
    · exact absurd rfl (ptr_ne h hu hpl₂ hpt₂)
    · exact absurd rfl (hnew hb₂)
    · exact absurd he (ptr_ne h hu hpl₁ hpt₁)
    · exact h.once _ _ p hpl₁ hpl₂ hpt₁ hpt₂
    · exact (hcross hpl₁ ho₁ hpt₁ hb₂).elim
    · exact absurd he (hnew hb₁)
    · exact (hcross hpl₂ ho₂ hpt₂ hb₁).elim
    · rcases hu.child b₁ p hb₁ with ⟨hold, hpt, -⟩ | ⟨j, l, hj, rfl, -, -, hone⟩
      · rcases hu.child b₂ p hb₂ with ⟨-, hpt', -⟩ | ⟨j, l, hj, rfl, -⟩
        · have := h.once (.edge old b₁) (.edge old b₂) p hold hold hpt hpt'
          rw [(Place.edge.inj this).2]
        · exact absurd rfl ((h.leads _ _ (show s.IsPlace (.edge old b₁) from hold)
            hpt).ne_addr_succ h.fresh hj)
      · rw [hone b₂ hb₂]

end NodePut

/-- The nodes of the tree and the root pointer are as before. -/
structure Undisturbed (env : Env) (s s' : Mem) : Prop where
  fresh : s'.Fresh env
  root : s'.root = s.root
  node : ∀ x xd, Reachable s x → s.node? x = some xd → s'.node? x = some xd
  leaf : LeafDepthsKept s s' 0

/-- An access to a leaf. -/
theorem Touched.undisturbed {a : Addr} {l : LeafNode} (hl : s.leaf? a = some l)
    (ht : Touched env s s' a l) : Undisturbed env s s' where
  fresh := ht.fresh
  root := ht.root
  node x xd _ hx := by
    rw [Mem.node?_congr (ht.other x (Mem.ne_of_node?_of_leaf? hx hl)
      (by simp [Mem.heap_of_node? hx])), hx]
  leaf x lx hx _ := by
    by_cases hxa : x = a
    · subst hxa
      obtain rfl := Option.some.inj (hl.symm.trans hx)
      exact ⟨_, ht.leaf, rfl⟩
    · refine ⟨lx, ?_, rfl⟩
      rw [Mem.leaf?_congr (ht.other x hxa (by simp [Mem.heap_of_leaf? hx])), hx]

theorem Undisturbed.wired (h : Wired D env s) (hu : Undisturbed env s s') : Wired D env s' := by
  -- the pointers are those of before
  have hpt {q : Place Addr UInt8} {p : Ptr} (hq : q = .root ∨ Reachable s (owner q))
      (hp : s'.PtrAt q p) : s.IsPlace q ∧ s.PtrAt q p ∧ s'.depthAbove q = s.depthAbove q := by
    cases q with
    | root =>
      exact ⟨trivial, ⟨hu.root.symm.trans hp.1, hp.2⟩, by
        rw [Mem.depthAbove_root h.fresh, Mem.depthAbove_root hu.fresh]⟩
    | edge n b =>
      have hn : Reachable s n := hq.resolve_left (by simp)
      obtain ⟨nd, hnd⟩ := h.node hn
      obtain ⟨nd', hnd', hb⟩ := hp
      obtain rfl := Option.some.inj (hnd'.symm.trans (hu.node n nd hn hnd))
      exact ⟨hn, ⟨nd', hnd, hb⟩, by rw [Mem.depthAbove_edge hnd, Mem.depthAbove_edge hnd']⟩
  refine .of_cover (X := Reachable s) hu.fresh (fun n nd hn hnd => ?_) (fun q p hq hp => ?_)
    fun q₁ q₂ p hq₁ hq₂ hp₁ hp₂ => ?_
  · obtain ⟨nd₀, hnd₀⟩ := h.node hn
    obtain rfl := Option.some.inj (hnd.symm.trans (hu.node n nd₀ hn hnd₀))
    exact h.rest n nd hn hnd₀
  · obtain ⟨hplace, hp, hd⟩ := hpt hq hp
    refine ⟨?_, fun hl => hplace.reachable hp hl⟩
    rcases h.leads q p hplace hp with ⟨a, l, rfl, hl, hdepth⟩ | ⟨md, hmd, hpar, hdeep⟩
    · obtain ⟨l', hl', hmeta⟩ := hu.leaf a l hl (Nat.succ_ne_zero a)
      exact Or.inl ⟨a, l', rfl, hl', fun hD => by rw [hmeta, hd, hdepth hD]⟩
    · have hreach := hplace.reachable hp (h.fresh.not_isLeaf hmd)
      exact Or.inr ⟨md, hu.node p md hreach hmd, hpar, fun hD =>
        ⟨(hdeep hD).depth.trans (by rw [hd]), (hdeep hD).le_offset, (hdeep hD).offset⟩⟩
  · obtain ⟨hpl₁, hp₁, -⟩ := hpt hq₁ hp₁
    obtain ⟨hpl₂, hp₂, -⟩ := hpt hq₂ hp₂
    exact h.once q₁ q₂ p hpl₁ hpl₂ hp₁ hp₂

/-- A node is as far below the root as before. -/
theorem Undisturbed.level (hu : Undisturbed env s s') (hn : Level s k n) : Level s' k n := by
  induction hn with
  | root hp hl => exact .root ⟨hu.root.trans hp.1, hp.2⟩ hl
  | child _ hm hp hl ih =>
    obtain ⟨md, hmd, hb⟩ := hp
    exact ih.child ih.reachable ⟨md, hu.node _ md hm hmd, hb⟩ hl

/-- A node that is not below the place of a new node is as far below the root as before. -/
theorem NodePut.level {old : Ptr} {new_ : Addr} {kP : ℕ} (h : Wired D env s)
    (hu : NodePut D env s s' (.edge c b) old new_ nd) (hold : s.PtrAt (.edge c b) old)
    (hc : Level s kP c) (hn : Level s k n) (hk : k ≤ kP) : Level s' k n := by
  induction hn with
  | root hp hl => exact .root ⟨hu.redirected.1.trans hp.1, hp.2⟩ hl
  | @child k m n b' hm hreach hp hl ih =>
    have hm' := ih (by omega)
    obtain ⟨md, hmd, hb'⟩ := hp
    have hmc : m ≠ c := by
      rintro rfl
      have := h.level_unique hm hc
      omega
    have hmold : m ≠ old := by
      rintro rfl
      have := h.level_unique hm (hc.child hc.reachable hold (h.fresh.not_isLeaf hmd))
      omega
    rcases hu.other m md hreach hmc hmold hmd with hsame | ⟨-, -, hset⟩
    · exact hm'.child hm'.reachable ⟨md, hsame, hb'⟩ hl
    · exact hm'.child hm'.reachable ⟨_, hset, hb'⟩ hl

/-- The node `n` has a new leaf for the byte `b`. -/
structure LeafPut (D : Prop) (env : Env) (s s' : Mem) (n : Addr) (nd nd' : ArtNode) (b : UInt8)
    (j : ℕ) : Prop where
  fresh : s'.Fresh env
  root : s'.root = s.root
  node : s.node? n = some nd
  node' : s'.node? n = some nd'
  rest : nd'.AtRest
  sidleMeta : nd'.sidleMeta = nd.sidleMeta
  offset : getOffset nd'.version = getOffset nd.version
  parent : nd'.parent = nd.parent
  childAt : ∀ c, nd'.childAt c = if c = b then some (env.addr j + 1) else nd.childAt c
  new_ : s.allocated ≤ j ∧ ∃ l, s'.leaf? (env.addr j) = some l ∧
    (D → l.metadata.depth = nd.sidleMeta.depth + 1)
  other : ∀ x xd, x ≠ n → s.node? x = some xd → s'.node? x = some xd
  leaf : LeafDepthsKept s s' 0

/-- **A new leaf keeps the shape.** -/
theorem LeafPut.wired {nd' : ArtNode} {j : ℕ} (h : Wired D env s)
    (hu : LeafPut D env s s' n nd nd' b j) : Wired D env s' := by
  have hkept {x : Addr} {xd : ArtNode} (hx : s.node? x = some xd) :
      ∃ xd', s'.node? x = some xd' ∧ xd'.sidleMeta = xd.sidleMeta ∧
        getOffset xd'.version = getOffset xd.version ∧ xd'.parent = xd.parent ∧
        ∀ c p, xd'.childAt c = some p →
          x = n ∧ c = b ∧ p = env.addr j + 1 ∨ xd.childAt c = some p := by
    by_cases hxn : x = n
    · subst hxn
      obtain rfl := Option.some.inj (hx.symm.trans hu.node)
      refine ⟨nd', hu.node', hu.sidleMeta, hu.offset, hu.parent, fun c p hc => ?_⟩
      rw [hu.childAt] at hc
      split at hc
      · exact Or.inl ⟨rfl, ‹_›, (Option.some.inj hc).symm⟩
      · exact Or.inr hc
    · exact ⟨xd, hu.other x xd hxn hx, rfl, rfl, rfl, fun c p hc => Or.inr hc⟩
  -- the pointers are those of before and the new one
  have hpt {q : Place Addr UInt8} {p : Ptr} (hq : q = .root ∨ Reachable s (owner q))
      (hp : s'.PtrAt q p) : s.IsPlace q ∧ s'.depthAbove q = s.depthAbove q ∧
        (q = .edge n b ∧ p = env.addr j + 1 ∨ s.PtrAt q p) := by
    cases q with
    | root =>
      exact ⟨trivial, by rw [Mem.depthAbove_root h.fresh, Mem.depthAbove_root hu.fresh],
        Or.inr ⟨hu.root.symm.trans hp.1, hp.2⟩⟩
    | edge x c =>
      have hx : Reachable s x := hq.resolve_left (by simp)
      obtain ⟨xd, hxd⟩ := h.node hx
      obtain ⟨xd₁, hxd₁, hc⟩ := hp
      obtain ⟨xd', hxd', hmeta, -, -, hchild⟩ := hkept hxd
      obtain rfl := Option.some.inj (hxd₁.symm.trans hxd')
      refine ⟨hx, by rw [Mem.depthAbove_edge hxd, Mem.depthAbove_edge hxd', hmeta], ?_⟩
      rcases hchild c p hc with ⟨rfl, rfl, rfl⟩ | hc
      · exact Or.inl ⟨rfl, rfl⟩
      · exact Or.inr ⟨xd, hxd, hc⟩
  obtain ⟨hj, l, hl, hdepth⟩ := hu.new_
  refine .of_cover (X := Reachable s) hu.fresh (fun x xd hx hxd => ?_) (fun q p hq hp => ?_)
    fun q₁ q₂ p hq₁ hq₂ hp₁ hp₂ => ?_
  · obtain ⟨xd₀, hxd₀⟩ := h.node hx
    by_cases hxn : x = n
    · subst hxn
      obtain rfl := Option.some.inj (hxd.symm.trans hu.node')
      exact hu.rest
    · obtain rfl := Option.some.inj (hxd.symm.trans (hu.other x xd₀ hxn hxd₀))
      exact h.rest x xd hx hxd₀
  · obtain ⟨hplace, hd, ⟨rfl, rfl⟩ | hp⟩ := hpt hq hp
    · refine ⟨Or.inl ⟨_, l, rfl, hl, fun hD => ?_⟩, fun hlf => ?_⟩
      · rw [hdepth hD, hd, Mem.depthAbove_edge hu.node]
      · rw [isLeaf_succ (env.addr_aligned j)] at hlf
        cases hlf
    · refine ⟨?_, fun hl => hplace.reachable hp hl⟩
      rcases h.leads q p hplace hp with ⟨a, l, rfl, hl, hdepth⟩ | ⟨md, hmd, hpar, hdeep⟩
      · obtain ⟨l', hl', hmeta⟩ := hu.leaf a l hl (Nat.succ_ne_zero a)
        exact Or.inl ⟨a, l', rfl, hl', fun hD => by rw [hmeta, hd, hdepth hD]⟩
      · obtain ⟨md', hmd', hmeta, hoff, hpar', -⟩ := hkept hmd
        exact Or.inr ⟨md', hmd', hpar'.trans hpar, fun hD =>
          ⟨by rw [hmeta, hd, (hdeep hD).depth], by rw [hmeta, hoff]; exact (hdeep hD).le_offset,
            by rw [hoff]; exact (hdeep hD).offset⟩⟩
  · obtain ⟨hpl₁, -, hp₁⟩ := hpt hq₁ hp₁
    obtain ⟨hpl₂, -, hp₂⟩ := hpt hq₂ hp₂
    rcases hp₁ with ⟨rfl, rfl⟩ | hp₁ <;> rcases hp₂ with ⟨rfl, he⟩ | hp₂
    · rfl
    · exact absurd rfl ((h.leads q₂ _ hpl₂ hp₂).ne_addr_succ h.fresh hj)
    · exact absurd he ((h.leads q₁ p hpl₁ hp₁).ne_addr_succ h.fresh hj)
    · exact h.once q₁ q₂ p hpl₁ hpl₂ hp₁ hp₂

/-- A tree without nodes. -/
theorem Wired.of_leaf (hs : s.Fresh env) {a : Addr} {l : LeafNode} (hroot : s.root = a + 1)
    (hl : s.leaf? a = some l) (hd : D → l.metadata.depth = 1) : Wired D env s := by
  have hleaf := hs.isLeaf_of_leaf? hl
  have hpt {q : Place Addr UInt8} {p : Ptr} (hq : q = .root ∨ False) (hp : s.PtrAt q p) :
      q = .root ∧ p = a + 1 := by
    obtain rfl := hq.resolve_right id
    exact ⟨rfl, hp.1.symm.trans hroot⟩
  refine .of_cover (X := fun _ => False) hs (fun _ _ hn => hn.elim) (fun q p hq hp => ?_)
    fun q₁ q₂ p hq₁ hq₂ hp₁ hp₂ => (hpt hq₁ hp₁).1.trans (hpt hq₂ hp₂).1.symm
  obtain ⟨rfl, rfl⟩ := hpt hq hp
  refine ⟨Or.inl ⟨a, l, rfl, hl, fun hD => ?_⟩, fun hlf => ?_⟩
  · rw [hd hD, Mem.depthAbove_root hs]
  · rw [hleaf] at hlf
    cases hlf

theorem Wired.of_empty (hs : s.Fresh env) (hroot : s.root = 0) : Wired D env s :=
  .of_cover (X := fun _ => False) hs (fun _ _ hn => hn.elim)
    (fun q p hq hp => by
      obtain rfl := hq.resolve_right id
      exact absurd (hp.1.symm.trans hroot) hp.2)
    fun q₁ q₂ p hq₁ hq₂ _ _ => (hq₁.resolve_right id).trans (hq₂.resolve_right id).symm

/-- **The depths of a tree at rest are right** when they are followed. -/
theorem Wired.depthsRight (h : Wired True env s) : DepthsRight s := by
  have hat {q : Place Addr UInt8} {p : Ptr} (hq : s.IsPlace q) (hp : s.PtrAt q p) :
      s.depth? p = some (s.depthAbove q + 1) := by
    rcases h.leads q p hq hp with ⟨a, l, rfl, hl, hd⟩ | ⟨nd, hnd, -, hd⟩
    · rw [Mem.depth?_of_leaf? h.fresh hl, hd trivial]
    · rw [Mem.depth?_of_node? (h.fresh.not_isLeaf hnd) hnd, (hd trivial).depth]
  refine ⟨fun h0 => ?_, fun n nd b p hn hnd hb => ?_⟩
  · have := hat (q := .root) trivial ⟨rfl, h0⟩
    rwa [Mem.depthAbove_root h.fresh] at this
  · have := hat (q := .edge n b) hn ⟨nd, hnd, hb⟩
    rwa [Mem.depthAbove_edge hnd] at this

end Sidle.Art
