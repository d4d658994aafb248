import Sidle.Art.Ladder
import Sidle.Art.NodeMigration

/-!
# A migrated tree is the same tree

After the migration of an internal node the tree is at rest again, with the copy of the node in its
place, and every lookup answers as before.

## Main definitions

* `ParentsRight` — every parent pointer names the node whose slot leads to the node.
* `InternodeMigrated` — what the migration of a node is for.

## Main results

* `NodeMoved.wired` — the tree after a migration.
* `NodeMoved.alike` — a migration changes nothing that a lookup reads.
* `internode_migration_iff` — **when a migration meets its purpose**.
-/

namespace Sidle.Art

open Prog Machine Outcome

variable {D : Prop} {env : Env} {s s' s₁ : Mem} {P n : Addr} {pn nn : ArtNode} {b : UInt8} {i : ℕ}
  {t : NodeMemType} {q : Place Addr UInt8} {p : Ptr}

/-! ### Parent pointers -/

/-- Every reachable internal node points to the node whose slot leads to it, the root to
nothing. -/
structure ParentsRight (s : Mem) : Prop where
  root : ∀ nd, isLeaf s.root = false → s.node? s.root = some nd → nd.parent = 0
  child : ∀ m md b c cd, Reachable s m → s.node? m = some md → md.childAt b = some c →
    isLeaf c = false → s.node? c = some cd → cd.parent = m

theorem Wired.parentsRight (h : Wired D env s) : ParentsRight s where
  root nd hl hnd := by
    have h0 : s.root ≠ 0 := h.fresh.ne_zero_of_node? hnd
    obtain ⟨nd', hnd', hpar, -⟩ := (h.leads .root s.root trivial ⟨rfl, h0⟩).node h.fresh hl
    obtain rfl := Option.some.inj (hnd.symm.trans hnd')
    exact hpar
  child m md b c cd hm hmd hb hl hcd := by
    obtain ⟨cd', hcd', hpar, -⟩ := (h.leads (.edge m b) c hm ⟨md, hmd, hb⟩).node h.fresh hl
    obtain rfl := Option.some.inj (hcd.symm.trans hcd')
    exact hpar

/-- What the lock of a node leaves of the nodes. -/
theorem Mem.node?_of_lockNode {a m : Addr} {md : ArtNode}
    (h : (s.lockNode a).node? m = some md) :
    ∃ md₀, s.node? m = some md₀ ∧ md.parent = md₀.parent ∧ ∀ b, md.childAt b = md₀.childAt b := by
  by_cases hma : m = a
  · subst hma
    cases hs : s.node? m with
    | none => simp [Mem.lockNode, hs] at h
    | some md₀ =>
      obtain rfl := Option.some.inj ((Mem.node?_lockNode_self hs).symm.trans h)
      exact ⟨md₀, rfl, rfl, (lockedNode md₀).childAt⟩
  · rw [Mem.node?_lockNode_of_ne hma] at h
    exact ⟨md, h, rfl, fun _ => rfl⟩

theorem Reachable.of_lockNode {a m : Addr} (h : Reachable (s.lockNode a) m) : Reachable s m := by
  induction h with
  | root h0 hl =>
    rw [Mem.root_lockNode] at h0 hl ⊢
    exact .root h0 hl
  | child _ hm hb hl ih =>
    obtain ⟨md₀, hmd₀, -, hchild⟩ := Mem.node?_of_lockNode hm
    exact ih.child hmd₀ ((hchild _).symm.trans hb) hl

theorem ParentsRight.lockNode (h : ParentsRight s) (a : Addr) : ParentsRight (s.lockNode a) where
  root nd hl hnd := by
    rw [Mem.root_lockNode] at hl hnd
    obtain ⟨nd₀, hnd₀, hpar, -⟩ := Mem.node?_of_lockNode hnd
    exact hpar.trans (h.root nd₀ hl hnd₀)
  child m md b c cd hm hmd hb hl hcd := by
    obtain ⟨md₀, hmd₀, -, hchild⟩ := Mem.node?_of_lockNode hmd
    obtain ⟨cd₀, hcd₀, hpar, -⟩ := Mem.node?_of_lockNode hcd
    exact hpar.trans
      (h.child m md₀ b c cd₀ hm.of_lockNode hmd₀ ((hchild b).symm.trans hb) hl hcd₀)

/-! ### The tree after a migration -/

/-- A node below another one can be migrated. -/
theorem Wired.movePre (h : Wired D env s) (hP : Reachable s P) (hpn : s.node? P = some pn)
    (hb : pn.childAt b = some n) (hn : s.node? n = some nn) :
    ∃ i, MovePre env s P n pn nn b i := by
  obtain ⟨i, hi, hic⟩ := ArtNode.childAt_eq_some.mp hb
  have hp : s.PtrAt (.edge P b) n := ⟨pn, hpn, hb⟩
  have hl := h.fresh.not_isLeaf hn
  have hreach : Reachable s n := hP.child hpn hb hl
  have hrest := h.rest n nn hreach hn
  have hrestP := h.rest P pn hP hpn
  obtain ⟨nn', hnn', hpar, -⟩ := (h.leads (.edge P b) n hP hp).node h.fresh hl
  obtain rfl := Option.some.inj (hn.symm.trans hnn')
  refine ⟨i, h.fresh, hn, hrest.ok, hrest.unlocked, hrest.old, hrest.expanding, hpar,
    h.owner_ne (q := .edge P b) hP hp, hpn, hrestP.ok, hrestP.unlocked, hrestP.old, hi, hic,
    fun d hd => ?_, fun d x hx => ?_⟩
  · -- only one place leads to a node
    have := h.once (.edge P d) (.edge P b) n hP hP ⟨pn, hpn, hd⟩ hp
    exact (Place.edge.inj this).2
  · have hx' : s.PtrAt (.edge n d) x := ⟨nn, hn, hx⟩
    refine ⟨h.owner_ne (q := .edge n d) hreach hx',
      h.below_ne_owner (q := .edge P b) hP hp hl hx', ?_⟩
    rcases h.leads (.edge n d) x hreach hx' with ⟨a, l, rfl, hl, -⟩ | ⟨m, hm, -⟩
    · exact .inl (h.fresh.isLeaf_of_leaf? hl)
    · exact .inr ⟨m, hm⟩

theorem MovePre.ptrAt (h : MovePre env s P n pn nn b i) : s.PtrAt (.edge P b) n :=
  ⟨pn, h.node_parent, ArtNode.childAt_eq_some.mpr ⟨i, h.slot, h.slot_child⟩⟩

/-- What is a leaf, or neither the node, nor its parent, nor a child, is left alone. -/
theorem NodeMoved.leaf? (hm : NodeMoved env s s' P n pn nn i t) (h : MovePre env s P n pn nn b i)
    {a : Addr} {l : LeafNode} (hl : s.leaf? a = some l) : s'.leaf? a = some l := by
  have hne {x : Addr} {nd : ArtNode} (hx : s.node? x = some nd) : a ≠ x :=
    (Mem.ne_of_node?_of_leaf? hx hl).symm
  refine (Mem.leaf?_congr (hm.other a (hne h.node) (hne h.node_parent) (h.fresh.ne_of_leaf? hl)
    fun c hc => ?_)).trans hl
  rcases (h.child c a hc).2.2 with hlf | ⟨m, hma⟩
  · exact hlf
  · exact absurd rfl (hne hma)

theorem NodeMoved.fresh (hm : NodeMoved env s s' P n pn nn i t) (h : MovePre env s P n pn nn b i) :
    s'.Fresh env := by
  refine h.fresh.of_new hm.allocated fun x hx hnew => ?_
  have hne {y : Addr} {ny : ArtNode} (hy : s.node? y = some ny) : x ≠ y := by
    rintro rfl
    simp [Mem.heap_of_node? hy] at hx
  refine (hm.other x (hne h.node) (hne h.node_parent) (hnew 0 Nat.one_pos) fun c hc => ?_).trans hx
  rcases (h.child c x hc).2.2 with hl | ⟨m, hxm⟩
  · exact hl
  · exact absurd rfl (hne hxm)

/-- The memory after a migration, with the lock of the parent given up. -/
def Mem.unlockParent (env : Env) (s s' : Mem) (P : Addr) (pn : ArtNode) (i : ℕ) : Mem :=
  s'.setNode P (pn.setChild i (env.addr s.allocated))

theorem NodeMoved.eq_lockNode (hm : NodeMoved env s s' P n pn nn i t) :
    s' = (Mem.unlockParent env s s' P pn i).lockNode P := by
  unfold Mem.unlockParent
  rw [Mem.lockNode_of_node? (Mem.node?_setNode_self ..), Mem.setNode_setNode]
  exact (Mem.setNode_eq_self hm.parent).symm

/-- The copy has taken the place of the node. -/
theorem NodeMoved.nodePut (hm : NodeMoved env s s' P n pn nn i t)
    (h : MovePre env s P n pn nn b i) (hw : Wired D env s) (hP : Reachable s P) :
    ∃ nd, NodePut D env s (Mem.unlockParent env s s' P pn i) (.edge P b) n
      (env.addr s.allocated) nd := by
  obtain ⟨nd, hnd, hok, hversion, -, hparent, hmeta, hchild⟩ := hm.copy
  let new_ := env.addr s.allocated
  let s₁ := Mem.unlockParent env s s' P pn i
  have hl := hw.fresh.not_isLeaf h.node
  have hn : Reachable s n := Mem.IsPlace.reachable (q := .edge P b) hP h.ptrAt hl
  have hrest := hw.rest n nn hn h.node
  have hfresh : s'.Fresh env := hm.fresh h
  have hsame {x : Addr} (hx : x ≠ P) : s₁.node? x = s'.node? x := Mem.node?_setNode_of_ne _ _ hx
  -- the children of the node get the copy for a parent
  have hadopted {c : UInt8} {x : Addr} {xd : ArtNode} (hc : nn.childAt c = some x)
      (hx : s.node? x = some xd) : s₁.node? x = some (xd.setParent new_) :=
    (hsame (h.child c x hc).2.1).trans (hm.child c x xd hc (hw.fresh.not_isLeaf hx) hx)
  refine ⟨nd, hfresh.setNode (hfresh.exists_addr_of_node? hm.parent) _,
    ⟨hm.root, pn, i, h.node_parent, h.slot, Mem.node?_setNode_self ..⟩, ⟨_, Nat.le_refl _, rfl⟩,
    (hsame h.parent_ne_new.symm).trans hnd, ?_, hparent.trans h.parent, fun hD => ?_,
    fun c x hc => ?_, fun x xd hreach hxP hxn hx => ?_, fun a l ha _ => ⟨l, ?_, rfl⟩⟩
  · exact ⟨hok, by rw [hversion, hrest.old], by rw [hversion, hrest.unlocked],
      by rw [hversion, hrest.expanding], by rw [hversion]; exact hrest.prefixLen⟩
  · obtain ⟨nn', hnn', -, hdeep⟩ := (hw.leads (.edge P b) n hP h.ptrAt).node hw.fresh hl
    obtain rfl := Option.some.inj (h.node.symm.trans hnn')
    exact ⟨by rw [hmeta, ← (hdeep hD).depth], by rw [hmeta, hversion]; exact (hdeep hD).le_offset,
      by rw [hversion]; exact (hdeep hD).offset⟩
  · have hc' : nn.childAt c = some x := (hchild c).symm.trans hc
    exact .inl ⟨hn, ⟨nn, h.node, hc'⟩, fun xd hx => hadopted hc' hx⟩
  · by_cases hc : ∃ c, nn.childAt c = some x
    · obtain ⟨c, hc⟩ := hc
      obtain ⟨xd', hx', hpar, -⟩ :=
        (hw.leads (.edge n c) x hn ⟨nn, h.node, hc⟩).node hw.fresh (hw.fresh.not_isLeaf hx)
      obtain rfl := Option.some.inj (hx.symm.trans hx')
      exact .inr ⟨hn, hpar, hadopted hc hx⟩
    · refine .inl ((hsame hxP).trans ((Mem.node?_congr ?_).trans hx))
      exact hm.other x hxn hxP (hw.fresh.ne_of_node? hx) fun c hxc => absurd ⟨c, hxc⟩ hc
  · exact (Mem.leaf?_setNode_of_ne _ _ (Mem.ne_of_node?_of_leaf? h.node_parent ha).symm).trans
      (hm.leaf? h ha)

/-- **The tree after a migration**, with the lock of the parent given up, is at rest. -/
theorem NodeMoved.wired (hm : NodeMoved env s s' P n pn nn i t) (h : MovePre env s P n pn nn b i)
    (hw : Wired D env s) (hP : Reachable s P) :
    Wired D env (Mem.unlockParent env s s' P pn i) := by
  obtain ⟨nd, hput⟩ := hm.nodePut h hw hP
  exact hput.wired hw (show s.IsPlace (.edge P b) from hP) h.ptrAt

/-! ### Lookups -/

/-- The pointer that stands for `p` after the migration of `n`. -/
def movedPtr (n new_ : Addr) (p : Ptr) : Ptr := if p = n then new_ else p

/-- The pointers of a tree, and what stands for them after the migration of `n`. -/
def MovedPtr (s : Mem) (n new_ : Addr) (p p' : Ptr) : Prop :=
  (∃ q, s.IsPlace q ∧ s.PtrAt q p) ∧ p' = movedPtr n new_ p

/-- The header of `a` is that of `m`, for a lookup. -/
structure SameHeader (m a : ArtNode) : Prop where
  ok : a.Ok
  offset : getOffset a.version = getOffset m.version
  prefixLen : getPrefixLen a.version = getPrefixLen m.version
  prefix_ : a.prefix_ = m.prefix_
  old : isOld a.version = isOld m.version
  expanding : isExpanding a.version = isExpanding m.version

theorem SameHeader.refl {m : ArtNode} (hok : m.Ok) : SameHeader m m :=
  ⟨hok, rfl, rfl, rfl, rfl, rfl⟩

theorem SameHeader.lock {m : ArtNode} (hok : m.Ok) :
    SameHeader m (m.setVersion (setLock m.version)) :=
  have hlk := lockedNode m
  ⟨hlk.ok hok, hlk.offset, hlk.prefixLen, rfl, hlk.old, hlk.expanding⟩

/-- The node `m` of a tree before and after a migration. -/
theorem ArtNode.AtRest.alike {m : Addr} {md a a' : ArtNode} {new_ : Addr} (hm : Reachable s m)
    (hmd : s.node? m = some md) (h : md.AtRest) (ha : SameHeader md a) (ha' : SameHeader md a')
    (hchild : ∀ b, a.childAt b = md.childAt b)
    (hchild' : ∀ b, a'.childAt b = (md.childAt b).map (movedPtr n new_)) :
    AlikeNode (MovedPtr s n new_) a a' where
  ok := ha.ok
  ok' := ha'.ok
  offset := ha'.offset.trans ha.offset.symm
  prefixLen := ha'.prefixLen.trans ha.prefixLen.symm
  prefixLen_le := ha.prefixLen.trans_le h.prefixLen
  prefix_ := ha'.prefix_.trans ha.prefix_.symm
  old := ⟨ha.old.trans h.old, ha'.old.trans h.old⟩
  expanding := ⟨ha.expanding.trans h.expanding, ha'.expanding.trans h.expanding⟩
  child b := by
    rw [hchild, hchild']
    cases hb : md.childAt b with
    | none => exact .none
    | some p => exact .some ⟨⟨.edge m b, hm, md, hmd, hb⟩, rfl⟩

/-- **A migration changes nothing that a lookup reads.** -/
theorem NodeMoved.alike (hm : NodeMoved env s s' P n pn nn i t) (h : MovePre env s P n pn nn b i)
    (hw : Wired D env s) (hP : Reachable s P) :
    Alike (s.lockNode n) s' (MovedPtr s n (env.addr s.allocated)) := by
  have hnl := hw.fresh.not_isLeaf h.node
  -- only the slot of `P` leads to `n`
  have hne {q : Place Addr UInt8} {p : Ptr} (hq : s.IsPlace q) (hp : s.PtrAt q p)
      (hqP : q ≠ .edge P b) : p ≠ n := by
    rintro rfl
    exact hqP (hw.once q (.edge P b) p hq hP hp h.ptrAt)
  have hmoved {m : Addr} {md : ArtNode} (hm : Reachable s m) (hmd : s.node? m = some md)
      (hmP : m ≠ P) (c : UInt8) :
      md.childAt c = (md.childAt c).map (movedPtr n (env.addr s.allocated)) := by
    cases hc : md.childAt c with
    | none => rfl
    | some p =>
      exact congrArg some (if_neg (hne (q := .edge m c) hm ⟨md, hmd, hc⟩ (by simp [hmP]))).symm
  refine ⟨?_, fun p p' hR hl => ?_, fun p p' hR hl => ?_⟩
  · rw [Mem.root_lockNode, hm.root]
    by_cases h0 : s.root = 0
    · exact .inl ⟨h0, h0⟩
    · have hp : s.PtrAt .root s.root := ⟨rfl, h0⟩
      exact .inr ⟨h0, h0, ⟨.root, trivial, hp⟩, 
        (if_neg (hne (q := .root) trivial hp (by simp))).symm⟩
  · obtain ⟨⟨q, hq, hp⟩, rfl⟩ := hR
    rcases hw.leads q p hq hp with ⟨a, l, rfl, hlf, -⟩ | ⟨nd, hnd, -⟩
    · obtain ⟨j, -, rfl⟩ := hw.fresh.exists_addr_of_leaf? hlf
      rw [getLeaf_succ (env.addr_aligned j)]
      refine ⟨if_neg ?_, l, (Mem.leaf?_lockNode n _).trans hlf, hm.leaf? h hlf⟩
      rintro rfl
      exact absurd hl (by simp [hnl])
    · exact absurd hl (by simp [hw.fresh.not_isLeaf hnd])
  · obtain ⟨⟨q, hq, hpt⟩, rfl⟩ := hR
    obtain ⟨md, hmd, -⟩ := (hw.leads q p hq hpt).node hw.fresh hl
    have hp := hq.reachable hpt hl
    have hrest := hw.rest p md hp hmd
    by_cases hpn : p = n
    · -- the node itself
      subst hpn
      obtain rfl := Option.some.inj (h.node.symm.trans hmd)
      obtain ⟨nd, hnd, hok, hversion, hprefix, -, -, hchild⟩ := hm.copy
      rw [movedPtr, if_pos rfl]
      have hsame : SameHeader nn nd :=
        ⟨hok, by rw [hversion], by rw [hversion], hprefix, by rw [hversion], by rw [hversion]⟩
      exact ⟨not_isLeaf_of_aligned (env.addr_aligned _), _, nd, Mem.node?_lockNode_self hmd, hnd,
        hrest.alike hp hmd (.lock hrest.ok) hsame (lockedNode nn).childAt
          fun b => (hchild b).trans (hmoved hp hmd h.ne b)⟩
    rw [movedPtr, if_neg hpn]
    refine ⟨hl, md, ?_⟩
    by_cases hpP : p = P
    · -- its parent
      subst hpP
      obtain rfl := Option.some.inj (h.node_parent.symm.trans hmd)
      have hlk := lockedNode pn
      refine ⟨_, (Mem.node?_lockNode_of_ne hpn).trans hmd, hm.parent, hrest.alike hp hmd
        (.refl hrest.ok) ⟨(hlk.ok hrest.ok).setChild i _, hlk.offset, hlk.prefixLen, rfl, hlk.old,
          hlk.expanding⟩ (fun _ => rfl) fun c => ?_⟩
      rw [ArtNode.childAt_setChild (hlk.ok hrest.ok) ((hlk.slotOf b).trans h.slot)
        (Nat.ne_of_gt (env.addr_pos _)), hlk.childAt]
      by_cases hcb : c = b
      · rw [if_pos hcb, hcb, ArtNode.childAt_eq_some.mpr ⟨i, h.slot, h.slot_child⟩,
          Option.map_some, movedPtr, if_pos rfl]
      · rw [if_neg hcb]
        cases hc : pn.childAt c with
        | none => rfl
        | some x =>
          refine congrArg some (if_neg ?_).symm
          rintro rfl
          exact hcb (h.unique c hc)
    · have hsame : (s.lockNode n).node? p = some md := (Mem.node?_lockNode_of_ne hpn).trans hmd
      by_cases hpc : ∃ c, nn.childAt c = some p
      · -- a child
        obtain ⟨c, hc⟩ := hpc
        obtain ⟨hok₁, hok₂, hok₃, hok₄, hok₅⟩ := hrest.ok
        exact ⟨_, hsame, hm.child c p md hc hl hmd, hrest.alike hp hmd (.refl hrest.ok)
          ⟨⟨hok₁, hok₂, hok₃, hok₄, hok₅⟩, rfl, rfl, rfl, rfl, rfl⟩ (fun _ => rfl)
            (@hmoved p md hp hmd hpP)⟩
      · have hother := hm.other p hpn hpP (hw.fresh.ne_of_node? hmd)
          fun c hc => absurd ⟨c, hc⟩ hpc
        exact ⟨md, hsame, (Mem.node?_congr hother).trans hmd, hrest.alike hp hmd (.refl hrest.ok)
          (.refl hrest.ok) (fun _ => rfl) (hmoved hp hmd hpP)⟩

/-! ### What the migration of a node is for -/

/-- The node `nd` is the copy of `n` in memory of the type `t`, unlocked. -/
structure CopyOf (n nd : ArtNode) (t : NodeMemType) : Prop where
  version : view nd.version = { view n.version with locked := false }
  prefix_ : nd.prefix_ = n.prefix_
  parent : nd.parent = n.parent
  depth : nd.sidleMeta.depth = n.sidleMeta.depth
  type : nd.sidleMeta.type = t
  childAt : ∀ b, nd.childAt b = n.childAt b

/-- The locked node `n` of `s` below `P` has been moved to memory of the type `t`: a copy is in
its slot, the parent is locked, the node itself is old and unlocked, every parent pointer is
right, and every lookup returns what it returned before. -/
structure InternodeMigrated (env : Env) (s s' : Mem) (P n : Addr) (t : NodeMemType) : Prop where
  parent : Locked s' P
  copy : ∃ pn pn' nn nd new_ b,
    s.node? P = some pn ∧ pn.childAt b = some n ∧ s'.node? P = some pn' ∧
    (∀ c, pn'.childAt c = if c = b then some new_ else pn.childAt c) ∧ s.node? n = some nn ∧
    s'.node? new_ = some nd ∧ CopyOf nn nd t ∧ isLocked nd.version = false ∧
      isOld nd.version = false
  old : ∃ nd, s'.node? n = some nd ∧ isOld nd.version = true ∧ isLocked nd.version = false
  parents : ParentsRight s'
  lookup : ∀ key res, (∃ u, env.machine.Converges (adaptiveRadixTreeGet key) s res u) ↔
    ∃ u, env.machine.Converges (adaptiveRadixTreeGet key) s' res u

/-- A migration that does what it does meets its purpose. -/
theorem NodeMoved.internodeMigrated (hm : NodeMoved env s s' P n pn nn i t)
    (h : MovePre env s P n pn nn b i) (hw : Wired D env s) (hP : Reachable s P) :
    InternodeMigrated env (s.lockNode n) s' P n t where
  parent := by
    refine ⟨_, hm.parent, ?_⟩
    change isLocked (setLock pn.version) = true
    rw [← view_locked, view_setLock]
  copy := by
    obtain ⟨nd, hnd, hok, hversion, hprefix, hparent, hmeta, hchild⟩ := hm.copy
    have hlk := lockedNode pn
    refine ⟨pn, _, _, nd, _, b, (Mem.node?_lockNode_of_ne (Ne.symm h.ne)).trans h.node_parent,
      ArtNode.childAt_eq_some.mpr ⟨i, h.slot, h.slot_child⟩, hm.parent, fun c => ?_,
      Mem.node?_lockNode_self h.node, hnd, ⟨?_, hprefix, hparent, by rw [hmeta]; rfl, by rw [hmeta],
        fun c => (hchild c).trans ((lockedNode nn).childAt c).symm⟩, by rw [hversion, h.unlocked],
      by rw [hversion, h.old]⟩
    · rw [ArtNode.childAt_setChild (hlk.ok h.ok_parent) ((hlk.slotOf b).trans h.slot)
        (Nat.ne_of_gt (env.addr_pos _)), hlk.childAt]
    · rw [hversion, ArtNode.setVersion_version, view_setLock, ← h.unlocked]
      rfl
  old := hm.old
  parents := by
    rw [hm.eq_lockNode]
    exact (hm.wired h hw hP).parentsRight.lockNode P
  lookup := (hm.alike h hw hP).converges_get_iff

/-! ### The run of a migration -/

theorem migrateCopy_le_succ (env : Env) (originalNode : Addr) (targetType : NodeMemType)
    (v : Version)
    (fuel : ℕ) : migrateCopy env fuel originalNode targetType v ≤
      migrateCopy env (fuel + 1) originalNode targetType v := by
  refine bind_mono (le_refl _) fun newNode => bind_mono (le_refl _) fun _ => ?_
  refine bind_mono (le_refl _) fun m => bind_mono (le_refl _) fun _ => ?_
  exact bind_mono (artNodeGetLockedParent_le_succ originalNode fuel) fun _ => le_refl _

theorem internodeMigration_le_succ (env : Env) (originalNode : Addr) (targetType : NodeMemType)
    (fuel : ℕ) : internodeMigration env fuel originalNode targetType false ≤
      internodeMigration env (fuel + 1) originalNode targetType false := by
  refine bind_mono (le_refl _) fun ready => ite_mono (bind_mono (le_refl _) fun v => ?_) (le_refl _)
  cases v with
  | none => exact le_refl _
  | some v => exact migrateCopy_le_succ env originalNode targetType v fuel

/-- The checks of a migration, where nothing throws. -/
theorem run_migratableVersion (hb : env.build.sidleCheck = false) {m : ArtNode}
    (hm : s.node? n = some m) (hold : isOld m.version = false) :
    env.machine.run (migratableVersion env n) s =
      if isValidAddr m.parent = true ∧ m.sidleMeta.depth ≠ 1 then done (some m.version) s
      else done none (s.setNode n (m.setVersion (unlockedVersion m.version))) := by
  have hparent : env.machine.run (load n .parent) s = done m.parent s :=
    run_load (f := .parent) hm trivial
  have hmeta : env.machine.run (load n .sidleMeta) s = done m.sidleMeta s :=
    run_load (f := .sidleMeta) hm trivial
  have hunlock {α : Type} (a : α) : env.machine.run (do artNodeUnlock n; pure a) s =
      done a (s.setNode n (m.setVersion (unlockedVersion m.version))) :=
    env.machine.run_bind_of_done (run_artNodeUnlock hm)
  unfold migratableVersion
  refine (env.machine.run_bind_of_done (run_artNodeGetVersion hm)).trans ?_
  refine (env.machine.run_bind_of_done (run_sidleCheck_off hb _)).trans ?_
  refine (env.machine.run_bind_of_done (run_sidleCheck_off hb _)).trans ?_
  rw [if_neg (by simp [hold])]
  refine (env.machine.run_bind_of_done hparent).trans ?_
  cases hv : isValidAddr m.parent with
  | false =>
    rw [if_pos (by simp), if_neg (by simp)]
    exact hunlock none
  | true =>
    rw [if_neg (by simp)]
    refine (env.machine.run_bind_of_done hmeta).trans ?_
    by_cases hd : m.sidleMeta.depth = 1
    · rw [if_pos hd, if_neg (fun h => h.2 hd)]
      exact hunlock none
    · rw [if_neg hd, if_pos ⟨rfl, hd⟩]
      rfl

/-- A node that fails the checks is unlocked and not moved. -/
theorem run_internodeMigration_refused (hb : env.build.sidleCheck = false) {m : ArtNode}
    (hm : s.node? n = some m) (hold : isOld m.version = false)
    (hcheck : ¬ (isValidAddr m.parent = true ∧ m.sidleMeta.depth ≠ 1)) (t : NodeMemType)
    (fuel : ℕ) :
    env.machine.run (internodeMigration env fuel n t false) s =
      done 0 (s.setNode n (m.setVersion (unlockedVersion m.version))) := by
  have hver := run_migratableVersion hb hm hold
  rw [if_neg hcheck] at hver
  exact env.machine.run_bind_of_done hver

/-- What the lock of the caller has done. -/
theorem eq_lockNode_of_converges (hn : s.node? n = some nn) (hold : isOld nn.version = false)
    (hlock : env.machine.Converges (fun fuel => artNodeLock fuel n) s 0 s₁) :
    s₁ = s.lockNode n ∧ ¬ Locked s n := by
  have hfree : isLocked nn.version = false := by
    by_contra hl
    exact not_converges_of_diverged _ (run_artNodeLock_locked hn (by simpa using hl)) _ _ hlock
  refine ⟨?_, ?_⟩
  · rw [Mem.lockNode_of_node? hn]
    exact (converges_unique _ (artNodeLock_le_succ n) hlock ⟨1, run_artNodeLock hn hfree hold 0⟩).2
  · rintro ⟨nn', hnn', hl⟩
    obtain rfl := Option.some.inj (hn.symm.trans hnn')
    simp [hfree] at hl

/-- **When a migration meets its purpose.**  For every reachable internal node but the root, in
every tree that insertions have built without assertions, which the caller has locked, and for
every type of memory: the migration returns the locked parent, and has done all it is for, exactly
when the address of the parent is a valid one, and the node is not taken for a root, as its depth
is not `1`. -/
theorem internode_migration_iff (hb : env.build.assertions = false)
    (hc : env.build.sidleCheck = false) {ks : List Key} (h : KeyRun env ks s) (hn : Reachable s n)
    (hroot : n ≠ s.root) (hnn : s.node? n = some nn)
    (hlock : env.machine.Converges (fun fuel => artNodeLock fuel n) s 0 s₁) (t : NodeMemType) :
    (∃ s', env.machine.Converges (fun fuel => internodeMigration env fuel n t false) s₁
      nn.parent s' ∧ InternodeMigrated env s₁ s' nn.parent n t) ↔
      isValidAddr nn.parent = true ∧ nn.sidleMeta.depth ≠ 1 := by
  have hw := (h.settled hb).wired
  have hrest := hw.rest n nn hn hnn
  obtain ⟨rfl, -⟩ := eq_lockNode_of_converges hnn hrest.old hlock
  have hlk := lockedNode nn
  have hn₁ : (s.lockNode n).node? n = some (nn.setVersion (setLock nn.version)) :=
    Mem.node?_lockNode_self hnn
  -- the node is below another one
  obtain ⟨P, pn, b, hP, hpn, hPn⟩ :
      ∃ P pn b, Reachable s P ∧ s.node? P = some pn ∧ pn.childAt b = some n := by
    cases hn with
    | root => exact absurd rfl hroot
    | child hP hpn hb => exact ⟨_, _, _, hP, hpn, hb⟩
  obtain ⟨i, hpre⟩ := hw.movePre hP hpn hPn hnn
  have hparent : nn.parent = P := hpre.parent
  rw [hparent]
  constructor
  · rintro ⟨s', hdone, -⟩
    by_contra hcheck
    rw [← hparent] at hcheck
    have hrefused := run_internodeMigration_refused hc hn₁ (hlk.old.trans hrest.old) hcheck t 0
    exact absurd (converges_unique _ (internodeMigration_le_succ env n t) hdone ⟨0, hrefused⟩).1
      (hw.fresh.ne_zero_of_node? hpn)
  · intro hcheck
    obtain ⟨s', hrun, hm⟩ := hpre.run_migrateCopy hc t 0
    refine ⟨s', ⟨2, ?_⟩, hm.internodeMigrated hpre hw hP⟩
    rw [← hparent] at hcheck
    have hver := (run_migratableVersion hc hn₁ (hlk.old.trans hrest.old)).trans (if_pos hcheck)
    exact (env.machine.run_bind_of_done hver).trans hrun

/-! ### Sample trees -/

theorem KeyRun.afterPut {ks : List Key} (h : KeyRun env ks s) (key : Key) {fuel : ℕ} {r : ℤ}
    (hr : (env.machine.run (adaptiveRadixTreePut env key fuel) s).answer? = some r) :
    KeyRun env (ks ++ [key]) (s.afterPut env key fuel) := h.put (converges_afterPut hr)

/-- A tree with one leaf below the root. -/
def oneLeaf : Mem :=
  (((Mem.init default).afterPut releaseEnv [1, 1, 1] 6).afterPut releaseEnv [2, 1, 1] 6).afterPut
    releaseEnv [1, 1, 1] 6

/-- The tree after the leaf has been split. -/
def twoLevels : Mem := oneLeaf.afterPut releaseEnv [1, 1, 2] 6

theorem keyRun_twoLevels :
    KeyRun releaseEnv [[1, 1, 1], [2, 1, 1], [1, 1, 1], [1, 1, 2]] twoLevels := by
  have h₀ : KeyRun releaseEnv [] (Mem.init default) := .init (Int.le_refl 0)
  have h₁ : KeyRun releaseEnv [[1, 1, 1]] ((Mem.init default).afterPut releaseEnv [1, 1, 1] 6) :=
    h₀.afterPut _ (r := 0) (by decide +kernel)
  have h₂ : KeyRun releaseEnv [[1, 1, 1], [2, 1, 1]] (Mem.afterPut releaseEnv [2, 1, 1] 6 _) :=
    h₁.afterPut _ (r := 0) (by decide +kernel)
  have h₃ : KeyRun releaseEnv [[1, 1, 1], [2, 1, 1], [1, 1, 1]] oneLeaf :=
    h₂.afterPut _ (r := 0) (by decide +kernel)
  exact h₃.afterPut _ (r := 0) (by decide +kernel)

/-- What is read of a node of a sample tree. -/
def Mem.glance (s : Mem) (a : Addr) : Option (Bool × Bool × Addr × ℕ) :=
  (s.node? a).map fun nd => (isLocked nd.version, isOld nd.version, nd.parent, nd.sidleMeta.depth)

theorem Mem.node_of_glance {a p : Addr} {lk old : Bool} {d : ℕ}
    (h : s.glance a = some (lk, old, p, d)) : ∃ nd, s.node? a = some nd ∧ isLocked nd.version = lk ∧
      isOld nd.version = old ∧ nd.parent = p ∧ nd.sidleMeta.depth = d := by
  obtain ⟨nd, hnd, heq⟩ := Option.map_eq_some_iff.mp h
  simp only [Prod.mk.injEq] at heq
  exact ⟨nd, hnd, heq⟩

theorem Reachable.of_childAt {a p : Addr} {c : UInt8} (h : Reachable s a)
    (hc : (s.node? a).bind (·.childAt c) = some p) (hl : isLeaf p = false) : Reachable s p := by
  obtain ⟨nd, hnd, hp⟩ := Option.bind_eq_some_iff.mp hc
  exact h.child hnd hp hl

theorem reachable_twoLevels : Reachable twoLevels 32 := by
  have hroot : twoLevels.root = 16 := by decide +kernel
  have h16 : Reachable twoLevels 16 :=
    hroot ▸ Reachable.root (by decide +kernel) (by decide +kernel)
  exact h16.of_childAt (c := 1) (by decide +kernel) (by decide)

/-- The node below the root can be migrated. -/
theorem internode_migration_iff_of_twoLevels : ∃ nn, twoLevels.node? 32 = some nn ∧
    ((∃ s', releaseEnv.machine.Converges
        (fun fuel => internodeMigration releaseEnv fuel 32 .local_ false) (twoLevels.lockNode 32)
          nn.parent s' ∧
      InternodeMigrated releaseEnv (twoLevels.lockNode 32) s' nn.parent 32 .local_) ↔
      isValidAddr nn.parent = true ∧ nn.sidleMeta.depth ≠ 1) := by
  obtain ⟨nn, hnn, hlk, hold, -, -⟩ := Mem.node_of_glance
    (show twoLevels.glance 32 = some (false, false, 16, 2) by decide +kernel)
  have hlock : releaseEnv.machine.Converges (fun fuel => artNodeLock fuel 32) twoLevels 0
      (twoLevels.lockNode 32) :=
    ⟨1, by rw [run_artNodeLock hnn hlk hold 0, Mem.lockNode_of_node? hnn]⟩
  exact ⟨nn, hnn, internode_migration_iff rfl rfl keyRun_twoLevels reachable_twoLevels
    (by decide +kernel) hnn hlock .local_⟩

/-- A node that has sixty-four nodes above it records the depth of the root, and is not moved. -/
theorem deep_node_not_migrated : ∃ s n nn,
    KeyRun releaseEnv (ladder (List.replicate 65 0) 64) s ∧ Reachable s n ∧ n ≠ s.root ∧
    s.node? n = some nn ∧
    releaseEnv.machine.Converges (fun fuel => artNodeLock fuel n) s 0 (s.lockNode n) ∧
    ¬ ∃ s', releaseEnv.machine.Converges
        (fun fuel => internodeMigration releaseEnv fuel n .local_ false) (s.lockNode n)
          nn.parent s' ∧
      InternodeMigrated releaseEnv (s.lockNode n) s' nn.parent n .local_ := by
  obtain ⟨s, q, slot, c, cn, hrun, hf⟩ : ∃ s q slot c cn,
      KeyRun releaseEnv (ladder (List.replicate 65 0) 64) s ∧
        Foot s (List.replicate 65 0) 64 q slot c cn :=
    exists_ladder rfl (by decide) (by decide)
  have hw := (hrun.settled rfl).wired
  have hplace := hf.way.place hw
  have hl := hw.fresh.not_isLeaf hf.node
  have hreach := hplace.reachable hf.ptr hl
  have hrest := hw.rest c cn hreach hf.node
  obtain ⟨m, b, rfl⟩ : ∃ m b, q = .edge m b := by
    cases q with
    | root => exact absurd hf.way.root_zero (by decide)
    | edge m b => exact ⟨m, b, rfl⟩
  refine ⟨s, c, cn, hrun, hreach, ?_, hf.node,
    ⟨1, by rw [run_artNodeLock hf.node hrest.unlocked hrest.old 0, Mem.lockNode_of_node? hf.node]⟩,
    ?_⟩
  · rintro rfl
    have hroot : s.PtrAt .root s.root := ⟨rfl, hw.fresh.ne_zero_of_node? hf.node⟩
    have := hw.once .root (.edge m b) s.root trivial hplace hroot hf.ptr
    cases this
  · rintro ⟨s', hdone, -⟩
    have hlk := lockedNode cn
    have hdepth : cn.sidleMeta.depth = 1 := hf.rung.depth
    have hrefused : releaseEnv.machine.run (internodeMigration releaseEnv 0 c .local_ false)
        (s.lockNode c) = done 0 _ :=
      run_internodeMigration_refused rfl (Mem.node?_lockNode_self hf.node)
        (hlk.old.trans hrest.old) (fun h => h.2 hdepth) .local_ 0
    have hzero := (converges_unique _ (internodeMigration_le_succ releaseEnv c .local_) hdone
      ⟨0, hrefused⟩).1
    obtain ⟨pn, hpn, hb⟩ := hf.ptr
    obtain ⟨i, hpre⟩ := hw.movePre hplace hpn hb hf.node
    rw [hpre.parent] at hzero
    exact hw.fresh.ne_zero_of_node? hpn hzero

end Sidle.Art
