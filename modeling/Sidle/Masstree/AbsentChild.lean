import Sidle.Masstree.Dereference
import Sidle.Masstree.LeafCopy

/-!
# Absent children

When the leaf in the first place of an internode is removed the internode keeps an empty place
there, with a null pointer, as long as it has other children.  The traversal in
`need_continue_migrate` and the loop in `masstree_internode_migration` that tells the children
of their new parent go over all places and do not ask.

## Main definitions

* `Mem.Attached` — an internode as it stands in a tree.
* `Migrates` — when a migration comes to the children of the internode.
* `TraversalOk`, `MigrationOk` — no null pointer is followed, and all children are seen to.

## Main results

* `nullSafe_internodeMigration_iff`, `nullSafe_needContinueMigrate_iff` — when no null pointer is
  followed.
* `absent_children_iff` — **an empty place is followed** whenever it is come to.
-/

namespace Sidle.Masstree

open Art (Build Fault)
open Prog Machine Outcome Word Worker

/-- The tag in the version word says what the node is. -/
def Node.Tagged : Node → Prop
  | .leaf l => l.version.isleaf = true
  | .internode x => x.version.isleaf = false

/-- The internode `x` at `a` as it stands in a tree: it has no parent or an internode for one,
and what is in its places is a node or nothing. -/
structure Mem.Attached (mem : Mem) (a : Addr) (x : Internode) : Prop where
  null : mem.blocks 0 = none
  fresh : mem.blocks mem.fresh = none
  node : mem.node? a = some (.internode x)
  parent : x.parent ≠ 0 → ∃ y, mem.node? x.parent = some (.internode y) ∧ y.version.isleaf = false
  child : ∀ i ≤ x.nkeys, x.child i ≠ 0 → ∃ n, mem.node? (x.child i) = some n ∧ n.Tagged

section Attached

variable {mem : Mem} {a : Addr} {x : Internode}

theorem Mem.Attached.ne_zero (h : mem.Attached a x) : a ≠ 0 := by
  rintro rfl
  have hnode := h.node
  rw [node?_zero h.null] at hnode
  cases hnode

theorem Mem.Attached.ne_fresh (h : mem.Attached a x) {b : Addr} {n : Node}
    (hb : mem.node? b = some n) : b ≠ mem.fresh := by
  rintro rfl
  rw [Mem.node?, h.fresh] at hb
  cases hb

end Attached

/-! ### The loop over the children -/

section Loop

variable {mem : Mem} {x : Internode} {new_ : Addr}

/-- A loop that comes to an empty place follows the null pointer in it. -/
theorem not_nullSafe_setParents {α : Type} {k : Unit → MtM α} (start n : ℕ)
    (hchild : ∀ i, start ≤ i → i < start + n → x.child i ≠ 0 → ∃ m, mem.node? (x.child i) = some m)
    (habsent : ∃ i, start ≤ i ∧ i < start + n ∧ x.child i = 0) :
    ¬NullSafe ((forRange start n fun i => setParent (x.child i) new_) >>= k) mem := by
  induction n generalizing start mem with
  | zero =>
    obtain ⟨i, hi, hin, -⟩ := habsent
    omega
  | succ n ih =>
    rw [forRange_succ, bind_assoc']
    by_cases h0 : x.child start = 0
    · rw [h0]
      exact not_nullSafe_access fun _ h => node?_zero h
    · obtain ⟨m, hm⟩ := hchild start (Nat.le_refl _) (by omega) h0
      have hset : NonNull (setParent (x.child start) new_) := nonNull_node h0
      rw [nullSafe_bind_of_run hset.nullSafe (run_setParent hm)]
      refine ih (start + 1) (fun i hi hin hi0 => ?_) ?_
      · obtain ⟨m', hm'⟩ := hchild i (by omega) (by omega) hi0
        rw [node?_setNode_eq hm]
        split
        · exact ⟨_, rfl⟩
        · exact ⟨m', hm'⟩
      · obtain ⟨i, hi, hin, hi0⟩ := habsent
        have hne : i ≠ start := fun he => h0 (he ▸ hi0)
        exact ⟨i, by omega, by omega, hi0⟩

/-- What holds of the memory while the children are told of their new parent. -/
structure Telling (a new_ : Addr) (x : Internode) (told : ℕ) (s : Mem) : Prop where
  node : ∃ m, s.node? a = some m ∧ m.version.locked = true
  copy : ∃ m, s.node? new_ = some m ∧ m.version.locked = true
  child : ∀ i ≤ x.nkeys, ∃ m, s.node? (x.child i) = some m ∧ (i < told → m.parent = new_)

theorem Telling.setParent {a : Addr} {k : ℕ} {s : Mem} (h : Telling a new_ x k s)
    (hk : k ≤ x.nkeys) : ∃ s', machine.run (Masstree.setParent (x.child k) new_) s = done () s' ∧
      Telling a new_ x (k + 1) s' := by
  obtain ⟨m, hm, -⟩ := h.child k hk
  have hlocked {b : Addr} (hb : ∃ n, s.node? b = some n ∧ n.version.locked = true) :
      ∃ n, (s.setNode (x.child k) (m.setParent new_)).node? b = some n ∧ n.version.locked =
        true := by
    obtain ⟨n, hn, hl⟩ := hb
    rw [node?_setNode_eq hm]
    split
    · rename_i he
      rw [he, hm] at hn
      cases hn
      exact ⟨_, rfl, by rwa [version_setParent]⟩
    · exact ⟨n, hn, hl⟩
  refine ⟨_, run_setParent hm, hlocked h.node, hlocked h.copy, fun i hi => ?_⟩
  rw [node?_setNode_eq hm]
  split
  · exact ⟨_, rfl, fun _ => parent_setParent new_⟩
  · rename_i hne
    obtain ⟨m', hm', hp⟩ := h.child i hi
    refine ⟨m', hm', fun hik => hp ?_⟩
    have hne' : i ≠ k := fun he => hne (he ▸ rfl)
    omega

/-- The end of `masstree_internode_migration`: the children are told of their new parent, and the
original is retired. -/
def tellChildren (env : Env) (original new_ p : Addr) : MtM Addr := do
  let o ← readInternode original
  forRange 0 (o.nkeys + 1) fun i => Masstree.setParent (o.child i) new_
  markLocked env.build original NodeVersion.markDeleted
  retireBlock original
  unlock env.build original
  unlock env.build new_
  pure p

variable {a : Addr}

theorem locked_markDeleted {v : NodeVersion} (h : v.locked = true) :
    v.markDeleted.locked = true := by
  rw [NodeVersion.markDeleted_eq, NodeVersion.locked_setFlag _ (by decide),
    NodeVersion.locked_setFlag _ (by decide), h]

/-- Once all children have been told the migration returns. -/
theorem exists_run_tellChildren (env : Env) (p : Addr) (hx : mem.node? a = some (.internode x))
    (hne : new_ ≠ a)
    (h : Telling a new_ x 0 mem) :
      ∃ mem', machine.run (tellChildren env a new_ p) mem = done p mem' ∧
      ∀ i ≤ x.nkeys, ∃ m, mem'.node? (x.child i) = some m ∧ m.parent = new_ := by
  obtain ⟨s, hloop, hs⟩ := machine.exists_run_forRange
    (I := fun k s => Telling a new_ x k s) 0 (x.nkeys + 1)
    (fun k s _ hk hI => hI.setParent (by omega)) h
  obtain ⟨m, hm, hml⟩ := hs.node
  obtain ⟨c, hc, hcl⟩ := hs.copy
  let m' := m.setVersion m.version.markDeleted
  let s₁ := (s.setNode a m').retire a
  let s₂ := s₁.setNode a (m'.setVersion m'.version.unlock)
  have hm' : m'.version.locked = true := by
    simp only [m', version_setVersion]
    exact locked_markDeleted hml
  have hdeleted : s₁.node? a = some m' := node?_retire.trans (node?_setNode hm)
  have hcopy : s₂.node? new_ = some c := by
    rw [node?_setNode_of_ne hne, node?_retire, node?_setNode_of_ne hne, hc]
  refine ⟨s₂.setNode new_ (c.setVersion c.version.unlock), ?_, fun i hi => ?_⟩
  · unfold tellChildren
    rw [machine.run_bind_of_done (run_readInternode hx), machine.run_bind_of_done hloop,
      machine.run_bind_of_done (run_markLocked hm hml),
      machine.run_bind_of_done (run_retireBlock (node?_setNode hm)),
      machine.run_bind_of_done (run_unlock hdeleted hm'),
      machine.run_bind_of_done (run_unlock hcopy hcl)]
    rfl
  · obtain ⟨q, hq, hqp⟩ := hs.child i hi
    have hparent := hqp (by omega)
    -- a child that is one of the two nodes keeps its parent too
    rw [node?_setNode_eq hcopy]
    split
    · rename_i he
      rw [he, hc] at hq
      cases hq
      exact ⟨_, rfl, by rwa [parent_setVersion]⟩
    · rw [node?_setNode_eq hdeleted]
      split
      · rename_i he
        rw [he, hm] at hq
        cases hq
        exact ⟨_, rfl, by simpa [m'] using hparent⟩
      · rename_i hca
        rw [node?_retire, node?_setNode_of_ne hca]
        exact ⟨q, hq, hparent⟩

/-- The children are told without a null pointer being followed exactly when there is a child in
every place. -/
theorem nullSafe_tellChildren_iff (env : Env) (p : Addr) (hx : mem.node? a = some (.internode x))
    (ha : a ≠ 0)
    (hnew : new_ ≠ 0)
    (hchild : ∀ i ≤ x.nkeys, x.child i ≠ 0 → ∃ m, mem.node? (x.child i) = some m) :
    NullSafe (tellChildren env a new_ p) mem ↔ ∀ i ≤ x.nkeys, x.child i ≠ 0 := by
  have hread : NonNull (readInternode a) := nonNull_internode ha
  unfold tellChildren
  rw [nullSafe_bind_of_run hread.nullSafe (run_readInternode hx)]
  constructor
  · intro hsafe i hi h0
    refine not_nullSafe_setParents 0 (x.nkeys + 1) (fun j _ hj => hchild j (by omega)) ?_ hsafe
    exact ⟨i, by omega, by omega, h0⟩
  · intro h
    refine NonNull.nullSafe (All.bind (all_forRange 0 (x.nkeys + 1) fun i _ hi => ?_) fun _ => ?_)
    · exact nonNull_node (h i (by omega))
    · exact All.bind (nonNull_markLocked ha _) fun _ => All.bind (nonNull_node ha) fun _ =>
        All.bind (nonNull_unlock ha) fun _ => All.bind (nonNull_unlock hnew) fun _ => trivial

end Loop

/-! ### The place of the copy -/

section Place

variable {env : Env} {mem : Mem} {a new_ : Addr} {x : Internode} {c : Node}

/-- The check of the parent. -/
def parentInvalid (p : Addr) (v : NodeVersion) : MtM Bool :=
  if p = 0 then pure (!v.isRoot)
  else do
    let pv ← readVersion p
    pure pv.deleted

/-- The copy takes the place of the original below its parent `p`. -/
def hangCopy (env : Env) (original new_ p : Addr) : MtM (Option ℕ) :=
  if p = 0 then do
    makeLayerRoot new_
    pure (some 0)
  else do
    let o ← readInternode original
    let x ← readInternode p
    assert_ env.build (decide (x.upper (o.ikey0 0) ≤ width))
    match x.childPosition (o.ikey0 0) original with
    | none => pure none
    | some posi => do
      assignCopy p posi new_
      pure (some posi)

/-- The parts of `replaceInternode`. -/
theorem replaceInternode_eq (fuel : ℕ) : replaceInternode env fuel a new_ = (do
    let p ← lockedParent env.build a fuel
    let v ← readVersion a
    let invalid ← parentInvalid p v
    if invalid then giveUp env new_ a p
    else do
      let posi ← hangCopy env a new_ p
      match posi with
      | none => giveUp env a new_ p
      | some _ => tellChildren env a new_ p) := by
  unfold replaceInternode parentInvalid hangCopy
  refine congrArg _ (funext fun p => congrArg _ (funext fun v => ?_))
  by_cases hp : p = 0
  · simp only [hp, if_true, pure_eq_ret, ret_bind]
    rfl
  · simp only [hp, if_false, bind_assoc']
    refine congrArg _ (funext fun pv => ?_)
    simp only [pure_eq_ret, ret_bind]
    refine congrArg _ (congrArg _
      (funext fun o => congrArg _ (funext fun y => congrArg _ (funext fun _ => ?_))))
    cases y.childPosition (o.ikey0 0) a <;> rfl

/-- The parent is as the migration needs it: there is none above a root, or it is free, in use,
and has the internode among its children. -/
def FindsPlace (env : Env) (mem : Mem) (a : Addr) (x : Internode) : Prop :=
  (x.parent = 0 ∧ x.version.isRoot = true) ∨
    (x.parent ≠ 0 ∧ x.parent ≠ a ∧ ∃ y, mem.node? x.parent = some (.internode y) ∧
      Lockable env.build y.version ∧ y.version.deleted = false ∧
      (env.build.assertions = true → y.upper (x.ikey0 0) ≤ width) ∧
      (y.childPosition (x.ikey0 0) a).isSome = true)

/-- The original, marked, and its copy, both locked, before the parent is known. -/
structure Marked (mem : Mem) (a new_ : Addr) (x : Internode) : Prop where
  ne_zero : a ≠ 0
  new_ne_zero : new_ ≠ 0
  ne : new_ ≠ a
  node : mem.node? a = some (.internode x)
  locked : x.version.locked = true
  copy : ∃ c, mem.node? new_ = some (.internode c) ∧ c.version.locked = true
  parent : x.parent ≠ 0 → x.parent ≠ new_ ∧
    ∃ y, mem.node? x.parent = some (.internode y) ∧ y.version.isleaf = false
  child : ∀ i ≤ x.nkeys, x.child i ≠ 0 → ∃ n, mem.node? (x.child i) = some n

/-- The same once the copy has its place. -/
structure Hung (mem : Mem) (a new_ : Addr) (x : Internode) : Prop where
  node : mem.node? a = some (.internode x)
  copy : ∃ c, mem.node? new_ = some c ∧ c.version.locked = true
  child : ∀ i ≤ x.nkeys, x.child i ≠ 0 → ∃ n, mem.node? (x.child i) = some n

/-- A store to another node leaves the original where it is. -/
theorem Hung.setNode {b : Addr} {m n : Node} (h : Hung mem a new_ x) (hm : mem.node? b = some m)
    (hb : b ≠ a) (hn : b = new_ → n.version.locked = true) : Hung (mem.setNode b n) a new_ x := by
  refine ⟨(node?_setNode_of_ne hb.symm).trans h.node, ?_, fun i hi h0 => ?_⟩
  · obtain ⟨c, hc, hl⟩ := h.copy
    rw [node?_setNode_eq hm]
    split
    · rename_i he
      exact ⟨n, rfl, hn he.symm⟩
    · exact ⟨c, hc, hl⟩
  · obtain ⟨q, hq⟩ := h.child i hi h0
    rw [node?_setNode_eq hm]
    split
    · exact ⟨n, rfl⟩
    · exact ⟨q, hq⟩

theorem Marked.hung (h : Marked mem a new_ x) : Hung mem a new_ x := by
  obtain ⟨c, hc, hl⟩ := h.copy
  exact ⟨h.node, ⟨_, hc, hl⟩, h.child⟩

theorem Hung.telling (h : Hung mem a new_ x) (hl : x.version.locked = true)
    (hall : ∀ i ≤ x.nkeys, x.child i ≠ 0) : Telling a new_ x 0 mem := by
  refine ⟨⟨_, h.node, hl⟩, h.copy, fun i hi => ?_⟩
  obtain ⟨n, hn⟩ := h.child i hi (hall i hi)
  exact ⟨n, hn, fun h0 => absurd h0 (Nat.not_lt_zero i)⟩

theorem nonNull_hangCopy {p : Addr} (ha : a ≠ 0) (hnew : new_ ≠ 0) :
    NonNull (hangCopy env a new_ p) := by
  unfold hangCopy
  by_cases hp : p = 0
  · rw [if_pos hp]
    exact All.bind (nonNull_makeLayerRoot hnew) fun _ => trivial
  · rw [if_neg hp]
    refine All.bind (nonNull_internode ha) fun o => All.bind (nonNull_internode hp) fun y => ?_
    refine All.bind nonNull_assert fun _ => ?_
    cases y.childPosition (o.ikey0 0) a with
    | none => trivial
    | some posi => exact All.bind (nonNull_assignCopy hp hnew) fun _ => trivial

theorem nonNull_parentInvalid {p : Addr} {v : NodeVersion} : NonNull (parentInvalid p v) := by
  unfold parentInvalid
  by_cases hp : p = 0
  · rw [if_pos hp]
    trivial
  · rw [if_neg hp]
    exact All.bind (nonNull_node hp) fun _ => trivial

/-- What is left once the parent is locked and valid. -/
theorem goesOn_hangCopy {p : Addr} {posi : ℕ} {mem' : Mem} (ha : a ≠ 0) (hnew : new_ ≠ 0)
    (hrun : machine.run (hangCopy env a new_ p) mem = done (some posi) mem') :
    GoesOn (do
      let posi ← hangCopy env a new_ p
      match posi with
      | none => giveUp env a new_ p
      | some _ => tellChildren env a new_ p) mem (tellChildren env a new_ p) mem' :=
  goesOn_bind (nonNull_hangCopy ha hnew).nullSafe hrun

/-- A root is replaced by a root. -/
theorem Marked.hang_root (env : Env) (h : Marked mem a new_ x) :
    ∃ mem', machine.run (hangCopy env a new_ 0) mem = done (some 0) mem' ∧ Hung mem' a new_ x := by
  obtain ⟨c, hc, hl⟩ := h.copy
  have hc₁ := node?_setNode (n := (Node.internode c).setParent 0) hc
  refine ⟨_, ?_, (h.hung.setNode (n := (Node.internode c).setParent 0) hc h.ne fun _ => ?_).setNode
    (n := ((Node.internode c).setParent 0).setVersion (setFlag 30 c.version)) hc₁ h.ne fun _ => ?_⟩
  · unfold hangCopy makeLayerRoot
    rw [if_pos rfl, machine.run_bind_of_done
      ((machine.run_bind_of_done (run_setParent hc)).trans (run_writeVersion hc₁))]
    rfl
  · exact hl
  · rw [version_setVersion, NodeVersion.locked_setFlag _ (by decide)]
    exact hl

/-- The copy is hung up below the parent, which is locked. -/
theorem Marked.hang_parent (env : Env) {y : Internode} {posi : ℕ} (h : Marked mem a new_ x)
    (hp : x.parent ≠ 0)
    (hpa : x.parent ≠ a) (hy : mem.node? x.parent = some (.internode y))
    (hupper : env.build.assertions = true → y.upper (x.ikey0 0) ≤ width)
    (hposi : y.childPosition (x.ikey0 0) a = some posi) :
    ∃ mem', machine.run (hangCopy env a new_ x.parent) mem = done (some posi) mem' ∧
      Hung mem' a new_ x := by
  obtain ⟨c, hc, hl⟩ := h.copy
  obtain ⟨hpnew, -⟩ := h.parent hp
  have hy₁ : (mem.setNode new_ ((Node.internode c).setParent x.parent)).node? x.parent =
      some (.internode y) := (node?_setNode_of_ne hpnew).trans hy
  refine ⟨_, ?_, (h.hung.setNode (n := (Node.internode c).setParent x.parent) hc h.ne
    fun _ => hl).setNode
    (n := .internode { y with child := Function.update y.child posi new_ }) hy₁ hpa
    fun he => absurd he hpnew⟩
  unfold hangCopy assignCopy
  rw [if_neg hp, machine.run_bind_of_done (run_readInternode h.node),
    machine.run_bind_of_done (run_readInternode hy),
    machine.run_bind_of_done (run_assert fun hb => by simpa using hupper hb), hposi]
  simp only
  rw [machine.run_bind_of_done
    ((machine.run_bind_of_done (run_setParent hc)).trans (run_writeInternode hy₁))]
  rfl

/-- The lock of the parent leaves the two nodes alone. -/
theorem Marked.lockParent {y : Internode} (h : Marked mem a new_ x) (hp : x.parent ≠ 0)
    (hpa : x.parent ≠ a) (hy : mem.node? x.parent = some (.internode y))
    (hleaf : y.version.isleaf = false) :
    Marked (mem.setNode x.parent (.internode { y with version := y.version.lock })) a new_ x := by
  obtain ⟨hpnew, -⟩ := h.parent hp
  refine ⟨h.ne_zero, h.new_ne_zero, h.ne, (node?_setNode_of_ne hpa.symm).trans h.node, h.locked, ?_,
    fun _ => ⟨hpnew, _, node?_setNode hy, ?_⟩, ?_⟩
  · obtain ⟨c, hc, hl⟩ := h.copy
    exact ⟨c, (node?_setNode_of_ne hpnew.symm).trans hc, hl⟩
  · exact (flag_setFlag_of_ne (by decide) _ (by decide)).trans hleaf
  · exact (h.hung.setNode hy hpa fun he => absurd he hpnew).child

/-- What the answer of `hangCopy` says of the parent. -/
theorem Marked.ensures_hangCopy (env : Env) {y : Internode} (h : Marked mem a new_ x)
    (hp : x.parent ≠ 0)
    (hy : mem.node? x.parent = some (.internode y)) :
    machine.Ensures (hangCopy env a new_ x.parent) mem fun posi _ => posi.isSome = true →
      (env.build.assertions = true → y.upper (x.ikey0 0) ≤ width) ∧
        (y.childPosition (x.ikey0 0) a).isSome = true := by
  intro posi s hrun hsome
  unfold hangCopy at hrun
  rw [if_neg hp, machine.run_bind_of_done (run_readInternode h.node),
    machine.run_bind_of_done (run_readInternode hy)] at hrun
  have hupper : env.build.assertions = true → y.upper (x.ikey0 0) ≤ width := by
    intro hb
    by_contra hlt
    rw [run_bind, run_assert_of_not hb (by simpa using hlt)] at hrun
    cases hrun
  refine ⟨hupper, ?_⟩
  rw [machine.run_bind_of_done (run_assert fun hb => by simpa using hupper hb)] at hrun
  cases hposi : y.childPosition (x.ikey0 0) a with
  | none =>
    rw [hposi] at hrun
    cases hrun
    cases hsome
  | some posi => rfl

theorem run_parentInvalid {p : Addr} {v : NodeVersion} {m : Node} (hp : p ≠ 0)
    (hm : mem.node? p = some m) :
      machine.run (parentInvalid p v) mem = done m.version.deleted mem := by
  unfold parentInvalid
  rw [if_neg hp, machine.run_bind_of_done (run_readVersion hm)]
  rfl

/-- **Where the parent is as it has to be** the migration comes to the children. -/
theorem Marked.goesOn (h : Marked mem a new_ x) (hplace : FindsPlace env mem a x) (fuel : ℕ) :
    ∃ p mem', GoesOn (replaceInternode env (fuel + 2) a new_) mem (tellChildren env a new_ p) mem' ∧
      Hung mem' a new_ x := by
  have hlocked : NonNull (lockedParent env.build a (fuel + 2)) := nonNull_lockedParent h.ne_zero
  have hversion : NonNull (readVersion a) := nonNull_node h.ne_zero
  rw [replaceInternode_eq]
  rcases hplace with ⟨hp, hroot⟩ | ⟨hp, hpa, y, hy, hlock, hdel, hupper, hposi⟩
  · obtain ⟨mem', hrun, hhung⟩ := h.hang_root env
    have hvalid : machine.run (parentInvalid 0 x.version) mem = done false mem := by
      unfold parentInvalid
      rw [if_pos rfl, hroot]
      rfl
    refine ⟨0, mem', ?_, hhung⟩
    refine (goesOn_bind hlocked.nullSafe (run_lockedParent_of_root _ h.node h.locked hp)).trans ?_
    refine (goesOn_bind hversion.nullSafe (run_readVersion h.node)).trans ?_
    refine (goesOn_bind nonNull_parentInvalid.nullSafe hvalid).trans ?_
    simp only [Bool.false_eq_true, if_false]
    exact goesOn_hangCopy h.ne_zero h.new_ne_zero hrun
  · obtain ⟨posi, hposi⟩ := Option.isSome_iff_exists.mp hposi
    obtain ⟨hpnew, y', hy', hleaf⟩ := h.parent hp
    obtain rfl : y = y' := Node.internode.inj (Option.some.inj (hy.symm.trans hy'))
    have h₁ := h.lockParent hp hpa hy hleaf
    have hy₁ := node?_setNode (n := .internode { y with version := y.version.lock }) hy
    obtain ⟨mem', hrun, hhung⟩ := h₁.hang_parent env hp hpa hy₁ hupper hposi
    have hvalid : machine.run (parentInvalid x.parent x.version)
        (mem.setNode x.parent (.internode { y with version := y.version.lock })) =
        done false (mem.setNode x.parent (.internode { y with version := y.version.lock })) := by
      have hdel' : y.version.lock.deleted = false :=
        (NodeVersion.deleted_setFlag _ (by decide)).trans hdel
      rw [run_parentInvalid hp hy₁, Node.version, hdel']
    refine ⟨x.parent, mem', ?_, hhung⟩
    refine (goesOn_bind hlocked.nullSafe
      (run_lockedParent h.node h.locked hp hy (fun _ => hleaf) fuel hlock)).trans ?_
    refine (goesOn_bind hversion.nullSafe (run_readVersion h₁.node)).trans ?_
    refine (goesOn_bind nonNull_parentInvalid.nullSafe hvalid).trans ?_
    simp only [Bool.false_eq_true, if_false]
    exact goesOn_hangCopy h.ne_zero h.new_ne_zero hrun

/-- Elsewhere it is given up, or it does not get that far. -/
theorem Marked.nullSafe_of_not (h : Marked mem a new_ x) (hplace : ¬FindsPlace env mem a x)
    (fuel : ℕ) : NullSafe (replaceInternode env fuel a new_) mem := by
  have hlocked : NonNull (lockedParent env.build a fuel) := nonNull_lockedParent h.ne_zero
  have hversion : NonNull (readVersion a) := nonNull_node h.ne_zero
  have hgive (p : Addr) : NonNull (giveUp env new_ a p) := nonNull_giveUp h.new_ne_zero h.ne_zero
  have hgive' (p : Addr) : NonNull (giveUp env a new_ p) := nonNull_giveUp h.ne_zero h.new_ne_zero
  rw [replaceInternode_eq]
  by_cases hp : x.parent = 0
  · cases fuel with
    | zero => trivial
    | succ fuel =>
      have hroot : x.version.isRoot = false := by
        cases hr : x.version.isRoot with
        | false => rfl
        | true => exact absurd (Or.inl ⟨hp, hr⟩) hplace
      rw [nullSafe_bind_of_run hlocked.nullSafe (run_lockedParent_of_root _ h.node h.locked hp),
        nullSafe_bind_of_run hversion.nullSafe (run_readVersion h.node)]
      unfold parentInvalid
      simp only [if_true, Node.version, hroot, Bool.not_false, pure_eq_ret, ret_bind]
      exact (hgive 0).nullSafe
  · obtain ⟨hpnew, y, hy, hleaf⟩ := h.parent hp
    rw [nullSafe_bind_iff hlocked.nullSafe]
    refine (ensures_lockedParent_of_parent h.node h.locked hp hy (fun _ => hleaf) fuel).imp
      fun p mem₁ h₁ => ?_
    obtain ⟨hlock, rfl, rfl⟩ := h₁
    have hpa : x.parent ≠ a :=
      (ne_parent_of_lockable (n := .internode x) h.locked hy h.node hlock).symm
    have hmarked := h.lockParent hp hpa hy hleaf
    have hy₁ := node?_setNode (n := .internode { y with version := y.version.lock }) hy
    refine (nullSafe_bind_of_run hversion.nullSafe (run_readVersion hmarked.node)).mpr ?_
    refine (nullSafe_bind_of_run nonNull_parentInvalid.nullSafe (run_parentInvalid hp hy₁)).mpr ?_
    split
    · exact (hgive _).nullSafe
    · rename_i hdel
      refine (nullSafe_bind_iff (nonNull_hangCopy h.ne_zero h.new_ne_zero).nullSafe).mpr ?_
      refine (hmarked.ensures_hangCopy env hp hy₁).imp fun posi mem₂ h₂ => ?_
      cases posi with
      | none => exact (hgive' _).nullSafe
      | some posi =>
        obtain ⟨hupper, hposi⟩ := h₂ rfl
        have hdel' : y.version.deleted = false := by
          rw [← NodeVersion.deleted_setFlag y.version (show 29 ≠ 0 by decide)]
          exact (by simpa [Node.version] using hdel : y.version.lock.deleted = false)
        exact absurd (Or.inr ⟨hp, hpa, y, hy, hlock, hdel', hupper, hposi⟩) hplace

end Place

/-! ### The copy -/

section Copy

variable {env : Env} {mem : Mem} {a : Addr} {x : Internode} {t : NodeMemType}

/-- The internode may be copied: it is in use and of another type, not of depth 1 unless it goes
to local memory, and the usage of local memory stays in its bounds. -/
structure Starts (env : Env) (mem : Mem) (x : Internode) (t : NodeMemType) : Prop where
  deleted : x.version.deleted = false
  type : x.sidleMeta.type ≠ t
  depth : env.build.assertions = true → x.sidleMeta.depth ≠ 1 ∨ t = .local_
  memory : (mem.global.updateLocalMemoryUsage env.build.sidleCheck env.checkMemoryUsage t
    x.sidleMeta.depth Internode.sizeof true false).isSome = true

/-- `is_new` makes the migration take the lock first. -/
theorem internodeMigration_isNew (fuel : ℕ) : internodeMigration env fuel a t true = (do
    let _ ← lock env.build fuel a
    internodeMigration env fuel a t false) := rfl

/-- The copy of the internode, and the mark on the original. -/
def copyInternode (env : Env) (original : Addr) (o : Internode) (targetType : NodeMemType) :
    MtM Addr := do
  let new_ ← makeInternode env o.height o.sidleMeta.depth targetType true
  let o ← readInternode original
  writeInternode new_ fun _ => o
  writeInternode new_ fun x => { x with sidleMeta := { x.sidleMeta with type := targetType } }
  writeVersion original NodeVersion.markMigration
  pure new_

/-- The parts of `internodeMigration` on a locked node. -/
theorem internodeMigration_eq (fuel : ℕ) : internodeMigration env fuel a t false = (do
    let v ← readVersion a
    masstreePrecondition env.build v.locked
    let o ← readInternode a
    if v.deleted || o.sidleMeta.type == t then do
      unlock env.build a
      pure 0
    else do
      assert_ env.build (o.sidleMeta.depth != 1 || t == .local_)
      let new_ ← copyInternode env a o t
      replaceInternode env fuel a new_) := rfl

/-- The internode with the mark. -/
def Internode.marked (x : Internode) : Internode := { x with version := x.version.markMigration }

/-- Once the copy has been made the two nodes are there. -/
theorem Mem.Attached.run_copyInternode (h : mem.Attached a x)
    (hmem : (mem.global.updateLocalMemoryUsage env.build.sidleCheck env.checkMemoryUsage t
      x.sidleMeta.depth Internode.sizeof true false).isSome = true) :
    ∃ mem', machine.run (copyInternode env a x t) mem = done mem.fresh mem' ∧
      mem'.node? a = some (.internode x.marked) ∧
      mem'.node? mem.fresh = some
        (.internode { x with sidleMeta := { x.sidleMeta with type := t } }) ∧
      ∀ b, b ≠ a → b ≠ mem.fresh → mem'.node? b = mem.node? b := by
  obtain ⟨g, hg⟩ := Option.isSome_iff_exists.mp hmem
  have hne : mem.fresh ≠ a := (h.ne_fresh h.node).symm
  let n₀ : Node := .internode (Internode.make x.height t x.sidleMeta.depth)
  let x' : Internode := { x with sidleMeta := { x.sidleMeta with type := t } }
  let s₁ : Mem := { mem.alloc Internode.sizeof n₀ with global := g }
  let s₂ := s₁.setNode mem.fresh (.internode x)
  let s₃ := s₂.setNode mem.fresh (.internode x')
  have hmake : machine.run (makeInternode env x.height x.sidleMeta.depth t true) mem =
      done mem.fresh s₁ := by
    have hglobal : machine.run (updateLocalMemoryUsage env t x.sidleMeta.depth Internode.sizeof true
        false) (mem.alloc Internode.sizeof n₀) = done () s₁ := run_updateLocalMemoryUsage hg
    unfold makeInternode poolAllocate
    rw [machine.run_bind_of_done (run_access rfl), machine.run_bind_of_done hglobal]
    rfl
  have hnew₁ : s₁.node? mem.fresh = some n₀ := by simp [s₁, node?_alloc]
  have hx₁ : s₁.node? a = some (.internode x) := by simpa [s₁, node?_alloc, hne.symm] using h.node
  have hnew₂ : s₂.node? mem.fresh = some (.internode x) := node?_setNode hnew₁
  have hnew₃ : s₃.node? mem.fresh = some (.internode x') := node?_setNode hnew₂
  have hx₃ : s₃.node? a = some (.internode x) := by
    rw [node?_setNode_of_ne hne.symm, node?_setNode_of_ne hne.symm, hx₁]
  refine ⟨s₃.setNode a (.internode x.marked), ?_, node?_setNode hx₃, ?_, fun b hba hbn => ?_⟩
  · unfold copyInternode
    rw [machine.run_bind_of_done hmake, machine.run_bind_of_done (run_readInternode hx₁),
      machine.run_bind_of_done (run_writeInternode hnew₁),
      machine.run_bind_of_done (run_writeInternode hnew₂),
      machine.run_bind_of_done (run_writeVersion hx₃)]
    rfl
  · rw [node?_setNode_of_ne hne, hnew₃]
  · rw [node?_setNode_of_ne hba, node?_setNode_of_ne hbn, node?_setNode_of_ne hbn]
    simp [s₁, node?_alloc, hbn]

/-- The accounting of local memory is the only part of the copying that may fail. -/
theorem ensures_copyInternode :
    machine.Ensures (copyInternode env a x t) mem fun _ _ =>
      (mem.global.updateLocalMemoryUsage env.build.sidleCheck env.checkMemoryUsage t
        x.sidleMeta.depth Internode.sizeof true false).isSome = true := by
  intro b s hrun
  cases hg : mem.global.updateLocalMemoryUsage env.build.sidleCheck env.checkMemoryUsage t
      x.sidleMeta.depth Internode.sizeof true false with
  | some g => rfl
  | none =>
    have hglobal {n : Node} : machine.run (updateLocalMemoryUsage env t x.sidleMeta.depth
        Internode.sizeof true false) (mem.alloc Internode.sizeof n) = fault .thrown := by
      refine run_onGlobal_of_none ?_
      change Option.map _ (mem.global.updateLocalMemoryUsage _ _ _ _ _ _ _) = none
      rw [hg]
      rfl
    unfold copyInternode makeInternode poolAllocate at hrun
    rw [run_bind, machine.run_bind_of_done (run_access rfl), run_bind, hglobal] at hrun
    cases hrun

theorem fresh_ne_zero : mem.fresh ≠ 0 := by simp [Mem.fresh]

theorem nullSafe_copyInternode (ha : a ≠ 0) : NullSafe (copyInternode env a x t) mem := by
  unfold copyInternode makeInternode
  rw [bind_assoc']
  refine (nullSafe_bind_iff nonNull_mem.nullSafe).mpr (ensures_poolAllocate.imp fun new_ s hs => ?_)
  obtain ⟨rfl, -⟩ := hs
  refine NonNull.nullSafe ?_
  rw [bind_assoc']
  refine All.bind nonNull_onGlobal fun _ => ?_
  rw [pure_eq_ret, ret_bind]
  refine All.bind (nonNull_internode ha) fun _ => ?_
  refine All.bind (nonNull_internode fresh_ne_zero) fun _ => ?_
  exact All.bind (nonNull_internode fresh_ne_zero) fun _ => All.bind (nonNull_node ha)
    fun _ => trivial

/-- The two nodes are marked and locked after the copy. -/
theorem Mem.Attached.marked {mem' : Mem} (h : mem.Attached a x) (hl : x.version.locked = true)
    (hx : mem'.node? a = some (.internode x.marked))
    (hnew : mem'.node? mem.fresh =
      some (.internode { x with sidleMeta := { x.sidleMeta with type := t } }))
    (hrest : ∀ b, b ≠ a → b ≠ mem.fresh → mem'.node? b = mem.node? b) :
    Marked mem' a mem.fresh x.marked := by
  have hmarked : x.marked.version.locked = true :=
    (NodeVersion.locked_setFlag _ (by decide)).trans hl
  have hkept {b : Addr} {n : Node} (hb : mem.node? b = some n) (hba : b ≠ a) :
      mem'.node? b = some n :=
    (hrest b hba (h.ne_fresh hb)).trans hb
  refine ⟨h.ne_zero, fresh_ne_zero, (h.ne_fresh h.node).symm, hx, hmarked, ⟨_, hnew, hl⟩,
    fun hp => ?_, fun i hi h0 => ?_⟩
  · obtain ⟨y, hy, hleaf⟩ := h.parent hp
    refine ⟨h.ne_fresh hy, ?_⟩
    by_cases hpa : x.parent = a
    · -- an internode that is its own parent has the tag of that parent
      have hxy : Node.internode x = .internode y := by
        rw [hpa, h.node] at hy
        exact Option.some.inj hy
      obtain rfl := Node.internode.inj hxy
      refine ⟨x.marked, ?_, (flag_setFlag_of_ne (by decide) _ (by decide)).trans hleaf⟩
      exact (congrArg mem'.node? hpa).trans hx
    · exact ⟨y, hkept hy hpa, hleaf⟩
  · obtain ⟨n, hn, -⟩ := h.child i hi h0
    by_cases hca : x.child i = a
    · exact ⟨_, (congrArg mem'.node? hca).trans hx⟩
    · exact ⟨n, hkept hn hca⟩

theorem Mem.Attached.findsPlace_iff {mem' : Mem} (h : mem.Attached a x)
    (hrest : ∀ b, b ≠ a → b ≠ mem.fresh → mem'.node? b = mem.node? b) :
    FindsPlace env mem' a x.marked ↔ FindsPlace env mem a x := by
  have hroot : x.marked.version.isRoot = x.version.isRoot :=
    flag_setFlag_of_ne (by decide) _ (by decide)
  unfold FindsPlace
  rw [hroot]
  refine or_congr Iff.rfl (and_congr_right fun hp => and_congr_right fun hpa => ?_)
  obtain ⟨y, hy, -⟩ := h.parent hp
  have hsame : mem'.node? x.marked.parent = mem.node? x.parent := hrest x.parent hpa (h.ne_fresh hy)
  rw [hsame]
  rfl

/-- **A migration that starts** comes to the replacement. -/
theorem Mem.Attached.goesOn (h : mem.Attached a x) (hl : x.version.locked = true)
    (hstart : Starts env mem x t) (fuel : ℕ) :
    ∃ mem', GoesOn (internodeMigration env fuel a t false) mem
        (replaceInternode env fuel a mem.fresh) mem' ∧ Marked mem' a mem.fresh x.marked ∧
      (FindsPlace env mem' a x.marked ↔ FindsPlace env mem a x) := by
  obtain ⟨mem', hrun, hx, hnew, hrest⟩ := h.run_copyInternode hstart.memory
  refine ⟨mem', ?_, h.marked hl hx hnew hrest, h.findsPlace_iff hrest⟩
  have hversion : NonNull (readVersion a) := nonNull_node h.ne_zero
  have hread : NonNull (readInternode a) := nonNull_internode h.ne_zero
  have hgo : ((Node.internode x).version.deleted || x.sidleMeta.type == t) = false := by
    simp [Node.version, hstart.deleted, hstart.type]
  have hdepth : env.build.assertions = true → (x.sidleMeta.depth != 1 || t == .local_) = true := by
    intro hb
    rcases hstart.depth hb with h | h <;> simp [h]
  rw [internodeMigration_eq]
  refine (goesOn_bind hversion.nullSafe (run_readVersion h.node)).trans ?_
  refine (goesOn_bind nonNull_assert.nullSafe (run_assert fun _ => hl)).trans ?_
  refine (goesOn_bind hread.nullSafe (run_readInternode h.node)).trans ?_
  rw [hgo]
  simp only [Bool.false_eq_true, if_false]
  refine (goesOn_bind nonNull_assert.nullSafe (run_assert hdepth)).trans ?_
  exact goesOn_bind (nullSafe_copyInternode h.ne_zero) hrun

/-- A migration that does not start comes to nothing. -/
theorem Mem.Attached.nullSafe_of_not (h : mem.Attached a x) (hl : x.version.locked = true)
    (hstart : ¬Starts env mem x t) (fuel : ℕ) :
    NullSafe (internodeMigration env fuel a t false) mem := by
  have hversion : NonNull (readVersion a) := nonNull_node h.ne_zero
  have hread : NonNull (readInternode a) := nonNull_internode h.ne_zero
  have hlocked : (Node.internode x).version.locked = true := hl
  rw [internodeMigration_eq, nullSafe_bind_of_run hversion.nullSafe (run_readVersion h.node),
    nullSafe_bind_of_run nonNull_assert.nullSafe (run_assert fun _ => hlocked),
    nullSafe_bind_of_run hread.nullSafe (run_readInternode h.node)]
  split
  · exact NonNull.nullSafe (All.bind (nonNull_unlock h.ne_zero) fun _ => trivial)
  · rename_i hgo
    have hgo' : x.version.deleted = false ∧ x.sidleMeta.type ≠ t := by
      simpa [Node.version] using hgo
    rw [nullSafe_bind_iff nonNull_assert.nullSafe]
    intro _ s hassert
    have hdepth : env.build.assertions = true → x.sidleMeta.depth ≠ 1 ∨ t = .local_ := by
      intro hb
      by_contra hno
      rw [run_assert_of_not hb (by simpa using hno)] at hassert
      cases hassert
    rw [run_assert fun hb => by simpa using hdepth hb] at hassert
    cases hassert
    rw [nullSafe_bind_iff (nullSafe_copyInternode h.ne_zero)]
    exact ensures_copyInternode.imp fun _ _ hmem =>
      absurd ⟨hgo'.1, hgo'.2, hdepth, hmem⟩ hstart

end Copy

/-! ### The migration -/

section Migration

variable {env : Env} {mem : Mem} {a : Addr} {x : Internode} {t : NodeMemType} {isNew : Bool}

/-- The migration of the internode `x` comes to its children: it can be locked if that is still
to be done, it may be copied, and its parent is as it has to be. -/
structure Migrates (env : Env) (mem : Mem) (a : Addr) (x : Internode) (t : NodeMemType)
    (isNew : Bool) : Prop where
  lockable : isNew = true → Lockable env.build x.version
  starts : Starts env mem x t
  place : FindsPlace env mem a x

/-- The migration does not follow a null pointer, and if it comes to the children it returns, with
each of them below the copy. -/
structure MigrationOk (env : Env) (fuel : ℕ) (mem : Mem) (a : Addr) (x : Internode)
    (t : NodeMemType) (isNew : Bool) : Prop where
  safe : NullSafe (internodeMigration env fuel a t isNew) mem
  told : Migrates env mem a x t isNew → ∃ p mem',
    machine.run (internodeMigration env fuel a t isNew) mem = done p mem' ∧
      ∀ i ≤ x.nkeys, x.child i ≠ 0 →
        ∃ c, mem'.node? (x.child i) = some c ∧ c.parent = mem.fresh

/-- The migration of a locked internode follows no null pointer if it does not come to the
children, or there is one in each place. -/
theorem nullSafe_locked_iff (env : Env) (t : NodeMemType) (h : mem.Attached a x)
    (hl : x.version.locked = true) (fuel : ℕ) :
    NullSafe (internodeMigration env (fuel + 2) a t false) mem ↔
      (Migrates env mem a x t false → ∀ i ≤ x.nkeys, x.child i ≠ 0) := by
  by_cases hstart : Starts env mem x t
  · obtain ⟨mem₁, hgo, hmarked, hplace⟩ := h.goesOn hl hstart (fuel + 2)
    by_cases hfinds : FindsPlace env mem a x
    · obtain ⟨p, mem₂, hgo₂, hhung⟩ := hmarked.goesOn (hplace.mpr hfinds) fuel
      refine (hgo.trans hgo₂).2.trans ((nullSafe_tellChildren_iff env p hhung.node h.ne_zero
        hmarked.new_ne_zero hhung.child).trans ⟨fun hall _ => hall, fun hall => ?_⟩)
      exact hall ⟨by simp, hstart, hfinds⟩
    · refine iff_of_true ?_ fun hm => absurd hm.place hfinds
      exact hgo.2.mpr (hmarked.nullSafe_of_not (fun hf => hfinds (hplace.mp hf)) _)
  · exact iff_of_true (h.nullSafe_of_not hl hstart _) fun hm => absurd hm.starts hstart

/-- If there is a child in each place the migration of a locked internode tells all of them. -/
theorem exists_run_locked (h : mem.Attached a x) (hl : x.version.locked = true) (fuel : ℕ)
    (hm : Migrates env mem a x t false) (hall : ∀ i ≤ x.nkeys, x.child i ≠ 0) : ∃ p mem',
    machine.run (internodeMigration env (fuel + 2) a t false) mem = done p mem' ∧
      ∀ i ≤ x.nkeys, ∃ c, mem'.node? (x.child i) = some c ∧ c.parent = mem.fresh := by
  obtain ⟨mem₁, hgo, hmarked, hplace⟩ := h.goesOn hl hm.starts (fuel + 2)
  obtain ⟨p, mem₂, hgo₂, hhung⟩ := hmarked.goesOn (hplace.mpr hm.place) fuel
  obtain ⟨mem', hrun, hparents⟩ := exists_run_tellChildren env p hhung.node hmarked.ne
    (hhung.telling hmarked.locked hall)
  exact ⟨p, mem', (hgo.trans hgo₂).1.trans hrun, hparents⟩

/-- The internode with the lock. -/
def Internode.locked (x : Internode) : Internode := { x with version := x.version.lock }

/-- An internode stands in the tree as before once it is locked. -/
theorem Mem.Attached.lock (h : mem.Attached a x) :
    (mem.setNode a (.internode x.locked)).Attached a x.locked := by
  have hkept {b : Addr} {n : Node} (hb : mem.node? b = some n) (hba : b ≠ a) :
      (mem.setNode a (.internode x.locked)).node? b = some n := (node?_setNode_of_ne hba).trans hb
  have hnone {b : Addr} (hb : mem.blocks b = none) (hba : b ≠ a) :
      (mem.setNode a (.internode x.locked)).blocks b = none :=
        (Function.update_of_ne hba _ _).trans hb
  refine ⟨hnone h.null h.ne_zero.symm, hnone h.fresh (h.ne_fresh h.node).symm, node?_setNode h.node,
    fun hp => ?_, fun i hi h0 => ?_⟩
  · obtain ⟨y, hy, hleaf⟩ := h.parent hp
    by_cases hpa : x.parent = a
    · have hxy : Node.internode x = .internode y := by
        rw [hpa, h.node] at hy
        exact Option.some.inj hy
      obtain rfl := Node.internode.inj hxy
      refine ⟨x.locked, ?_, (flag_setFlag_of_ne (by decide) _ (by decide)).trans hleaf⟩
      exact (congrArg _ hpa).trans (node?_setNode h.node)
    · exact ⟨y, hkept hy hpa, hleaf⟩
  · obtain ⟨n, hn, htag⟩ := h.child i hi h0
    by_cases hca : x.child i = a
    · have hxn : n = .internode x := by
        rw [hca, h.node] at hn
        exact (Option.some.inj hn).symm
      subst hxn
      refine ⟨.internode x.locked, ?_, (flag_setFlag_of_ne (by decide) _ (by decide)).trans htag⟩
      exact (congrArg _ hca).trans (node?_setNode h.node)
    · exact ⟨n, hkept hn hca, htag⟩

/-- The lock makes no difference to what the migration asks for. -/
theorem migrates_lock_iff (mem : Mem) (a : Addr) (t : NodeMemType)
    (hlock : Lockable env.build x.version) :
    Migrates env (mem.setNode a (.internode x.locked)) a x.locked t false ↔
      Migrates env mem a x t true := by
  have hdeleted : x.locked.version.deleted = x.version.deleted :=
    NodeVersion.deleted_setFlag _ (by decide)
  have hroot : x.locked.version.isRoot = x.version.isRoot :=
    flag_setFlag_of_ne (by decide) _ (by decide)
  have hplace : FindsPlace env (mem.setNode a (.internode x.locked)) a x.locked ↔
      FindsPlace env mem a x := by
    unfold FindsPlace
    rw [hroot]
    refine or_congr Iff.rfl (and_congr_right fun _ => and_congr_right fun hpa => ?_)
    have hsame : (mem.setNode a (.internode x.locked)).node? x.locked.parent = mem.node? x.parent :=
      node?_setNode_of_ne hpa
    rw [hsame]
    rfl
  constructor
  · intro hm
    exact ⟨fun _ => hlock, ⟨hdeleted ▸ hm.starts.deleted, hm.starts.type, hm.starts.depth,
      hm.starts.memory⟩, hplace.mp hm.place⟩
  · intro hm
    exact ⟨by simp, ⟨hdeleted.trans hm.starts.deleted, hm.starts.type, hm.starts.depth,
      hm.starts.memory⟩, hplace.mpr hm.place⟩

/-- The migration that locks the internode itself. -/
theorem goesOn_lock (env : Env) (t : NodeMemType) (h : mem.Attached a x)
    (hlock : Lockable env.build x.version) (fuel : ℕ) :
    GoesOn (internodeMigration env (fuel + 1) a t true) mem
      (internodeMigration env (fuel + 1) a t false) (mem.setNode a (.internode x.locked)) := by
  have hnon : NonNull (lock env.build (fuel + 1) a) := nonNull_lock h.ne_zero
  rw [internodeMigration_isNew]
  exact goesOn_bind hnon.nullSafe (run_lock fuel h.node hlock)

/-- **The migration and the empty places.**  It follows no null pointer exactly when it does not
come to the children, or each place has one. -/
theorem nullSafe_internodeMigration_iff (env : Env) (t : NodeMemType) (h : mem.Attached a x)
    (hl : isNew = false → x.version.locked = true) (fuel : ℕ) :
    NullSafe (internodeMigration env (fuel + 2) a t isNew) mem ↔
      (Migrates env mem a x t isNew → ∀ i ≤ x.nkeys, x.child i ≠ 0) := by
  cases isNew with
  | false => exact nullSafe_locked_iff env t h (hl rfl) fuel
  | true =>
    by_cases hlock : Lockable env.build x.version
    · rw [← migrates_lock_iff mem a t hlock]
      refine (goesOn_lock env t h hlock (fuel + 1)).2.trans ?_
      exact nullSafe_locked_iff env t h.lock (flag_setFlag (by decide) _) fuel
    · refine iff_of_true ?_ fun hm => absurd (hm.lockable rfl) hlock
      have hnon : NonNull (lock env.build (fuel + 2) a) := nonNull_lock h.ne_zero
      rw [internodeMigration_isNew, nullSafe_bind_iff hnon.nullSafe]
      exact (ensures_lock _ h.node).imp fun _ _ hv => absurd hv.1 hlock

theorem migrationOk_iff (h : mem.Attached a x) (hl : isNew = false → x.version.locked = true)
    (fuel : ℕ) : MigrationOk env (fuel + 2) mem a x t isNew ↔
      (Migrates env mem a x t isNew → ∀ i ≤ x.nkeys, x.child i ≠ 0) := by
  have hsafe := nullSafe_internodeMigration_iff env t h hl fuel
  constructor
  · intro hok
    exact hsafe.mp hok.safe
  · intro hall
    refine ⟨hsafe.mpr hall, fun hm => ?_⟩
    cases isNew with
    | false =>
      obtain ⟨p, mem', hrun, hparents⟩ := exists_run_locked h (hl rfl) fuel hm (hall hm)
      exact ⟨p, mem', hrun, fun i hi _ => hparents i hi⟩
    | true =>
      have hlock := hm.lockable rfl
      obtain ⟨p, mem', hrun, hparents⟩ := exists_run_locked h.lock (flag_setFlag (by decide) _) fuel
        ((migrates_lock_iff mem a t hlock).mpr hm) (hall hm)
      exact ⟨p, mem', (goesOn_lock env t h hlock (fuel + 1)).1.trans hrun,
        fun i hi _ => hparents i hi⟩

end Migration

/-! ### The traversal -/

section Traversal

variable {env : Env} {fuel : ℕ} {mem : Mem} {a : Addr} {x : Internode} {t : NodeMemType}

/-- There is a node in the place, and it is not local. -/
def NonLocal (mem : Mem) (c : Addr) : Prop := ∃ n, mem.node? c = some n ∧ n.metadata.type ≠ .local_

theorem nonNull_isLocalChild {c : Addr} (hc : c ≠ 0) :
    NonNull (isLocalChild (masstreeOps env fuel) c) := by
  have hleaf : NonNull ((masstreeOps env fuel).isLeaf c) :=
    all_ite trivial (All.bind (nonNull_node hc) fun _ => trivial)
  refine All.bind hleaf fun _ => all_ite ?_ ?_
  · exact All.bind (All.bind (nonNull_leaf hc) fun _ => trivial) fun _ => trivial
  · exact All.bind (All.bind (nonNull_internode hc) fun _ => trivial) fun _ => trivial

theorem run_isLocalChild {c : Addr} {n : Node} (hc : c ≠ 0) (hn : mem.node? c = some n)
    (htag : n.Tagged) : machine.run (isLocalChild (masstreeOps env fuel) c) mem =
      done (decide (n.metadata.type = .local_)) mem := by
  have hleaf : machine.run ((masstreeOps env fuel).isLeaf c) mem = done n.version.isleaf mem := by
    change machine.run (if c = 0 then _ else _) mem = _
    rw [if_neg hc]
    exact machine.run_bind_of_done (run_readVersion hn)
  unfold isLocalChild
  rw [machine.run_bind_of_done hleaf]
  cases n with
  | leaf l =>
    rw [show (Node.leaf l).version.isleaf = true from htag, if_pos rfl]
    exact machine.run_bind_of_done (machine.run_bind_of_done (run_readLeaf hn))
  | internode y =>
    rw [show (Node.internode y).version.isleaf = false from htag, if_neg (by decide)]
    exact machine.run_bind_of_done (machine.run_bind_of_done (run_readInternode hn))

/-- The callback of the traversal. -/
def childCallback (env : Env) (fuel : ℕ) (child : Addr) : MtM Bool := do
  let l ← isLocalChild (masstreeOps env fuel) child
  pure !l

/-- An empty place is taken for an internode. -/
theorem not_nullSafe_childCallback {α : Type} {k : Bool → MtM α} :
    ¬NullSafe (childCallback env fuel 0 >>= k) mem :=
  not_nullSafe_access fun _ h => internode?_zero h

/-- The traversal goes from place to place until it has met a local child. -/
theorem nullSafe_visitChildren_iff (env : Env) (fuel n i : ℕ)
    (hchild : ∀ j, i ≤ j → j < i + n → x.child j ≠ 0 →
      ∃ m, mem.node? (x.child j) = some m ∧ m.Tagged) :
    NullSafe (visitChildren x (childCallback env fuel) n i) mem ↔
      ∀ j, i ≤ j → j < i + n → (∀ k, i ≤ k → k < j → NonLocal mem (x.child k)) → x.child j ≠ 0 := by
  induction n generalizing i with
  | zero => exact iff_of_true trivial fun j hj hjn => by omega
  | succ n ih =>
    rw [visitChildren]
    by_cases h0 : x.child i = 0
    · rw [h0]
      refine iff_of_false not_nullSafe_childCallback fun h => ?_
      exact h i (Nat.le_refl _) (by omega) (fun k hk hki => by omega) h0
    · obtain ⟨m, hm, htag⟩ := hchild i (Nat.le_refl _) (by omega) h0
      have hnon : NonNull (childCallback env fuel (x.child i)) :=
        All.bind (nonNull_isLocalChild h0) fun _ => trivial
      have hrun : machine.run (childCallback env fuel (x.child i)) mem =
          done (!decide (m.metadata.type = .local_)) mem :=
        machine.run_bind_of_done (run_isLocalChild h0 hm htag)
      rw [nullSafe_bind_of_run hnon.nullSafe hrun]
      by_cases hlocal : m.metadata.type = .local_
      · -- a local child ends the traversal
        simp only [hlocal, decide_true, Bool.not_true, Bool.false_eq_true, if_false]
        refine iff_of_true trivial fun j hj _ hbefore => ?_
        by_cases hji : j = i
        · exact hji ▸ h0
        · obtain ⟨m', hm', hm'l⟩ := hbefore i (Nat.le_refl _) (by omega)
          rw [hm] at hm'
          cases hm'
          exact absurd hlocal hm'l
      · simp only [hlocal, decide_false, Bool.not_false, if_true]
        rw [ih (i + 1) fun j hj hjn => hchild j (by omega) (by omega)]
        constructor
        · intro h j hj hjn hbefore
          by_cases hji : j = i
          · exact hji ▸ h0
          · exact h j (by omega) (by omega) fun k hk hkj => hbefore k (by omega) hkj
        · intro h j hj hjn hbefore
          refine h j (by omega) (by omega) fun k hk hkj => ?_
          by_cases hki : k = i
          · exact hki ▸ ⟨m, hm, hlocal⟩
          · exact hbefore k (by omega) hkj

/-- A traversal that meets no empty place tells whether there is a local child. -/
theorem exists_run_visitChildren (env : Env) (fuel n i : ℕ)
    (hchild : ∀ j, i ≤ j → j < i + n → x.child j ≠ 0 →
      ∃ m, mem.node? (x.child j) = some m ∧ m.Tagged)
    (hpresent : ∀ j, i ≤ j → j < i + n → (∀ k, i ≤ k → k < j → NonLocal mem (x.child k)) →
      x.child j ≠ 0) :
    ∃ b, machine.run (visitChildren x (childCallback env fuel) n i) mem = done b mem ∧
      (b = true ↔ ∀ j, i ≤ j → j < i + n → NonLocal mem (x.child j)) := by
  induction n generalizing i with
  | zero => exact ⟨true, rfl, iff_of_true rfl fun j hj hjn => by omega⟩
  | succ n ih =>
    have h0 : x.child i ≠ 0 := hpresent i (Nat.le_refl _) (by omega) fun k hk hki => by omega
    obtain ⟨m, hm, htag⟩ := hchild i (Nat.le_refl _) (by omega) h0
    have hrun : machine.run (childCallback env fuel (x.child i)) mem =
        done (!decide (m.metadata.type = .local_)) mem :=
      machine.run_bind_of_done (run_isLocalChild h0 hm htag)
    rw [visitChildren, machine.run_bind_of_done hrun]
    by_cases hlocal : m.metadata.type = .local_
    · simp only [hlocal, decide_true, Bool.not_true, Bool.false_eq_true, if_false]
      refine ⟨false, rfl, iff_of_false (by decide) fun h => ?_⟩
      obtain ⟨m', hm', hm'l⟩ := h i (Nat.le_refl _) (by omega)
      rw [hm] at hm'
      cases hm'
      exact hm'l hlocal
    · simp only [hlocal, decide_false, Bool.not_false, if_true]
      have hself : NonLocal mem (x.child i) := ⟨m, hm, hlocal⟩
      obtain ⟨b, hb, hiff⟩ := ih (i + 1) (fun j hj hjn => hchild j (by omega) (by omega))
        fun j hj hjn hbefore => hpresent j (by omega) (by omega) fun k hk hkj => by
          by_cases hki : k = i
          · exact hki ▸ hself
          · exact hbefore k (by omega) hkj
      refine ⟨b, hb, hiff.trans ⟨fun h j hj hjn => ?_, fun h j hj hjn => h j (by omega) (by omega)⟩⟩
      by_cases hji : j = i
      · exact hji ▸ hself
      · exact h j (by omega) (by omega)

/-- `need_continue_migrate` looks at the children: a demotion has come to a node that lies below
the threshold and is not at depth 1. -/
def LooksAtChildren (mem : Mem) (x : Internode) (t : NodeMemType) : Prop :=
  t = .remote ∧ mem.global.threshold.demotionDepthThreshold < x.sidleMeta.depth ∧
    x.sidleMeta.depth ≠ 1

/-- `need_continue_migrate` does not follow a null pointer, and a demotion that comes to the
children goes on exactly when none of those that are present is local. -/
structure TraversalOk (env : Env) (fuel : ℕ) (mem : Mem) (a : Addr) (x : Internode)
    (t : NodeMemType) (hasMigrated : ℕ) : Prop where
  safe : NullSafe (needContinueMigrate (masstreeOps env fuel) a t hasMigrated) mem
  seen : LooksAtChildren mem x t → ∃ s,
    machine.run (needContinueMigrate (masstreeOps env fuel) a t hasMigrated) mem = done s mem ∧
      (s = .proceed ↔ ∀ i ≤ x.nkeys, x.child i ≠ 0 → NonLocal mem (x.child i))

/-- The answer of `need_continue_migrate` after the traversal. -/
def traversalState (noLocal : Bool) (hasMigrated : ℕ) : MigrationState :=
  if noLocal then .proceed else if hasMigrated = 0 then .stop else .delay

/-- A demotion that does not look at the children stops. -/
theorem goesOn_needContinueMigrate (env : Env) (fuel : ℕ) (h : mem.Attached a x) (k : ℕ) :
    GoesOn (needContinueMigrate (masstreeOps env fuel) a .remote k) mem
      (if x.sidleMeta.depth ≤ mem.global.threshold.demotionDepthThreshold ∨ x.sidleMeta.depth = 1
        then pure .stop
        else do
          let noLocal ← visitChildren x (childCallback env fuel) (x.nkeys + 1) 0
          pure (traversalState noLocal k)) mem := by
  have hmeta : NonNull ((masstreeOps env fuel).nodeMetadata a) :=
    All.bind (nonNull_internode h.ne_zero) fun _ => trivial
  have hrun : machine.run ((masstreeOps env fuel).nodeMetadata a) mem = done x.sidleMeta mem :=
    machine.run_bind_of_done (run_readInternode h.node)
  have hthreshold : machine.run ((masstreeOps env fuel).getDemotionDepthThreshold) mem =
      done mem.global.threshold.demotionDepthThreshold mem :=
    run_onGlobal (f := fun g => some (g.threshold.demotionDepthThreshold, g)) rfl
  have hthreshold' : NonNull ((masstreeOps env fuel).getDemotionDepthThreshold) :=
    nonNull_onGlobal (f := fun g => some (g.threshold.demotionDepthThreshold, g))
  unfold needContinueMigrate
  rw [if_neg h.ne_zero]
  refine (goesOn_bind hmeta.nullSafe hrun).trans ?_
  refine (goesOn_bind hthreshold'.nullSafe hthreshold).trans ?_
  refine (goesOn_bind hmeta.nullSafe hrun).trans ?_
  split
  · exact GoesOn.refl _ _
  · have hread : NonNull (readInternode a) := nonNull_internode h.ne_zero
    change GoesOn (internodeTraverse a (childCallback env fuel) >>= _) mem _ mem
    unfold internodeTraverse
    rw [bind_assoc']
    exact goesOn_bind hread.nullSafe (run_readInternode h.node)

/-- Where it looks at the children it goes on with the traversal. -/
theorem LooksAtChildren.goesOn (hlook : LooksAtChildren mem x .remote) (env : Env) (fuel : ℕ)
    (h : mem.Attached a x) (k : ℕ) :
    GoesOn (needContinueMigrate (masstreeOps env fuel) a .remote k) mem (do
      let noLocal ← visitChildren x (childCallback env fuel) (x.nkeys + 1) 0
      pure (traversalState noLocal k)) mem := by
  have hgo := goesOn_needContinueMigrate env fuel h k
  rwa [if_neg] at hgo
  rintro (hle | h1)
  · exact absurd hlook.2.1 (Nat.not_lt.mpr hle)
  · exact hlook.2.2 h1

/-- **The traversal and the empty places.**  It follows no null pointer exactly when it is not
made, or each place before the first local child has a child. -/
theorem nullSafe_needContinueMigrate_iff (env : Env) (fuel : ℕ) (h : mem.Attached a x) (k : ℕ) :
    NullSafe (needContinueMigrate (masstreeOps env fuel) a t k) mem ↔ (LooksAtChildren mem x t →
      ∀ i ≤ x.nkeys, (∀ j < i, NonLocal mem (x.child j)) → x.child i ≠ 0) := by
  by_cases ht : t = .remote
  · subst ht
    by_cases hlook : LooksAtChildren mem x .remote
    · have hvisit := nullSafe_visitChildren_iff env fuel (x.nkeys + 1) 0
        fun j _ hj => h.child j (by omega)
      refine (hlook.goesOn env fuel h k).2.trans ⟨fun hsafe _ i hi hbefore => ?_, fun hp => ?_⟩
      · have hsafe' := hvisit.mp ((safe_bind.mp hsafe).imp fun _ _ _ => trivial)
        exact hsafe' i (Nat.zero_le i) (by omega) fun k _ hk => hbefore k hk
      · refine (nullSafe_bind_iff (hvisit.mpr fun j _ hj hbefore => ?_)).mpr
          fun _ _ _ => nullSafe_ret
        exact hp hlook j (by omega) fun k hk => hbefore k (Nat.zero_le k) hk
    · refine iff_of_true ((goesOn_needContinueMigrate env fuel h k).2.mpr ?_)
        fun hl => absurd hl hlook
      rw [if_pos]
      · exact nullSafe_ret
      · by_contra hno
        exact hlook ⟨rfl, by omega, by omega⟩
  · -- a promotion asks for the type of the node only
    refine iff_of_true ?_ fun hl => absurd hl.1 ht
    unfold needContinueMigrate
    rw [if_neg h.ne_zero]
    cases t with
    | remote => exact absurd rfl ht
    | local_ =>
      exact NonNull.nullSafe (All.bind (All.bind (nonNull_internode h.ne_zero) fun _ => trivial)
        fun _ => trivial)
    | unknown => exact nullSafe_ret
    | debug => exact nullSafe_ret

theorem traversalOk_iff (h : mem.Attached a x) (k : ℕ) :
    TraversalOk env fuel mem a x t k ↔ (LooksAtChildren mem x t →
      ∀ i ≤ x.nkeys, (∀ j < i, NonLocal mem (x.child j)) → x.child i ≠ 0) := by
  have hsafe := nullSafe_needContinueMigrate_iff (t := t) env fuel h k
  constructor
  · intro hok
    exact hsafe.mp hok.safe
  · intro hp
    refine ⟨hsafe.mpr hp, fun hlook => ?_⟩
    obtain rfl := hlook.1
    have hpresent (j : ℕ) (hj : j < 0 + (x.nkeys + 1))
        (hbefore : ∀ k, 0 ≤ k → k < j → NonLocal mem (x.child k)) : x.child j ≠ 0 :=
      hp hlook j (by omega) fun k hk => hbefore k (Nat.zero_le k) hk
    obtain ⟨b, hrun, hb⟩ := exists_run_visitChildren env fuel (x.nkeys + 1) 0
      (fun j _ hj => h.child j (by omega)) fun j _ => hpresent j
    refine ⟨traversalState b k, (hlook.goesOn env fuel h k).1.trans ?_, ?_⟩
    · rw [machine.run_bind_of_done hrun]
      rfl
    · have hproceed : traversalState b k = .proceed ↔ b = true := by
        unfold traversalState
        cases b <;> by_cases hk : k = 0 <;> simp [hk]
      rw [hproceed, hb]
      constructor
      · intro hall i hi _
        exact hall i (Nat.zero_le i) (by omega)
      · intro hall j _ hj
        -- no place before the `j`-th is empty, so that none is
        induction j using Nat.strong_induction_on with
        | _ j ih =>
          refine hall j (by omega) (hpresent j hj fun k _ hk => ?_)
          exact ih k hk (Nat.zero_le k) (by omega)

/-- **Empty places are followed.**  For an internode as it stands in a tree, `need_continue_migrate`
and the migration follow no null pointer, and see to all children that are present, exactly when
neither comes to an empty place: the former looks at the places up to the first local child, and
only if the node lies deep enough; the latter goes over all of them,
  unless it is given up before. -/
theorem absent_children_iff {isNew : Bool} (h : mem.Attached a x)
    (hl : isNew = false → x.version.locked = true) (fuel k : ℕ) :
    (TraversalOk env (fuel + 2) mem a x t k ∧ MigrationOk env (fuel + 2) mem a x t isNew) ↔
      (LooksAtChildren mem x t →
        ∀ i ≤ x.nkeys, (∀ j < i, NonLocal mem (x.child j)) → x.child i ≠ 0) ∧
      (Migrates env mem a x t isNew → ∀ i ≤ x.nkeys, x.child i ≠ 0) :=
  and_congr (traversalOk_iff h k) (migrationOk_iff h hl fuel)

end Traversal

/-! ### A tree with an empty place -/

section Example

/-- A leaf with the single key `c`, below the internode at `parent`. -/
def oneKeyLeaf (c : UInt8) (parent prev next : Addr) : Block :=
  ⟨.leaf
    { Leaf.make 320 .local_ 3 1 with
      keylenx := fun _ => 1
      permutation := Permuter.makeSorted 1
      ikey0 := fun _ => makeComparable [c]
      lv := fun _ => 7
      next := next
      prev := prev
      parent := parent }, 320, false⟩

/-- An internode with the children `left` and `right`, the keys of the latter being those from `c`
on. -/
def twoChildren (height depth : ℕ) (c : UInt8) (root : Bool) (parent left right : Addr) : Block :=
  ⟨.internode
    { Internode.make height .local_ depth with
      version := if root then setFlag 30 (NodeVersion.make false) else NodeVersion.make false
      nkeys := 1
      ikey0 := fun _ => makeComparable [c]
      child := fun i => if i = 0 then left else right
      parent := parent }, 272, false⟩

/-- Four leaves with a key each, below two internodes and a root. -/
def fourLeaves : Mem where
  blocks := fun a =>
    if a = 8 then some (oneKeyLeaf 97 40 0 16)
    else if a = 16 then some (oneKeyLeaf 98 40 8 24)
    else if a = 24 then some (oneKeyLeaf 99 48 16 32)
    else if a = 32 then some (oneKeyLeaf 100 48 24 0)
    else if a = 40 then some (twoChildren 1 2 98 false 56 8 16)
    else if a = 48 then some (twoChildren 1 2 100 false 56 24 32)
    else if a = 56 then some (twoChildren 2 1 99 true 0 40 48)
    else none
  bags := fun _ => none
  allocated := 7
  root := 56
  callbacks := []
  demotionQueue := []
  global := (longKeyMem .local_).global

/-- The tree once the third key has been removed. -/
def threeLeaves : Mem := (machine.run (remove plainEnv.build 9 [99]) fourLeaves).state?.getD
    fourLeaves

theorem run_remove_fourLeaves :
    machine.run (remove plainEnv.build 9 [99]) fourLeaves = done () threeLeaves := by
  obtain ⟨mem, hmem, hrun⟩ := Outcome.eq_done_of_answer
    (show (machine.run (remove plainEnv.build 9 [99]) fourLeaves).answer? =
      some () by decide +kernel)
  rw [hrun, threeLeaves, hmem]
  rfl

/-- The internode that the key was removed below. -/
def gapInternode : Internode := (threeLeaves.internode? 48).getD (Internode.make 0 .local_ 0)

/-- Its parent. -/
def gapParent : Internode := (threeLeaves.internode? 56).getD (Internode.make 0 .local_ 0)

theorem internode?_getD {mem : Mem} {a : Addr} {d : Internode}
    (h : (mem.internode? a).isSome = true) :
    mem.node? a = some (.internode ((mem.internode? a).getD d)) := by
  obtain ⟨x, hx⟩ := Option.isSome_iff_exists.mp h
  rw [hx]
  exact internode?_eq_some.mp hx

theorem gapInternode_places : gapInternode.nkeys = 1 ∧ gapInternode.child 0 = 0 ∧
    gapInternode.child 1 = 32 ∧ gapInternode.parent = 56 := by decide +kernel

theorem gapParent_node : threeLeaves.node? 56 = some (.internode gapParent) :=
  internode?_getD (by decide +kernel)

theorem threeLeaves_attached : threeLeaves.Attached 48 gapInternode := by
  obtain ⟨hn, h0, h1, hp⟩ := gapInternode_places
  refine ⟨Option.isNone_iff_eq_none.mp (by decide +kernel),
    Option.isNone_iff_eq_none.mp (by decide +kernel),
    internode?_getD (by decide +kernel), fun _ => ⟨gapParent, ?_, by decide +kernel⟩,
      fun i hi hne => ?_⟩
  · rw [hp]
    exact gapParent_node
  · have hleaf : ((threeLeaves.leaf? 32).map fun l => l.version.isleaf) =
      some true := by decide +kernel
    obtain ⟨l, hl, htag⟩ := Option.map_eq_some_iff.mp hleaf
    -- the first place is empty, and a leaf is in the second
    have hi1 : i = 1 := by
      have hi0 : i ≠ 0 := by
        rintro rfl
        exact hne h0
      omega
    rw [hi1, h1]
    exact ⟨.leaf l, leaf?_eq_some.mp hl, htag⟩

theorem threeLeaves_migrates : Migrates plainEnv threeLeaves 48 gapInternode .remote true := by
  obtain ⟨hn, h0, h1, hp⟩ := gapInternode_places
  refine ⟨fun _ => by decide +kernel,
    ⟨by decide +kernel, by decide +kernel, fun _ => by decide +kernel,
    by decide +kernel⟩, Or.inr
      ⟨by rw [hp]; decide, by rw [hp]; decide, gapParent, ?_, by decide +kernel,
    by decide +kernel, fun _ => by decide +kernel, by decide +kernel⟩⟩
  rw [hp]
  exact gapParent_node

/-- A run of the equivalence on the tree with an empty place. -/
theorem absent_children_iff_threeLeaves :
    (TraversalOk plainEnv 2 threeLeaves 48 gapInternode .remote 0 ∧
        MigrationOk plainEnv 2 threeLeaves 48 gapInternode .remote true) ↔
      (LooksAtChildren threeLeaves gapInternode .remote → ∀ i ≤ gapInternode.nkeys,
        (∀ j < i, NonLocal threeLeaves (gapInternode.child j)) → gapInternode.child i ≠ 0) ∧
      (Migrates plainEnv threeLeaves 48 gapInternode .remote true →
        ∀ i ≤ gapInternode.nkeys, gapInternode.child i ≠ 0) :=
  absent_children_iff threeLeaves_attached (fun h => absurd h (by decide)) 0 0

/-- The removal of a key leaves an empty place, which both a demotion's look at the children and
the migration of the internode come to. -/
theorem threeLeaves_followed :
    machine.run (remove plainEnv.build 9 [99]) fourLeaves = done () threeLeaves ∧
      threeLeaves.node? 48 = some (.internode gapInternode) ∧
      gapInternode.nkeys = 1 ∧ gapInternode.child 0 = 0 ∧
      ¬NullSafe (needContinueMigrate (masstreeOps plainEnv 2) 48 .remote 0) threeLeaves ∧
      ¬NullSafe (internodeMigration plainEnv 2 48 .remote true) threeLeaves := by
  have h := threeLeaves_attached
  obtain ⟨hn, h0, -, -⟩ := gapInternode_places
  have hlook : LooksAtChildren threeLeaves gapInternode .remote :=
    ⟨rfl, by decide +kernel, by decide +kernel⟩
  refine ⟨run_remove_fourLeaves, h.node, hn, h0, fun hsafe => ?_, fun hsafe => ?_⟩
  · exact (nullSafe_needContinueMigrate_iff plainEnv 2 h 0).mp hsafe hlook 0 (Nat.zero_le _)
      (fun j hj => absurd hj (Nat.not_lt_zero j)) h0
  · exact (nullSafe_internodeMigration_iff plainEnv .remote h
      (fun he => absurd he (by decide)) 0).mp
      hsafe threeLeaves_migrates 0 (Nat.zero_le _) h0

end Example

end Sidle.Masstree
