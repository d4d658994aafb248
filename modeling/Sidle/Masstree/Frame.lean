import Sidle.Masstree.Remove
import Sidle.Masstree.Migration
import Sidle.Prog.Ensures

/-!
# What the accesses leave alone

Most functions of a Masstree take and release locks and follow links on the way to the few
stores they are about.  Nothing of what a node says is changed by the former: only the lock
bits and the links between the leaves are.

## Main definitions

* `Node.core` — a node without its lock bit and its place in the list of leaves.
* `Quiet` — at most locks and links between leaves have changed.

## Main results

* `keeps_lock`, `keeps_changeLink`, … — functions that are quiet.
* `ensures_lockedParent` — `locked_parent` is quiet, and answers the parent.
-/

namespace Sidle.Masstree

open Art (Build Fault)
open Prog Machine Word Worker

/-! ### Accesses -/

section Accesses

variable {α β : Type} {mem : Mem} {a : Addr} {R : Mem → Mem → Prop}

theorem ensures_access {find : Mem → Option α} {f : α → Mem → β × Mem} {Q : β → Mem → Prop}
    (h : ∀ x, find mem = some x → Q (f x mem).1 (f x mem).2) :
    machine.Ensures (access find f) mem Q := by
  refine ensures_lift.mpr fun b mem' hexec => ?_
  simp only [machine] at hexec
  split at hexec
  · rename_i x hx
    have hbx := h x hx
    rw [Except.ok.inj hexec] at hbx
    exact hbx
  · cases hexec

theorem keeps_access {find : Mem → Option α} {f : α → Mem → β × Mem}
    (h : ∀ mem x, find mem = some x → R mem (f x mem).2) : machine.Keeps R (access find f) :=
  fun mem => ensures_access (h mem)

/-- What is read is there, and nothing changes. -/
theorem ensures_read {find : Mem → Option α} {g : α → β} :
    machine.Ensures (access find fun x mem => (g x, mem)) mem
      fun b mem' => mem' = mem ∧ ∃ x, find mem = some x ∧ b = g x :=
  ensures_access fun x hx => ⟨rfl, x, hx, rfl⟩

theorem keeps_read [IsPreorder Mem R] {find : Mem → Option α} {g : α → β} :
    machine.Keeps R (access find fun x mem => (g x, mem)) :=
      keeps_access fun mem _ _ => refl_of R mem

theorem keeps_assert [IsPreorder Mem R] (on c : Bool) :
    machine.Keeps R (check on c) := keeps_ite keeps_fail keeps_ret

theorem ensures_onGlobal {f : Global → Option (β × Global)} {Q : β → Mem → Prop}
    (h : ∀ b g, f mem.global = some (b, g) → Q b { mem with global := g }) :
    machine.Ensures (onGlobal f) mem Q := by
  refine ensures_lift.mpr fun b mem' hexec => ?_
  simp only [machine] at hexec
  split at hexec
  · rename_i hf
    cases hexec
    exact h _ _ hf
  · cases hexec

theorem keeps_onGlobal {f : Global → Option (β × Global)}
    (h : ∀ mem b g, f mem.global = some (b, g) → R mem { mem with global := g }) :
    machine.Keeps R (onGlobal f) := fun mem => ensures_onGlobal (h mem)

theorem ensures_poolAllocate {size : ℕ} {n : Node} :
    machine.Ensures (poolAllocate size n) mem
      fun a mem' => a = mem.fresh ∧ mem' = mem.alloc size n :=
  ensures_access fun _ hx => by
    cases hx
    exact ⟨rfl, rfl⟩

theorem node?_eq_some {n : Node} : mem.node? a = some n ↔ ∃ b, mem.blocks a = some b ∧ b.node = n :=
  Option.map_eq_some_iff

theorem leaf?_eq_some {l : Leaf} : mem.leaf? a = some l ↔ mem.node? a = some (.leaf l) := by
  unfold Mem.leaf?
  split
  · rename_i h
    simp [h]
  · rename_i h
    constructor
    · intro h'
      cases h'
    · intro h'
      exact absurd h' (h l)

theorem internode?_eq_some {x : Internode} :
    mem.internode? a = some x ↔ mem.node? a = some (.internode x) := by
  unfold Mem.internode?
  split
  · rename_i h
    simp [h]
  · rename_i h
    constructor
    · intro h'
      cases h'
    · intro h'
      exact absurd h' (h x)

end Accesses

/-! ### Quiet changes -/

/-- A node without its lock bit and its place in the list of leaves. -/
def Node.core : Node → Node
  | leaf l => leaf { l with version := clearFlag 0 l.version, next := 0, prev := 0 }
  | internode x => internode { x with version := clearFlag 0 x.version }

/-- At most locks and links between leaves have changed. -/
structure Quiet (mem mem' : Mem) : Prop where
  core : ∀ a, (mem'.blocks a).map (fun b => { b with node := b.node.core }) =
    (mem.blocks a).map fun b => { b with node := b.node.core }
  rest : mem' = { mem with blocks := mem'.blocks }

instance : IsPreorder Mem Quiet where
  refl _ := ⟨fun _ => rfl, rfl⟩
  trans _ _ _ h h' := ⟨fun a => (h'.core a).trans (h.core a), by rw [h'.rest, h.rest]⟩

section Quiets

variable {mem mem' : Mem} {a : Addr} {n : Node}

theorem Quiet.node? (h : Quiet mem mem') (hn : mem.node? a = some n) :
    ∃ n', mem'.node? a = some n' ∧ n'.core = n.core := by
  obtain ⟨b, hb, rfl⟩ := node?_eq_some.mp hn
  have hcore := h.core a
  rw [hb] at hcore
  obtain ⟨b', hb', heq⟩ := Option.map_eq_some_iff.mp hcore
  exact ⟨b'.node, node?_eq_some.mpr ⟨b', hb', rfl⟩, (Block.mk.injEq .. ▸ heq).1⟩

theorem Quiet.symm_core (h : Quiet mem mem') (hn : mem'.node? a = some n) :
    ∃ n', mem.node? a = some n' ∧ n.core = n'.core := by
  obtain ⟨b, hb, rfl⟩ := node?_eq_some.mp hn
  have hcore := (h.core a).symm
  rw [hb] at hcore
  obtain ⟨b', hb', heq⟩ := Option.map_eq_some_iff.mp hcore
  exact ⟨b'.node, node?_eq_some.mpr ⟨b', hb', rfl⟩, (Block.mk.injEq .. ▸ heq).1.symm⟩

theorem Quiet.leaf? {l : Leaf} (h : Quiet mem mem') (hl : mem.leaf? a = some l) :
    ∃ l', mem'.leaf? a = some l' ∧ (Node.leaf l').core = (Node.leaf l).core := by
  obtain ⟨n', hn', hcore⟩ := h.node? (leaf?_eq_some.mp hl)
  cases n' with
  | leaf l' => exact ⟨l', leaf?_eq_some.mpr hn', hcore⟩
  | internode => cases hcore

theorem Quiet.internode? {x : Internode} (h : Quiet mem mem') (hx : mem.internode? a = some x) :
    ∃ x', mem'.internode? a = some x' ∧ (Node.internode x').core = (Node.internode x).core := by
  obtain ⟨n', hn', hcore⟩ := h.node? (internode?_eq_some.mp hx)
  cases n' with
  | internode x' => exact ⟨x', internode?_eq_some.mpr hn', hcore⟩
  | leaf => cases hcore

theorem quiet_setNode {n' : Node} (h : mem.node? a = some n) (hn : n'.core = n.core) :
    Quiet mem (mem.setNode a n') := by
  obtain ⟨b, hb, rfl⟩ := node?_eq_some.mp h
  refine ⟨fun c => ?_, rfl⟩
  by_cases hc : c = a
  · subst hc
    simp [Mem.setNode, hb, hn]
  · simp [Mem.setNode, Function.update_of_ne hc]

theorem keeps_writeLeaf {f : Leaf → Leaf} (h : ∀ l, (Node.leaf (f l)).core = (Node.leaf l).core) :
    machine.Keeps Quiet (writeLeaf a f) :=
  keeps_access fun _ l hl => quiet_setNode (leaf?_eq_some.mp hl) (h l)

theorem core_setVersion {v : NodeVersion} (h : clearFlag 0 v = clearFlag 0 n.version) :
    (n.setVersion v).core = n.core := by
  cases n with
  | leaf l => simp only [Node.setVersion, Node.core, h, Node.version]
  | internode x => simp only [Node.setVersion, Node.core, h, Node.version]

theorem clearFlag_lock (v : NodeVersion) : clearFlag 0 v.lock = clearFlag 0 v := by
  refine BitVec.eq_of_getLsbD_eq fun i _ => ?_
  rw [NodeVersion.lock, getLsbD_clearFlag, getLsbD_clearFlag, getLsbD_setFlag]
  by_cases hi : i = 0 <;> simp [hi]

end Quiets

/-! ### Locks -/

section Locks

variable (build : Build) (a : Addr)

theorem keeps_casVersion (v : NodeVersion) : machine.Keeps Quiet (casVersion a v v.lock) := by
  refine keeps_access fun mem n hn => ?_
  split
  · rename_i hv
    exact quiet_setNode hn (core_setVersion (by rw [hv, clearFlag_lock]))
  · exact refl_of Quiet mem

theorem keeps_lockFrom (fuel : ℕ) (v : NodeVersion) :
    machine.Keeps Quiet (lockFrom build a fuel v) := by
  induction fuel generalizing v with
  | zero => exact keeps_diverge
  | succ fuel ih =>
    refine keeps_join keeps_ret (keeps_casVersion a v) fun _ => keeps_ite ?_ ?_
    · exact (keeps_assert _ _).bind fun _ => keeps_read.bind fun _ => (keeps_assert _ _).bind
        fun _ => keeps_ret
    · exact keeps_read.bind ih

theorem keeps_lock (fuel : ℕ) : machine.Keeps Quiet (lock build fuel a) :=
  keeps_read.bind fun v => keeps_lockFrom build a fuel v

theorem keeps_hasChanged (v : NodeVersion) (readonly : Bool) :
    machine.Keeps Quiet (hasChanged a v readonly) := keeps_read.bind fun _ => keeps_ret

theorem keeps_waitUnchanged (fuel : ℕ) : machine.Keeps Quiet (waitUnchanged a fuel) := by
  induction fuel with
  | zero => exact keeps_diverge
  | succ fuel ih =>
    exact keeps_read.bind fun v => (keeps_hasChanged a v true).bind fun _ => keeps_ite ih keeps_ret

end Locks

/-! ### The list of leaves -/

section Links

variable (n nn : Addr) (fuel : ℕ)

theorem keeps_casNext (expected desired : ℕ) :
    machine.Keeps Quiet (casNext n expected desired) := by
  refine keeps_access fun mem l hl => ?_
  split
  · exact quiet_setNode (leaf?_eq_some.mp hl) rfl
  · exact refl_of Quiet mem

theorem keeps_lockNext : machine.Keeps Quiet (lockNext n fuel) := by
  induction fuel with
  | zero => exact keeps_diverge
  | succ fuel ih =>
    refine keeps_read.bind fun l => keeps_ite keeps_ret ?_
    exact keeps_join keeps_ret (keeps_casNext n _ _) fun _ => keeps_ite keeps_ret ih

theorem keeps_writeNext (next : ℕ) :
    machine.Keeps Quiet (writeLeaf n fun l => { l with next := next }) :=
      keeps_writeLeaf fun _ => rfl

theorem keeps_writePrev (prev : Addr) :
    machine.Keeps Quiet (writeLeaf n fun l => { l with prev := prev }) :=
      keeps_writeLeaf fun _ => rfl

theorem keeps_setPrevOf (next prev : Addr) : machine.Keeps Quiet (setPrevOf next prev) :=
  keeps_ite (keeps_writePrev _ _) keeps_ret

theorem keeps_lockPrev (mayBeFirst : Bool) : machine.Keeps Quiet (lockPrev n mayBeFirst fuel) := by
  induction fuel with
  | zero => exact keeps_diverge
  | succ fuel ih =>
    refine keeps_read.bind fun l => keeps_ite keeps_ret ?_
    exact (keeps_casNext l.prev n _).bind fun _ => keeps_ite keeps_ret ih

theorem keeps_changeLink : machine.Keeps Quiet (changeLink fuel n nn) := by
  refine (keeps_lockNext n fuel).bind fun _ => (keeps_writeNext _ _).bind fun _ => ?_
  refine (keeps_setPrevOf _ _).bind fun _ => (keeps_lockPrev n fuel true).bind fun _ => ?_
  exact keeps_ite ((keeps_writeNext _ _).bind fun _ => keeps_writePrev _ _) keeps_ret

end Links

/-! ### The parent -/

/-- While the lock of the parent is taken the parent stays the same, so the first attempt
succeeds. -/
theorem ensures_lockedParent (build : Build) (a : Addr) (fuel : ℕ) (mem : Mem) :
    machine.Ensures (lockedParent build a fuel) mem fun p mem' =>
      Quiet mem mem' ∧ (∃ n, mem.node? a = some n ∧ n.parent = p) ∧
        (p ≠ 0 → ∃ n, mem.node? p = some n) := by
  cases fuel with
  | zero => exact ensures_diverge
  | succ fuel =>
    refine ensures_read.bind fun v mem₁ hv => ?_
    refine (keeps_assert (R := Eq) _ _).then fun _ mem₂ h₂ => ?_
    obtain ⟨rfl, n, hn, -⟩ := hv
    subst h₂
    refine ensures_read.bind fun p mem₃ hp => ?_
    obtain ⟨rfl, n', hn', rfl⟩ := hp
    refine ensures_ite (fun h0 => ?_) fun h0 => ?_
    · exact ensures_ret.mpr ⟨refl_of Quiet _, ⟨n', hn', h0⟩, fun h => absurd rfl h⟩
    · refine (keeps_lock build n'.parent fuel).then fun _ mem₄ h₄ => ?_
      refine ensures_read.bind fun p' mem₅ hp' => ?_
      obtain ⟨rfl, m, hm, rfl⟩ := hp'
      obtain ⟨m', hm', hcore⟩ := h₄.node? hn'
      rw [hm] at hm'
      cases hm'
      have hpar : n'.parent = m.parent := by
        cases n' with
        | leaf => cases m with
          | leaf => exact (Leaf.mk.injEq .. ▸ Node.leaf.inj hcore).2.2.2.2.2.2.2.2.2.2.2.2.1.symm
          | internode => cases hcore
        | internode => cases m with
          | internode => exact (Internode.mk.injEq .. ▸ Node.internode.inj hcore).2.2.2.2.2.2.symm
          | leaf => cases hcore
      refine ensures_ite (fun _ => ?_) fun hne => absurd hpar hne
      refine ensures_read.bind fun pv mem₆ hpv => ?_
      obtain ⟨rfl, q, hq, rfl⟩ := hpv
      obtain ⟨q', hq', -⟩ := h₄.symm_core hq
      refine (keeps_assert (R := Eq) _ _).then fun _ mem₇ h₇ => ?_
      subst h₇
      exact ensures_ret.mpr ⟨h₄, ⟨n', hn', rfl⟩, fun _ => ⟨q', hq'⟩⟩

end Sidle.Masstree
