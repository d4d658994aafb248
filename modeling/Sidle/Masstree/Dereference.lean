import Sidle.Masstree.Runs
import Sidle.Prog.Safe

/-!
# Null pointers

An access through a null pointer is one that fails in every memory, as no block has the address
`0`.  Most functions of the tree go through pointers that they have compared with null before,
or that their callers vouch for; such a function comes to no such access, whatever the memory
answers.

## Main definitions

* `NullAccess` — the accesses through a null pointer.
* `NonNull` — a program that has none.
* `NullSafe` — a program that does not come to one when it runs from a given memory.
* `GoesOn` — a program of which a first part has been run.

## Main results

* `nullSafe_bind_iff` — what is left to show once a first part has been run.
-/

namespace Sidle.Masstree

open Art (Build Fault)
open Prog Machine Outcome Word Worker

/-- The access is one through a null pointer. -/
def NullAccess {β : Type} (o : MtOp β) : Prop :=
  ∀ mem : Mem, mem.blocks 0 = none → o mem = .error .badAccess

/-- No access of the program, whatever the earlier ones answer, is one through a null pointer. -/
def NonNull {α : Type} (p : MtM α) : Prop := All (fun o => ¬NullAccess o) (fun _ => True) p

/-- The program comes to no access through a null pointer when it runs from `mem`. -/
def NullSafe {α : Type} (p : MtM α) (mem : Mem) : Prop :=
  Safe machine.effects (fun o _ => ¬NullAccess o) (fun _ => True) (fun _ _ => True) p mem

section Rules

variable {α β : Type} {p : MtM α} {h : α → MtM β} {mem : Mem}

theorem nullSafe_ret {a : α} : NullSafe (ret a) mem := trivial

theorem NonNull.nullSafe (hp : NonNull p) : NullSafe p mem :=
  Prog.All.safe (I := fun _ => True) hp (fun _ _ hK _ => hK) (fun _ _ _ _ _ _ _ => trivial) trivial

/-- The obligations on a machine that runs alone hold of what the program returns. -/
theorem safe_iff_ensures {Φ : {β : Type} → MtOp β → Mem → Prop} {X : Fault → Prop}
    {Q : α → Mem → Prop}
    (hp : Safe machine.effects Φ X (fun _ _ => True) p mem) :
    Safe machine.effects Φ X Q p mem ↔ machine.Ensures p mem Q := by
  induction p generalizing mem with
  | ret a => exact ensures_ret.symm
  | fail e => exact iff_of_true hp ensures_fail
  | diverge => exact iff_of_true trivial ensures_diverge
  | op o k ih =>
    obtain ⟨hΦ, hk⟩ := hp
    rw [safe_op]
    constructor
    · intro hsafe a mem' hrun
      cases ho : machine.exec o mem with
      | error e =>
        rw [machine.run_op_error ho] at hrun
        cases hrun
      | ok bs =>
        obtain ⟨b, s⟩ := bs
        rw [machine.run_op_ok ho] at hrun
        exact (ih b (hk b s ho)).mp (hsafe.2 b s ho) a mem' hrun
    · intro hens
      refine ⟨hΦ, fun b s ho => (ih b (hk b s ho)).mpr fun a mem' hrun => hens a mem' ?_⟩
      rw [machine.run_op_ok ho, hrun]

/-- **What is left to show** once a first part has been run. -/
theorem nullSafe_bind_iff (hp : NullSafe p mem) :
    NullSafe (p >>= h) mem ↔ machine.Ensures p mem fun a mem' => NullSafe (h a) mem' := by
  unfold NullSafe
  rw [safe_bind]
  exact safe_iff_ensures hp

theorem nullSafe_bind_of_run {a : α} {mem' : Mem} (hp : NullSafe p mem)
    (hrun : machine.run p mem = done a mem') :
    NullSafe (p >>= h) mem ↔ NullSafe (h a) mem' := by
  rw [nullSafe_bind_iff hp]
  constructor
  · intro hens
    exact hens a mem' hrun
  · intro hsafe b s hb
    rw [hrun] at hb
    cases hb
    exact hsafe

/-- The program `p` goes on from `mem` as `q` does from `mem'`, without a null pointer on the
way. -/
def GoesOn (p : MtM α) (mem : Mem) (q : MtM α) (mem' : Mem) : Prop :=
  machine.run p mem = machine.run q mem' ∧ (NullSafe p mem ↔ NullSafe q mem')

theorem GoesOn.refl (p : MtM α) (mem : Mem) : GoesOn p mem p mem := ⟨rfl, Iff.rfl⟩

theorem GoesOn.trans {p q r : MtM α} {mem mem' mem'' : Mem} (h : GoesOn p mem q mem')
    (h' : GoesOn q mem' r mem'') : GoesOn p mem r mem'' := ⟨h.1.trans h'.1, h.2.trans h'.2⟩

/-- A first part that returns. -/
theorem goesOn_bind {a : α} {mem' : Mem} (hp : NullSafe p mem)
    (hrun : machine.run p mem = done a mem') :
    GoesOn (p >>= h) mem (h a) mem' :=
  ⟨machine.run_bind_of_done hrun, nullSafe_bind_of_run hp hrun⟩

end Rules

/-! ### The accesses -/

section Accesses

variable {α β : Type} {a : Addr}

/-- A memory with the node `n` at `a`. -/
private def memWith (a : Addr) (n : Node) : Mem where
  blocks := fun b => if b = a then some ⟨n, 0, false⟩ else none
  bags := fun _ => some ⟨Stringbag.external 0, false⟩
  allocated := 0
  root := 0
  callbacks := []
  demotionQueue := []
  global := default

private theorem memWith_zero {n : Node} (h : a ≠ 0) : (memWith a n).blocks 0 = none := if_neg h.symm

private theorem memWith_node? {n : Node} : (memWith a n).node? a = some n := by
  simp [Mem.node?, memWith]

private theorem not_nullAccess {find : Mem → Option α} {f : α → Mem → β × Mem} {mem : Mem} {c : α}
    (h0 : mem.blocks 0 = none) (h : find mem = some c) :
    ¬NullAccess (show MtOp β from fun mem =>
      match find mem with
      | some x => .ok (f x mem)
      | none => .error .badAccess) := by
  intro hnull
  have hmem := hnull mem h0
  simp only [h, reduceCtorEq] at hmem

/-- An access to a node is one through a null pointer exactly when the address is null. -/
theorem nonNull_node {f : Node → Mem → β × Mem} (h : a ≠ 0) : NonNull (access (·.node? a) f) :=
  all_lift (not_nullAccess (memWith_zero (n := .leaf (Leaf.make 0 .local_ 0 0)) h) memWith_node?)

theorem nonNull_leaf {f : Leaf → Mem → β × Mem} (h : a ≠ 0) : NonNull (access (·.leaf? a) f) :=
  all_lift (not_nullAccess (memWith_zero h)
    (leaf?_eq_some.mpr (memWith_node? (n := .leaf (Leaf.make 0 .local_ 0 0)))))

theorem nonNull_internode {f : Internode → Mem → β × Mem} (h : a ≠ 0) :
    NonNull (access (·.internode? a) f) :=
  all_lift (not_nullAccess (memWith_zero h)
    (internode?_eq_some.mpr (memWith_node? (n := .internode (Internode.make 0 .local_ 0)))))

private theorem memWith_one :
    (memWith 1 (.leaf (Leaf.make 0 .local_ 0 0))).blocks 0 = none := memWith_zero (by decide)

theorem nonNull_bag {f : Stringbag → Mem → β × Mem} : NonNull (access (·.bag? a) f) :=
  all_lift (not_nullAccess memWith_one (by rfl))

theorem nonNull_mem {f : Mem → Mem → β × Mem} : NonNull (access some f) :=
  all_lift (not_nullAccess memWith_one rfl)

theorem nonNull_onGlobal {f : Global → Option (β × Global)} : NonNull (onGlobal f) := by
  refine all_lift fun hnull => ?_
  have hmem := hnull _ memWith_one
  simp only at hmem
  split at hmem <;> cases hmem

theorem nonNull_pure {b : β} : NonNull (pure b : MtM β) := trivial

theorem nonNull_assert {on c : Bool} : NonNull (check on c) :=
  all_ite trivial trivial

/-- An access through a null pointer. -/
theorem nullAccess_node {find : Mem → Option α} {f : α → Mem → β × Mem}
    (h : ∀ mem : Mem, mem.blocks 0 = none → find mem = none) :
    NullAccess (show MtOp β from fun mem =>
      match find mem with
      | some x => .ok (f x mem)
      | none => .error .badAccess) := by
  intro mem h0
  simp only [h mem h0]

theorem not_nullSafe_access {γ : Type} {find : Mem → Option α} {f : α → Mem → β × Mem}
    {k : β → MtM γ} {mem : Mem} (h : ∀ mem : Mem, mem.blocks 0 = none → find mem = none) :
    ¬NullSafe (access find f >>= k) mem := by
  intro hsafe
  exact hsafe.1 (nullAccess_node h)

theorem node?_zero {mem : Mem} (h : mem.blocks 0 = none) : mem.node? 0 = none := by
  simp [Mem.node?, h]

theorem internode?_zero {mem : Mem} (h : mem.blocks 0 = none) : mem.internode? 0 = none := by
  simp [Mem.internode?, node?_zero h]

end Accesses

/-! ### The functions -/

section Functions

variable {build : Build} {a p : Addr} {fuel : ℕ}

theorem nonNull_lockFrom (ha : a ≠ 0) (v : NodeVersion) : NonNull (lockFrom build a fuel v) := by
  induction fuel generalizing v with
  | zero => trivial
  | succ fuel ih =>
    have hrest (ok : Bool) : NonNull (if ok = true then do
          masstreeInvariant build (!v.inserting && !v.splitting)
          let w ← readVersion a
          masstreeInvariant build (w == v.lock)
          pure v.lock
        else do
          let w ← readVersion a
          lockFrom build a fuel w) := by
      refine all_ite ?_ ((nonNull_node ha).bind ih)
      refine All.bind nonNull_assert fun _ => (nonNull_node ha).bind fun _ => ?_
      exact All.bind nonNull_assert fun _ => trivial
    exact all_ite (hrest false) (All.bind (nonNull_node ha) hrest)

theorem nonNull_lock (ha : a ≠ 0) : NonNull (lock build fuel a) :=
  All.bind (nonNull_node ha) fun v => nonNull_lockFrom ha v

theorem nonNull_unlock (ha : a ≠ 0) : NonNull (unlock build a) :=
  All.bind (nonNull_node ha) fun _ => All.bind nonNull_assert fun _ => nonNull_node ha

theorem nonNull_markLocked (ha : a ≠ 0) (f : NodeVersion → NodeVersion) :
    NonNull (markLocked build a f) :=
  All.bind (nonNull_node ha) fun _ => All.bind nonNull_assert fun _ => nonNull_node ha

/-- The parent is compared with null before it is locked. -/
theorem nonNull_lockedParent (ha : a ≠ 0) : NonNull (lockedParent build a fuel) := by
  induction fuel with
  | zero => trivial
  | succ fuel ih =>
    refine All.bind (nonNull_node ha) fun _ => All.bind nonNull_assert fun _ => ?_
    refine All.bind (nonNull_node ha) fun q => ?_
    by_cases hq : q = 0
    · rw [if_pos hq]
      trivial
    · rw [if_neg hq]
      refine All.bind (nonNull_lock hq) fun _ => All.bind (nonNull_node ha) fun q' => all_ite ?_ ?_
      · exact All.bind (nonNull_node hq) fun _ => All.bind nonNull_assert fun _ => trivial
      · exact All.bind (nonNull_unlock hq) fun _ => ih

theorem nonNull_makeLayerRoot (ha : a ≠ 0) : NonNull (makeLayerRoot a) :=
  All.bind (nonNull_node ha) fun _ => nonNull_node ha

theorem nonNull_assignCopy {posi : ℕ} {child : Addr} (hp : p ≠ 0) (hc : child ≠ 0) :
    NonNull (assignCopy p posi child) :=
  All.bind (nonNull_node hc) fun _ => nonNull_internode hp

theorem nonNull_giveUp {env : Env} {b : Addr} (ha : a ≠ 0) (hb : b ≠ 0) :
    NonNull (giveUp env a b p) := by
  refine All.bind (nonNull_unlock ha) fun _ => All.bind (nonNull_unlock hb) fun _ => ?_
  by_cases hp : p = 0
  · simp only [hp, ne_eq, not_true_eq_false, if_false]
    trivial
  · simp only [ne_eq, hp, not_false_eq_true, if_true]
    exact All.bind (nonNull_unlock hp) fun _ => trivial

theorem nonNull_unlockLocked {env : Env} (ha : a ≠ 0) : NonNull (unlockLocked env a) :=
  All.bind (nonNull_node ha) fun _ => all_ite (nonNull_unlock ha) trivial

theorem nonNull_makeLeaf {env : Env} {ksufsize depth accessTime : ℕ} {t : NodeMemType} {m : Bool} :
    NonNull (makeLeaf env ksufsize depth t accessTime m) :=
  All.bind nonNull_mem fun _ => All.bind nonNull_onGlobal fun _ => trivial

theorem nonNull_externalBag (l : Leaf) : NonNull (externalBag l) := all_ite nonNull_bag trivial

theorem nonNull_waitUnchanged (ha : a ≠ 0) : NonNull (waitUnchanged a fuel) := by
  induction fuel with
  | zero => trivial
  | succ fuel ih =>
    have hchanged (v : NodeVersion) : NonNull (hasChanged a v true) :=
      All.bind (nonNull_node ha) fun _ => trivial
    exact All.bind (nonNull_node ha) fun v => All.bind (hchanged v) fun _ => all_ite ih trivial

theorem nonNull_memcpyLeaf {new_ : Addr} (hn : new_ ≠ 0) (ha : a ≠ 0) :
    NonNull (memcpyLeaf new_ a) := All.bind (nonNull_leaf ha) fun _ => nonNull_leaf hn

theorem nonNull_deallocateLeaf (ha : a ≠ 0) : NonNull (deallocateLeaf a) :=
  All.bind (nonNull_leaf ha) fun _ =>
    all_ite (All.bind nonNull_bag fun _ => nonNull_node ha) (nonNull_node ha)

/-- The leaves beside the one that is replaced are compared with null before they are told. -/
theorem nonNull_changeLink {n nn : Addr} (hn : n ≠ 0) (hnn : nn ≠ 0) :
    NonNull (changeLink fuel n nn) := by
  have hnext (fuel : ℕ) : NonNull (lockNext n fuel) := by
    induction fuel with
    | zero => trivial
    | succ fuel ih =>
      have hrest (next : ℕ) (ok : Bool) :
          NonNull (if ok = true then pure next else lockNext n fuel) := all_ite nonNull_pure ih
      refine All.bind (nonNull_leaf hn) fun l => all_ite nonNull_pure (all_ite ?_ ?_)
      · exact hrest l.next false
      · exact All.bind (nonNull_leaf hn) (hrest l.next)
  have hprev (fuel : ℕ) : NonNull (lockPrev n true fuel) := by
    induction fuel with
    | zero => trivial
    | succ fuel ih =>
      refine All.bind (nonNull_leaf hn) fun l => ?_
      by_cases h0 : l.prev = 0
      · simp only [h0, beq_self_eq_true, Bool.and_self, if_true]
        trivial
      · simp only [Bool.true_and, beq_iff_eq, h0, if_false]
        exact All.bind (nonNull_leaf h0) fun _ => all_ite trivial ih
  refine All.bind (hnext fuel) fun next => All.bind (nonNull_leaf hnn) fun _ => ?_
  have hset : NonNull (setPrevOf next nn) := by
    unfold setPrevOf
    by_cases h0 : next = 0
    · rw [if_neg (by simp [h0])]
      trivial
    · rw [if_pos h0]
      exact nonNull_leaf h0
  refine All.bind hset fun _ => All.bind (hprev fuel) fun prev => ?_
  by_cases h0 : prev = 0
  · rw [if_neg (by simp [h0])]
    trivial
  · rw [if_pos h0]
    exact All.bind (nonNull_leaf h0) fun _ => nonNull_leaf hnn

end Functions

end Sidle.Masstree
