import Sidle.Art.Update
import Sidle.Trie.Walk

/-!
# Locking and linking

An insertion locks the node it changes and the node above it, and ends by redirecting the
slot of the node above.  The locks are taken and released by the same call, so that the
node above only has its slot changed in the end.

## Main definitions

* `Mem.lockNode` — the memory with one more node locked.
* `HasLock` — some node of the tree is locked.
* `FreeSlot` — the slot of a place, whose owner nobody works on.
* `Linked` — the memory after the slot of a place has been redirected and its owner
  unlocked.

## Main results

* `FreeSlot.run_getLockedParent` — the owner of a place is locked.
* `FreeSlot.run_linkNewNode` — the slot is redirected, and its owner is unlocked.
-/

namespace Sidle.Art

open Prog Machine Outcome

variable {L : ℕ} {env : Env} {s s' : Mem} {t : Tree L}

/-! ### Locks -/

/-- The memory with the node at `a`, if there is one, locked. -/
def Mem.lockNode (s : Mem) (a : Addr) : Mem :=
  match s.node? a with
  | some n => s.setNode a (n.setVersion (setLock n.version))
  | none => s

/-- Some node of the tree is locked. -/
def HasLock (s : Mem) (t : Tree L) : Prop := ∃ n, t.live n ∧ Locked s n

theorem Mem.lockNode_of_node? {a : Addr} {n : ArtNode} (h : s.node? a = some n) :
    s.lockNode a = s.setNode a (n.setVersion (setLock n.version)) := by
  unfold lockNode
  rw [h]

theorem Mem.node?_lockNode_self {a : Addr} {n : ArtNode} (h : s.node? a = some n) :
    (s.lockNode a).node? a = some (n.setVersion (setLock n.version)) := by
  rw [lockNode_of_node? h, node?_setNode_self]

theorem Mem.heap_lockNode_of_ne {a x : Addr} (h : x ≠ a) : (s.lockNode a).heap x = s.heap x := by
  unfold lockNode
  split
  · exact Function.update_of_ne h _ _
  · rfl

theorem Mem.node?_lockNode_of_ne {a x : Addr} (h : x ≠ a) : (s.lockNode a).node? x = s.node? x :=
  node?_congr (heap_lockNode_of_ne h)

theorem Mem.node?_lockNode_congr {a : Addr} (h : s'.node? a = s.node? a) :
    (s'.lockNode a).node? a = (s.lockNode a).node? a := by
  cases hn : s.node? a with
  | none => simp only [lockNode, h, hn]
  | some n => rw [node?_lockNode_self hn, node?_lockNode_self (h.trans hn)]

/-- A lock does not change a depth. -/
theorem Mem.depth_lockNode (a : Addr) : ((s.lockNode a).node? a).map (·.sidleMeta.depth) =
    (s.node? a).map (·.sidleMeta.depth) := by
  cases h : s.node? a with
  | none => rw [lockNode, h, h]
  | some n =>
    rw [Mem.node?_lockNode_self h]
    rfl

theorem Mem.leaf?_lockNode (a x : Addr) : (s.lockNode a).leaf? x = s.leaf? x := by
  by_cases h : x = a
  · subst h
    unfold lockNode
    split
    · simp [leaf?, heap_of_node? ‹_›]
    · rfl
  · exact leaf?_congr (heap_lockNode_of_ne h)

@[simp] theorem Mem.root_lockNode (a : Addr) : (s.lockNode a).root = s.root := by
  unfold lockNode; split <;> rfl

@[simp] theorem Mem.allocated_lockNode (a : Addr) : (s.lockNode a).allocated = s.allocated := by
  unfold lockNode; split <;> rfl

@[simp] theorem Mem.global_lockNode (a : Addr) : (s.lockNode a).global = s.global := by
  unfold lockNode; split <;> rfl

theorem Mem.Fresh.lockNode (hs : s.Fresh env) (a : Addr) : (s.lockNode a).Fresh env := by
  unfold Mem.lockNode
  split
  · exact hs.setNode (hs.exists_addr_of_node? ‹_›) _
  · exact hs

theorem not_locked {a : Addr} {n : ArtNode} (h : s.node? a = some n) (hl : ¬ Locked s a) :
    isLocked n.version = false := by
  by_contra hc
  exact hl ⟨n, h, by simpa using hc⟩

theorem Locked.congr {a : Addr} {n n' : ArtNode} (h : s.node? a = some n)
    (h' : s'.node? a = some n') (hv : n'.version = n.version) : Locked s' a ↔ Locked s a := by
  simp [Locked, h, h', hv]

/-- Unlocking a node that has been locked. -/
theorem unlockedVersion_setLock {v : Version} (hl : isLocked v = false)
    (he : isExpanding v = false) : unlockedVersion (setLock v) = v := by
  have he' : isExpanding (setLock v) = false := by
    rw [← view_expanding, view_setLock]
    exact he
  rw [unlockedVersion, he', if_neg (by simp)]
  exact Word.clearFlag_setFlag (by decide) hl

theorem unlockedVersion_of_unlocked {v : Version} (hl : isLocked v = false)
    (he : isExpanding v = false) : unlockedVersion v = v := by
  rw [unlockedVersion, he, if_neg (by simp)]
  exact Word.clearFlag_of_flag (by decide) hl

theorem isExpanding_setLock (v : Version) : isExpanding (setLock v) = isExpanding v :=
  (view_fields (view_setLock v)).2.2.2.2.2.2

theorem Mem.NullOrNode.congr {a : Addr} (hs' : s'.Fresh env) (h : s'.node? a = s.node? a)
    (hp : s.NullOrNode a) : s'.NullOrNode a := by
  by_cases ha : a = 0
  · rw [ha]
    exact hs'.nullOrNode_zero
  · simpa only [NullOrNode, if_neg ha, h] using hp

theorem Mem.NullOrNode.lockNode {a : Addr} (hs : s.Fresh env) (h : s.NullOrNode a) :
    (s.lockNode a).NullOrNode a := by
  by_cases ha : a = 0
  · subst ha
    exact (hs.lockNode 0).nullOrNode_zero
  · simp only [NullOrNode, if_neg ha] at h ⊢
    obtain ⟨n, hn⟩ := h
    exact ⟨_, node?_lockNode_self hn⟩

/-- No block in use is one that is still to be allocated. -/
theorem Mem.Fresh.ne_addr (hs : s.Fresh env) {x : Addr} (hx : x = 0 ∨ s.heap x ≠ none) {j : ℕ}
    (hj : s.allocated ≤ j) : x ≠ env.addr j := by
  rintro rfl
  rcases hx with h0 | hne
  · exact absurd h0 (Nat.ne_of_gt (env.addr_pos j))
  · obtain ⟨i, hi, heq⟩ := hs _ hne
    have := env.addr_injective heq
    omega

/-- A memory in which only the next `k` blocks are new. -/
theorem Mem.Fresh.of_new (hs : s.Fresh env) {k : ℕ} (hk : s'.allocated = s.allocated + k)
    (h : ∀ x, s.heap x = none → (∀ j < k, x ≠ env.addr (s.allocated + j)) → s'.heap x = none) :
    s'.Fresh env :=
  hs.of_heap (by omega) fun x hx hsx => by
    by_contra hne
    refine hx (h x hsx fun j hj heq => hne ⟨s.allocated + j, by omega, heq.symm⟩)

theorem LeafSplit.fresh {a : Addr} {l : LeafNode} {key : Key} {nd : ArtNode} (hs : s.Fresh env)
    (hl : s.leaf? a = some l) (h : LeafSplit env s s' a l key nd) : s'.Fresh env :=
  hs.of_new h.allocated fun x hx hne => by
    rw [h.other x (hne 0 (by omega)) (hne 1 (by omega)), hx]
    rintro rfl
    simp [Mem.heap_of_leaf? hl] at hx

theorem PrefixSplit.fresh {an : Addr} {n nd : ArtNode} {key : Key} {common : ℕ} (hs : s.Fresh env)
    (hn : s.node? an = some n) (h : PrefixSplit env s s' an n key common nd) : s'.Fresh env :=
  hs.of_new h.allocated fun x hx hne => by
    rw [h.other x (hne 0 (by omega)) (hne 1 (by omega)), hx]
    rintro rfl
    simp [Mem.heap_of_node? hn] at hx

theorem GrownMem.fresh {an : Addr} {n nd : ArtNode} (hp : GrowPre env s an n)
    (h : GrownMem env s s' n nd) : s'.Fresh env :=
  hp.fresh.of_new h.allocated fun x hx hne => by
    rw [h.other x (hne 0 (by omega)), hx]
    intro b hb
    refine (hp.child b x hb).2.2.elim id fun ⟨m, hm⟩ => ?_
    simp [Mem.heap_of_node? hm] at hx

/-- What a lock leaves of a node. -/
structure LockedNode (n n' : ArtNode) : Prop where
  eq : n' = n.setVersion (setLock n.version)
  ok : n.Ok → n'.Ok
  room : n'.HasRoom ↔ n.HasRoom
  slotOf : ∀ b, n'.slotOf b = n.slotOf b
  childAt : ∀ b, n'.childAt b = n.childAt b
  offset : getOffset n'.version = getOffset n.version
  prefixLen : getPrefixLen n'.version = getPrefixLen n.version
  old : isOld n'.version = isOld n.version
  expanding : isExpanding n'.version = isExpanding n.version

theorem lockedNode (n : ArtNode) : LockedNode n (n.setVersion (setLock n.version)) := by
  obtain ⟨ho, hc, hpl, hty, hold, -, hex⟩ := view_fields (view_setLock n.version)
  refine ⟨rfl, fun hok => hok.setVersion hty hc, ?_, fun b => ArtNode.slotOf_setVersion hc b,
    fun b => ArtNode.childAt_setVersion hc b, ho, hpl, hold, hex⟩
  exact ⟨fun h => (ArtNode.setVersion_self n ▸ h.setVersion (v := n.version) hc.symm),
    fun h => h.setVersion hc⟩

/-- A locked node stands for the same node of the trie. -/
theorem NodeRep.lock {n : Addr} {nd : ArtNode} (h : NodeRep s t n nd) (hk : LeavesKept s s') :
    NodeRep s' t n (nd.setVersion (setLock nd.version)) := by
  have hlk := lockedNode nd
  refine ⟨hlk.ok h.ok, hlk.old.trans h.old, hlk.expanding.trans h.expanding, ?_, fun i hi => ?_,
    fun b => ?_, fun q hq hget => ?_⟩
  · rw [hlk.offset, hlk.prefixLen, h.length]
  · rw [hlk.prefixLen] at hi
    rw [hlk.offset]
    exact h.prefix_ i hi
  · rw [hlk.childAt]
    have hc := h.child b
    generalize nd.childAt b = o at hc
    generalize t.edge n b = o' at hc
    cases hc with
    | none => exact .none
    | some hr => exact .some (hr.mono hk)
  · rw [hlk.offset]
    exact h.place q hq hget

/-- A lock is not part of the trie. -/
theorem Represents.lockNode (h : Represents env s t) (a : Addr) :
    Represents env (s.lockNode a) t := by
  have hk : LeavesKept s (s.lockNode a) := fun x l hl =>
    ⟨l, (Mem.leaf?_lockNode a x).trans hl, rfl, rfl⟩
  refine ⟨h.fresh.lockNode a, by rw [Mem.global_lockNode]; exact h.usage, ?_, fun n hn => ?_⟩
  · have hroot := h.root
    rw [Mem.root_lockNode]
    cases hr : t.root with
    | none => rwa [hr] at hroot
    | some r =>
      rw [hr] at hroot
      exact hroot.mono hk
  · obtain ⟨nd, hnd, hrep⟩ := h.node n hn
    by_cases hna : n = a
    · subst hna
      exact ⟨_, Mem.node?_lockNode_self hnd, hrep.lock hk⟩
    · exact ⟨nd, (Mem.node?_lockNode_of_ne hna).trans hnd,
        hrep.transfer hk rfl (fun _ => rfl) hrep.place⟩

/-- The byte of the key behind a prefix. -/
theorem run_keyAt_behind {key l : Key} {b : UInt8} (hb : l ++ [b] <+: key) (st : Mem) :
    env.machine.run (keyAt key l.length) st = done b st := by
  have hlt := hb.length_lt_of_append_singleton
  have hkey := (List.append_singleton_prefix_iff.mp hb).2
  rw [List.getElem?_eq_getElem hlt, Option.some.injEq] at hkey
  rw [run_keyAt hlt, hkey]

/-- The slot of the place is `slot`, and nobody works on the node it belongs to. -/
inductive FreeSlot (s : Mem) : Place Addr UInt8 → Slot → Prop
  | root : FreeSlot s .root .root
  | edge {m : Addr} {b : UInt8} {pn : ArtNode} {i : ℕ} (hm : m ≠ 0) (hpn : s.node? m = some pn)
      (hok : pn.Ok) (hold : isOld pn.version = false) (hl : isLocked pn.version = false)
      (hex : isExpanding pn.version = false) (hi : pn.slotOf b = some i) :
      FreeSlot s (.edge m b) (.child m i)

/-- The parent of a node below a free slot is locked. -/
theorem FreeSlot.run_getLockedParent {q : Place Addr UInt8} {slot : Slot} (h : FreeSlot s q slot)
    (hs : s.Fresh env) {c : Addr} {n₁ : ArtNode} {s₁ : Mem} (hc : c ≠ owner q)
    (hn₁ : s₁.node? c = some n₁) (hparent : n₁.parent = owner q)
    (hown : s₁.node? (owner q) = s.node? (owner q)) (fuel : ℕ) :
    env.machine.run (artNodeGetLockedParent (fuel + 2) c) s₁ =
      done (owner q) (s₁.lockNode (owner q)) := by
  cases h with
  | root =>
    have hnone : s₁.node? 0 = none := hown.trans hs.node?_zero
    rw [run_artNodeGetLockedParent_null hn₁ hparent, owner, Mem.lockNode, hnone]
  | @edge m b pn i hm hpn hok hold hl hex hi =>
    have hpn₁ : s₁.node? m = some pn := hown.trans hpn
    have hm0 : n₁.parent ≠ 0 := hparent ▸ hm
    have hrun : env.machine.run (artNodeGetLockedParent (fuel + 2) c) s₁ = _ :=
      run_artNodeGetLockedParent hn₁ hm0 (hparent ▸ hc) (hparent ▸ hpn₁) hl hold fuel
    rw [hparent] at hrun
    rw [hrun, Mem.lockNode_of_node? (show s₁.node? (owner (.edge m b)) = some pn from hpn₁)]

namespace Represents

variable (h : Represents env s t)

include h

theorem nullOrNode_owner {q : Place Addr UInt8} (hq : t.IsPlace q) : s.NullOrNode (owner q) := by
  cases q with
  | root => exact h.fresh.nullOrNode_zero
  | edge m b =>
    obtain ⟨pn, hpn, -⟩ := h.node m hq
    exact h.fresh.nullOrNode_of_node? hpn

theorem owner_used {q : Place Addr UInt8} (hq : t.IsPlace q) :
    owner q = 0 ∨ s.heap (owner q) ≠ none := by
  cases q with
  | root => exact Or.inl rfl
  | edge m b =>
    obtain ⟨pn, hpn, -⟩ := h.node m hq
    exact Or.inr (by simp [owner, Mem.heap_of_node? hpn])

theorem leaf_ne_owner {q : Place Addr UInt8} {a : Addr} {l : LeafNode} (hq : t.IsPlace q)
    (hl : s.leaf? a = some l) : a ≠ owner q := by
  cases q with
  | root =>
    obtain ⟨i, -, rfl⟩ := h.fresh.exists_addr_of_leaf? hl
    exact Nat.ne_of_gt (env.addr_pos i)
  | edge m b =>
    obtain ⟨pn, hpn, -⟩ := h.node m hq
    exact (Mem.ne_of_node?_of_leaf? hpn hl).symm

/-- A locked owner is a locked node of the tree. -/
theorem hasLock_of_owner {q : Place Addr UInt8} (hq : t.IsPlace q) (hl : Locked s (owner q)) :
    HasLock s t := by
  cases q with
  | root =>
    obtain ⟨n, hn, -⟩ := hl
    exact absurd rfl (h.fresh.ne_zero_of_node? hn)
  | edge m b => exact ⟨m, hq, hl⟩

/-- The owner of a place is above what the place leads to. -/
theorem owner_ne {q : Place Addr UInt8} {c : Addr} (hq : t.IsPlace q)
    (hget : t.get q = some (.node c)) : c ≠ owner q := by
  cases q with
  | root => exact h.ne_zero (Trie.live_of_place hq hget)
  | edge m b =>
    rintro rfl
    exact absurd (Trie.length_lt_of_edge hq hget) (Nat.lt_irrefl _)

/-- The slot of a place whose owner is not locked. -/
theorem freeSlot {q : Place Addr UInt8} {slot : Slot} (hq : t.IsPlace q) (hslot : SlotAt s q slot)
    (hl : ¬ Locked s (owner q)) : FreeSlot s q slot := by
  cases q with
  | root =>
    obtain rfl : slot = .root := hslot
    exact .root
  | edge m b =>
    obtain ⟨pn, i, hpn, hi, rfl⟩ := hslot
    obtain ⟨pn', hpn', hrep⟩ := h.node m hq
    obtain rfl := Option.some.inj (hpn.symm.trans hpn')
    exact .edge (h.fresh.ne_zero_of_node? hpn) hpn hrep.ok hrep.old (not_locked hpn hl)
      hrep.expanding hi

theorem run_getLockedParent_locked {q : Place Addr UInt8} {c : Addr} {n₁ : ArtNode} {s₁ : Mem}
    (hn₁ : s₁.node? c = some n₁) (hparent : n₁.parent = owner q)
    (hown : s₁.node? (owner q) = s.node? (owner q)) (hl : Locked s (owner q)) (fuel : ℕ) :
    env.machine.run (artNodeGetLockedParent fuel c) s₁ = diverged := by
  obtain ⟨pn, hpn, hlocked⟩ := hl
  have hp0 : owner q ≠ 0 := h.fresh.ne_zero_of_node? hpn
  exact run_artNodeGetLockedParent_locked hn₁ (hparent ▸ hp0) (by rw [hparent, hown, hpn])
    hlocked fuel

/-- The byte of the key by which its walk has come to a place. -/
theorem run_keyBefore {q : Place Addr UInt8} {key : Key} (hq : t.IsPlace q)
    (hpath : t.path q <+: key) :
    ∃ byte, (∀ m b, q = .edge m b → byte = b) ∧
      ∀ st, env.machine.run (keyBefore (owner q) key (t.path q).length) st = done byte st := by
  cases q with
  | root => exact ⟨0, by simp, fun st => by simp [keyBefore, owner]⟩
  | edge m b =>
    refine ⟨b, by simp, fun st => ?_⟩
    have hlen : (t.path (.edge m b)).length = (t.label m).length + 1 := by simp
    rw [keyBefore, if_pos (show owner (.edge m b) ≠ 0 from h.ne_zero hq), hlen,
      if_neg (Nat.succ_ne_zero _), Nat.add_sub_cancel, run_keyAt_behind hpath]

end Represents

/-! ### Linking -/

/-- The memory `s₂` after the slot of `q` has been redirected in `s₁` and the owner of `q` has
been unlocked; `s` is the memory before any lock. -/
structure Linked (env : Env) (s s₁ s₂ : Mem) (q : Place Addr UInt8) (new_ : Addr) : Prop where
  redirected : Redirected s s₂ q new_
  other : ∀ x, x ≠ owner q → s₂.heap x = s₁.heap x
  allocated : s₂.allocated = s₁.allocated
  global : s₂.global = s₁.global
  fresh : s₂.Fresh env

/-- Another node may be written afterwards. -/
theorem Linked.setNode {q : Place Addr UInt8} {new_ x : Addr} {s₁ s₂ : Mem}
    (h : Linked env s s₁ s₂ q new_) (hx : x ≠ owner q)
    (hs₁ : ∃ i, i < s₁.allocated ∧ env.addr i = x) (n : ArtNode) :
    Linked env s (s₁.setNode x n) (s₂.setNode x n) q new_ where
  redirected := by
    cases q with
    | root => exact h.redirected
    | edge m b =>
      obtain ⟨hroot, nd, i, hnd, hi, hnd'⟩ := h.redirected
      exact ⟨hroot, nd, i, hnd, hi, (Mem.node?_setNode_of_ne _ _ (Ne.symm hx)).trans hnd'⟩
  other y hy := by
    by_cases hyx : y = x
    · rw [hyx]
      simp
    · rw [Mem.setNode_heap, Mem.setNode_heap, Function.update_of_ne hyx, Function.update_of_ne hyx,
        h.other y hy]
  allocated := h.allocated
  global := h.global
  fresh := h.fresh.setNode (h.allocated ▸ hs₁) n

/-- The end of a redirection: the slot of the owner is written, and the owner unlocked. -/
theorem run_storeUnlock {m : Addr} {b : UInt8} {i : ℕ} {s₁ : Mem} {pn : ArtNode}
    (hpn : s.node? m = some pn) (hok : pn.Ok) (hl : isLocked pn.version = false)
    (hex : isExpanding pn.version = false) (hi : pn.slotOf b = some i)
    (hown : s₁.node? m = some (pn.setVersion (setLock pn.version))) (hroot : s₁.root = s.root)
    (hfresh : s₁.Fresh env) (new_ : Addr) :
    let s₂ := s₁.setNode m ((pn.setVersion (setLock pn.version)).setChild i new_)
    env.machine.run (storeSlot (.child m i) new_) s₁ = done () s₂ ∧
      env.machine.run (artNodeUnlock m) s₂ = done () (s₁.setNode m (pn.setChild i new_)) ∧
      Linked env s s₁ (s₁.setNode m (pn.setChild i new_)) (.edge m b) new_ := by
  have hlt : i < pn.layout.capacity := ArtNode.slotOf_lt hok hi
  refine ⟨?_, ?_, ⟨⟨hroot, pn, i, hpn, hi, Mem.node?_setNode_self ..⟩, fun x hx => ?_, rfl, rfl,
    hfresh.setNode (hfresh.exists_addr_of_node? hown) _⟩⟩
  · exact run_store (f := .child i) hown (by exact hlt)
  · rw [run_artNodeUnlock (Mem.node?_setNode_self ..), Mem.setNode_setNode]
    have hv := unlockedVersion_setLock hl hex
    simp only [ArtNode.setChild, ArtNode.setVersion, hv]
  · exact Function.update_of_ne hx _ _

/-- The end of an insertion that has locked the owner of the place and built a new node. -/
theorem FreeSlot.run_linkNewNode {q : Place Addr UInt8} {slot : Slot} (h : FreeSlot s q slot)
    {byte : UInt8} {new_ : Addr} {nd : ArtNode} {s₁ : Mem}
    (hbyte : ∀ m b, q = .edge m b → byte = b)
    (hown : s₁.node? (owner q) = (s.lockNode (owner q)).node? (owner q))
    (hroot : s₁.root = s.root) (hfresh : s₁.Fresh env) (hnew : s₁.node? new_ = some nd)
    (hparent : nd.parent = owner q) (hne : new_ ≠ owner q) :
    ∃ s₂, env.machine.run (linkNewNode (owner q) slot byte new_) s₁ = done () s₂ ∧
      Linked env s s₁ s₂ q new_ := by
  cases h with
  | root =>
    refine ⟨s₁.setRoot new_, ?_, ⟨rfl, fun _ _ => rfl, rfl, rfl, hfresh.setRoot _⟩⟩
    simp [linkNewNode, owner, storeSlot, run_storeRoot]
  | @edge m b pn i hm hpn hok hold hl hex hi =>
    obtain rfl := hbyte m b rfl
    have hown' : s₁.node? m = some (pn.setVersion (setLock pn.version)) :=
      hown.trans (Mem.node?_lockNode_self hpn)
    have hlk := lockedNode pn
    obtain ⟨hstore, hunlock, hlinked⟩ := run_storeUnlock hpn hok hl hex hi hown' hroot hfresh new_
    refine ⟨_, ?_, hlinked⟩
    have hne' : new_ ≠ m := hne
    have hnd := (Mem.node?_setNode_of_ne s₁
      ((pn.setVersion (setLock pn.version)).setChild i new_) hne').trans hnew
    unfold linkNewNode artNodeReplaceChild
    rw [if_pos (show owner (.edge m byte) ≠ 0 from hm)]
    refine (env.machine.run_bind_of_done (a := ()) ?_).trans hunlock
    refine (env.machine.run_bind_of_done (run_load (f := .version) hown' trivial)).trans ?_
    refine (env.machine.run_bind_of_done
      (run_artNodeFindChild hown' (hlk.ok hok) byte)).trans ?_
    rw [hlk.slotOf, hi]
    refine (env.machine.run_bind_of_done hstore).trans ?_
    refine (run_store (f := .parent) hnd trivial).trans ?_
    rw [show (NodeField.parent).set (owner (.edge m byte)) nd = nd from hparent ▸ rfl,
      Mem.setNode_eq_self hnd]

end Sidle.Art
