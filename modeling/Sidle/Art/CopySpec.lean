import Mathlib.Data.List.Find
import Sidle.Art.Traverse

/-!
# Moving an internal node

The steps of the migration of an internal node: the copy of its bytes, the redirection of the
slot that holds it, and the adoption of its children by the copy.

## Main definitions

* `Copied` — a node with the bytes of another one.

## Main results

* `run_memcpyNode` — `memcpy` between two nodes of one layout.
* `run_replaceOldChildPtr_found` — a search for a pointer that is there.
* `run_replaceOldParentPtr` — the adoption of all children.
* `run_newArtNode_migration` — the allocation of the copy.
-/

namespace Sidle.Art

open Prog Machine Outcome

variable {env : Env} {s : Mem} {an : Addr} {n m : ArtNode}

/-! ### Copying -/

/-- The node `m` has the bytes of `n` that belong to its layout. -/
structure Copied (n m : ArtNode) : Prop where
  layout : m.layout = n.layout
  version : m.version = n.version
  prefix_ : m.prefix_ = n.prefix_
  parent : m.parent = n.parent
  sidleMeta : m.sidleMeta = n.sidleMeta
  key : ∀ i < n.layout.keyCapacity, m.key i = n.key i
  index : n.layout = .node48 → m.index = n.index
  child : ∀ i < n.layout.capacity, m.child i = n.child i

theorem NodeType.Keyed.keyCapacity {t : NodeType} (h : t.Keyed) : t.keyCapacity = t.capacity := by
  rcases h with rfl | rfl <;> rfl

namespace Copied

variable (h : Copied n m) (hok : n.Ok)

include h

include hok

theorem key_of_lt (hk : n.layout.Keyed) {i : ℕ} (hi : i < getCount n.version) : m.key i = n.key i :=
  h.key i (hk.keyCapacity ▸ Nat.lt_of_lt_of_le hi hok.count_le)

theorem slotOf (b : UInt8) : m.slotOf b = n.slotOf b := by
  rcases ArtNode.layout_cases n.layout with hk | hk | hk
  · rw [ArtNode.slotOf_keyed hk, ArtNode.slotOf_keyed (h.layout ▸ hk), h.version]
    -- the search looks at keys within the layout only
    exact List.find?_congr fun i hi => by rw [h.key_of_lt hok hk (List.mem_range.mp hi)]
  · rw [ArtNode.slotOf_node48 hk, ArtNode.slotOf_node48 (h.layout.trans hk), h.index hk]
  · rw [ArtNode.slotOf_node256 hk, ArtNode.slotOf_node256 (h.layout.trans hk),
      h.child b.toNat (by rw [hk]; exact b.toNat_lt)]

theorem childAt (b : UInt8) : m.childAt b = n.childAt b := by
  rw [ArtNode.childAt, ArtNode.childAt, h.slotOf hok]
  cases hi : n.slotOf b with
  | none => rfl
  | some i => exact congrArg some (h.child i (ArtNode.slotOf_lt hok hi))

theorem ok : m.Ok where
  type := by rw [h.version, h.layout, hok.type]
  count_le := by rw [h.version, h.layout]; exact hok.count_le
  key_inj hk i j hi hj := by
    rw [h.layout] at hk
    rw [h.version] at hi hj
    rw [h.key_of_lt hok hk hi, h.key_of_lt hok hk hj]
    exact hok.key_inj hk i j hi hj
  index_le hk := by
    rw [h.layout] at hk
    rw [h.index hk, h.version]
    exact hok.index_le hk
  index_inj hk := by
    rw [h.layout] at hk
    rw [h.index hk]
    exact hok.index_inj hk

end Copied

theorem run_copyField {β : Type} {dst src : Addr} (f : NodeField β) (hsrc : s.node? src = some n)
    (hdst : s.node? dst = some m) (hn : f.InBounds n.layout) (hm : f.InBounds m.layout) :
    env.machine.run (copyField dst src f) s = done () (s.setNode dst (f.set (f.get n) m)) := by
  simp [copyField, lift, run, Env.machine, Env.exec, hsrc, hdst, hn, hm]

/-- A loop of `memcpy` over an array. -/
theorem run_copyLoop {α : Type} {dst src : Addr} (hne : src ≠ dst) (f : ℕ → NodeField α) (k : ℕ)
    (hsrc : s.node? src = some n) {m : ℕ → ArtNode}
    (hstep : ∀ i < k, (f i).set ((f i).get n) (m i) = m (i + 1))
    (hn : ∀ i < k, (f i).InBounds n.layout) (hm : ∀ i < k, (f i).InBounds (m i).layout) :
    env.machine.run (forRange 0 k fun i => copyField dst src (f i)) (s.setNode dst (m 0)) =
      done () (s.setNode dst (m k)) := by
  have hloop := env.machine.run_forRange 0 k (p := fun i => copyField dst src (f i))
    (f := fun i => s.setNode dst (m i)) fun i _ hi => by
      have hi : i < k := by omega
      rw [run_copyField (f i) ((Mem.node?_setNode_of_ne _ _ hne).trans hsrc)
        (Mem.node?_setNode_self ..) (hn i hi) (hm i hi), Mem.setNode_setNode, hstep i hi]
  rwa [Nat.zero_add] at hloop

/-- The copies of the first `i` elements of an array over the bytes. -/
def copiedBytes (f g : UInt8 → UInt8) (i : ℕ) (b : UInt8) : UInt8 :=
  if b.toNat < i then f b else g b

theorem copiedBytes_zero (f g : UInt8 → UInt8) : copiedBytes f g 0 = g := by
  funext b
  simp [copiedBytes]

theorem copiedBytes_all (f g : UInt8 → UInt8) : copiedBytes f g 256 = f := by
  funext b
  exact if_pos b.toNat_lt

theorem update_copiedBytes (f g : UInt8 → UInt8) {i : ℕ} (hi : i < 256) :
    Function.update (copiedBytes f g i) (UInt8.ofNat i) (f (UInt8.ofNat i)) =
      copiedBytes f g (i + 1) := by
  funext b
  have hb : b = UInt8.ofNat i ↔ b.toNat = i := by
    rw [← UInt8.toNat_inj, UInt8.toNat_ofNat', Nat.mod_eq_of_lt (by omega)]
  by_cases hbi : b = UInt8.ofNat i
  · have hlt : b.toNat < i + 1 := Nat.lt_succ_of_le (Nat.le_of_eq (hb.mp hbi))
    rw [copiedBytes, if_pos hlt, hbi, Function.update_self]
  · have hne := hb.not.mp hbi
    rw [Function.update_of_ne hbi]
    simp only [copiedBytes, show b.toNat < i + 1 ↔ b.toNat < i by omega]

/-- `memcpy` between two nodes of one layout. -/
theorem run_memcpyNode {dst src : Addr} (hne : src ≠ dst) (hsrc : s.node? src = some n)
    (hdst : s.node? dst = some m) (hl : m.layout = n.layout) :
    ∃ m', env.machine.run (memcpyNode dst src n.layout) s = done () (s.setNode dst m') ∧
      Copied n m' := by
  let m₀ : ArtNode := ⟨m.layout, n.version, n.prefix_, n.new_, n.parent, n.sidleMeta, m.key,
    m.index, m.child⟩
  let m₁ (i : ℕ) : ArtNode := { m₀ with key := copied n.key m.key i }
  let m₂ (i : ℕ) : ArtNode :=
    { m₁ n.layout.keyCapacity with index := copiedBytes n.index m.index i }
  let r₂ := if n.layout = .node48 then 256 else 0
  let m₃ (i : ℕ) : ArtNode := { m₂ r₂ with child := copied n.child m.child i }
  have hkeys : env.machine.run (forRange 0 n.layout.keyCapacity fun i => copyField dst src (.key i))
      (s.setNode dst (m₁ 0)) = done () (s.setNode dst (m₁ n.layout.keyCapacity)) :=
    run_copyLoop hne .key _ hsrc
      (fun i _ => by simp only [NodeField.set, NodeField.get, m₁, update_copied]) (fun i hi => hi)
    (fun i hi => by simpa only [NodeField.InBounds, m₁, m₀, hl] using hi)
  have hindex : env.machine.run (if n.layout = .node48 then
      forRange 0 256 fun i => copyField dst src (.index (UInt8.ofNat i)) else pure ())
      (s.setNode dst (m₂ 0)) = done () (s.setNode dst (m₂ r₂)) := by
    by_cases hk : n.layout = .node48
    · simp only [r₂, if_pos hk]
      exact run_copyLoop hne (fun i => .index (UInt8.ofNat i)) 256 hsrc (m := m₂)
        (fun i hi => by simp only [NodeField.set, NodeField.get, m₂, update_copiedBytes _ _ hi])
        (fun _ _ => hk) (fun _ _ => hl.trans hk)
    · simp only [r₂, if_neg hk]
      rfl
  have hchild : env.machine.run (forRange 0 n.layout.capacity fun i => copyField dst src (.child i))
      (s.setNode dst (m₃ 0)) = done () (s.setNode dst (m₃ n.layout.capacity)) :=
    run_copyLoop hne .child _ hsrc
      (fun i _ => by simp only [NodeField.set, NodeField.get, m₃, update_copied]) (fun i hi => hi)
    (fun i hi => by simpa only [NodeField.InBounds, m₃, m₂, m₁, m₀, hl] using hi)
  have h₁ : m₁ 0 = m₀ := by simp only [m₁, copied_zero, m₀]
  have h₂ : m₂ 0 = m₁ n.layout.keyCapacity := by simp only [m₂, copiedBytes_zero, m₁, m₀]
  have h₃ : m₃ 0 = m₂ r₂ := by simp only [m₃, copied_zero, m₂, m₁, m₀]
  have hself (a : ArtNode) : (s.setNode dst a).node? src = some n :=
    (Mem.node?_setNode_of_ne _ _ hne).trans hsrc
  refine ⟨m₃ n.layout.capacity, ?_, ⟨hl, rfl, rfl, rfl, rfl, fun i hi => copied_of_lt hi,
    fun hk => ?_, fun i hi => copied_of_lt hi⟩⟩
  · unfold memcpyNode
    refine (env.machine.run_bind_of_done
      (run_copyField .version hsrc hdst trivial trivial)).trans ?_
    refine (env.machine.run_bind_of_done
      (run_copyField .prefixes (hself _) (Mem.node?_setNode_self ..) trivial trivial)).trans ?_
    rw [Mem.setNode_setNode]
    refine (env.machine.run_bind_of_done
      (run_copyField .new_ (hself _) (Mem.node?_setNode_self ..) trivial trivial)).trans ?_
    rw [Mem.setNode_setNode]
    refine (env.machine.run_bind_of_done
      (run_copyField .parent (hself _) (Mem.node?_setNode_self ..) trivial trivial)).trans ?_
    rw [Mem.setNode_setNode]
    refine (env.machine.run_bind_of_done
      (run_copyField .sidleMeta (hself _) (Mem.node?_setNode_self ..) trivial trivial)).trans ?_
    rw [Mem.setNode_setNode]
    refine (env.machine.run_bind_of_done (h₁ ▸ hkeys)).trans ?_
    have hend := env.machine.run_bind_of_done
      (h := fun _ => forRange 0 n.layout.capacity fun i => copyField dst src (.child i))
        (h₂ ▸ hindex)
    rw [← h₃, hchild] at hend
    rw [← hend]
    -- the rest of the copy stands behind both branches
    by_cases hk : n.layout = .node48
    · rw [if_pos hk, if_pos hk]
    · rw [if_neg hk, if_neg hk]
      rfl
  · change copiedBytes n.index m.index (if n.layout = .node48 then 256 else 0) = n.index
    rw [if_pos hk, copiedBytes_all]

/-! ### Adopting -/

/-- The callback of `replace_old_parent_ptr`. -/
def adoptVisit (an : Addr) (c : Ptr) : ArtM Bool :=
  if isLeaf c then pure true
  else do
    store c .parent an
    pure true

theorem Mem.Adopted.run_adoptVisit {s' : Mem} {D : Ptr → Prop} (h : s.Adopted s' an D) {c : Ptr}
    (hc : isLeaf c = true ∨ ∃ m, s.node? c = some m) (hne : c ≠ an) :
    ∃ s'', env.machine.run (adoptVisit an c) s' = done true s'' ∧ s''.heap an = s'.heap an ∧
      s.Adopted s'' an fun a => D a ∨ a = c := by
  obtain ⟨s'', hrun, hheap, hadopt⟩ := h.run_adopt env hc hne
  refine ⟨s'', ?_, hheap, hadopt⟩
  have hvisit : adoptVisit an c = (adopt c an >>= fun _ => pure true) := by
    unfold adoptVisit adopt
    split <;> rfl
  rw [hvisit, env.machine.run_bind_of_done hrun]
  rfl

/-- A loop that visits the children of `an`, of which `D` have been adopted before. -/
theorem Mem.Adopted.run_visitChildren {s₁ : Mem} {D : Ptr → Prop} (h : s.Adopted s₁ an D)
    (hn : s₁.node? an = some n) {slotAt : ℕ → ArtM (Option ℕ)} {sl : ℕ → Option ℕ} (k i : ℕ)
    (hslot : ∀ u : Mem, u.node? an = some n → ∀ x, i ≤ x → x < i + k →
      env.machine.run (slotAt x) u = done (sl x) u)
    (hc : ∀ x, i ≤ x → x < i + k → ∀ j, sl x = some j → j < n.layout.capacity ∧ n.child j ≠ an ∧
      (isLeaf (n.child j) = true ∨ ∃ m, s.node? (n.child j) = some m)) :
    ∃ s₂, env.machine.run (visitChildren an slotAt (fun _ c => adoptVisit an c) k i) s₁ =
        done true s₂ ∧ s₂.heap an = s₁.heap an ∧
      s.Adopted s₂ an fun a => D a ∨ ∃ x, i ≤ x ∧ x < i + k ∧ ∃ j,
        sl x = some j ∧ n.child j = a := by
  induction k generalizing i s₁ D with
  | zero =>
    refine ⟨s₁, rfl, rfl, h.congr fun a => ⟨.inl, ?_⟩⟩
    rintro (hD | ⟨x, hx, hxk, -⟩)
    · exact hD
    · omega
  | succ k ih =>
    have hi := hslot s₁ hn i (Nat.le_refl i) (by omega)
    unfold visitChildren
    -- what the first round and the others have adopted
    have hsplit (D₁ : Ptr → Prop) (hD₁ : ∀ a, D₁ a ↔ D a ∨ ∃ j, sl i = some j ∧ n.child j = a)
        (a : Ptr) : (D₁ a ∨ ∃ x, i + 1 ≤ x ∧ x < i + 1 + k ∧ ∃ j, sl x = some j ∧ n.child j = a) ↔
          (D a ∨ ∃ x, i ≤ x ∧ x < i + (k + 1) ∧ ∃ j, sl x = some j ∧ n.child j = a) := by
      rw [hD₁]
      constructor
      · rintro ((hD | hj) | ⟨x, hx, hxk, hj⟩)
        · exact .inl hD
        · exact .inr ⟨i, Nat.le_refl i, by omega, hj⟩
        · exact .inr ⟨x, by omega, by omega, hj⟩
      · rintro (hD | ⟨x, hx, hxk, hj⟩)
        · exact .inl (.inl hD)
        · rcases Nat.eq_or_lt_of_le hx with rfl | hlt
          · exact .inl (.inr hj)
          · exact .inr ⟨x, hlt, by omega, hj⟩
    have hslot' (u : Mem) (hu : u.node? an = some n) (x : ℕ) (hx : i + 1 ≤ x)
        (hxk : x < i + 1 + k) :=
      hslot u hu x (by omega) (by omega)
    have hc' (x : ℕ) (hx : i + 1 ≤ x) (hxk : x < i + 1 + k) := hc x (by omega) (by omega)
    cases hs : sl i with
    | none =>
      rw [hs] at hi
      obtain ⟨s₂, hrun, hheap, hadopt⟩ := ih h hn (i + 1) hslot' hc'
      refine ⟨s₂, (env.machine.run_bind_of_done hi).trans hrun, hheap,
        hadopt.congr (hsplit D fun a => by simp [hs])⟩
    | some j =>
      rw [hs] at hi
      obtain ⟨hj, hne, hcj⟩ := hc i (Nat.le_refl i) (by omega) j hs
      obtain ⟨s', hvisit, hheap', hadopt'⟩ : ∃ s', env.machine.run (adoptVisit an (n.child j)) s₁ =
          done true s' ∧ s'.heap an = s₁.heap an ∧ s.Adopted s' an _ := h.run_adoptVisit hcj hne
      have hn' : s'.node? an = some n := (Mem.node?_congr hheap').trans hn
      obtain ⟨s₂, hrun, hheap, hadopt⟩ := ih hadopt' hn' (i + 1) hslot' hc'
      refine ⟨s₂, ?_, hheap.trans hheap', hadopt.congr (hsplit _ fun a => by simp [hs, eq_comm])⟩
      refine (env.machine.run_bind_of_done hi).trans ?_
      refine (env.machine.run_bind_of_done (run_load (f := .child j) hn hj)).trans ?_
      exact (env.machine.run_bind_of_done hvisit).trans hrun

/-- The children of a node point to it afterwards. -/
theorem run_replaceOldParentPtr (h : s.node? an = some n) (hok : n.Ok) (han : an ≠ 0)
    (hc : ∀ b c, n.childAt b = some c → c ≠ an ∧ (isLeaf c = true ∨ ∃ m, s.node? c = some m)) :
    ∃ s', env.machine.run (replaceOldParentPtr env.build an) s = done () s' ∧
      s'.heap an = s.heap an ∧ s.Adopted s' an fun a => ∃ b, n.childAt b = some a := by
  have hc' (x : ℕ) (_ : 0 ≤ x) (hx : x < 0 + rounds n) (j : ℕ) (hs : childSlot n x = some j) :
      j < n.layout.capacity ∧ n.child j ≠ an ∧
        (isLeaf (n.child j) = true ∨ ∃ m, s.node? (n.child j) = some m) := by
    have hx : x < rounds n := by omega
    obtain ⟨b, hb⟩ := (exists_childSlot_iff hok j).mp ⟨x, hx, hs⟩
    exact ⟨childSlot_lt hok hx hs, hc b _ (ArtNode.childAt_eq_some.mpr ⟨j, hb, rfl⟩)⟩
  have hall (a : Ptr) : (False ∨ ∃ x, 0 ≤ x ∧ x < 0 + rounds n ∧
      ∃ j, childSlot n x = some j ∧ n.child j = a) ↔ ∃ b, n.childAt b = some a := by
    rw [false_or]
    constructor
    · rintro ⟨x, -, hx, j, hs, rfl⟩
      obtain ⟨b, hb⟩ := (exists_childSlot_iff hok j).mp ⟨x, by omega, hs⟩
      exact ⟨b, ArtNode.childAt_eq_some.mpr ⟨j, hb, rfl⟩⟩
    · rintro ⟨b, hb⟩
      obtain ⟨j, hj, rfl⟩ := ArtNode.childAt_eq_some.mp hb
      obtain ⟨x, hx, hs⟩ := (exists_childSlot_iff hok j).mpr ⟨b, hj⟩
      exact ⟨x, Nat.zero_le x, by omega, j, hs, rfl⟩
  have hversion : env.machine.run (load an .version) s = done n.version s :=
    run_load (f := .version) h trivial
  have hcheck : env.machine.run (sidleCheck env.build (pure (an != 0))) s = done () s := by
    unfold sidleCheck
    simp [han]
  -- the traversal of any layout is one loop over the children
  obtain ⟨s', hrun, hheap, hadopt⟩ : ∃ s', env.machine.run (artNodeTraverse an (adoptVisit an)) s =
      done true s' ∧ s'.heap an = s.heap an ∧ s.Adopted s' an fun a => False ∨ ∃ x, 0 ≤ x ∧
        x < 0 + rounds n ∧ ∃ j, childSlot n x = some j ∧ n.child j = a := by
    unfold artNodeTraverse
    rw [env.machine.run_bind_of_done hversion, hok.type]
    have hslot (hk : n.layout.Keyed) (u : Mem) (_ : u.node? an = some n) (x : ℕ) (_ : 0 ≤ x)
        (hx : x < 0 + rounds n) :
        env.machine.run (pure (some x) : ArtM (Option ℕ)) u = done (childSlot n x) u := by
      rw [childSlot_keyed hk (by rw [rounds_keyed hk] at hx; omega)]
      rfl
    have hkeyed (hk : n.layout.Keyed) :=
      (Mem.Adopted.refl s an).run_visitChildren h (rounds n) 0 (hslot hk) hc'
    cases hk : n.layout with
    | node4 =>
      obtain ⟨s', hrun, h'⟩ := hkeyed (.inl hk)
      rw [rounds_keyed (.inl hk)] at hrun
      exact ⟨s', (env.machine.run_bind_of_done hversion).trans hrun, h'⟩
    | node16 =>
      obtain ⟨s', hrun, h'⟩ := hkeyed (.inr hk)
      rw [rounds_keyed (.inr hk)] at hrun
      exact ⟨s', (env.machine.run_bind_of_done hversion).trans hrun, h'⟩
    | node48 =>
      have hr : rounds n = 256 := by simp [rounds, hk]
      obtain ⟨s', hrun, h'⟩ := (Mem.Adopted.refl s an).run_visitChildren h (rounds n) 0
        (fun u hu x _ _ => run_indexSlot hu hk x) hc'
      rw [hr] at hrun
      exact ⟨s', hrun, h'⟩
    | node256 =>
      have hr : rounds n = 256 := by simp [rounds, hk]
      obtain ⟨s', hrun, h'⟩ := (Mem.Adopted.refl s an).run_visitChildren h (rounds n) 0
        (fun u hu x _ hx => run_occupiedSlot hu hk (by omega)) hc'
      rw [hr] at hrun
      exact ⟨s', hrun, h'⟩
  refine ⟨s', ?_, hheap, hadopt.congr hall⟩
  unfold replaceOldParentPtr
  refine (env.machine.run_bind_of_done hcheck).trans ?_
  exact env.machine.run_bind_of_done hrun

end Sidle.Art
