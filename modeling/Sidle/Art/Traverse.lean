import Sidle.Art.GrowSpec
import Sidle.Art.Migration

/-!
# Visiting the children of a node

The loops of `art_node_traverse` and `replace_old_child_ptr` come to the children of a node
and to nothing else, whatever its layout.

## Main definitions

* `childSlot` — the slot that a round of a loop over the children comes to.

## Main results

* `exists_childSlot_iff` — the rounds come to the children.
* `run_artNodeTraverse` — a traversal with callbacks that only read.
* `run_replaceOldChildPtr_absent` — a search for a pointer that is not there.
-/

namespace Sidle.Art

open Prog Machine Outcome

variable {env : Env} {s : Mem} {an : Addr} {n : ArtNode}

/-- A loop whose visits leave the memory alone. -/
theorem run_visitChildren (h : s.node? an = some n) {slotAt : ℕ → ArtM (Option ℕ)}
    {visit : ℕ → Ptr → ArtM Bool} {sl : ℕ → Option ℕ} {f : Ptr → Bool} (k i : ℕ)
    (hslot : ∀ x, i ≤ x → x < i + k → env.machine.run (slotAt x) s = done (sl x) s)
    (hvisit : ∀ x j, i ≤ x → x < i + k → sl x = some j → j < n.layout.capacity ∧
      env.machine.run (visit j (n.child j)) s = done (f (n.child j)) s) :
    env.machine.run (visitChildren an slotAt visit k i) s =
      done ((List.range' i k).all fun x => (sl x).all fun j => f (n.child j)) s := by
  induction k generalizing i with
  | zero => rfl
  | succ k ih =>
    have ih := ih (i + 1) (fun x hx hxk => hslot x (by omega) (by omega))
      (fun x j hx hxk => hvisit x j (by omega) (by omega))
    have hi := hslot i (Nat.le_refl i) (by omega)
    unfold visitChildren
    refine (env.machine.run_bind_of_done hi).trans ?_
    rw [List.range'_succ, List.all_cons]
    cases hs : sl i with
    | none => exact ih
    | some j =>
      obtain ⟨hj, hv⟩ := hvisit i j (Nat.le_refl i) (by omega) hs
      refine (env.machine.run_bind_of_done (run_load (f := .child j) h hj)).trans ?_
      refine (env.machine.run_bind_of_done hv).trans ?_
      cases hf : f (n.child j) with
      | false => simp [hf]
      | true => simpa [hf] using ih

/-- The slot that round `i` of a traversal comes to. -/
def childSlot (n : ArtNode) (i : ℕ) : Option ℕ :=
  match n.layout with
  | .node4 | .node16 => if i < getCount n.version then some i else none
  | .node48 =>
    if n.index (UInt8.ofNat i) ≠ 0 then some ((n.index (UInt8.ofNat i)).toNat - 1) else none
  | .node256 => if n.child i ≠ 0 then some i else none

/-- The rounds of a loop over the children. -/
def rounds (n : ArtNode) : ℕ :=
  match n.layout with
  | .node4 | .node16 => getCount n.version
  | .node48 | .node256 => 256

theorem rounds_keyed (hk : n.layout.Keyed) : rounds n = getCount n.version := by
  rcases hk with h | h <;> simp [rounds, h]

theorem childSlot_keyed (hk : n.layout.Keyed) {i : ℕ} (hi : i < getCount n.version) :
    childSlot n i = some i := by
  rcases hk with h | h <;> simp [childSlot, h, hi]

/-- **The rounds come to the slots of the children**, each at its byte. -/
theorem exists_childSlot_iff (hok : n.Ok) (j : ℕ) :
    (∃ i < rounds n, childSlot n i = some j) ↔ ∃ b, n.slotOf b = some j := by
  rcases ArtNode.layout_cases n.layout with hk | hk | hk
  · rw [rounds_keyed hk]
    constructor
    · rintro ⟨i, hi, hs⟩
      rw [childSlot_keyed hk hi] at hs
      obtain rfl : i = j := by simpa using hs
      exact ⟨n.key i, (ArtNode.slotOf_keyed_eq_some hok hk).mpr ⟨hi, rfl⟩⟩
    · rintro ⟨b, hb⟩
      have hj := ((ArtNode.slotOf_keyed_eq_some hok hk).mp hb).1
      exact ⟨j, hj, childSlot_keyed hk hj⟩
  · simp only [rounds, childSlot, ArtNode.slotOf_node48 hk, hk]
    constructor
    · rintro ⟨i, -, hs⟩
      exact ⟨UInt8.ofNat i, hs⟩
    · rintro ⟨b, hb⟩
      exact ⟨b.toNat, b.toNat_lt, by rwa [UInt8.ofNat_toNat]⟩
  · simp only [rounds, childSlot, ArtNode.slotOf_node256 hk, hk]
    constructor
    · rintro ⟨i, hi, hs⟩
      refine ⟨UInt8.ofNat i, ?_⟩
      rwa [UInt8.toNat_ofNat', Nat.mod_eq_of_lt hi]
    · rintro ⟨b, hb⟩
      exact ⟨b.toNat, b.toNat_lt, hb⟩

theorem childSlot_lt (hok : n.Ok) {i j : ℕ} (hi : i < rounds n) (hs : childSlot n i = some j) :
    j < n.layout.capacity := by
  obtain ⟨b, hb⟩ := (exists_childSlot_iff hok j).mp ⟨i, hi, hs⟩
  exact ArtNode.slotOf_lt hok hb

/-- All rounds succeed exactly when all children do. -/
theorem all_rounds (hok : n.Ok) (f : Ptr → Bool) :
    ((List.range' 0 (rounds n)).all fun i => (childSlot n i).all fun j => f (n.child j)) = true ↔
      ∀ b p, n.childAt b = some p → f p = true := by
  simp only [List.all_eq_true, List.mem_range'_1, Nat.zero_le, true_and, Nat.zero_add,
    Option.all_eq_true]
  constructor
  · intro h b p hp
    obtain ⟨j, hj, rfl⟩ := ArtNode.childAt_eq_some.mp hp
    obtain ⟨i, hi, hs⟩ := (exists_childSlot_iff hok j).mpr ⟨b, hj⟩
    exact h i hi j hs
  · intro h i hi j hs
    obtain ⟨b, hb⟩ := (exists_childSlot_iff hok j).mp ⟨i, hi, hs⟩
    exact h b _ (ArtNode.childAt_eq_some.mpr ⟨j, hb, rfl⟩)

theorem run_indexSlot (h : s.node? an = some n) (hk : n.layout = .node48) (i : ℕ) :
    env.machine.run (indexSlot an i) s = done (childSlot n i) s := by
  refine (env.machine.run_bind_of_done (run_load (f := .index (UInt8.ofNat i)) h hk)).trans ?_
  simp only [childSlot, hk]
  rfl

theorem run_occupiedSlot (h : s.node? an = some n) (hk : n.layout = .node256) {i : ℕ}
    (hi : i < 256) :
    env.machine.run (occupiedSlot an i) s = done (childSlot n i) s := by
  have hb : (NodeField.child i).InBounds n.layout := by rw [hk]; exact hi
  refine (env.machine.run_bind_of_done (run_load (f := .child i) h hb)).trans ?_
  simp only [childSlot, hk]
  rfl

/-- A traversal whose callbacks only read comes to all children. -/
theorem run_artNodeTraverse (h : s.node? an = some n) (hok : n.Ok) {cb : Ptr → ArtM Bool}
    {f : Ptr → Bool}
    (hcb : ∀ b p, n.childAt b = some p → env.machine.run (cb p) s = done (f p) s) :
    ∃ r, env.machine.run (artNodeTraverse an cb) s = done r s ∧
      (r = true ↔ ∀ b p, n.childAt b = some p → f p = true) := by
  refine ⟨_, ?_, all_rounds hok f⟩
  have hvisit (i j : ℕ) (_ : 0 ≤ i) (hi : i < 0 + rounds n) (hs : childSlot n i = some j) :
      j < n.layout.capacity ∧ env.machine.run (cb (n.child j)) s = done (f (n.child j)) s := by
    have hi : i < rounds n := by omega
    obtain ⟨b, hb⟩ := (exists_childSlot_iff hok j).mp ⟨i, hi, hs⟩
    exact ⟨childSlot_lt hok hi hs, hcb b _ (ArtNode.childAt_eq_some.mpr ⟨j, hb, rfl⟩)⟩
  have hversion : env.machine.run (load an .version) s = done n.version s :=
    run_load (f := .version) h trivial
  unfold artNodeTraverse
  refine (env.machine.run_bind_of_done hversion).trans ?_
  rw [hok.type]
  have hkeyed (hk : n.layout.Keyed) : env.machine.run (do
      let version ← load an .version
      visitChildren an (fun i => pure (some i)) (fun _ c => cb c) (getCount version) 0) s =
      done ((List.range' 0 (rounds n)).all fun i => (childSlot n i).all
        fun j => f (n.child j)) s := by
    refine (env.machine.run_bind_of_done hversion).trans ?_
    have hr := rounds_keyed hk
    rw [← hr]
    refine run_visitChildren h _ _ (fun i _ hi => ?_) hvisit
    rw [childSlot_keyed hk (by omega)]
    rfl
  cases hk : n.layout with
  | node4 => exact hkeyed (Or.inl hk)
  | node16 => exact hkeyed (Or.inr hk)
  | node48 =>
    have hr : rounds n = 256 := by simp [rounds, hk]
    rw [hr] at hvisit ⊢
    exact run_visitChildren h _ _ (fun i _ _ => run_indexSlot h hk i) hvisit
  | node256 =>
    have hr : rounds n = 256 := by simp [rounds, hk]
    rw [hr] at hvisit ⊢
    exact run_visitChildren h _ _ (fun i _ hi => run_occupiedSlot h hk (by omega)) hvisit

/-! ### Redirecting a child pointer -/

/-- A visit of `replace_old_child_ptr`: a slot that holds `oldChild` is redirected, and the
search ends. -/
def redirectSlot (an : Addr) (oldChild newChild : Ptr) (j : ℕ) (c : Ptr) : ArtM Bool :=
  if c = oldChild then do
    store an (.child j) newChild
    pure false
  else pure true

/-- What the rounds `sl x`, `x < k`, of a search come to: the slots of all children, and
otherwise empty slots. -/
structure SearchRounds (n : ArtNode) (sl : ℕ → Option ℕ) (k : ℕ) : Prop where
  lt : ∀ x < k, ∀ j, sl x = some j → j < n.layout.capacity
  sound : ∀ x < k, ∀ j, sl x = some j → n.child j ≠ 0 → ∃ b, n.slotOf b = some j
  complete : ∀ b j, n.slotOf b = some j → ∃ x < k, sl x = some j

/-- The rounds of a traversal come to the slots of all children. -/
theorem searchRounds_rounds (hok : n.Ok) : SearchRounds n (childSlot n) (rounds n) where
  lt x hx j hs := childSlot_lt hok hx hs
  sound x hx j hs _ := (exists_childSlot_iff hok j).mp ⟨x, hx, hs⟩
  complete b j hb := by
    obtain ⟨x, hx, hs⟩ := (exists_childSlot_iff hok j).mpr ⟨b, hb⟩
    exact ⟨x, hx, hs⟩

/-- `replace_old_child_ptr` is a search in rounds; in a `node256` empty slots are looked at
too. -/
theorem exists_searchRounds (h : s.node? an = some n) (hok : n.Ok) (han : an ≠ 0)
    (oldChild newChild : Ptr) : ∃ slotAt sl k, SearchRounds n sl k ∧
      (∀ x < k, env.machine.run (slotAt x) s = done (sl x) s) ∧
      env.machine.run (replaceOldChildPtr env.build an oldChild newChild) s =
        env.machine.run (do
          let _ ← visitChildren an slotAt (redirectSlot an oldChild newChild) k 0
          pure ()) s := by
  have hversion : env.machine.run (load an .version) s = done n.version s :=
    run_load (f := .version) h trivial
  have hcheck : env.machine.run (sidleCheck env.build (pure (an != 0))) s = done () s := by
    unfold sidleCheck
    simp [han]
  let visit := redirectSlot an oldChild newChild
  let search : NodeType → ArtM Bool
    | .node4 | .node16 => visitChildren an (fun i => pure (some i)) visit (getCount n.version) 0
    | .node48 => visitChildren an (indexSlot an) visit 256 0
    | .node256 => visitChildren an (fun i => pure (some i)) visit 256 0
  have hrun : env.machine.run (replaceOldChildPtr env.build an oldChild newChild) s =
      env.machine.run (search n.layout >>= fun _ => pure ()) s := by
    unfold replaceOldChildPtr
    refine (env.machine.run_bind_of_done hcheck).trans ?_
    refine (env.machine.run_bind_of_done hversion).trans ?_
    refine (env.machine.run_bind_of_done hversion).trans ?_
    rw [hok.type]
    cases n.layout <;> rfl
  rw [hrun]
  have hkeyed (hk : n.layout.Keyed) (x : ℕ) (hx : x < rounds n) :
      env.machine.run (pure (some x) : ArtM (Option ℕ)) s = done (childSlot n x) s := by
    rw [childSlot_keyed hk (rounds_keyed hk ▸ hx)]
    rfl
  have hall := searchRounds_rounds hok
  cases hk : n.layout with
  | node4 =>
    have hk : n.layout.Keyed := .inl hk
    exact ⟨_, _, _, hall, hkeyed hk, by rw [rounds_keyed hk]⟩
  | node16 =>
    have hk : n.layout.Keyed := .inr hk
    exact ⟨_, _, _, hall, hkeyed hk, by rw [rounds_keyed hk]⟩
  | node48 =>
    have hr : rounds n = 256 := by simp [rounds, hk]
    exact ⟨_, _, _, hall, fun x _ => run_indexSlot h hk x, by rw [hr]⟩
  | node256 =>
    refine ⟨_, some, 256, ⟨fun x hx j hs => ?_, fun x hx j hs hc => ?_, fun b j hb => ?_⟩,
      fun _ _ => rfl, rfl⟩
    · obtain rfl : x = j := by simpa using hs
      rw [hk]
      exact hx
    · obtain rfl : x = j := by simpa using hs
      refine ⟨UInt8.ofNat x, ?_⟩
      rw [ArtNode.slotOf_node256 hk, UInt8.toNat_ofNat', Nat.mod_eq_of_lt hx, if_pos hc]
    · have hj := ArtNode.slotOf_lt hok hb
      rw [hk] at hj
      exact ⟨j, hj, rfl⟩

/-- A search for a pointer that no slot holds leaves the node alone. -/
theorem run_replaceOldChildPtr_absent (h : s.node? an = some n) (hok : n.Ok) (han : an ≠ 0)
    {oldChild : Ptr} (newChild : Ptr) (h0 : oldChild ≠ 0)
    (habs : ∀ b, n.childAt b ≠ some oldChild) :
    env.machine.run (replaceOldChildPtr env.build an oldChild newChild) s = done () s := by
  obtain ⟨slotAt, sl, k, hsl, hslot, hrun⟩ := exists_searchRounds h hok han oldChild newChild
  rw [hrun]
  -- no round finds the pointer
  have hmiss (x j : ℕ) (_ : 0 ≤ x) (hx : x < 0 + k) (hs : sl x = some j) : j < n.layout.capacity ∧
      env.machine.run (redirectSlot an oldChild newChild j (n.child j)) s = done true s := by
    have hx : x < k := by omega
    refine ⟨hsl.lt x hx j hs, ?_⟩
    rw [redirectSlot, if_neg]
    · rfl
    · intro hc
      obtain ⟨b, hb⟩ := hsl.sound x hx j hs (hc ▸ h0)
      exact habs b (ArtNode.childAt_eq_some.mpr ⟨j, hb, hc⟩)
  exact env.machine.run_bind_of_done (run_visitChildren (f := fun _ => true) h k 0
    (fun x _ hx => hslot x (by omega)) hmiss)

/-- A search that comes to the slot `j`, where a visit ends it. -/
theorem run_visitChildren_hit (h : s.node? an = some n) {slotAt : ℕ → ArtM (Option ℕ)}
    {visit : ℕ → Ptr → ArtM Bool} {sl : ℕ → Option ℕ} {s' : Mem} {j : ℕ} (k i : ℕ)
    (hslot : ∀ x, i ≤ x → x < i + k → env.machine.run (slotAt x) s = done (sl x) s)
    (hlt : ∀ x, i ≤ x → x < i + k → ∀ j', sl x = some j' → j' < n.layout.capacity)
    (hhit : env.machine.run (visit j (n.child j)) s = done false s')
    (hmiss : ∀ x, i ≤ x → x < i + k → ∀ j', sl x = some j' → j' ≠ j →
      env.machine.run (visit j' (n.child j')) s = done true s)
    (hex : ∃ x, i ≤ x ∧ x < i + k ∧ sl x = some j) :
    env.machine.run (visitChildren an slotAt visit k i) s = done false s' := by
  induction k generalizing i with
  | zero =>
    obtain ⟨x, hx, hxk, -⟩ := hex
    omega
  | succ k ih =>
    have ih (hne : sl i ≠ some j) := ih (i + 1) (fun x hx hxk => hslot x (by omega) (by omega))
      (fun x hx hxk => hlt x (by omega) (by omega))
        (fun x hx hxk => hmiss x (by omega) (by omega)) (by
        obtain ⟨x, hx, hxk, hs⟩ := hex
        have hxi : x ≠ i := by
          rintro rfl
          exact hne hs
        exact ⟨x, by omega, by omega, hs⟩)
    unfold visitChildren
    refine (env.machine.run_bind_of_done (hslot i (Nat.le_refl i) (by omega))).trans ?_
    cases hs : sl i with
    | none => exact ih (by simp [hs])
    | some j' =>
      have hj' := hlt i (Nat.le_refl i) (by omega) j' hs
      refine (env.machine.run_bind_of_done (run_load (f := .child j') h hj')).trans ?_
      by_cases hjj : j' = j
      · subst hjj
        exact env.machine.run_bind_of_done hhit
      · refine (env.machine.run_bind_of_done
          (hmiss i (Nat.le_refl i) (by omega) j' hs hjj)).trans ?_
        exact ih (by simp [hs, hjj])

/-- A search for a pointer that one slot holds redirects this slot. -/
theorem run_replaceOldChildPtr_found (h : s.node? an = some n) (hok : n.Ok) (han : an ≠ 0)
    {oldChild : Ptr} (newChild : Ptr) (h0 : oldChild ≠ 0) {b : UInt8} {i : ℕ}
    (hb : n.slotOf b = some i) (hi : n.child i = oldChild)
    (huniq : ∀ c, n.childAt c = some oldChild → c = b) :
    env.machine.run (replaceOldChildPtr env.build an oldChild newChild) s =
      done () (s.setNode an (n.setChild i newChild)) := by
  obtain ⟨slotAt, sl, k, hsl, hslot, hrun⟩ := exists_searchRounds h hok han oldChild newChild
  rw [hrun]
  have hhit : env.machine.run (redirectSlot an oldChild newChild i (n.child i)) s =
      done false (s.setNode an (n.setChild i newChild)) := by
    rw [redirectSlot, if_pos hi]
    exact env.machine.run_bind_of_done
      (run_store (f := .child i) h (ArtNode.slotOf_lt hok hb))
  refine env.machine.run_bind_of_done (run_visitChildren_hit h k 0
    (fun x _ hx => hslot x (by omega)) (fun x _ hx => hsl.lt x (by omega)) hhit
    (fun x _ hx j hs hj => ?_) ?_)
  · rw [redirectSlot, if_neg]
    · rfl
    · intro hc
      obtain ⟨c, hjc⟩ := hsl.sound x (by omega) j hs (hc ▸ h0)
      obtain rfl := huniq c (ArtNode.childAt_eq_some.mpr ⟨j, hjc, hc⟩)
      exact hj (by simpa [hjc] using hb)
  · obtain ⟨x, hx, hs⟩ := hsl.complete b i hb
    exact ⟨x, Nat.zero_le x, by omega, hs⟩

end Sidle.Art
