import Mathlib.Order.Basic
import Sidle.Forest.Cover
import Sidle.Masstree.Relocate

/-!
# Where an internode sends a key

An internode is a sequence of keys and a sequence of children, one longer.  A new child comes
beside the one that was split, and a full internode is split into two at a key that goes up.  Both
are done by moving entries around in the arrays; here they are insertions into the two sequences,
and cuts.

## Main definitions

* `Internode.keys` — the keys, beside `Internode.children`.
* `Internode.withChild`, `Internode.splitLeft` — what `make_split` leaves of an internode.

## Main results

* `Internode.upper_turn` — the search finds the place of a key.
* `split_keys`, `split_children` — **the two halves of a full internode are the sequence with the
  new entry, cut in two.**
-/

namespace Sidle.Masstree

open Forest

/-! ### Sequences that are given by their entries -/

section Lists

variable {α : Type*} {f g : ℕ → α} {a b n p : ℕ} {v : α}

theorem getElem?_map_range (i : ℕ) :
    ((List.range n).map f)[i]? = if i < n then some (f i) else none := by
  rw [List.getElem?_map]
  split
  · rename_i h
    rw [List.getElem?_range h]
    rfl
  · rename_i h
    rw [List.getElem?_eq_none (by simpa using h)]
    rfl

theorem map_range_congr (h : ∀ i < n, f i = g i) : (List.range n).map f = (List.range n).map g :=
  List.map_congr_left fun i hi => h i (List.mem_range.mp hi)

theorem map_range_append : (List.range a).map f ++ (List.range b).map g =
    (List.range (a + b)).map fun i => if i < a then f i else g (i - a) := by
  apply List.ext_getElem?
  intro i
  rw [List.getElem?_append, getElem?_map_range, getElem?_map_range, getElem?_map_range,
    List.length_map, List.length_range]
  split
  · rename_i h
    rw [if_pos (Nat.lt_add_right b h)]
  · rename_i h
    by_cases hb : i - a < b
    · rw [if_pos hb, if_pos (by omega)]
    · rw [if_neg hb, if_neg (by omega)]

/-- The entries with another one, `v`, before the one at `p`. -/
def inserted (f : ℕ → α) (p : ℕ) (v : α) (i : ℕ) : α :=
  if i < p then f i else if i = p then v else f (i - 1)

theorem inserted_of_lt {i : ℕ} (h : i < p) : inserted f p v i = f i := if_pos h

theorem inserted_self : inserted f p v p = v := by simp [inserted]

theorem inserted_of_gt {i : ℕ} (h : p < i) : inserted f p v i = f (i - 1) := by
  rw [inserted, if_neg (Nat.lt_asymm h), if_neg (Nat.ne_of_gt h)]

theorem map_range_insertIdx (hp : p ≤ n) :
    ((List.range n).map f).insertIdx p v = (List.range (n + 1)).map (inserted f p v) := by
  apply List.ext_getElem?
  intro i
  rw [List.getElem?_insertIdx, getElem?_map_range, getElem?_map_range, getElem?_map_range,
    List.length_map, List.length_range]
  rcases Nat.lt_trichotomy i p with h | h | h
  · rw [if_pos h, if_pos (by omega), if_pos (by omega), inserted_of_lt h]
  · subst h
    rw [if_neg (Nat.lt_irrefl i), if_pos rfl, if_pos hp, if_pos (Nat.lt_succ_of_le hp),
      inserted_self]
  · rw [if_neg (Nat.lt_asymm h), if_neg (Nat.ne_of_gt h), inserted_of_gt h]
    by_cases hn : i - 1 < n
    · rw [if_pos hn, if_pos (by omega)]
    · rw [if_neg hn, if_neg (by omega)]

end Lists

namespace Internode

variable {x nr : Internode} {ikey kp mid p ka : ℕ} {child value : Addr}

/-- The keys. -/
def keys (x : Internode) : List ℕ := (List.range x.nkeys).map x.ikey0

theorem length_keys : x.keys.length = x.nkeys := by simp [keys]

theorem getElem?_keys (i : ℕ) : x.keys[i]? = if i < x.nkeys then some (x.ikey0 i) else none :=
  getElem?_map_range i

/-! ### The search -/

/-- What the search relies on, and what it finds. -/
theorem upperBoundBy_spec {f : ℕ → ℕ} {k n fuel l r : ℕ}
    (hasc : ∀ i j, i < j → j < n → f i < f j) (hl : ∀ j < l, f j ≤ k)
    (hr : ∀ j, r ≤ j → j < n → k < f j) (hle : l ≤ r) (hn : r ≤ n) (hfuel : r - l ≤ fuel) :
    upperBoundBy (fun p => compare k (f p)) fuel l r ≤ n ∧
      (∀ j < upperBoundBy (fun p => compare k (f p)) fuel l r, f j ≤ k) ∧
      ∀ j, upperBoundBy (fun p => compare k (f p)) fuel l r ≤ j → j < n → k < f j := by
  induction fuel generalizing l r with
  | zero =>
    refine ⟨Nat.le_trans hle hn, hl, fun j hj => hr j ?_⟩
    simp only [upperBoundBy] at hj
    omega
  | succ fuel ih =>
    rw [upperBoundBy]
    by_cases hlr : l < r
    · simp only [if_pos hlr]
      have hbelow (hm : f ((l + r) / 2) ≤ k) : ∀ j < (l + r) / 2 + 1, f j ≤ k := by
        intro j hj
        rcases Nat.eq_or_lt_of_le (Nat.le_of_lt_succ hj) with rfl | hlt
        · exact hm
        · exact (hasc _ _ hlt (by omega)).le.trans hm
      have habove (hm : k ≤ f ((l + r) / 2)) : ∀ j, (l + r) / 2 < j → j < n → k < f j :=
        fun j hj hjn => hm.trans_lt (hasc _ _ hj hjn)
      rcases Nat.lt_trichotomy k (f ((l + r) / 2)) with hcmp | hcmp | hcmp
      · rw [Nat.compare_eq_lt.mpr hcmp]
        refine ih hl ?_ (by omega) (by omega) (by omega)
        intro j hj hjn
        rcases Nat.eq_or_lt_of_le hj with rfl | hlt
        · exact hcmp
        · exact habove hcmp.le j hlt hjn
      · rw [Nat.compare_eq_eq.mpr hcmp]
        dsimp only
        exact ⟨by omega, hbelow hcmp.ge, fun j hj => habove hcmp.le j hj⟩
      · rw [Nat.compare_eq_gt.mpr hcmp]
        refine ih (hbelow hcmp.le) hr (by omega) hn (by omega)
    · simp only [if_neg hlr]
      exact ⟨by omega, hl, fun j hj => hr j (by omega)⟩

/-- The search finds the place of the key among the keys. -/
theorem upper_turn (hasc : ∀ i j, i < j → j < x.nkeys → x.ikey0 i < x.ikey0 j) :
    Turn x.keys ikey (x.upper ikey) := by
  have hspec := upperBoundBy_spec (k := ikey) hasc (fun j hj => absurd hj (Nat.not_lt_zero j))
    (fun j hj hjn => absurd hj (by omega)) (Nat.zero_le x.nkeys) le_rfl (Nat.sub_le x.nkeys 0)
  obtain ⟨hle, hbelow, habove⟩ := hspec
  refine ⟨by rw [length_keys]; exact hle, ?_⟩
  intro j s hj
  rw [getElem?_keys] at hj
  split at hj
  · rename_i hjn
    cases hj
    constructor
    · intro hs
      by_contra hju
      exact absurd (habove j (Nat.le_of_not_lt hju) hjn) (Nat.not_lt.mpr hs)
    · exact hbelow j
  · cases hj

/-! ### A new child -/

/-- What the insertion of a child into an internode with room for it leaves. -/
def withChild (x : Internode) (kp ikey : ℕ) (child : Addr) : Internode :=
  { (x.shift (kp + 1) kp (x.nkeys - kp)).assign kp ikey child with nkeys := x.nkeys + 1 }

theorem ikey0_withChild (i : ℕ) : (x.withChild kp ikey child).ikey0 i = if i = kp then ikey else
    if kp + 1 ≤ i ∧ i < kp + 1 + (x.nkeys - kp) then x.ikey0 (kp + (i - (kp + 1))) else x.ikey0 i :=
  Function.update_apply ..

theorem child_withChild (i : ℕ) :
    (x.withChild kp ikey child).child i = if i = kp + 1 then child else
      if kp + 1 + 1 ≤ i ∧ i < kp + 1 + 1 + (x.nkeys - kp) then
        x.child (kp + 1 + (i - (kp + 1 + 1)))
      else x.child i :=
  Function.update_apply ..

theorem keys_withChild (h : kp ≤ x.nkeys) :
    (x.withChild kp ikey child).keys = x.keys.insertIdx kp ikey := by
  rw [keys, keys, map_range_insertIdx h]
  apply map_range_congr
  intro i hi
  replace hi : i < x.nkeys + 1 := hi
  rw [ikey0_withChild]
  rcases Nat.lt_trichotomy i kp with hik | hik | hik
  · rw [inserted_of_lt hik, if_neg (Nat.ne_of_lt hik), if_neg (by omega)]
  · rw [if_pos hik, hik, inserted_self]
  · rw [inserted_of_gt hik, if_neg (Nat.ne_of_gt hik), if_pos (by omega)]
    congr 1
    omega

theorem children_withChild (h : kp ≤ x.nkeys) :
    (x.withChild kp ikey child).children = x.children.insertIdx (kp + 1) child := by
  rw [children, children, map_range_insertIdx (Nat.succ_le_succ h)]
  apply map_range_congr
  intro i hi
  replace hi : i < x.nkeys + 1 + 1 := hi
  rw [child_withChild]
  rcases Nat.lt_trichotomy i (kp + 1) with hik | hik | hik
  · rw [inserted_of_lt hik, if_neg (Nat.ne_of_lt hik), if_neg (by omega)]
  · rw [if_pos hik, hik, inserted_self]
  · rw [inserted_of_gt hik, if_neg (Nat.ne_of_gt hik), if_pos (by omega)]
    congr 1
    omega

/-! ### The halves of a full internode -/

/-- What the split leaves of the internode on the left: the entries up to the middle, and the new
child if that is where it belongs. -/
def splitLeft (x : Internode) (mid p ka : ℕ) (value : Addr) : Internode :=
  if p < mid then ({ x with nkeys := mid - 1 } : Internode).withChild p ka value
  else { x with nkeys := mid }

theorem nkeys_splitLeft (hmid : 0 < mid) : (x.splitLeft mid p ka value).nkeys = mid := by
  unfold splitLeft
  split
  · exact Nat.succ_pred_eq_of_pos hmid
  · rfl

theorem nkeys_splitRight : (x.splitRight nr mid p ka value).nkeys = width + 1 - (mid + 1) := by
  unfold splitRight
  split
  · rfl
  · split
    · rfl
    · rfl

theorem ikey0_splitLeft {i : ℕ} (hi : i < mid) :
    (x.splitLeft mid p ka value).ikey0 i = inserted x.ikey0 p ka i := by
  unfold splitLeft
  split
  · rw [ikey0_withChild]
    rcases Nat.lt_trichotomy i p with hip | hip | hip
    · rw [inserted_of_lt hip, if_neg (Nat.ne_of_lt hip), if_neg (by omega)]
    · rw [if_pos hip, hip, inserted_self]
    · rw [inserted_of_gt hip, if_neg (Nat.ne_of_gt hip), if_pos ⟨hip, by dsimp only; omega⟩]
      exact congrArg x.ikey0 (by omega)
  · rw [inserted_of_lt (by omega)]

theorem child_splitLeft {i : ℕ} (hi : i ≤ mid) :
    (x.splitLeft mid p ka value).child i = inserted x.child (p + 1) value i := by
  unfold splitLeft
  split
  · rw [child_withChild]
    rcases Nat.lt_trichotomy i (p + 1) with hip | hip | hip
    · rw [inserted_of_lt hip, if_neg (Nat.ne_of_lt hip), if_neg (by omega)]
    · rw [if_pos hip, hip, inserted_self]
    · rw [inserted_of_gt hip, if_neg (Nat.ne_of_gt hip), if_pos ⟨hip, by dsimp only; omega⟩]
      exact congrArg x.child (by omega)
  · rw [inserted_of_lt (by omega)]

theorem splitIkey_eq : x.splitIkey mid p ka = inserted x.ikey0 p ka mid := by
  unfold splitIkey
  rcases Nat.lt_trichotomy mid p with h | h | h
  · rw [inserted_of_lt h, if_neg (Nat.lt_asymm h), if_neg (Nat.ne_of_gt h)]
  · rw [h, inserted_self, if_neg (Nat.lt_irrefl p), if_pos rfl]
  · rw [inserted_of_gt h, if_pos h]

theorem ikey0_splitRight {i : ℕ} (hi : i < width - mid) :
    (x.splitRight nr mid p ka value).ikey0 i = inserted x.ikey0 p ka (mid + 1 + i) := by
  unfold splitRight
  split
  · rw [inserted_of_gt (by omega)]
    refine (if_pos (by omega)).trans ?_
    congr 1
    omega
  · split
    · rw [inserted_of_gt (by omega)]
      refine (if_pos (by omega)).trans ?_
      congr 1
      omega
    · -- the new key lies among those on the right
      simp only [shiftFrom, assign]
      rcases Nat.lt_trichotomy (mid + 1 + i) p with hip | hip | hip
      · rw [inserted_of_lt hip, if_neg (by omega), Function.update_of_ne (by omega),
          if_pos (by omega)]
        exact congrArg x.ikey0 (by omega)
      · rw [if_neg (by omega), hip, inserted_self, show i = p - (mid + 1) by omega,
          Function.update_self]
      · rw [inserted_of_gt hip, if_pos (by omega)]
        congr 1
        omega

theorem child_splitRight {i : ℕ} (hi : i ≤ width - mid) :
    (x.splitRight nr mid p ka value).child i = inserted x.child (p + 1) value (mid + 1 + i) := by
  unfold splitRight
  split
  · rw [inserted_of_gt (by omega)]
    simp only [shiftFrom]
    split
    · congr 1
      omega
    · rw [show i = 0 by omega, Function.update_self]
      rfl
  · split
    · rename_i hp
      subst hp
      simp only [shiftFrom]
      split
      · rw [inserted_of_gt (by omega)]
        congr 1
        omega
      · rw [show i = 0 by omega, Function.update_self]
        exact inserted_self.symm
    · simp only [shiftFrom, assign]
      rcases Nat.lt_trichotomy (mid + 1 + i) (p + 1) with hip | hip | hip
      · rw [inserted_of_lt hip, if_neg (by omega), Function.update_of_ne (by omega)]
        split
        · congr 1
          omega
        · rw [show i = 0 by omega, Function.update_self, Nat.add_zero]
      · rw [if_neg (by omega), hip, inserted_self, show i = p - (mid + 1) + 1 by omega,
          Function.update_self]
      · rw [inserted_of_gt hip, if_pos (by omega)]
        congr 1
        omega

/-- **The keys of the halves**, with the key that goes up between them, are those of the full
internode and the new one. -/
theorem split_keys (hfull : x.nkeys = width) (hmid : 0 < mid) (hmidw : mid ≤ width)
    (hp : p ≤ width) : (x.splitLeft mid p ka value).keys ++ x.splitIkey mid p ka ::
      (x.splitRight nr mid p ka value).keys = x.keys.insertIdx p ka := by
  have hone : x.splitIkey mid p ka :: (x.splitRight nr mid p ka value).keys =
      (List.range (width - mid + 1)).map fun i => inserted x.ikey0 p ka (mid + i) := by
    rw [List.range_succ_eq_map, List.map_cons, List.map_map, splitIkey_eq, keys, nkeys_splitRight,
      show width + 1 - (mid + 1) = width - mid by omega]
    congr 1
    apply map_range_congr
    intro i hi
    rw [ikey0_splitRight hi]
    exact congrArg (inserted x.ikey0 p ka) (by omega)
  rw [hone, keys, nkeys_splitLeft hmid, keys, hfull, map_range_insertIdx hp, map_range_append,
    show mid + (width - mid + 1) = width + 1 by omega]
  apply map_range_congr
  intro i hi
  split
  · rename_i him
    exact ikey0_splitLeft him
  · congr 1
    omega

/-- **The children of the halves** are those of the full internode and the new one. -/
theorem split_children (hfull : x.nkeys = width) (hmid : 0 < mid) (hmidw : mid ≤ width)
    (hp : p ≤ width) : (x.splitLeft mid p ka value).children ++
      (x.splitRight nr mid p ka value).children = x.children.insertIdx (p + 1) value := by
  rw [children, nkeys_splitLeft hmid, children, nkeys_splitRight, children, hfull,
    map_range_insertIdx (Nat.succ_le_succ hp), map_range_append,
    show mid + 1 + (width + 1 - (mid + 1) + 1) = width + 1 + 1 by omega]
  apply map_range_congr
  intro i hi
  split
  · rename_i him
    exact child_splitLeft (Nat.le_of_lt_succ him)
  · rw [child_splitRight (by omega)]
    congr 1
    omega

end Internode

end Sidle.Masstree
