import Sidle.Masstree.Stores

/-!
# The order of the entries of a leaf

The permutation of a leaf orders its entries by their slices and, where the slices are the same, by
their lengths.  The binary search relies on the order, and every store keeps it: what is written to
a slot that is not in use does not matter to it, and an entry is inserted where the search for its
key has ended.

## Main definitions

* `Leaf.Sorted` — the order.
* `LeafState.Ordered` — with it, the slots are a permutation.

## Main results

* `Leaf.Sorted.lower_eq`, `Leaf.Sorted.lower_none` — what the search returns.
* `LeafState.Ordered.run` — no run of stores brings the entries out of order.
-/

namespace Sidle.Masstree

open Trace

namespace Key

variable {ka : Key} {ikey keylenx : ℕ}

theorem compare_eq_gt : ka.compare ikey keylenx = .gt ↔ ikey < ka.ikey ∨ ikey = ka.ikey ∧
    (ikeySize < ka.length ∧ keylenx ≤ ikeySize ∨
      ka.length ≤ ikeySize ∧ keylenx < ka.length) := by
  unfold compare
  rcases Nat.lt_trichotomy ka.ikey (ikey) with h | h | h
  · simp only [compare_lt_iff_lt.mpr h, reduceCtorEq, false_iff]
    omega
  · simp only [compare_eq_iff_eq.mpr h]
    split
    · split <;> simp <;> omega
    · rw [compare_gt_iff_gt]
      omega
  · simp only [compare_gt_iff_gt.mpr h, true_iff]
    exact Or.inl h

theorem compare_eq_lt : ka.compare ikey keylenx = .lt ↔
    ka.ikey < ikey ∨
      ka.ikey = ikey ∧ ka.length ≤ ikeySize ∧ ka.length < keylenx := by
  unfold compare
  rcases Nat.lt_trichotomy ka.ikey (ikey) with h | h | h
  · simp only [compare_lt_iff_lt.mpr h, true_iff]
    exact Or.inl h
  · simp only [compare_eq_iff_eq.mpr h]
    split
    · split <;> simp <;> omega
    · rw [compare_lt_iff_lt]
      omega
  · simp only [compare_gt_iff_gt.mpr h, reduceCtorEq, false_iff]
    omega

theorem compare_eq_eq : ka.compare ikey keylenx = .eq ↔ ka.ikey = ikey ∧
    (ikeySize < ka.length ∧ ikeySize < keylenx ∨
      ka.length ≤ ikeySize ∧ ka.length = keylenx) := by
  unfold compare
  rcases Nat.lt_trichotomy ka.ikey (ikey) with h | h | h
  · simp only [compare_lt_iff_lt.mpr h, reduceCtorEq, false_iff]
    omega
  · simp only [compare_eq_iff_eq.mpr h]
    split
    · split <;> simp <;> omega
    · rw [compare_eq_iff_eq]
      omega
  · simp only [compare_gt_iff_gt.mpr h, reduceCtorEq, false_iff]
    omega

end Key

namespace Leaf

variable (l : Leaf)

/-- The entry in one slot comes before the one in another: a slice has at most one entry with a
suffix or a layer, behind all entries that end with it. -/
def Before (q q' : ℕ) : Prop :=
  l.ikey0 q < l.ikey0 q' ∨
    l.ikey0 q = l.ikey0 q' ∧ l.keylenx q ≤ ikeySize ∧ l.keylenx q < l.keylenx q'

/-- The permutation orders the entries, and their lengths are those of keys or marks. -/
structure Sorted : Prop where
  before : ∀ j k, j < k → k < l.size → l.Before (l.permutation.slot j) (l.permutation.slot k)
  keylenx : ∀ k < l.size, l.keylenx (l.permutation.slot k) ≤ ikeySize ∨
    l.keylenx (l.permutation.slot k) = ksufKeylenx ∨ l.keylenx (l.permutation.slot k) = layerKeylenx

variable {l} {ka : Key} {i q q' : ℕ}

theorem compareKey_eq_gt : l.compareKey ka q = .gt ↔ l.ikey0 q < ka.ikey ∨ l.ikey0 q = ka.ikey ∧
    (ikeySize < ka.length ∧ l.keylenx q ≤ ikeySize ∨
      ka.length ≤ ikeySize ∧ l.keylenx q < ka.length) := Key.compare_eq_gt

theorem compareKey_eq_lt : l.compareKey ka q = .lt ↔
    ka.ikey < l.ikey0 q ∨
      ka.ikey = l.ikey0 q ∧ ka.length ≤ ikeySize ∧ ka.length < l.keylenx q := Key.compare_eq_lt

theorem compareKey_eq_eq : l.compareKey ka q = .eq ↔ ka.ikey = l.ikey0 q ∧
    (ikeySize < ka.length ∧ ikeySize < l.keylenx q ∨
      ka.length ≤ ikeySize ∧ ka.length = l.keylenx q) := Key.compare_eq_eq

theorem Before.gt_of_eq (h : l.Before q q') (hq : l.compareKey ka q' = .eq) :
    l.compareKey ka q = .gt := by
  rw [compareKey_eq_eq] at hq
  rw [compareKey_eq_gt]
  unfold Before at h
  omega

theorem Before.lt_of_eq (h : l.Before q q') (hq : l.compareKey ka q = .eq) :
    l.compareKey ka q' = .lt := by
  rw [compareKey_eq_eq] at hq
  rw [compareKey_eq_lt]
  unfold Before at h
  omega

theorem Before.gt_of_gt (h : l.Before q q') (hq : l.compareKey ka q' = .gt) :
    l.compareKey ka q = .gt := by
  rw [compareKey_eq_gt] at hq ⊢
  unfold Before at h
  omega

theorem Before.lt_of_lt (h : l.Before q q') (hq : l.compareKey ka q = .lt) :
    l.compareKey ka q' = .lt := by
  rw [compareKey_eq_lt] at hq ⊢
  unfold Before at h
  omega

/-- The search finds the entry that the key compares equal to, wherever it is. -/
theorem Sorted.lower_eq (h : l.Sorted) (hi : i < l.size)
    (heq : l.compareKey ka (l.permutation.slot i) = .eq) :
    l.lower ka = ⟨i, some (l.permutation.slot i)⟩ := by
  apply lowerBoundBy_eq heq
  · intro j _ hj
    exact (h.before j i hj hi).gt_of_eq heq
  · intro j hj hjr
    exact (h.before i j hj hjr).lt_of_eq heq
  · exact Nat.zero_le i
  · exact hi
  · exact Nat.le_refl _

end Leaf

/-- What the search finds compares equal. -/
theorem lowerBoundBy_some {perm : Permuter} {cmp : ℕ → Ordering} {fuel lo hi i q : ℕ}
    (h : lowerBoundBy perm cmp fuel lo hi = ⟨i, some q⟩) :
    i < hi ∧ q = perm.slot i ∧ cmp q = .eq := by
  induction fuel generalizing lo hi with
  | zero => cases h
  | succ fuel ih =>
    rw [lowerBoundBy] at h
    split at h
    · dsimp only at h
      split at h
      · obtain ⟨hi', hq, hcmp⟩ := ih h
        exact ⟨by omega, hq, hcmp⟩
      · cases h
        exact ⟨by omega, rfl, ‹_›⟩
      · exact ih h
    · cases h

/-- What the search says of the entries around the place where it ends without one. -/
theorem lowerBoundBy_none {perm : Permuter} {cmp : ℕ → Ordering} {fuel n lo hi i : ℕ}
    (hgt : ∀ j k, j < k → k < n → cmp (perm.slot k) = .gt → cmp (perm.slot j) = .gt)
    (hlt : ∀ j k, j < k → k < n → cmp (perm.slot j) = .lt → cmp (perm.slot k) = .lt)
    (hlo : ∀ j, j < lo → cmp (perm.slot j) = .gt)
    (hhi : ∀ j, hi ≤ j → j < n → cmp (perm.slot j) = .lt) (hle : lo ≤ hi) (hn : hi ≤ n)
    (hfuel : hi - lo ≤ fuel) (h : lowerBoundBy perm cmp fuel lo hi = ⟨i, none⟩) :
    i ≤ n ∧ (∀ j, j < i → cmp (perm.slot j) = .gt) ∧
      ∀ j, i ≤ j → j < n → cmp (perm.slot j) = .lt := by
  induction fuel generalizing lo hi with
  | zero =>
    cases h
    exact ⟨Nat.le_trans hle hn, hlo, fun j hj => hhi j (by omega)⟩
  | succ fuel ih =>
    rw [lowerBoundBy] at h
    split at h
    · dsimp only at h
      split at h
      · rename_i hcmp
        refine ih hlo ?_ (by omega) (by omega) (by omega) h
        intro j hj hjn
        rcases Nat.eq_or_lt_of_le hj with rfl | hlt'
        · exact hcmp
        · exact hlt _ _ hlt' hjn hcmp
      · cases h
      · rename_i hcmp
        refine ih ?_ hhi (by omega) hn (by omega) h
        intro j hj
        rcases Nat.eq_or_lt_of_le (Nat.le_of_lt_succ hj) with rfl | hlt'
        · exact hcmp
        · exact hgt _ _ hlt' (by omega) hcmp
    · cases h
      exact ⟨Nat.le_trans hle hn, hlo, fun j hj => hhi j (by omega)⟩

/-- A key that the search has not found belongs before the entries from the index on that it has
ended at. -/
theorem Leaf.Sorted.lower_none {l : Leaf} (h : l.Sorted) {ka : Key}
    (hnone : (l.lower ka).p = none) :
    (l.lower ka).i ≤ l.size ∧
      (∀ j, j < (l.lower ka).i → l.compareKey ka (l.permutation.slot j) = .gt) ∧
      ∀ j, (l.lower ka).i ≤ j → j < l.size → l.compareKey ka (l.permutation.slot j) = .lt := by
  have heq : lowerBoundBy l.permutation (l.compareKey ka) l.size 0 l.size =
      ⟨(l.lower ka).i, none⟩ := by
    rw [← hnone]
    rfl
  refine lowerBoundBy_none ?_ ?_ ?_ ?_ (Nat.zero_le _) (Nat.le_refl _) (Nat.le_refl _) heq
  · intro j k hjk hk hcmp
    exact (h.before j k hjk hk).gt_of_gt hcmp
  · intro j k hjk hk hcmp
    exact (h.before j k hjk hk).lt_of_lt hcmp
  · intro j hj
    exact absurd hj (Nat.not_lt_zero j)
  · intro j hj hjn
    omega

/-- The slots of a leaf are a permutation that orders its entries. -/
structure LeafState.Ordered (s : LeafState) : Prop where
  full : s.leaf.permutation.Full
  sorted : s.leaf.Sorted

section Ordered

variable {s t : LeafState} {e : LeafEvent} {l l' : Leaf} {p : Permuter}

theorem Permuter.Full.apply (h : p.Full) (op : PermuterOp) (hallowed : op.Allowed p.size) :
    (op.apply p).Full := by
  apply h.step
  rw [permuterStep, if_pos hallowed]

/-- Entries that were in this order before are in order. -/
theorem Leaf.Sorted.of_slots (h : l.Sorted) (f : ℕ → ℕ)
    (hmono : ∀ j k, j < k → k < l'.size → f j < f k) (hlt : ∀ k < l'.size, f k < l.size)
    (hslot : ∀ k < l'.size, l'.permutation.slot k = l.permutation.slot (f k))
    (hikey : ∀ k < l'.size, l'.ikey0 (l'.permutation.slot k) = l.ikey0 (l'.permutation.slot k))
    (hlen : ∀ k < l'.size, l'.keylenx (l'.permutation.slot k) = l.keylenx (l'.permutation.slot k)) :
    l'.Sorted := by
  constructor
  · intro j k hjk hk
    have hj : j < l'.size := Nat.lt_trans hjk hk
    have hbefore := h.before (f j) (f k) (hmono j k hjk hk) (hlt k hk)
    unfold Leaf.Before at hbefore ⊢
    rw [hikey j hj, hikey k hk, hlen j hj, hlen k hk, hslot j hj, hslot k hk]
    exact hbefore
  · intro k hk
    rw [hlen k hk, hslot k hk]
    exact h.keylenx (f k) (hlt k hk)

/-- A store to the slot at the back changes no entry. -/
theorem LeafState.Ordered.slot_ne_back (h : s.Ordered) (hsize : s.leaf.size < width) {k : ℕ}
    (hk : k < s.leaf.size) : s.leaf.permutation.slot k ≠ s.leaf.permutation.back := by
  intro heq
  apply h.full.back_notMem_used hsize
  rw [← heq]
  exact h.full.mem_used.mpr ⟨k, hk, rfl⟩

/-- What the slot at the back holds when a key has been assigned to it. -/
structure Leaf.Assigned (l : Leaf) (ka : Key) (q : ℕ) : Prop where
  ikey : l.ikey0 q = ka.ikey
  keylenx : l.keylenx q = if ikeySize < ka.length then ksufKeylenx else ka.length

/-- The entry for a key comes behind those that the key is larger than. -/
theorem Leaf.Assigned.behind {ka : Key} {q q' : ℕ} (h : l.Assigned ka q)
    (hcmp : l.compareKey ka q' = .gt) : l.Before q' q := by
  rw [Leaf.compareKey_eq_gt] at hcmp
  unfold Leaf.Before
  rw [h.ikey, h.keylenx]
  by_cases hlong : ikeySize < ka.length
  · rw [if_pos hlong]
    simp only [ikeySize, ksufKeylenx] at *
    omega
  · rw [if_neg hlong]
    omega

/-- It comes before those that the key is smaller than. -/
theorem Leaf.Assigned.before {ka : Key} {q q' : ℕ} (h : l.Assigned ka q)
    (hcmp : l.compareKey ka q' = .lt) : l.Before q q' := by
  rw [Leaf.compareKey_eq_lt] at hcmp
  unfold Leaf.Before
  rw [h.ikey, h.keylenx]
  by_cases hlong : ikeySize < ka.length
  · rw [if_pos hlong]
    omega
  · rw [if_neg hlong]
    omega

/-- The new entry is where it belongs. -/
theorem LeafState.Ordered.finishInsert (h : s.Ordered) {ka : Key}
    (hallows : s.Allows (.finishInsert ka)) : (s.apply (.finishInsert ka)).Ordered := by
  obtain ⟨⟨-, -, hsize⟩, hnone, hikey, hlen⟩ := hallows
  obtain ⟨hi, hgt, hlt⟩ := h.sorted.lower_none hnone
  have hiw : (s.leaf.lower ka).i < width := Nat.lt_of_le_of_lt hi hsize
  have hnew : s.leaf.Assigned ka s.leaf.permutation.back := by
    refine ⟨hikey, ?_⟩
    rw [hlen]
    simp only [Key.hasSuffix, decide_eq_true_eq]
  have hslot {k : ℕ} (hk : k < width) :=
    Permuter.slot_insertFromBack (k := k) h.full.length hiw hk
  refine ⟨h.full.apply (.insertFromBack (s.leaf.lower ka).i) ⟨hiw, hsize⟩, ?_, ?_⟩
  · intro j k hjk hk
    replace hk : k < s.leaf.size + 1 := hk
    have hkw : k < width := Nat.lt_of_lt_of_le hk hsize
    have hj₁ := hslot (Nat.lt_trans hjk hkw)
    have hk₁ := hslot hkw
    change s.leaf.Before ((s.leaf.permutation.insertFromBack _).slot j)
      ((s.leaf.permutation.insertFromBack _).slot k)
    rcases Nat.lt_trichotomy k (s.leaf.lower ka).i with hki | hki | hki
    · rw [if_pos (Nat.lt_trans hjk hki)] at hj₁
      rw [if_pos hki] at hk₁
      rw [hj₁, hk₁]
      exact h.sorted.before j k hjk (by omega)
    · rw [if_pos (hki ▸ hjk)] at hj₁
      rw [if_neg (by omega), if_pos hki] at hk₁
      rw [hj₁, hk₁]
      exact hnew.behind (hgt j (hki ▸ hjk))
    · rw [if_neg (Nat.lt_asymm hki), if_neg (Nat.ne_of_gt hki)] at hk₁
      rcases Nat.lt_trichotomy j (s.leaf.lower ka).i with hji | hji | hji
      · rw [if_pos hji] at hj₁
        rw [hj₁, hk₁]
        exact h.sorted.before j (k - 1) (by omega) (by omega)
      · rw [if_neg (by omega), if_pos hji] at hj₁
        rw [hj₁, hk₁]
        exact hnew.before (hlt (k - 1) (by omega) (by omega))
      · rw [if_neg (Nat.lt_asymm hji), if_neg (Nat.ne_of_gt hji)] at hj₁
        rw [hj₁, hk₁]
        exact h.sorted.before (j - 1) (k - 1) (by omega) (by omega)
  · intro k hk
    replace hk : k < s.leaf.size + 1 := hk
    have hk₁ := hslot (Nat.lt_of_lt_of_le hk hsize)
    change s.leaf.keylenx ((s.leaf.permutation.insertFromBack _).slot k) ≤ _ ∨
      s.leaf.keylenx ((s.leaf.permutation.insertFromBack _).slot k) = _ ∨
      s.leaf.keylenx ((s.leaf.permutation.insertFromBack _).slot k) = _
    rw [hk₁]
    split
    · exact h.sorted.keylenx k (by omega)
    · split
      · rw [hnew.keylenx]
        split
        · exact Or.inr (Or.inl rfl)
        · exact Or.inl (Nat.le_of_not_lt ‹_›)
      · exact h.sorted.keylenx (k - 1) (by omega)

/-- No store brings the entries out of order. -/
theorem LeafState.Ordered.step (h : s.Ordered) (hstep : leafStep s e = some t) : t.Ordered := by
  obtain ⟨hallows, rfl⟩ := leafStep_eq_some hstep
  -- the stores that no entry depends on
  have hid (u : LeafState) (hp : u.leaf.permutation = s.leaf.permutation)
      (hi : u.leaf.ikey0 = s.leaf.ikey0) (hk : u.leaf.keylenx = s.leaf.keylenx) : u.Ordered := by
    refine ⟨hp ▸ h.full, h.sorted.of_slots id (fun _ _ hjk _ => hjk) ?_ ?_ ?_ ?_⟩
    · intro k hk
      rwa [Leaf.size, hp] at hk
    · intro k _
      rw [hp]
      rfl
    · intro k _
      rw [hi]
    · intro k _
      rw [hk]
  cases e with
  | version | markRoot | markNonroot | markDeletedTree | setModstate | markDeletedLayer
  | assignLv | replaceKsuf | setLv | link | recordAccess => exact hid _ rfl rfl rfl
  | assignSuffix suffix =>
    obtain ⟨iksuf, external, heq, -⟩ := LeafState.apply_assignSuffix hallows
    rw [heq]
    exact hid _ rfl rfl rfl
  | assignIkey0 ikey =>
    refine ⟨h.full, h.sorted.of_slots id (fun _ _ hjk _ => hjk) (fun _ hk => hk)
      (fun _ _ => rfl) ?_ (fun _ _ => rfl)⟩
    intro k hk
    exact Function.update_of_ne (h.slot_ne_back hallows.2.2 hk) _ _
  | assignKeylenx keylenx =>
    refine ⟨h.full, h.sorted.of_slots id (fun _ _ hjk _ => hjk) (fun _ hk => hk)
      (fun _ _ => rfl) (fun _ _ => rfl) ?_⟩
    intro k hk
    exact Function.update_of_ne (h.slot_ne_back hallows.2.2 hk) _ _
  | reserve =>
    have hsize := hallows.2.2
    refine ⟨h.full.apply (.exchange s.leaf.size (width - 1)) ⟨hsize, by decide⟩,
      h.sorted.of_slots id (fun _ _ hjk _ => hjk) (fun _ hk => hk) ?_ (fun _ _ => rfl)
        (fun _ _ => rfl)⟩
    intro k hk
    replace hk : k < s.leaf.size := hk
    have hslot := Permuter.slot_exchange (k := k) h.full.length hsize
      (show width - 1 < width by decide) (Nat.lt_trans hk hsize)
    refine hslot.trans ?_
    rw [if_neg (by omega), if_neg (by omega)]
    rfl
  | finishInsert ka => exact h.finishInsert hallows
  | finishRemove i =>
    have hi := hallows.2.2
    refine ⟨h.full.apply (.remove i) hi,
      h.sorted.of_slots (fun k => if k < i then k else k + 1) ?_ ?_ ?_ (fun _ _ => rfl)
        (fun _ _ => rfl)⟩
    · intro j k hjk _
      split <;> split <;> omega
    · intro k hk
      replace hk : k < s.leaf.size - 1 := hk
      split <;> omega
    · intro k hk
      replace hk : k < s.leaf.size - 1 := hk
      have hsize : s.leaf.size ≤ width := h.full.size
      refine (Permuter.slot_remove h.full.length hi hsize (by omega)).trans ?_
      split
      · rfl
      · rw [if_pos (show k + 1 < s.leaf.permutation.size by unfold Leaf.size at hk; omega)]
  | makeLayer q =>
    obtain ⟨-, -, -, hsuf⟩ := hallows
    have hq : s.leaf.keylenx q = ksufKeylenx := by
      simpa [Leaf.hasKsuf, keylenxHasKsuf] using hsuf
    have hlen (p : ℕ) : (s.apply (.makeLayer q)).leaf.keylenx p =
        if p = q then layerKeylenx else s.leaf.keylenx p := Function.update_apply _ _ _ _
    refine ⟨h.full, ?_, ?_⟩
    · intro j k hjk hk
      have hbefore := h.sorted.before j k hjk hk
      unfold Leaf.Before at hbefore ⊢
      rw [hlen, hlen]
      rcases hbefore with hlt | ⟨heq, hle, hlt⟩
      · exact Or.inl hlt
      · -- an entry with a suffix has none of its slice behind it
        refine Or.inr ⟨heq, ?_⟩
        have hjq : s.leaf.permutation.slot j ≠ q := by
          intro hjq
          rw [hjq, hq] at hle
          exact absurd hle (by decide)
        change (if s.leaf.permutation.slot j = q then _ else _) ≤ _ ∧
          (if s.leaf.permutation.slot j = q then _ else _) <
            if s.leaf.permutation.slot k = q then _ else _
        rw [if_neg hjq]
        refine ⟨hle, ?_⟩
        split
        · exact Nat.lt_of_le_of_lt hle (by decide)
        · exact hlt
    · intro k hk
      rw [hlen]
      split
      · exact Or.inr (Or.inr rfl)
      · exact h.sorted.keylenx k hk
  | shrink n =>
    obtain ⟨-, -, hn⟩ := hallows
    have hsize : s.leaf.size ≤ width := h.full.size
    have hset : (s.leaf.permutation.setSize n).Full :=
      h.full.apply (.setSize n) (Nat.le_trans hn hsize)
    by_cases hwidth : s.leaf.size = width
    · have happly : s.apply (.shrink n) =
          { s with leaf := { s.leaf with permutation := s.leaf.permutation.setSize n } } := by
        simp [LeafState.apply, hwidth]
      rw [happly]
      exact ⟨hset, h.sorted.of_slots id (fun _ _ hjk _ => hjk)
        (fun _ hk => Nat.lt_of_lt_of_le hk hn) (fun _ _ => rfl) (fun _ _ => rfl)
        (fun _ _ => rfl)⟩
    · have happly : s.apply (.shrink n) =
          { s with leaf :=
            { s.leaf with
              permutation := (s.leaf.permutation.setSize n).exchange n (width - 1) } } := by
        simp [LeafState.apply, hwidth]
      have hnw : n < width := by omega
      rw [happly]
      refine ⟨hset.apply (.exchange n (width - 1)) ⟨hnw, by decide⟩,
        h.sorted.of_slots id (fun _ _ hjk _ => hjk) (fun _ hk => Nat.lt_of_lt_of_le hk hn) ?_
          (fun _ _ => rfl) (fun _ _ => rfl)⟩
      intro k hk
      replace hk : k < n := hk
      have hslot := Permuter.slot_exchange (k := k) hset.length hnw
        (show width - 1 < width by decide) (Nat.lt_trans hk hnw)
      refine hslot.trans ?_
      rw [if_neg (by omega), if_neg (by omega)]
      rfl

theorem LeafState.Ordered.run {es : List LeafEvent} (h : s.Ordered)
    (hrun : Trace.run leafStep s es = some t) : t.Ordered := by
  have hall : Always leafStep LeafState.Ordered s es := by
    apply always_of_step h
    intro t e u ht hstep
    exact ht.step hstep
  exact hall.last hrun

end Ordered

end Sidle.Masstree
