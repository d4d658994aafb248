import Sidle.Masstree.Order

/-!
# Optimistic lookups in a leaf

A lookup takes no lock.  It loads a version of the leaf that shows no mark, then the permutation,
the keys that the search asks for, the suffix and the value, each at its own time, and in the end
it asks whether the version has changed.  The entries that the permutation named may have been
removed meanwhile and others inserted, but only in slots that the lookup does not look at: between
two marks a leaf takes new entries or it loses entries, never both.

## Main definitions

* `LeafState.Stays` — what a lookup can rely on.
* `Reading` — what a lookup has read, and when.

## Main results

* `kept_of_unmarked` — what stays while no mark is shown.
* `lookup_at_some_time` — **a lookup that finds the version unchanged returns what the leaf
  contained at one moment while it was reading.**
* `findLocked_position` — the position found before the lock was taken is the one in the locked
  leaf.
* `no_shrink_of_not_hasSplit` — where no split is seen, no entry has moved to another leaf.
-/

namespace Sidle.Masstree

open Trace

/-! ### What stays while no mark is shown -/

/-- The key in the slot `q` is what it was. -/
structure LeafState.SlotKept (s t : LeafState) (q : ℕ) : Prop where
  ikey0 : t.leaf.ikey0 q = s.leaf.ikey0 q
  keylenx : t.leaf.keylenx q = s.leaf.keylenx q
  suffix : s.leaf.hasKsuf q = true → t.suffixAt q = s.suffixAt q

/-- What a lookup that began in `a` can rely on of an entry of that time: its slot is not written
to, and as long as the leaf takes new entries it is in use. -/
structure LeafState.Stays (a u : LeafState) (q : ℕ) : Prop where
  kept : a.SlotKept u q
  used : u.leaf.modstate = .insert → q ∈ u.leaf.permutation.used

section Kept

variable {s t u a : LeafState} {e : LeafEvent} {q : ℕ}

theorem LeafState.SlotKept.refl (s : LeafState) (q : ℕ) : s.SlotKept s q :=
  ⟨rfl, rfl, fun _ => rfl⟩

theorem LeafState.SlotKept.hasKsuf (h : s.SlotKept t q) : t.leaf.hasKsuf q = s.leaf.hasKsuf q := by
  rw [Leaf.hasKsuf, Leaf.hasKsuf, h.keylenx]

theorem LeafState.SlotKept.trans (h : s.SlotKept t q) (h' : t.SlotKept u q) : s.SlotKept u q := by
  refine ⟨h'.ikey0.trans h.ikey0, h'.keylenx.trans h.keylenx, ?_⟩
  intro hsuf
  exact (h'.suffix (h.hasKsuf.trans hsuf)).trans (h.suffix hsuf)

theorem LeafState.SlotKept.compareKey (h : s.SlotKept t q) (ka : Key) :
    t.leaf.compareKey ka q = s.leaf.compareKey ka q := by
  rw [Leaf.compareKey, Leaf.compareKey, h.ikey0, h.keylenx]

/-- A slot that is in use while the leaf takes new entries is not written to without a mark. -/
theorem slotKept_of_step (hs : s.Ordered) (hm : ¬s.leaf.version.marked = true)
    (hstep : leafStep s e = some t)
    (hq : s.leaf.modstate = .insert → q ∈ s.leaf.permutation.used) : s.SlotKept t q := by
  obtain ⟨hallows, rfl⟩ := leafStep_eq_some hstep
  have hback (h : s.Assigning) : q ≠ s.leaf.permutation.back := by
    intro heq
    exact hs.full.back_notMem_used h.2.2 (heq ▸ hq h.2.1)
  cases e with
  | assignIkey0 ikey => exact ⟨Function.update_of_ne (hback hallows) _ _, rfl, fun _ => rfl⟩
  | assignKeylenx keylenx =>
    exact ⟨rfl, Function.update_of_ne (hback hallows) _ _, fun _ => rfl⟩
  | assignSuffix suffix =>
    obtain ⟨iksuf, external, heq, hother⟩ := LeafState.apply_assignSuffix hallows
    have hsuffix := hother q (hback hallows.1)
    rw [heq] at hsuffix ⊢
    exact ⟨rfl, rfl, fun _ => hsuffix⟩
  | replaceKsuf ksuf bag =>
    refine ⟨rfl, rfl, ?_⟩
    intro hsuf
    obtain ⟨hassigning, hne, hcopied⟩ := hallows
    change (if ksuf ≠ 0 then bag else _).get q = _
    rw [if_pos hne]
    exact hcopied q (hq hassigning.2.1) hsuf
  | makeLayer p =>
    rw [NodeVersion.marked, hallows.2.1, Bool.true_or] at hm
    exact absurd rfl hm
  | version | markRoot | markNonroot | markDeletedTree | setModstate | markDeletedLayer | reserve
  | assignLv | finishInsert | setLv | finishRemove | shrink | link | recordAccess =>
    exact ⟨rfl, rfl, fun _ => rfl⟩

/-- Without a mark the leaf does not begin to take new entries, and while it takes them it loses
none. -/
theorem used_of_step (hs : s.Ordered) (hm : ¬s.leaf.version.marked = true)
    (hstep : leafStep s e = some t) (ht : t.leaf.modstate = .insert) :
    s.leaf.modstate = .insert ∧
      (q ∈ s.leaf.permutation.used → q ∈ t.leaf.permutation.used) := by
  have ht' := hs.step hstep
  obtain ⟨hallows, rfl⟩ := leafStep_eq_some hstep
  have hins (h : s.leaf.version.inserting = true) : False := by
    rw [NodeVersion.marked, h, Bool.true_or] at hm
    exact hm rfl
  cases e with
  | setModstate m => exact (hins hallows.2.1).elim
  | markDeletedLayer => cases ht
  | finishRemove i =>
    have hremove := hallows.2.1
    rw [show s.leaf.modstate = .insert from ht] at hremove
    cases hremove
  | shrink n =>
    rw [NodeVersion.marked, hallows.2.1, Bool.or_true] at hm
    exact absurd rfl hm
  | reserve =>
    refine ⟨ht, ?_⟩
    intro hq
    have hsize := hallows.2.2
    obtain ⟨k, hk, rfl⟩ := hs.full.mem_used.mp hq
    refine ht'.full.mem_used.mpr ⟨k, hk, ?_⟩
    have hks : k < s.leaf.size := hk
    refine (Permuter.slot_exchange hs.full.length hsize (show width - 1 < width by decide)
      (Nat.lt_trans hks hsize)).trans ?_
    rw [if_neg (by omega), if_neg (by omega)]
  | finishInsert ka =>
    refine ⟨ht, ?_⟩
    intro hq
    have hsize := hallows.1.2.2
    obtain ⟨hi, -, -⟩ := hs.sorted.lower_none hallows.2.1
    have hiw : (s.leaf.lower ka).i < width := Nat.lt_of_le_of_lt hi hsize
    obtain ⟨k, hk, rfl⟩ := hs.full.mem_used.mp hq
    have hks : k < s.leaf.size := hk
    have hkw : k + 1 < width := Nat.lt_of_le_of_lt hks hsize
    have hslot {j : ℕ} (hj : j < width) :=
      Permuter.slot_insertFromBack (k := j) hs.full.length hiw hj
    apply ht'.full.mem_used.mpr
    -- the entries from the new one on move up
    by_cases hki : k < (s.leaf.lower ka).i
    · refine ⟨k, Nat.lt_succ_of_lt hk, ?_⟩
      refine (hslot (Nat.lt_of_succ_lt hkw)).trans ?_
      rw [if_pos hki]
    · refine ⟨k + 1, Nat.succ_lt_succ hk, ?_⟩
      refine (hslot hkw).trans ?_
      rw [if_neg (by omega), if_neg (by omega), Nat.add_sub_cancel]
  | assignSuffix suffix =>
    obtain ⟨iksuf, external, heq, -⟩ := LeafState.apply_assignSuffix hallows
    rw [heq] at ht ⊢
    exact ⟨ht, id⟩
  | version | markRoot | markNonroot | markDeletedTree | assignLv | assignIkey0 | assignKeylenx
  | replaceKsuf | setLv | makeLayer | link | recordAccess => exact ⟨ht, id⟩

/-- The value in a slot is written while the slot is in use or is being filled. -/
theorem lv_of_step (hstep : leafStep s e = some t) (hq : q ∉ s.leaf.permutation.used)
    (hins : s.leaf.modstate ≠ .insert) : t.leaf.lv q = s.leaf.lv q := by
  obtain ⟨hallows, rfl⟩ := leafStep_eq_some hstep
  cases e with
  | assignLv lv => exact absurd hallows.2.1 hins
  | setLv p lv =>
    apply Function.update_of_ne
    intro heq
    exact hq (heq ▸ hallows.2)
  | assignSuffix suffix =>
    obtain ⟨iksuf, external, heq, -⟩ := LeafState.apply_assignSuffix hallows
    rw [heq]
  | version | markRoot | markNonroot | markDeletedTree | setModstate | markDeletedLayer | reserve
  | assignIkey0 | assignKeylenx | replaceKsuf | finishInsert | finishRemove | makeLayer | shrink
  | link | recordAccess => rfl

/-- An entry that leaves the leaf leaves its value behind. -/
theorem lv_of_used (hstep : leafStep s e = some t) (hq : q ∈ s.leaf.permutation.used)
    (hq' : q ∉ t.leaf.permutation.used) : t.leaf.lv q = s.leaf.lv q := by
  obtain ⟨hallows, rfl⟩ := leafStep_eq_some hstep
  cases e with
  | assignLv lv => exact absurd hq hq'
  | setLv p lv => exact absurd hq hq'
  | assignSuffix suffix =>
    obtain ⟨iksuf, external, heq, -⟩ := LeafState.apply_assignSuffix hallows
    rw [heq]
  | version | markRoot | markNonroot | markDeletedTree | setModstate | markDeletedLayer | reserve
  | assignIkey0 | assignKeylenx | replaceKsuf | finishInsert | finishRemove | makeLayer | shrink
  | link | recordAccess => rfl

/-- **What stays while no mark is shown.** -/
theorem LeafState.Stays.step (h : a.Stays u q) (hu : u.Ordered)
    (hm : ¬u.leaf.version.marked = true) (hstep : leafStep u e = some t) : a.Stays t q := by
  refine ⟨h.kept.trans (slotKept_of_step hu hm hstep h.used), ?_⟩
  intro ht
  obtain ⟨hu', hkeep⟩ := used_of_step (q := q) hu hm hstep ht
  exact hkeep (h.used hu')

theorem kept_of_unmarked {es : List LeafEvent} (ha : a.Ordered)
    (hm : Always leafStep (fun u => ¬u.leaf.version.marked = true) a es)
    (hq : q ∈ a.leaf.permutation.used) :
    Always leafStep (fun u => u.Ordered ∧ a.Stays u q) a es := by
  have hsteps : EachStep leafStep (fun u _ _ => ¬u.leaf.version.marked = true) a es := by
    intro before e after u v heq hrun _
    exact hm before (e :: after) u heq hrun
  refine always_of_eachStep (I := fun u => u.Ordered ∧ a.Stays u q)
    ⟨ha, LeafState.SlotKept.refl a q, fun _ => hq⟩ ?_ hsteps
  intro u e v ⟨hu, hstays⟩ hstep hmark
  exact ⟨hu.step hstep, hstays.step hu hmark hstep⟩

end Kept

/-! ### Lookups -/

/-- The states in which a lookup has read what it has read of the leaf after the permutation: the
keys that its search asks for, the length and the suffix that `ksuf_matches` looks at, and the
value. -/
structure Reading where
  ikey0At : ℕ → LeafState
  keylenxAt : ℕ → LeafState
  matchAt : LeafState
  suffixAt : LeafState
  lvAt : LeafState

namespace Reading

variable (r : Reading)

/-- The lookup has read while the stores `es` were made to `a`. -/
structure Within (a : LeafState) (es : List LeafEvent) : Prop where
  ikey0At : ∀ q, Passes leafStep a es (r.ikey0At q)
  keylenxAt : ∀ q, Passes leafStep a es (r.keylenxAt q)
  matchAt : Passes leafStep a es r.matchAt
  suffixAt : Passes leafStep a es r.suffixAt
  lvAt : Passes leafStep a es r.lvAt

/-- `bound_type::lower`, with the keys as they are read. -/
def lower (perm : Permuter) (ka : Key) : KeyIndexedPosition :=
  lowerBoundBy perm
    (fun q => ka.compare ((r.ikey0At q).leaf.ikey0 q) ((r.keylenxAt q).leaf.keylenx q))
    perm.size 0 perm.size

/-- `ksuf_matches`, with the length and the suffix as they are read. -/
def ksufMatches (p : ℕ) (ka : Key) : ℤ :=
  if r.matchAt.leaf.keylenx p < ksufKeylenx then 1
  else if r.matchAt.leaf.keylenx p = layerKeylenx then -(ikeySize : ℤ)
  else if r.suffixAt.suffixAt p = ka.suffix then 1 else 0

/-- What `find_unlocked` takes from the leaf: how the entry matches, and its word. -/
def lookup (perm : Permuter) (ka : Key) : ℤ × ℕ :=
  match (r.lower perm ka).p with
  | some p => (r.ksufMatches p ka, r.lvAt.leaf.lv p)
  | none => (0, 0)

end Reading

/-- Searches that compare the same go the same way. -/
theorem lowerBoundBy_congr {perm : Permuter} {cmp cmp' : ℕ → Ordering} {fuel lo hi : ℕ}
    (h : ∀ m < hi, cmp (perm.slot m) = cmp' (perm.slot m)) :
    lowerBoundBy perm cmp fuel lo hi = lowerBoundBy perm cmp' fuel lo hi := by
  induction fuel generalizing lo hi with
  | zero => rfl
  | succ fuel ih =>
    rw [lowerBoundBy, lowerBoundBy]
    split
    · have hm : (lo + hi) / 2 < hi := by omega
      simp only [h _ hm]
      split
      · exact ih fun m hm' => h m (Nat.lt_trans hm' hm)
      · rfl
      · exact ih h
    · rfl

section Lookup

variable {s a b w : LeafState} {es es₁ es₂ : List LeafEvent} {ka : Key} {q : ℕ} {r : Reading}
  {readonly : Bool}

/-- What the search of the leaf finds is an entry that compares equal. -/
theorem LeafState.Ordered.lower_some (ha : a.Ordered) (hq : (a.leaf.lower ka).p = some q) :
    q ∈ a.leaf.permutation.used ∧ a.leaf.compareKey ka q = .eq := by
  have heq : lowerBoundBy a.leaf.permutation (a.leaf.compareKey ka) a.leaf.size 0 a.leaf.size =
      ⟨(a.leaf.lower ka).i, some q⟩ := by
    rw [← hq]
    rfl
  obtain ⟨hi, hslot, hcmp⟩ := lowerBoundBy_some heq
  exact ⟨ha.full.mem_used.mpr ⟨_, hi, hslot.symm⟩, hcmp⟩

/-- An entry that has the key is found. -/
theorem LeafState.SlotKept.lower (h : a.SlotKept w q) (hw : w.Ordered)
    (hq : q ∈ w.leaf.permutation.used) (hcmp : a.leaf.compareKey ka q = .eq) :
    (w.leaf.lower ka).p = some q := by
  obtain ⟨i, hi, rfl⟩ := hw.full.mem_used.mp hq
  rw [hw.sorted.lower_eq hi ((h.compareKey ka).trans hcmp)]

/-- The match of an entry is read off a slot that keeps its key. -/
theorem Reading.ksufMatches_eq (ha : a.Ordered) (hq : q ∈ a.leaf.permutation.used)
    (hmatch : a.SlotKept r.matchAt q) (hsuffix : a.SlotKept r.suffixAt q) (hw : a.SlotKept w q) :
    r.ksufMatches q ka = w.leaf.ksufMatches w.external q ka := by
  unfold Reading.ksufMatches Leaf.ksufMatches
  rw [hmatch.keylenx, hw.keylenx]
  split
  · rfl
  · split
    · rfl
    · -- neither a short key nor a layer: there is a suffix
      rename_i hshort hlayer
      obtain ⟨k, hk, rfl⟩ := ha.full.mem_used.mp hq
      have hlen : a.leaf.keylenx (a.leaf.permutation.slot k) = ksufKeylenx := by
        rcases ha.sorted.keylenx k hk with hle | heq | heq
        · exact absurd (Nat.lt_of_le_of_lt hle (by decide)) hshort
        · exact heq
        · exact absurd heq hlayer
      have hsuf : a.leaf.hasKsuf (a.leaf.permutation.slot k) = true := by
        simp [Leaf.hasKsuf, keylenxHasKsuf, hlen]
      rw [hsuffix.suffix hsuf, ← hw.suffix hsuf]
      rfl

/-- The value that is read in a slot was there at a time when the slot was in use. -/
theorem exists_used_of_unmarked (ha : a.Ordered)
    (hm : Always leafStep (fun u => ¬u.leaf.version.marked = true) a es)
    (hq : q ∈ a.leaf.permutation.used) (hrun : run leafStep a es = some b) :
    ∃ w, Passes leafStep a es w ∧ q ∈ w.leaf.permutation.used ∧ b.leaf.lv q = w.leaf.lv q := by
  have hall := kept_of_unmarked ha hm hq
  have hsteps : EachStep leafStep (fun u _ v => u.Ordered ∧ a.Stays u q) a es := by
    intro before e after u v heq hrun _
    exact hall before (e :: after) u heq hrun
  have hpasses := passes_of_run
    (R := fun w u => q ∈ w.leaf.permutation.used ∧ u.leaf.lv q = w.leaf.lv q) ⟨hq, rfl⟩ ?_ hsteps
    hrun
  · obtain ⟨w, hw, hused, hlv⟩ := hpasses
    exact ⟨w, hw, hused, hlv⟩
  · intro w u e v ⟨hused, hlv⟩ hstep ⟨_, hstays⟩
    by_cases hv : q ∈ v.leaf.permutation.used
    · exact Or.inr ⟨hv, rfl⟩
    · refine Or.inl ⟨hused, ?_⟩
      by_cases hu : q ∈ u.leaf.permutation.used
      · exact (lv_of_used hstep hu hv).trans hlv
      · have hmod : u.leaf.modstate ≠ .insert := fun hmod => hu (hstays.used hmod)
        exact (lv_of_step hstep hu hmod).trans hlv

/-- No mark has been shown since the permutation was loaded. -/
theorem unmarked_after (hmarked : s.leaf.version.marked = false)
    (h₁ : run leafStep s es₁ = some a) (h₂ : run leafStep a es₂ = some b)
    (hchanged : s.leaf.version.changed b.leaf.version readonly = false)
    (hbound : b.changes < s.changes + 2 ^ 19) :
    Always leafStep (fun u => ¬u.leaf.version.marked = true) a es₂ := by
  have hrun : run leafStep s (es₁ ++ es₂) = some b := by rw [run_append_of_run h₁, h₂]
  intro before after u heq hu
  apply unmarked_of_not_changed hmarked hrun hchanged hbound (es₁ ++ before) after u
  · rw [heq, List.append_assoc]
  · rw [run_append_of_run h₁, hu]

/-- The search goes as it would in the state in which the permutation was loaded. -/
theorem Reading.lower_eq (ha : a.Ordered)
    (hm : Always leafStep (fun u => ¬u.leaf.version.marked = true) a es) (hr : r.Within a es)
    (ka : Key) : r.lower a.leaf.permutation ka = a.leaf.lower ka := by
  apply lowerBoundBy_congr
  intro m hslot
  have hq := ha.full.mem_used.mpr ⟨m, hslot, rfl⟩
  have hkept {u : LeafState} (hu : Passes leafStep a es u) :=
    ((kept_of_unmarked ha hm hq).passes hu).2.kept
  rw [(hkept (hr.ikey0At _)).ikey0, (hkept (hr.keylenxAt _)).keylenx]
  rfl

/-- **Optimistic lookups.**  A lookup loads an unmarked version in `s`, the permutation in `a` and
what it needs of the entries at any times after that, and finds the version unchanged in `b`.  If
fewer than 2^19 changes of the leaf have ended in between, then what it has read is what a lookup
in one state of the leaf finds, a state that the leaf was in while it was read. -/
theorem lookup_at_some_time (hs : s.Ordered) (hmarked : s.leaf.version.marked = false)
    (h₁ : run leafStep s es₁ = some a) (h₂ : run leafStep a es₂ = some b)
    (hchanged : s.leaf.version.changed b.leaf.version readonly = false)
    (hbound : b.changes < s.changes + 2 ^ 19) (hr : r.Within a es₂) (ka : Key) :
    ∃ w, Passes leafStep a es₂ w ∧
      r.lookup a.leaf.permutation ka = w.leaf.lookup w.external ka := by
  have ha := hs.run h₁
  have hm := unmarked_after hmarked h₁ h₂ hchanged hbound
  have hkept {q : ℕ} (hq : q ∈ a.leaf.permutation.used) {u : LeafState}
      (hu : Passes leafStep a es₂ u) : a.SlotKept u q :=
    ((kept_of_unmarked ha hm hq).passes hu).2.kept
  have hlower := Reading.lower_eq ha hm hr ka
  cases hp : (a.leaf.lower ka).p with
  | none =>
    refine ⟨a, passes_self a es₂, ?_⟩
    rw [Reading.lookup, Leaf.lookup, hlower, hp]
  | some q =>
    obtain ⟨hq, hcmp⟩ := ha.lower_some hp
    -- the value was in use at some time before it was read
    obtain ⟨before, after, rfl, hlvAt⟩ := hr.lvAt
    have hm' : Always leafStep (fun u => ¬u.leaf.version.marked = true) a before := by
      intro before' after' u heq hu
      apply hm before' (after' ++ after) u _ hu
      rw [heq, List.append_assoc]
    obtain ⟨w, ⟨before', after', rfl, hw⟩, hused, hlv⟩ :=
      exists_used_of_unmarked ha hm' hq hlvAt
    have hpasses : Passes leafStep a ((before' ++ after') ++ after) w :=
      ⟨before', after' ++ after, by rw [List.append_assoc], hw⟩
    have hwkept := hkept hq hpasses
    have hword : w.Ordered := ((kept_of_unmarked ha hm hq).passes hpasses).1
    refine ⟨w, hpasses, ?_⟩
    rw [Reading.lookup, Leaf.lookup, hlower, hp, hwkept.lower hword hused hcmp]
    dsimp only
    rw [Reading.ksufMatches_eq ha hq (hkept hq hr.matchAt) (hkept hq hr.suffixAt) hwkept, hlv]

/-- The empty leaf that `leaf::make_with_cxl_policy` returns. -/
def LeafState.empty : LeafState := ⟨Leaf.make 320 .local_ 1 1, Stringbag.external 0, 0, 0⟩

theorem LeafState.ordered_empty : LeafState.empty.Ordered := by
  refine ⟨Permuter.full_makeSorted (Nat.zero_le _), ?_, ?_⟩
  · intro j k _ hk
    exact absurd hk (Nat.not_lt_zero k)
  · intro k hk
    exact absurd hk (Nat.not_lt_zero k)

/-- The stores that insert a key without a suffix, under the lock. -/
def insertShort (ka : Key) (value : ℕ) : List LeafEvent :=
  [.version .lock, .assignLv 0, .assignIkey0 ka.ikey, .assignKeylenx ka.length, .assignLv value,
    .finishInsert ka, .version .unlock]

/-- While a lookup reads, another key is inserted and the value is overwritten. -/
theorem lookup_at_some_time_insert : ∃ a b w, ∃ r : Reading,
    run leafStep .empty (insertShort (.ofStr [1]) 7) = some a ∧
      run leafStep a (insertShort (.ofStr [0]) 8 ++ [.version .lock, .setLv 0 9]) = some b ∧
      r.lvAt = b ∧
      Passes leafStep a (insertShort (.ofStr [0]) 8 ++ [.version .lock, .setLv 0 9]) w ∧
      r.lookup a.leaf.permutation (.ofStr [1]) = w.leaf.lookup w.external (.ofStr [1]) := by
  have ha : ∃ a, run leafStep .empty (insertShort (.ofStr [1]) 7) = some a := ⟨_, rfl⟩
  obtain ⟨a, ha⟩ := ha
  have hb : ∃ b, run leafStep .empty (insertShort (.ofStr [1]) 7 ++
      (insertShort (.ofStr [0]) 8 ++ [.version .lock, .setLv 0 9])) = some b ∧
        b.changes = 0 ∧ LeafState.empty.leaf.version.changed b.leaf.version true = false :=
    ⟨_, rfl, rfl, by decide⟩
  obtain ⟨b, hb, hchanges, hchanged⟩ := hb
  rw [run_append_of_run ha] at hb
  have hr : Reading.Within ⟨fun _ => a, fun _ => b, a, a, b⟩ a
      (insertShort (.ofStr [0]) 8 ++ [.version .lock, .setLv 0 9]) :=
    ⟨fun _ => passes_self _ _, fun _ => passes_last hb, passes_self _ _, passes_self _ _,
      passes_last hb⟩
  obtain ⟨w, hw, hlookup⟩ := lookup_at_some_time LeafState.ordered_empty (by decide) ha hb hchanged
    (by rw [hchanges]; decide) hr (.ofStr [1])
  exact ⟨a, b, w, _, ha, hb, rfl, hw, hlookup⟩

/-- **Locked lookups.**  `find_locked` searches before it takes the lock.  If it then finds the
version unchanged and the same permutation, what it has found is what the search finds in the
locked leaf. -/
theorem findLocked_position (hs : s.Ordered) (hmarked : s.leaf.version.marked = false)
    (h₁ : run leafStep s es₁ = some a) (h₂ : run leafStep a es₂ = some b)
    (hchanged : s.leaf.version.changed b.leaf.version readonly = false)
    (hperm : b.leaf.permutation = a.leaf.permutation)
    (hbound : b.changes < s.changes + 2 ^ 19) (hr : r.Within a es₂) (ka : Key) :
    r.lower a.leaf.permutation ka = b.leaf.lower ka ∧
      ∀ q, (b.leaf.lower ka).p = some q →
        r.ksufMatches q ka = b.leaf.ksufMatches b.external q ka := by
  have ha := hs.run h₁
  have hm := unmarked_after hmarked h₁ h₂ hchanged hbound
  have hkept {q : ℕ} (hq : q ∈ a.leaf.permutation.used) {u : LeafState}
      (hu : Passes leafStep a es₂ u) : a.SlotKept u q :=
    ((kept_of_unmarked ha hm hq).passes hu).2.kept
  have hb := passes_last h₂
  have hlower : b.leaf.lower ka = a.leaf.lower ka := by
    unfold Leaf.lower Leaf.size
    rw [hperm]
    apply lowerBoundBy_congr
    intro m hslot
    exact (hkept (ha.full.mem_used.mpr ⟨m, hslot, rfl⟩) hb).compareKey ka
  rw [hlower]
  constructor
  · exact Reading.lower_eq ha hm hr ka
  · intro q hp
    obtain ⟨hq, -⟩ := ha.lower_some hp
    exact Reading.ksufMatches_eq ha hq (hkept hq hr.matchAt) (hkept hq hr.suffixAt) (hkept hq hb)

/-- A search before the lock in a leaf that is not changed until it is taken. -/
theorem findLocked_position_lock : ∃ a b, ∃ r : Reading,
    run leafStep .empty (insertShort (.ofStr [1]) 7) = some a ∧
      run leafStep a [.recordAccess, .version .lock] = some b ∧
      r.lower a.leaf.permutation (.ofStr [1]) = b.leaf.lower (.ofStr [1]) := by
  have ha : ∃ a, run leafStep .empty (insertShort (.ofStr [1]) 7) = some a := ⟨_, rfl⟩
  obtain ⟨a, ha⟩ := ha
  have hb : ∃ b, run leafStep a [.recordAccess, .version .lock] = some b ∧
      b.changes = 0 ∧ b.leaf.permutation = a.leaf.permutation ∧
        LeafState.empty.leaf.version.changed b.leaf.version false = false := by
    cases ha
    exact ⟨_, rfl, rfl, rfl, by decide⟩
  obtain ⟨b, hb, hchanges, hperm, hchanged⟩ := hb
  have hr : Reading.Within ⟨fun _ => a, fun _ => a, a, a, a⟩ a [.recordAccess, .version .lock] :=
    ⟨fun _ => passes_self _ _, fun _ => passes_self _ _, passes_self _ _, passes_self _ _,
      passes_self _ _⟩
  have hfound := findLocked_position LeafState.ordered_empty (by decide) ha hb hchanged hperm
    (by rw [hchanges]; decide) hr (.ofStr [1])
  exact ⟨a, b, _, ha, hb, hfound.1⟩

/-- **Splits.**  Where `has_split` sees no split between two versions of a leaf, none of its
entries has moved to another leaf, if fewer than 2^19 changes have ended in between. -/
theorem no_shrink_of_not_hasSplit (hb : b.leaf.version.splitting = false)
    (hrun : run leafStep s es = some b)
    (hsplit : hasSplit b.leaf.version s.leaf.version = false)
    (hbound : b.changes < s.changes + 2 ^ 19) :
    EachStep leafStep (fun _ e _ => ∀ n, e ≠ .shrink n) s es := by
  have hsplits := (progress_of_run hrun).splits_eq
    (NodeVersion.vsplit_of_not_hasSplit hsplit) hbound
  have hnone : Always leafStep (fun u => ¬u.leaf.version.splitting = true) s es := by
    refine always_of_count LeafState.splits ?_ ?_ hrun ?_ hsplits
    · intro t e u hstep
      rcases leafStep_version hstep with ⟨-, -, -, -, hk⟩ | ⟨-, -, hk⟩
      · exact hk.ge
      · rw [hk]
        split
        · exact Nat.le_succ _
        · exact Nat.le_refl _
    · intro t e u hstep ht
      rcases leafStep_version hstep with ⟨-, hkept, -⟩ | ⟨-, -, hk⟩
      · exact Or.inl (hkept ht)
      · rw [hk, if_pos ht]
        exact Or.inr (Nat.lt_succ_self _)
    · rw [hb]
      exact Bool.false_ne_true
  intro before e after t u heq ht hstep n he
  subst he
  exact hnone before (.shrink n :: after) t heq ht (leafStep_eq_some hstep).1.2.1

/-- An insertion is no split. -/
theorem no_shrink_of_not_hasSplit_insert : ∃ b,
    run leafStep .empty (insertShort (.ofStr [1]) 7) = some b ∧
      EachStep leafStep (fun _ e _ => ∀ n, e ≠ .shrink n) .empty (insertShort (.ofStr [1]) 7) := by
  have hb : ∃ b, run leafStep .empty (insertShort (.ofStr [1]) 7) = some b ∧ b.changes = 0 ∧
      b.leaf.version.splitting = false ∧
        hasSplit b.leaf.version LeafState.empty.leaf.version = false :=
    ⟨_, rfl, rfl, by decide, by decide⟩
  obtain ⟨b, hb, hchanges, hsplitting, hsplit⟩ := hb
  exact ⟨b, hb, no_shrink_of_not_hasSplit hsplitting hb hsplit (by rw [hchanges]; decide)⟩

end Lookup

end Sidle.Masstree
