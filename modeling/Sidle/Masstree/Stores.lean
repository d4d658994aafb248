import Sidle.Masstree.LeafCopy
import Sidle.Masstree.Permuter
import Sidle.Masstree.Runs
import Sidle.Prog.Passes

/-!
# The stores to a leaf

The writers of a Masstree leaf hold its lock, but a lookup does not, and so it can come between
any two of their stores.  The stores are taken one by one here, each with what the code has made
sure of before it.  A mark is raised before the slot of a removed entry is reused, before the leaf
is split and before an entry becomes a layer; it is not raised to fill a slot that has been free
since the last mark, nor to remove one entry after another.

Every `unlock` of a marked leaf moves the counters of the version.  The counters are finite: 2^19
changes can bring them back, fewer can not.

## Main definitions

* `NodeVersion.count`, `NodeVersion.changed` — the counters, and the test of `has_changed`.
* `LeafState`, `LeafEvent`, `leafStep` — a leaf and the stores that are made to it.

## Main results

* `NodeVersion.count_unlock` — what an `unlock` counts.
* `Progress` — how far the counters have moved.
* `unmarked_of_not_changed` — a version that has not changed has shown no mark in between.
-/

namespace Sidle.Masstree

open Word Trace

/-! ### The counters as one number -/

namespace NodeVersion

/-- Both counters, read as one number. -/
def count (v : NodeVersion) : ℕ := field 3 25 v

/-- The node shows that it is being changed. -/
def marked (v : NodeVersion) : Bool := v.inserting || v.splitting

/-- The test of `has_changed` for two versions. -/
def changed (v w : NodeVersion) (readonly : Bool) : Bool :=
  let diff := v ^^^ w
  let diff := if readonly then diff &&& ~~~(bit 32 28) else diff
  decide (1 < diff.toNat)

variable {v w : NodeVersion}

theorem count_lt (v : NodeVersion) : v.count < 2 ^ 25 := field_lt 3 25 v

theorem count_eq (v : NodeVersion) : v.count = v.vinsert + 2 ^ 6 * v.vsplit := field_add 3 6 19 v

theorem vinsert_lt_two_pow (v : NodeVersion) : v.vinsert < 2 ^ 6 := field_lt 3 6 v

theorem vsplit_eq_count (v : NodeVersion) : v.vsplit = v.count / 2 ^ 6 := by
  have hlt := v.vinsert_lt_two_pow
  rw [count_eq, Nat.add_mul_div_left _ _ (by decide), Nat.div_eq_of_lt hlt, Nat.zero_add]

/-- A flag outside the counters does not count. -/
theorem count_setFlag {k : ℕ} (v : NodeVersion) (hk : Apart k 1 3 25) :
    count (setFlag k v) = v.count := field_setFlag_of_apart v hk

theorem count_clearFlag {k : ℕ} (v : NodeVersion) (hk : Apart k 1 3 25) :
    count (clearFlag k v) = v.count := field_clearFlag_of_apart v hk

/-- **What an unlock counts.**  The counter of the splits is incremented and that of the insertions
is reset, or the two are incremented as one number; an overflow is lost. -/
theorem count_unlock (v : NodeVersion) :
    v.unlock.count =
      if v.splitting then (v.count / 2 ^ 6 + 1) * 2 ^ 6 % 2 ^ 25
      else if v.inserting then (v.count + 1) % 2 ^ 25 else v.count := by
  have hkept (x : NodeVersion) : field 3 25 (x &&& unlockMask) = field 3 25 x := by
    have hmask : ∀ i : Fin 32, 3 ≤ i.val → i.val < 28 → unlockMask.getLsbD i = true := by decide
    apply field_congr
    intro i h3 h28
    rw [BitVec.getLsbD_and, hmask ⟨i, by omega⟩ h3 h28, Bool.and_true]
  rw [unlock_eq]
  split
  · -- the mask of a split drops the insertions
    have hmask : ∀ i : Fin 32, 9 ≤ i.val → i.val < 28 → splitUnlockMask.getLsbD i = true := by
      decide
    have hlow : ∀ i : Fin 32, 3 ≤ i.val → i.val < 9 → splitUnlockMask.getLsbD i = false := by decide
    have hsplit : field 9 19 (incrField 9 v &&& splitUnlockMask) = (v.vsplit + 1) % 2 ^ 19 := by
      rw [vsplit, ← field_incrField_mod v (by decide) (by decide)]
      apply field_congr
      intro i h9 h28
      rw [BitVec.getLsbD_and, hmask ⟨i, by omega⟩ h9 h28, Bool.and_true]
    have hinsert : field 3 6 (incrField 9 v &&& splitUnlockMask) = 0 := by
      apply Nat.eq_of_testBit_eq
      intro i
      rw [testBit_field, Nat.zero_testBit]
      by_cases hi : i < 6
      · have h9 : 3 + i < 9 := by omega
        rw [BitVec.getLsbD_and, hlow ⟨3 + i, by omega⟩ (Nat.le_add_right 3 i) h9]
        simp
      · simp [hi]
    rw [count_eq, vinsert, vsplit, hinsert, hsplit, vsplit_eq_count]
    omega
  · split
    · rw [count, hkept, field_incrField_mod v (by decide) (by decide)]
      rfl
    · exact hkept v

/-- Versions that `has_changed` does not tell apart agree from the marks to the counters. -/
theorem getLsbD_of_not_changed {readonly : Bool} (h : changed v w readonly = false) {i : ℕ}
    (h1 : 1 ≤ i) (h28 : i < 28) : v.getLsbD i = w.getLsbD i := by
  have hdiff : ((v ^^^ w) &&& ~~~(bit 32 28)).toNat ≤ 1 := by
    simp only [changed, decide_eq_false_iff_not, not_lt] at h
    cases readonly with
    | true => exact h
    | false =>
      rw [BitVec.toNat_and]
      exact Nat.le_trans Nat.and_le_left h
  have hbit : ((v ^^^ w) &&& ~~~(bit 32 28)).getLsbD i = false := by
    rw [← BitVec.testBit_toNat]
    apply Nat.testBit_lt_two_pow
    exact Nat.lt_of_le_of_lt hdiff (Nat.one_lt_two_pow (by omega))
  rw [BitVec.getLsbD_and, BitVec.getLsbD_not, getLsbD_bit, BitVec.getLsbD_xor] at hbit
  have hne : i ≠ 28 := by omega
  have hlt : i < 32 := by omega
  simpa [hne, hlt] using hbit

theorem count_of_not_changed {readonly : Bool} (h : changed v w readonly = false) :
    w.count = v.count := by
  apply field_congr
  intro i h3 h28
  exact (getLsbD_of_not_changed h (by omega) h28).symm

theorem marked_of_not_changed {readonly : Bool} (h : changed v w readonly = false) :
    w.marked = v.marked := by
  have hi : w.inserting = v.inserting := by
    rw [inserting, inserting, flag_eq (by decide), flag_eq (by decide)]
    exact (getLsbD_of_not_changed h (by decide) (by decide)).symm
  have hs : w.splitting = v.splitting := by
    rw [splitting, splitting, flag_eq (by decide), flag_eq (by decide)]
    exact (getLsbD_of_not_changed h (by decide) (by decide)).symm
  rw [marked, marked, hi, hs]

/-- Versions between which there is no split have seen the same number of splits. -/
theorem vsplit_of_not_hasSplit (h : hasSplit v w = false) : v.vsplit = w.vsplit := by
  have hdiff : ((w ^^^ v) &&& ~~~(bit 32 28)).toNat < 2 ^ 9 := by
    simpa [hasSplit, decide_eq_false_iff_not, not_le] using h
  apply field_congr
  intro i h9 h28
  have hbit : ((w ^^^ v) &&& ~~~(bit 32 28)).getLsbD i = false := by
    rw [← BitVec.testBit_toNat]
    apply Nat.testBit_lt_two_pow
    exact Nat.lt_of_lt_of_le hdiff (Nat.pow_le_pow_right (by decide) h9)
  rw [BitVec.getLsbD_and, BitVec.getLsbD_not, getLsbD_bit, BitVec.getLsbD_xor] at hbit
  have hne : i ≠ 28 := by omega
  have hlt : i < 32 := by omega
  have heq : w.getLsbD i = v.getLsbD i := by simpa [hne, hlt] using hbit
  exact heq.symm

end NodeVersion

/-- `has_changed` makes its test with the version that it finds. -/
theorem run_hasChanged {mem : Mem} {a : Addr} {n : Node} (hn : mem.node? a = some n)
    (v : NodeVersion) (readonly : Bool) :
    machine.run (hasChanged a v readonly) mem =
      .done (v.changed n.version readonly) mem := by
  rw [hasChanged, machine.run_bind_of_done (run_readVersion hn)]
  rfl

/-! ### The stores to a leaf -/

/-- A leaf as its readers see it: the struct and the bag that `ksuf_` points to.  How many of the
critical sections that marked it have ended, and how many of them were splits, is written along for
the statements only. -/
structure LeafState where
  leaf : Leaf
  external : Stringbag
  changes : ℕ
  splits : ℕ

namespace LeafState

variable (s : LeafState)

/-- `ksuf(p)`. -/
def suffixAt (p : ℕ) : Str := s.leaf.ksufAt s.external p

/-- An entry is being written to the slot at the back. -/
def Assigning : Prop :=
  s.leaf.version.locked = true ∧ s.leaf.modstate = .insert ∧ s.leaf.size < width

instance : Decidable s.Assigning := inferInstanceAs (Decidable (_ ∧ _ ∧ _))

/-- `ksuf_ && ksuf_->assign(p, s)`, and otherwise `iksuf_[0].assign(p, s)`. -/
def assignSuffix (p : ℕ) (suffix : Str) : Option LeafState :=
  match if s.leaf.ksuf ≠ 0 then s.external.assign p suffix else none with
  | some b => some { s with external := b }
  | none =>
    (if 0 < s.leaf.extrasize64 then s.leaf.iksuf.assign p suffix else none).map fun b =>
      { s with leaf := { s.leaf with iksuf := b } }

end LeafState

/-- The stores that change a leaf. -/
inductive LeafEvent
  | version (o : VersionOp)
  | markRoot
  | markNonroot
  | markDeletedTree
  /-- `modstate_`, in `find_insert` and in `finish_remove`. -/
  | setModstate (m : Modstate)
  | markDeletedLayer
  /-- The exchange by which `make_split` avoids the slot `0`. -/
  | reserve
  /-- `assign`, store by store. -/
  | assignLv (lv : ℕ)
  | assignIkey0 (ikey : ℕ)
  | assignKeylenx (keylenx : ℕ)
  | assignSuffix (suffix : Str)
  /-- The end of `assign_ksuf`: the suffixes in use lie in a new bag. -/
  | replaceKsuf (ksuf : Addr) (bag : Stringbag)
  /-- `finish_insert` for the key that the search has not found. -/
  | finishInsert (ka : Key)
  /-- A value is overwritten, or the pointer to the root of a layer. -/
  | setLv (p lv : ℕ)
  /-- The permutation in `finish_remove`. -/
  | finishRemove (i : ℕ)
  /-- The entry at `p` becomes a layer, in `make_new_layer`. -/
  | makeLayer (p : ℕ)
  /-- The permutation of the left leaf in `make_split`. -/
  | shrink (n : ℕ)
  /-- The links, which are written under other locks. -/
  | link (next : ℕ) (prev parent : Addr)
  | recordAccess

/-- When the code makes a store. -/
def LeafState.Allows (s : LeafState) : LeafEvent → Prop
  | .version o => s.leaf.version.locked = (o != .lock)
  | .markRoot | .link _ _ _ | .recordAccess => True
  | .markNonroot => s.leaf.version.locked = true
  | .markDeletedTree => s.leaf.version.locked = true ∧ s.leaf.version.isRoot = true
  | .setModstate m =>
    s.leaf.version.locked = true ∧ s.leaf.version.inserting = true ∧ m ≠ .deletedLayer
  | .markDeletedLayer => s.leaf.version.locked = true ∧ s.leaf.size = 0
  | .reserve => s.Assigning
  | .assignLv _ | .assignIkey0 _ | .assignKeylenx _ => s.Assigning
  | .assignSuffix suffix =>
    s.Assigning ∧ (s.assignSuffix s.leaf.permutation.back suffix).isSome = true
  | .replaceKsuf ksuf bag =>
    s.Assigning ∧ ksuf ≠ 0 ∧
      ∀ q ∈ s.leaf.permutation.used, s.leaf.hasKsuf q = true → bag.get q = s.suffixAt q
  | .finishInsert ka =>
    s.Assigning ∧ (s.leaf.lower ka).p = none ∧
      s.leaf.ikey0 s.leaf.permutation.back = ka.ikey ∧
      s.leaf.keylenx s.leaf.permutation.back = if ka.hasSuffix then ksufKeylenx else ka.length
  | .setLv p _ => s.leaf.version.locked = true ∧ p ∈ s.leaf.permutation.used
  | .finishRemove i =>
    s.leaf.version.locked = true ∧ s.leaf.modstate = .remove ∧ i < s.leaf.size
  | .makeLayer p =>
    s.leaf.version.locked = true ∧ s.leaf.version.inserting = true ∧
      p ∈ s.leaf.permutation.used ∧ s.leaf.hasKsuf p = true
  | .shrink n =>
    s.leaf.version.locked = true ∧ s.leaf.version.splitting = true ∧ n ≤ s.leaf.size

instance (s : LeafState) : (e : LeafEvent) → Decidable (s.Allows e)
  | .version _ | .markNonroot => inferInstanceAs (Decidable (_ = _))
  | .markRoot | .link _ _ _ | .recordAccess => isTrue trivial
  | .markDeletedTree | .markDeletedLayer | .setLv _ _ => inferInstanceAs (Decidable (_ ∧ _))
  | .setModstate _ | .finishRemove _ | .shrink _ => inferInstanceAs (Decidable (_ ∧ _ ∧ _))
  | .reserve | .assignLv _ | .assignIkey0 _ | .assignKeylenx _ =>
    inferInstanceAs (Decidable s.Assigning)
  | .assignSuffix _ => inferInstanceAs (Decidable (_ ∧ _))
  | .replaceKsuf _ _ => inferInstanceAs (Decidable (_ ∧ _ ∧ ∀ q ∈ _, _ → _))
  | .finishInsert _ | .makeLayer _ => inferInstanceAs (Decidable (_ ∧ _ ∧ _ ∧ _))

/-- What a store does. -/
def LeafState.apply (s : LeafState) : LeafEvent → LeafState
  | .version o =>
    { leaf := { s.leaf with version := o.apply s.leaf.version }
      external := s.external
      changes := if o = .unlock ∧ s.leaf.version.marked then s.changes + 1 else s.changes
      splits := if o = .unlock ∧ s.leaf.version.splitting then s.splits + 1 else s.splits }
  | .markRoot => { s with leaf := { s.leaf with version := setFlag 30 s.leaf.version } }
  | .markNonroot => { s with leaf := { s.leaf with version := clearFlag 30 s.leaf.version } }
  | .markDeletedTree => { s with leaf := { s.leaf with version := setFlag 29 s.leaf.version } }
  | .setModstate m => { s with leaf := { s.leaf with modstate := m } }
  | .markDeletedLayer => { s with leaf := { s.leaf with modstate := .deletedLayer } }
  | .reserve =>
    { s with
      leaf := { s.leaf with permutation := s.leaf.permutation.exchange s.leaf.size (width - 1) } }
  | .assignLv lv =>
    { s with leaf :=
      { s.leaf with lv := Function.update s.leaf.lv s.leaf.permutation.back lv } }
  | .assignIkey0 ikey =>
    { s with leaf :=
      { s.leaf with ikey0 := Function.update s.leaf.ikey0 s.leaf.permutation.back ikey } }
  | .assignKeylenx keylenx =>
    { s with leaf :=
      { s.leaf with keylenx := Function.update s.leaf.keylenx s.leaf.permutation.back keylenx } }
  | .assignSuffix suffix => (s.assignSuffix s.leaf.permutation.back suffix).getD s
  | .replaceKsuf ksuf bag =>
    { s with
      leaf :=
        { s.leaf with
          ksuf := ksuf
          extrasize64 :=
            if 0 ≤ s.leaf.extrasize64 then -s.leaf.extrasize64 - 1 else s.leaf.extrasize64 }
      external := bag }
  | .finishInsert ka =>
    { s with leaf :=
      { s.leaf with permutation := s.leaf.permutation.insertFromBack (s.leaf.lower ka).i } }
  | .setLv p lv => { s with leaf := { s.leaf with lv := Function.update s.leaf.lv p lv } }
  | .finishRemove i =>
    { s with leaf := { s.leaf with permutation := s.leaf.permutation.remove i } }
  | .makeLayer p =>
    { s with leaf :=
      { s.leaf with keylenx := Function.update s.leaf.keylenx p layerKeylenx } }
  | .shrink n =>
    let perml := s.leaf.permutation.setSize n
    { s with leaf :=
      { s.leaf with
        permutation := if s.leaf.size ≠ width then perml.exchange n (width - 1) else perml } }
  | .link next prev parent =>
    { s with leaf := { s.leaf with next := next, prev := prev, parent := parent } }
  | .recordAccess => { s with leaf := { s.leaf with accessTime := s.leaf.accessTime + 1 } }

/-- A store, where the code makes it. -/
def leafStep (s : LeafState) (e : LeafEvent) : Option LeafState :=
  if s.Allows e then some (s.apply e) else none

theorem leafStep_eq_some {s t : LeafState} {e : LeafEvent} (h : leafStep s e = some t) :
    s.Allows e ∧ t = s.apply e := by
  unfold leafStep at h
  split at h
  · exact ⟨‹_›, (Option.some.inj h).symm⟩
  · cases h

/-! ### What a store does to the version -/

section Version

variable {s t : LeafState} {e : LeafEvent} {p q : ℕ}

theorem Stringbag.get_of_assign {b b' : Stringbag} {suffix : Str}
    (h : b.assign p suffix = some b') : b'.get = Function.update b.get p suffix := by
  unfold Stringbag.assign at h
  split at h
  · cases h
    rfl
  · split at h
    · cases h
      rfl
    · cases h

/-- The suffix of a slot is written to one of the two bags. -/
theorem LeafState.assignSuffix_eq {suffix : Str} (h : s.assignSuffix p suffix = some t) :
    ∃ iksuf external,
      t = { s with leaf := { s.leaf with iksuf := iksuf }, external := external } ∧
        ∀ q, q ≠ p → t.suffixAt q = s.suffixAt q := by
  unfold assignSuffix at h
  split at h
  · rename_i b hb
    cases h
    refine ⟨_, _, rfl, ?_⟩
    intro q hq
    split at hb
    · rename_i hk
      simp [suffixAt, Leaf.ksufAt, Leaf.bag, hk, Stringbag.get_of_assign hb, hq]
    · cases hb
  · obtain ⟨b, hb, rfl⟩ := Option.map_eq_some_iff.mp h
    refine ⟨_, _, rfl, ?_⟩
    intro q hq
    split at hb
    · by_cases hk : s.leaf.ksuf = 0
      · simp [suffixAt, Leaf.ksufAt, Leaf.bag, hk, Stringbag.get_of_assign hb, hq]
      · simp [suffixAt, Leaf.ksufAt, Leaf.bag, hk]
    · cases hb

/-- The store of a suffix. -/
theorem LeafState.apply_assignSuffix {suffix : Str} (h : s.Allows (.assignSuffix suffix)) :
    ∃ iksuf external,
      s.apply (.assignSuffix suffix) =
          { s with leaf := { s.leaf with iksuf := iksuf }, external := external } ∧
        ∀ q, q ≠ s.leaf.permutation.back →
          (s.apply (.assignSuffix suffix)).suffixAt q = s.suffixAt q := by
  obtain ⟨t, ht⟩ := Option.isSome_iff_exists.mp h.2
  have happly : s.apply (.assignSuffix suffix) = t := by
    rw [apply, ht, Option.getD_some]
  rw [happly]
  exact assignSuffix_eq ht

namespace NodeVersion

theorem marked_setFlag {k : ℕ} {v : NodeVersion} (h : v.marked = true) :
    marked (setFlag k v) = true := by
  have hflag {j : ℕ} (hj : j < 32) (h : flag j v = true) : flag j (setFlag k v) = true := by
    rw [flag_eq hj, getLsbD_setFlag, ← flag_eq hj, h, Bool.true_or]
  rw [marked, Bool.or_eq_true] at h ⊢
  exact h.imp (hflag (by decide)) (hflag (by decide))

theorem splitting_setFlag {k : ℕ} {v : NodeVersion} (h : v.splitting = true) :
    splitting (setFlag k v) = true := by
  rw [splitting, flag_eq (by decide), getLsbD_setFlag, ← flag_eq (by decide)]
  change (v.splitting || _) = true
  rw [h, Bool.true_or]

theorem marked_clearFlag {k : ℕ} (v : NodeVersion) (h1 : 1 ≠ k) (h2 : 2 ≠ k) :
    marked (clearFlag k v) = v.marked := by
  rw [marked, marked, inserting, splitting, flag_clearFlag_of_ne (by decide) v (by omega),
    flag_clearFlag_of_ne (by decide) v (by omega)]
  rfl

end NodeVersion

/-- Everything that a store can do to the version: it leaves the marks up and the counters alone,
or it is an `unlock`. -/
theorem leafStep_version (h : leafStep s e = some t) :
    (s.leaf.version.marked = true → t.leaf.version.marked = true) ∧
        (s.leaf.version.splitting = true → t.leaf.version.splitting = true) ∧
        t.leaf.version.count = s.leaf.version.count ∧
        t.changes = s.changes ∧ t.splits = s.splits ∨
      t.leaf.version = s.leaf.version.unlock ∧
        t.changes = (if s.leaf.version.marked then s.changes + 1 else s.changes) ∧
        t.splits = if s.leaf.version.splitting then s.splits + 1 else s.splits := by
  obtain ⟨hallows, rfl⟩ := leafStep_eq_some h
  cases e with
  | version o =>
    cases o with
    | unlock => exact Or.inr ⟨rfl, by simp [LeafState.apply], by simp [LeafState.apply]⟩
    | lock | markInsert | markSplit | markMigration =>
      exact Or.inl ⟨NodeVersion.marked_setFlag, NodeVersion.splitting_setFlag,
        NodeVersion.count_setFlag _ (by decide), by simp [LeafState.apply],
        by simp [LeafState.apply]⟩
    | markDeleted =>
      have heq := s.leaf.version.markDeleted_eq
      refine Or.inl ⟨?_, ?_, ?_, by simp [LeafState.apply], by simp [LeafState.apply]⟩
      · intro hm
        change s.leaf.version.markDeleted.marked = true
        rw [heq]
        exact NodeVersion.marked_setFlag (NodeVersion.marked_setFlag hm)
      · intro hs
        change s.leaf.version.markDeleted.splitting = true
        rw [heq]
        exact NodeVersion.splitting_setFlag (NodeVersion.splitting_setFlag hs)
      · change s.leaf.version.markDeleted.count = s.leaf.version.count
        rw [heq, NodeVersion.count_setFlag _ (by decide), NodeVersion.count_setFlag _ (by decide)]
  | markRoot | markDeletedTree =>
    exact Or.inl ⟨NodeVersion.marked_setFlag, NodeVersion.splitting_setFlag,
      NodeVersion.count_setFlag _ (by decide), rfl, rfl⟩
  | markNonroot =>
    refine Or.inl ⟨?_, ?_, NodeVersion.count_clearFlag _ (by decide), rfl, rfl⟩
    · intro hm
      exact (NodeVersion.marked_clearFlag _ (by decide) (by decide)).trans hm
    · intro hs
      exact (flag_clearFlag_of_ne (by decide) _ (by decide)).trans hs
  | assignSuffix suffix =>
    obtain ⟨iksuf, external, heq, -⟩ := LeafState.apply_assignSuffix hallows
    rw [heq]
    exact Or.inl ⟨id, id, rfl, rfl, rfl⟩
  | setModstate | markDeletedLayer | reserve | assignLv | assignIkey0 | assignKeylenx
  | replaceKsuf | finishInsert | setLv | finishRemove | makeLayer | shrink | link
  | recordAccess => exact Or.inl ⟨id, id, rfl, rfl, rfl⟩

/-- How far the counters have moved: by at least one and at most 64 for each change, and a split
is seen in the upper counter as long as nothing overflows. -/
structure Progress (s t : LeafState) : Prop where
  exists_moves : ∃ c d k, t.changes = s.changes + c ∧ t.splits = s.splits + k ∧
    t.leaf.version.count = (s.leaf.version.count + d) % 2 ^ 25 ∧ c ≤ d ∧ d ≤ 2 ^ 6 * c ∧
    (0 < k → s.leaf.version.count / 2 ^ 6 < (s.leaf.version.count + d) / 2 ^ 6)

theorem Progress.refl (s : LeafState) : Progress s s := by
  have hlt := s.leaf.version.count_lt
  exact ⟨0, 0, 0, rfl, rfl, (Nat.mod_eq_of_lt hlt).symm, Nat.le_refl 0, Nat.zero_le _,
    fun hk => absurd hk (Nat.lt_irrefl 0)⟩

theorem Progress.step {u : LeafState} (hp : Progress u s) (h : leafStep s e = some t) :
    Progress u t := by
  obtain ⟨c, d, k, hc, hk, hcount, hcd, hdc, hsplit⟩ := hp
  rcases leafStep_version h with ⟨-, -, hcount', hc', hk'⟩ | ⟨hv, hc', hk'⟩
  · exact ⟨c, d, k, hc'.trans hc, hk'.trans hk, hcount'.trans hcount, hcd, hdc, hsplit⟩
  · have hunlock := NodeVersion.count_unlock s.leaf.version
    rw [← hv] at hunlock
    by_cases hs : s.leaf.version.splitting = true
    · -- the split moves the counters to the next multiple of 64
      have hm : s.leaf.version.marked = true := by rw [NodeVersion.marked, hs, Bool.or_true]
      rw [if_pos hs] at hunlock hk'
      rw [if_pos hm] at hc'
      rw [hcount] at hunlock
      have hlt := u.leaf.version.count_lt
      refine ⟨c + 1, d + (64 - (u.leaf.version.count + d) % 64), k + 1, by omega, by omega, ?_,
        by omega, by omega, ?_⟩
      · rw [hunlock]
        omega
      · intro _
        omega
    · rw [if_neg hs] at hunlock hk'
      by_cases hi : s.leaf.version.inserting = true
      · have hm : s.leaf.version.marked = true := by rw [NodeVersion.marked, hi, Bool.true_or]
        rw [if_pos hi] at hunlock
        rw [if_pos hm] at hc'
        rw [hcount] at hunlock
        refine ⟨c + 1, d + 1, k, by omega, by omega, by omega, by omega, by omega, ?_⟩
        intro h0
        have := hsplit h0
        omega
      · have hm : ¬s.leaf.version.marked = true := by
          rw [NodeVersion.marked, Bool.or_eq_true]
          exact fun h => h.elim hi hs
        rw [if_neg hi] at hunlock
        rw [if_neg hm] at hc'
        exact ⟨c, d, k, hc'.trans hc, hk'.trans hk, hunlock.trans hcount, hcd, hdc, hsplit⟩

theorem progress_of_run {es : List LeafEvent} (h : run leafStep s es = some t) : Progress s t := by
  have hall : Always leafStep (fun u => Progress s u) s es := by
    refine always_of_step (I := fun u => Progress s u) (Progress.refl s) ?_
    intro t e u hp hstep
    exact hp.step hstep
  exact hall.last h

/-- Fewer than 2^19 changes do not bring the counters back. -/
theorem Progress.changes_eq (hp : Progress s t)
    (hcount : t.leaf.version.count = s.leaf.version.count)
    (hbound : t.changes < s.changes + 2 ^ 19) : t.changes = s.changes := by
  obtain ⟨c, d, k, hc, -, heq, hcd, hdc, -⟩ := hp
  have hlt := s.leaf.version.count_lt
  omega

/-- Nor do they bring back the counter of the splits if there was one. -/
theorem Progress.splits_eq (hp : Progress s t)
    (hvsplit : t.leaf.version.vsplit = s.leaf.version.vsplit)
    (hbound : t.changes < s.changes + 2 ^ 19) : t.splits = s.splits := by
  obtain ⟨c, d, k, hc, hk, heq, hcd, hdc, hsplit⟩ := hp
  rw [NodeVersion.vsplit_eq_count, NodeVersion.vsplit_eq_count] at hvsplit
  have hlt := s.leaf.version.count_lt
  rcases Nat.eq_zero_or_pos k with h0 | hpos
  · omega
  · have := hsplit hpos
    omega

/-- While the version is unchanged and shows no mark in the end, it has shown none. -/
theorem unmarked_of_not_changed {es : List LeafEvent} {readonly : Bool}
    (hs : s.leaf.version.marked = false) (hrun : run leafStep s es = some t)
    (hchanged : s.leaf.version.changed t.leaf.version readonly = false)
    (hbound : t.changes < s.changes + 2 ^ 19) :
    Always leafStep (fun u => ¬u.leaf.version.marked = true) s es := by
  have hcount := NodeVersion.count_of_not_changed hchanged
  have hmarked := NodeVersion.marked_of_not_changed hchanged
  refine always_of_count LeafState.changes ?_ ?_ hrun ?_ ?_
  · intro t e u hstep
    rcases leafStep_version hstep with ⟨-, -, -, hc, -⟩ | ⟨-, hc, -⟩
    · exact hc.ge
    · rw [hc]
      split
      · exact Nat.le_succ _
      · exact Nat.le_refl _
  · intro t e u hstep hm
    rcases leafStep_version hstep with ⟨hkept, -⟩ | ⟨-, hc, -⟩
    · exact Or.inl (hkept hm)
    · rw [hc, if_pos hm]
      exact Or.inr (Nat.lt_succ_self _)
  · rw [hmarked, hs]
    exact Bool.false_ne_true
  · exact (progress_of_run hrun).changes_eq hcount hbound

end Version

end Sidle.Masstree
