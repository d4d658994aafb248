import Sidle.Art.Continues
import Sidle.Art.Fuel

/-!
# Insertion

`adaptive_radix_tree_put` walks down the trie that the memory holds and ends in one of four
ways: at a leaf with the key, at another leaf, inside the prefix of a node, or at a node
without a child for the next byte.  Each way is one of the updates of the trie, and the
only one that leaves a lock behind is the split of a prefix.

## Main definitions

* `PutEffect` — what an insertion may do.
* `KeepsDepths` — an insertion keeps the depths right when it splits no prefix.
* `KeepsNodes` — an insertion continues the nodes that stay in the tree.

## Main results

* `Represents.settles_put` — an insertion from any place on the path of the key.
* `Represents.settles_adaptiveRadixTreePut` — an insertion hangs on a lock of the tree, or it
  terminates with the key added.
-/

namespace Sidle.Art

open Prog Machine Outcome

variable {L : ℕ} {env : Env} {s s₁ s₂ : Mem} {t : Tree L}

/-- What an insertion into a memory that holds `t` may do: it hangs because a node of the
tree is locked, or it adds the key; it leaves a lock behind exactly when the walk of the
key ends inside a prefix. -/
inductive PutEffect (env : Env) (s : Mem) (t : Tree L) (key : Key) : Outcome Fault ℤ Mem → Prop
  | blocked (h : HasLock s t) : PutEffect env s t key diverged
  | done {r : ℤ} {s' : Mem} {t' : Tree L} (hrep : Represents env s' t')
      (hstored : ∀ k, t'.Stored k ↔ t.Stored k ∨ k = key)
      (hret : r = 1 ∧ t.Stored key ∨ r = 0 ∧ ¬ t.Stored key)
      (hlock : HasLock s' t' ↔ HasLock s t ∨ t.LeavesLabel key)
      (hbranch : t.Branching → t'.Branching) :
      PutEffect env s t key (done r s')

/-- An insertion that returns keeps right depths right exactly when the walk of its key does
not end inside a prefix, as long as every node of the tree has children. -/
def KeepsDepths (s : Mem) (t : Tree L) (key : Key) (o : Outcome Fault ℤ Mem) : Prop :=
  ∀ r s', o = done r s' → t.Branching → DepthsRight s → (DepthsRight s' ↔ ¬ t.LeavesLabel key)

theorem KeepsDepths.diverged {key : Key} : KeepsDepths s t key diverged :=
  fun _ _ h => by simp at h

theorem KeepsDepths.of_done {key : Key} {r : ℤ} {s' : Mem}
    (h : t.Branching → DepthsRight s → (DepthsRight s' ↔ ¬ t.LeavesLabel key)) :
    KeepsDepths s t key (done r s') := fun _ _ ho => by
  obtain ⟨-, rfl⟩ : r = _ ∧ s' = _ := by simpa using ho
  exact h

/-- An insertion that returns continues the nodes that stay in the tree. -/
def KeepsNodes (s : Mem) (o : Outcome Fault ℤ Mem) : Prop := ∀ r s', o = done r s' → Continues s s'

theorem KeepsNodes.diverged : KeepsNodes s diverged := fun _ _ h => by simp at h

theorem KeepsNodes.of_done {r : ℤ} {s' : Mem} (h : Continues s s') : KeepsNodes s (done r s') :=
  fun _ _ ho => by
    obtain ⟨-, rfl⟩ : r = _ ∧ s' = _ := by simpa using ho
    exact h

/-! ### Words -/

/-- A word that agrees with `k` below `i` and goes on with `b`. -/
theorem take_append_singleton_prefix {k k' : Key} {i : ℕ} {b : UInt8} (hi : i ≤ k.length)
    (hagree : ∀ j < i, k'[j]? = k[j]?) (hb : k'[i]? = some b) : k.take i ++ [b] <+: k' := by
  have hlen : (k.take i).length = i := by simp [hi]
  refine List.append_singleton_prefix_iff.mpr ⟨List.prefix_iff_getElem?.mpr fun j hj => ?_, ?_⟩
  · rw [hagree j (by omega), List.getElem_take, List.getElem?_eq_getElem]
  · rw [hlen, hb]

/-- Two keys of one length that both go on from `w` differ at some position behind it. -/
theorem exists_keyMatch {k key w : Key} (hlen : k.length = key.length) (hw : w <+: k)
    (hw' : w <+: key)
    (hne : k ≠ key) :
    ∃ i b c, keyMatch k key w.length = i ∧ w.length ≤ i ∧ i < key.length ∧
      (∀ j < i, k[j]? = key[j]?) ∧ k[i]? = some b ∧ key[i]? = some c ∧ c ≠ b := by
  have hagree (i : ℕ) (hi : i < w.length) : k[i]? = key[i]? := by
    rw [hw.getElem?_eq hi, hw'.getElem?_eq hi]
  obtain ⟨i, hi⟩ : ∃ i, keyMatch k key w.length = i := ⟨_, rfl⟩
  have hlt : i < key.length := by
    have hle : keyMatch k key w.length ≤ key.length := keyMatch_le hw'.length_le
    have := (keyMatch_eq_length_iff hlen hw'.length_le hagree).not.mpr hne
    omega
  have hkb := List.getElem?_eq_getElem (hlen ▸ hlt : i < k.length)
  have hkc := List.getElem?_eq_getElem hlt
  refine ⟨i, k[i], key[i], hi, hi ▸ le_keyMatch _ _ _, hlt, fun j hj => ?_, hkb, hkc, fun hc => ?_⟩
  · rcases Nat.lt_or_ge j w.length with hj' | hj'
    · exact hagree j hj'
    · exact getElem?_of_lt_keyMatch hj' (hi ▸ hj)
  · have := getElem?_keyMatch_ne hw'.length_le (hi.symm ▸ hlt : keyMatch k key _ < _)
    rw [hi, hkb, hkc] at this
    exact this (congrArg some hc.symm)

/-! ### The retry loop -/

/-- The retry loop ends with a walk from the root that does not ask for a retry. -/
theorem settles_adaptiveRadixTreePut_of_walk {key : Key} {r : ℤ} {s' : Mem} (hroot : s.root ≠ 0)
    (hr : r ≠ -1) (hwalk : env.machine.Settles
      (fun fuel => _adaptiveRadixTreePut env key fuel true 0 .root 0) s (done r s')) :
    env.machine.Settles (adaptiveRadixTreePut env key) s (done r s') := by
  refine hwalk.step_run _ 1 0 fun fuel hfuel => ?_
  unfold adaptiveRadixTreePut
  rw [env.machine.run_bind_of_done run_loadRoot, if_neg hroot]
  unfold putRetry
  refine (env.machine.run_bind_of_done hfuel).trans ?_
  rw [if_neg hr]
  rfl

/-! ### The state of the locks -/

/-- The locks of the tree after an update that makes the unlocked node `new_`. -/
theorem hasLock_iff {t' : Tree L} (new_ : Addr) (D : Addr → Prop)
    (hlive : ∀ x, t'.live x ↔ x = new_ ∨ (t.live x ∧ D x)) (hnew : ¬ Locked s₂ new_)
    (hD : ∀ x, t.live x → Locked s x → D x)
    (hlock : ∀ x, t.live x → D x → (Locked s₂ x ↔ Locked s x)) :
    HasLock s₂ t' ↔ HasLock s t := by
  constructor
  · rintro ⟨x, hx, hl⟩
    rcases (hlive x).mp hx with rfl | ⟨hx, hd⟩
    · exact absurd hl hnew
    · exact ⟨x, hx, (hlock x hx hd).mp hl⟩
  · rintro ⟨x, hx, hl⟩
    have hd := hD x hx hl
    exact ⟨x, (hlive x).mpr (Or.inr ⟨hx, hd⟩), (hlock x hx hd).mpr hl⟩

theorem compareExpand_setLock (v : Version) :
    artNodeVersionCompareExpand v (setLock v) = false := by
  have hv := view_setLock v
  have hex : getVexpand (setLock v) = getVexpand v := congrArg View.vexpand hv
  simp [artNodeVersionCompareExpand, isExpanding_setLock, hex]

/-- Redirecting a slot does not change a lock. -/
theorem Linked.locked_iff {q : Place Addr UInt8} {new_ : Addr} (h : Linked env s s₁ s₂ q new_)
    (hs : s.Fresh env) {x : Addr} (hx : x ≠ owner q → (Locked s₁ x ↔ Locked s x)) :
    Locked s₂ x ↔ Locked s x := by
  by_cases hxo : x = owner q
  · subst hxo
    cases q with
    | root =>
      have hnone : s₂.node? (owner .root) = none := h.fresh.node?_zero
      have hnone' : s.node? (owner .root) = none := hs.node?_zero
      simp [Locked, hnone, hnone']
    | edge m b =>
      obtain ⟨-, nd, i, hnd, -, hnd'⟩ := h.redirected
      exact Locked.congr hnd hnd' rfl
  · rw [← hx hxo]
    simp only [Locked, Mem.node?_congr (h.other x hxo)]

/-! ### An empty tree -/

/-- The memory whose root is the new leaf `l`. -/
def Mem.withRootLeaf (env : Env) (s : Mem) (l : LeafNode) (g : Global) : Mem :=
  (s.withLeaf env l.key.length l g).setRoot (env.addr s.allocated + 1)

theorem Mem.Fresh.withRootLeaf (hs : s.Fresh env) (l : LeafNode) (g : Global) :
    (s.withRootLeaf env l g).Fresh env := (hs.withLeaf l.key.length l g).setRoot _

/-- The first key becomes the root, whatever its length is. -/
theorem run_put_null (hs : s.Fresh env) (hu : 0 ≤ s.global.curLocalMemoryUsage) (hroot : s.root = 0)
    (key : Key) :
    ∃ g, 0 ≤ g.curLocalMemoryUsage ∧ ∀ fuel, env.machine.run (adaptiveRadixTreePut env key fuel) s =
      done 0 (s.withRootLeaf env (newLeaf s 0 key .remote) g) := by
  obtain ⟨g, hg, hgu⟩ := run_allocLeaf env hu hs.nullOrNode_zero key .remote
  refine ⟨g, hgu, fun fuel => ?_⟩
  unfold adaptiveRadixTreePut
  refine (env.machine.run_bind_of_done run_loadRoot).trans ?_
  rw [if_pos hroot]
  refine (env.machine.run_bind_of_done hg).trans ?_
  let l := newLeaf s 0 key .remote
  let s₁ := s.withLeaf env key.length l g
  have hcas : env.machine.run (lift (.casRoot 0 (env.addr s.allocated + 1))) s₁ =
      done true (s.withRootLeaf env l g) := by
    rw [← show s₁.root = 0 from hroot]
    exact run_casRoot _
  refine (env.machine.run_bind_of_done hcas).trans ?_
  rfl

/-! ### Ending at a leaf -/

/-- The tail of `adaptive_radix_tree_replace_leaf`: the slot of the leaf is redirected. -/
theorem FreeSlot.run_replaceLeaf {q : Place Addr UInt8} {key : Key} {slot : Slot}
    (h : FreeSlot s q slot) {an : Ptr} {new_ : Addr} {off fuel : ℕ}
    (hload : env.machine.run (loadSlot slot) s = done an s)
    (hbuild : env.machine.run (artNodeReplaceLeafChild env (fuel + 1) (owner q) an key off) s =
      done new_ s₁) (hnew : new_ ≠ 0) (hown : s₁.node? (owner q) = s.node? (owner q))
    (hroot : s₁.root = s.root) (hfresh : s₁.Fresh env) :
    ∃ s₂, env.machine.run (adaptiveRadixTreeReplaceLeaf env (fuel + 1) (owner q) slot an
      key off) s =
      done 0 s₂ ∧ Linked env s s₁ s₂ q new_ := by
  unfold adaptiveRadixTreeReplaceLeaf
  rw [env.machine.run_bind_of_done hbuild, if_neg hnew]
  cases h with
  | root =>
    obtain rfl : s.root = an := by simpa [loadSlot, run_loadRoot] using hload
    refine ⟨s₁.setRoot new_, ?_, ⟨rfl, fun _ _ => rfl, rfl, rfl, hfresh.setRoot _⟩⟩
    rw [if_neg (by simp [owner]), ← hroot, env.machine.run_bind_of_done (run_casRoot new_)]
    rfl
  | @edge m b pn i hm hpn hok hold hl hex hi =>
    have hpn₁ : s₁.node? m = some pn := hown.trans hpn
    have hlt : i < pn.layout.capacity := ArtNode.slotOf_lt hok hi
    have hchild : pn.child i = an := by
      have hget : env.machine.run (load m (.child i)) s = done (pn.child i) s := run_load hpn hlt
      simpa using hget.symm.trans hload
    have hlocked : (s₁.setNode m (pn.setVersion (setLock pn.version))).node? m =
        some (pn.setVersion (setLock pn.version)) := Mem.node?_setNode_self ..
    obtain ⟨hstore, hunlock, hlinked⟩ := run_storeUnlock hpn hok hl hex hi hlocked hroot
      (hfresh.setNode (hfresh.exists_addr_of_node? hpn₁) _) new_
    refine ⟨_, ?_, ⟨hlinked.redirected, fun x hx => ?_, rfl, rfl, hlinked.fresh⟩⟩
    · rw [if_pos (show owner (.edge m b) ≠ 0 from hm)]
      refine (env.machine.run_bind_of_done (run_artNodeLock hpn₁ hl hold fuel)).trans ?_
      rw [if_neg (by simp)]
      refine (env.machine.run_bind_of_done (run_load (f := .child i) hlocked hlt)).trans ?_
      rw [if_neg (by simpa [NodeField.get, ArtNode.setVersion] using hchild)]
      refine (env.machine.run_bind_of_done hstore).trans ?_
      exact env.machine.run_bind_of_done hunlock
    · exact (hlinked.other x hx).trans (Function.update_of_ne hx _ _)

namespace Represents

variable (h : Represents env s t)

include h

/-- The attempt to redirect the slot of a locked node hangs. -/
theorem run_replaceLeaf_locked {q : Place Addr UInt8} {key : Key} {slot : Slot} {an : Ptr}
    {new_ : Addr} {off fuel : ℕ} (hl : Locked s (owner q))
    (hbuild : env.machine.run (artNodeReplaceLeafChild env (fuel + 1) (owner q) an key off) s =
      done new_ s₁) (hnew : new_ ≠ 0) (hown : s₁.node? (owner q) = s.node? (owner q)) :
    env.machine.run (adaptiveRadixTreeReplaceLeaf env (fuel + 1) (owner q) slot an key off) s =
      diverged := by
  obtain ⟨pn, hpn, hlk⟩ := hl
  unfold adaptiveRadixTreeReplaceLeaf
  rw [env.machine.run_bind_of_done hbuild, if_neg hnew, if_pos (h.fresh.ne_zero_of_node? hpn)]
  exact env.machine.run_bind_of_diverged (run_artNodeLock_locked (hown.trans hpn) hlk _)

/-- An insertion that has come to a leaf. -/
theorem run_put_atLeaf (key : Key) {q : Place Addr UInt8} {k : Key} {slot : Slot} (hq : t.IsPlace q)
    (hget : t.get q = some (.leaf k)) (hslot : SlotAt s q slot) (parent : Addr) (off : ℕ) :
    ∃ a l, s.leaf? a = some l ∧ l.key = k ∧ getLeafLen l.keyLength = k.length ∧
      env.machine.run (loadSlot slot) s = done (a + 1) s ∧ ∀ fuel,
      env.machine.run (_adaptiveRadixTreePut env key (fuel + 1) true parent slot off) s =
        env.machine.run (adaptiveRadixTreeReplaceLeaf env fuel parent slot (a + 1) key off) s := by
  obtain ⟨p, hload, href⟩ := h.run_loadSlot hq hget hslot
  obtain ⟨a, l, rfl, hl, hk, hlen⟩ := href.of_leaf
  obtain ⟨i, -, hi⟩ := h.fresh.exists_addr_of_leaf? hl
  refine ⟨a, l, hl, hk, hlen, hload, fun fuel => ?_⟩
  unfold _adaptiveRadixTreePut
  simp only [parentIsOld, Bool.true_or, if_true, pure_eq_ret, ret_bind,
    Bool.false_eq_true, if_false]
  refine (env.machine.run_bind_of_done hload).trans ?_
  rw [if_pos (isLeaf_succ (hi ▸ env.addr_aligned i))]

/-- The place of a leaf is split by the node that `art_node_replace_leaf_child` has built. -/
theorem split_leaf (hL : L ≤ 127) {q : Place Addr UInt8} {a : Addr} {l : LeafNode} {key : Key}
    {i : ℕ} {b c : UInt8} {nd : ArtNode} (hq : t.IsPlace q) (hget : t.get q = some (.leaf l.key))
    (hl : s.leaf? a = some l) (hlen : getLeafLen l.keyLength = l.key.length)
    (hkey : key.length = L) (hpath : t.path q <+: key) (hle : (t.path q).length ≤ i)
    (hlt : i < key.length) (hagree : ∀ j < i, l.key[j]? = key[j]?) (hlb : l.key[i]? = some b)
    (hkc : key[i]? = some c) (hbc : c ≠ b) (hls : LeafSplit env s s₁ a l key nd)
    (hfork : ForkNode s (owner q) (t.path q).length (i - (t.path q).length)
      (fun j => key.getD ((t.path q).length + j) 0) b (a + 1) c (env.addr (s.allocated + 1) + 1) nd)
    (hlink : Linked env s s₁ s₂ q (env.addr s.allocated)) :
    ∃ hc : Trie.CanSplit t q (.leaf l.key) (env.addr s.allocated) (key.take i) b c key,
      Represents env s₂ (t.split q (.leaf l.key) (env.addr s.allocated) (key.take i) b c
        key hc) := by
  have hc : Trie.CanSplit t q (.leaf l.key) (env.addr s.allocated) (key.take i) b c key :=
    { place := hq
      get := hget
      fresh := h.not_live_addr
      path := List.prefix_take_iff.mpr ⟨hpath, hle⟩
      old_word := take_append_singleton_prefix (Nat.le_of_lt hlt) hagree hlb
      new_word := take_append_singleton_prefix (Nat.le_of_lt hlt) (fun _ _ => rfl) hkc
      ne := hbc
      length := hkey }
  obtain ⟨hnew, hleaf, hold, hother, -, -, husage⟩ := hls
  -- the blocks that differ are not the owner of the place
  have hν : env.addr s.allocated ≠ owner q :=
    (h.fresh.ne_addr (h.owner_used hq) (Nat.le_refl _)).symm
  have hlam : env.addr (s.allocated + 1) ≠ owner q :=
    (h.fresh.ne_addr (h.owner_used hq) (Nat.le_succ _)).symm
  have ha : a ≠ owner q := h.leaf_ne_owner hq hl
  have hleaf₂ : s₂.leaf? (env.addr (s.allocated + 1)) = some (childLeaf nd.sidleMeta key) := by
    rw [Mem.leaf?_congr (hlink.other _ hlam), hleaf]
  have hold₂ : s₂.leaf? a = some (l.deepen nd.sidleMeta) := by
    rw [Mem.leaf?_congr (hlink.other _ ha), hold]
  have hrest {x : Addr} (hx : s.heap x ≠ none) (hxa : x ≠ a) (hxo : x ≠ owner q) :
      s₂.heap x = s.heap x := by
    rw [hlink.other x hxo, hother x (h.fresh.ne_addr (Or.inr hx) (Nat.le_refl _))
      (h.fresh.ne_addr (Or.inr hx) (Nat.le_succ _)) hxa]
  have hk : LeavesKept s s₂ := by
    intro x lx hx
    by_cases hxa : x = a
    · subst hxa
      obtain rfl : l = lx := by simpa [hl] using hx
      exact ⟨_, hold₂, rfl, rfl⟩
    · exact LeavesKept.of_heap_eq (hrest (by simp [Mem.heap_of_leaf? hx]) hxa
        (h.leaf_ne_owner hq hx)) hx
  have htake : (key.take i).length = i := by simp [Nat.le_of_lt hlt]
  refine ⟨hc, h.split hc (by rw [Mem.node?_congr (hlink.other _ hν), hnew]) hfork.ok hfork.old
    hfork.expanding hfork.parent hfork.offset ?_ (fun j hj => ?_) hfork.childAt ?_ ?_
    (Nat.ne_of_gt (env.addr_pos _)) hlink.redirected hk (by simp) (fun x nx _ _ hqx hx => ?_)
    hlink.fresh (by rw [hlink.global]; exact husage)⟩
  · rw [hfork.offset, hfork.prefixLen, htake]
    omega
  · rw [hfork.prefixLen] at hj
    have hlt' : (t.path q).length + j < key.length := by omega
    rw [hfork.prefix_ j hj, List.getElem?_take_of_lt (by omega), List.getD_eq_getElem?_getD,
      List.getElem?_eq_getElem hlt', Option.getD_some]
  · exact (refers_leaf_iff hlink.fresh hold₂).mpr ⟨rfl, hlen⟩
  · refine (refers_leaf_iff hlink.fresh hleaf₂).mpr ⟨rfl, getLeafLen_ofNat ?_⟩
    omega
  · have hxo : x ≠ owner q := by
      cases q with
      | root => exact h.fresh.ne_zero_of_node? hx
      | edge m b => exact fun heq => hqx b (heq ▸ rfl)
    rw [Mem.node?_congr (hrest (by simp [Mem.heap_of_node? hx])
      (Mem.ne_of_node?_of_leaf? hx hl) hxo), hx]

/-- An insertion that has come to a leaf with its key touches the leaf. -/
theorem settles_put_dup {q : Place Addr UInt8} {key : Key} {slot : Slot}
    (hq : t.IsPlace q) (hget : t.get q = some (.leaf key)) (hslot : SlotAt s q slot) :
    ∃ s', Represents env s' t ∧ (∀ x, t.live x → (Locked s' x ↔ Locked s x)) ∧
      (DepthsRight s → DepthsRight s') ∧ Continues s s' ∧ env.machine.Settles (fun fuel =>
        _adaptiveRadixTreePut env key fuel true (owner q) slot (t.path q).length) s
          (done 1 s') := by
  obtain ⟨a, l, hl, rfl, hlen, hload, hrun⟩ :=
    h.run_put_atLeaf key hq hget hslot (owner q) (t.path q).length
  have hpath : t.path q <+: l.key := Trie.path_prefix_word hq hget
  have hp : LeafPre env s (owner q) a l l.key (t.path q).length :=
    ⟨h.fresh, h.usage, h.nullOrNode_owner hq, hl, hlen, rfl, hpath.length_le⟩
  have hdup := (keyMatch_eq_length_iff rfl hpath.length_le fun _ _ => rfl).mpr rfl
  obtain ⟨s', hdup, ht⟩ := run_artNodeReplaceLeafChild_dup hp hdup 0
  have hsame {x : Addr} {nx : ArtNode} (hnx : s.node? x = some nx) : s'.node? x = s.node? x :=
    Mem.node?_congr (ht.other x (Mem.ne_of_node?_of_leaf? hnx hl) (by simp [Mem.heap_of_node? hnx]))
  refine ⟨s', h.touch hl ht, fun x hx => ?_, fun hd => hd.touch h hl ht, ?_, Converges.settles _
    (fun n => _adaptiveRadixTreePut_le_succ env l.key n true (owner q) slot _) ⟨1, ?_⟩⟩
  · obtain ⟨nx, hnx, -⟩ := h.node x hx
    simp only [Locked, hsame hnx]
  · apply h.continues (h.touch hl ht) (h.fresh.node?_addr (Nat.le_refl _)) fun x => Or.inr
    exact fun x nx hnx => ⟨nx, (hsame hnx).trans hnx, fun _ _ => .refl nx⟩
  · rw [hrun]
    unfold adaptiveRadixTreeReplaceLeaf
    rw [env.machine.run_bind_of_done hdup]
    rfl

/-- An insertion that has come to a leaf touches it or splits its place. -/
theorem settles_put_leaf (hb : env.build.assertions = true) (hL : L ≤ 8) {q : Place Addr UInt8}
    {k key : Key} {slot : Slot} (hq : t.IsPlace q) (hget : t.get q = some (.leaf k))
    (hslot : SlotAt s q slot) (hkey : key.length = L) (hpath : t.path q <+: key) :
    ∃ o, PutEffect env s t key o ∧ KeepsDepths s t key o ∧ KeepsNodes s o ∧ env.machine.Settles
      (fun fuel => _adaptiveRadixTreePut env key fuel true (owner q) slot
        (t.path q).length) s o := by
  have hnl : ¬ t.LeavesLabel key := Trie.not_leavesLabel hq hpath (by simp [hget])
  by_cases heq : k = key
  · -- the leaf has the key
    subst heq
    obtain ⟨s', hrep, hlock, hdepth, hkeep, hset⟩ := h.settles_put_dup hq hget hslot
    have hst : t.Stored k := ⟨q, hq, hget⟩
    refine ⟨done 1 s', .done hrep (fun k' => ⟨Or.inl, ?_⟩) (Or.inl ⟨rfl, hst⟩) ?_ id,
      .of_done fun _ hd => iff_of_true (hdepth hd) hnl, .of_done hkeep, hset⟩
    · rintro (hk | rfl)
      · exact hk
      · exact hst
    · simp only [HasLock, hnl, or_false]
      exact ⟨fun ⟨x, hx, hlx⟩ => ⟨x, hx, (hlock x hx).mp hlx⟩,
        fun ⟨x, hx, hlx⟩ => ⟨x, hx, (hlock x hx).mpr hlx⟩⟩
  · -- the leaf has another key, which agrees with the key below `i`
    obtain ⟨a, l, hl, rfl, hlen, hload, hrun⟩ :=
      h.run_put_atLeaf key hq hget hslot (owner q) (t.path q).length
    have hlL : l.key.length = key.length := (Trie.length_of_stored ⟨q, hq, hget⟩).trans hkey.symm
    have hword : t.path q <+: l.key := Trie.path_prefix_word hq hget
    have hp : LeafPre env s (owner q) a l key (t.path q).length :=
      ⟨h.fresh, h.usage, h.nullOrNode_owner hq, hl, hlen, hlL, hpath.length_le⟩
    have hmono (n : ℕ) := _adaptiveRadixTreePut_le_succ env key n true (owner q) slot
      (t.path q).length
    obtain ⟨i, b, c, hi, hle, hlt, hagree, hlb, hkc, hbc⟩ := exists_keyMatch hlL hword hpath heq
    have hbuild (fuel : ℕ) :=
      run_artNodeReplaceLeafChild hb hp hi hlt (by omega) (by omega) hlb hkc hbc fuel
    have hown {nd : ArtNode} {s₁ : Mem} (hls : LeafSplit env s s₁ a l key nd) :
        s₁.node? (owner q) = s.node? (owner q) :=
      Mem.node?_congr (hls.other _ (h.fresh.ne_addr (h.owner_used hq) (Nat.le_refl _))
        (h.fresh.ne_addr (h.owner_used hq) (Nat.le_succ _)) (h.leaf_ne_owner hq hl).symm)
    by_cases hlo : Locked s (owner q)
    · refine ⟨diverged, .blocked (h.hasLock_of_owner hq hlo), .diverged, .diverged,
        settles_of_add _ 2 fun fuel => ?_⟩
      obtain ⟨nd, s₁, hbuild, hls, -, -⟩ := hbuild fuel
      rw [hrun]
      exact h.run_replaceLeaf_locked hlo hbuild (Nat.ne_of_gt (env.addr_pos _)) (hown hls)
    · obtain ⟨nd, s₁, hbuild, hls, hnlk, hfork⟩ := hbuild 0
      obtain ⟨s₂, hput, hlink⟩ := (h.freeSlot hq hslot hlo).run_replaceLeaf hload hbuild
        (Nat.ne_of_gt (env.addr_pos _)) (hown hls) hls.root (hls.fresh h.fresh hl)
      obtain ⟨hc, hrep⟩ := h.split_leaf (by omega) hq hget hl hlen hkey hpath hle hlt hagree
        hlb hkc hbc
        hls hfork hlink
      refine ⟨done 0 s₂, .done hrep (Trie.stored_split hc) (Or.inr ⟨rfl, fun hst => ?_⟩) ?_
          fun ht => ht.split hc,
        .of_done fun _ hd => iff_of_true (hd.split_leaf h hL hq hget hl
          (ptrAt_of_load h hq hslot hload (Nat.succ_ne_zero a)) hls hfork hlink hrep
          fun x => by simp [Trie.split]) hnl, .of_done ?_,
        Converges.settles _ hmono ⟨2, by rw [hrun, hput]⟩⟩
      · rcases Trie.stored_of_place hq hst hpath with h' | ⟨c, hc, -⟩
        · exact heq (by simpa [hget] using h')
        · simp [hget] at hc
      · have hν : env.addr s.allocated ≠ owner q :=
          (h.fresh.ne_addr (h.owner_used hq) (Nat.le_refl _)).symm
        simp only [hnl, or_false]
        refine hasLock_iff (env.addr s.allocated) (fun _ => True) (fun x => by simp [Trie.split]) ?_
          (fun _ _ _ => trivial) fun x hx _ => hlink.locked_iff h.fresh fun hxo => ?_
        · rintro ⟨n, hn, hln⟩
          rw [Mem.node?_congr (hlink.other _ hν), hls.new_] at hn
          obtain rfl : nd = n := by simpa using hn
          simp [hnlk] at hln
        · obtain ⟨nx, hnx, -⟩ := h.node x hx
          have hused : x = 0 ∨ s.heap x ≠ none := Or.inr (by simp [Mem.heap_of_node? hnx])
          simp only [Locked, Mem.node?_congr (hls.other x (h.fresh.ne_addr hused (Nat.le_refl _))
            (h.fresh.ne_addr hused (Nat.le_succ _)) (Mem.ne_of_node?_of_leaf? hnx hl))]
      · apply h.continues hrep (h.fresh.node?_addr (Nat.le_refl _))
          fun x hx => by simpa [Trie.split] using hx
        intro x nx hnx
        have hused : x = 0 ∨ s.heap x ≠ none := Or.inr (by simp [Mem.heap_of_node? hnx])
        have hnx₁ : s₁.node? x = some nx :=
          (Mem.node?_congr (hls.other x (h.fresh.ne_addr hused (Nat.le_refl _))
            (h.fresh.ne_addr hused (Nat.le_succ _)) (Mem.ne_of_node?_of_leaf? hnx hl))).trans hnx
        obtain ⟨n', hn', hc⟩ := hlink.continues_node (P := True) h.fresh
          (Nat.ne_of_gt (env.addr_pos _)) hnx fun _ => ⟨nx, hnx₁, fun _ => .refl nx⟩
        exact ⟨n', hn', fun _ _ => hc trivial⟩

/-! ### Ending inside a prefix -/

/-- An insertion that has come to a node, up to the comparison of the prefix. -/
theorem run_put_compare (hL : L ≤ 8) {q : Place Addr UInt8} {c : Addr} {n : ArtNode} {key : Key}
    {slot : Slot} (hq : t.IsPlace q) (hget : t.get q = some (.node c)) (hn : s.node? c = some n)
    (hrep : NodeRep s t c n) (hslot : SlotAt s q slot) (parent : Addr) (fuel : ℕ) :
    env.machine.run (_adaptiveRadixTreePut env key (fuel + 2) true parent slot
      (t.path q).length) s =
      env.machine.run
        (if prefixMatch n key (t.path q).length ≠ getPrefixLen n.version then
          putPrefixMismatch env (fuel + 1)
            (_adaptiveRadixTreePut env key (fuel + 1) false parent slot (t.path q).length) slot c
            n.version key (t.path q).length (prefixMatch n key (t.path q).length)
        else
          putDescend env (fuel + 1)
            (_adaptiveRadixTreePut env key (fuel + 1) false parent slot (t.path q).length)
            (fun slot => _adaptiveRadixTreePut env key (fuel + 1) true c slot
              ((t.path q).length + prefixMatch n key (t.path q).length + 1)) slot c n.version key
            ((t.path q).length + prefixMatch n key (t.path q).length)
            (prefixMatch n key (t.path q).length)) s := by
  obtain ⟨p, hload, rfl⟩ := h.run_loadSlot hq hget hslot
  have hc := Trie.live_of_place hq hget
  have hoff := (hrep.place q hq hget).2
  have hplen := hrep.length
  have hlabel := t.label_length p hc
  conv_lhs => unfold _adaptiveRadixTreePut
  simp only [parentIsOld, Bool.true_or, if_true, pure_eq_ret, ret_bind,
    Bool.false_eq_true, if_false]
  refine (env.machine.run_bind_of_done hload).trans ?_
  rw [if_neg (by simpa using h.not_isLeaf hc)]
  refine (env.machine.run_bind_of_done
    (run_artNodeGetStableExpandVersion hn hrep.expanding fuel)).trans ?_
  rw [if_neg (by simpa using hoff), if_neg (by simpa using hrep.old)]
  refine (env.machine.run_bind_of_done
    (run_artNodePrefixCompare hn (by omega) key (t.path q).length)).trans ?_
  refine (env.machine.run_bind_of_done (run_artNodeGetVersion hn)).trans ?_
  rw [if_neg (by simp [hrep.old, compareExpand_self])]

end Represents

/-- The version word of the old node after the split of its prefix and the end of its
expansion. -/
theorem view_below {n : ArtNode} {p : ℕ} (hp : p < getPrefixLen n.version)
    (hlen : getOffset n.version + getPrefixLen n.version < 8) (ν : Addr) (m : NodeMetadata) :
    let n₂ := (n.setVersion (setLock n.version)).below p ν m
    view (unlockedVersion n₂.version) = { view n.version with
      locked := false, expanding := false, vexpand := (getVexpand n.version + 1) % 256,
      prefixLen := getPrefixLen n.version - p - 1, offset := getOffset n.version + p + 1 } := by
  intro n₂
  have ho₁ : getOffset (setLock n.version) = getOffset n.version :=
    (view_fields (view_setLock n.version)).1
  have hpl₁ : getPrefixLen (setLock n.version) = getPrefixLen n.version :=
    (view_fields (view_setLock n.version)).2.2.1
  have hpl : getPrefixLen n.version - p - 1 < 256 := by omega
  have hv₂ : view n₂.version = { view n.version with
      locked := true, expanding := true, prefixLen := getPrefixLen n.version - p - 1,
      offset := getOffset n.version + p + 1 } := by
    change view (setOffset (setPrefixLen (setExpand (setLock n.version))
      (getPrefixLen (setLock n.version) - p - 1)) (p + (getOffset (setLock n.version) + 1))) = _
    rw [ho₁, hpl₁, view_setOffset _ (by omega), view_setPrefixLen _ hpl, view_setExpand,
      view_setLock,
      show p + (getOffset n.version + 1) = getOffset n.version + p + 1 by omega]
  have hex₂ : isExpanding n₂.version = true := by rw [← view_expanding, hv₂]
  have hve₂ : getVexpand n₂.version = getVexpand n.version := congrArg View.vexpand hv₂
  rw [unlockedVersion, if_pos hex₂, view_unsetLock, view_unsetExpand, view_incrVexpand, hve₂, hv₂]

/-- The old node after the split of its prefix and the end of its expansion. -/
theorem truncated_below {n : ArtNode} {p : ℕ} (hok : n.Ok) (hold : isOld n.version = false)
    (hp : p < getPrefixLen n.version) (hlen : getOffset n.version + getPrefixLen n.version < 8)
    (ν : Addr) (m : NodeMetadata) :
    let n₂ := (n.setVersion (setLock n.version)).below p ν m
    Truncated n (n₂.setVersion (unlockedVersion n₂.version)) ν (getOffset n.version + p + 1) ∧
      isLocked (unlockedVersion n₂.version) = false := by
  intro n₂
  have hv := view_below hp hlen ν m
  have hpl₁ : getPrefixLen (setLock n.version) = getPrefixLen n.version :=
    (view_fields (view_setLock n.version)).2.2.1
  obtain ⟨ho, hc, hpl', hty, ho', hl, hex⟩ := view_fields hv
  have hok₂ : ((n.setVersion (unlockedVersion n₂.version))).Ok := hok.setVersion hty hc
  refine ⟨⟨⟨hok₂.type, hok₂.count_le, hok₂.key_inj, hok₂.index_le, hok₂.index_inj⟩,
    fun b => ArtNode.childAt_setVersion (n := n) hc b, rfl, ho, by omega, ?_, fun i hi => ?_,
    ho'.trans hold, hex⟩, hl⟩
  · rw [ArtNode.setVersion_version, ho, hpl']
    simp only
    omega
  · rw [ArtNode.setVersion_version, hpl'] at hi
    have hi' : i < getPrefixLen (setLock n.version) - (p + 1) := by
      rw [hpl₁]
      simp only at hi ⊢
      omega
    refine (copied_of_lt (f := fun i => n.prefix_ (p + 1 + i)) (g := n.prefix_) hi').trans ?_
    congr 1
    omega

/-- The old node has been continued. -/
theorem continues_below {n : ArtNode} {p : ℕ} (hp : p < getPrefixLen n.version)
    (hlen : getOffset n.version + getPrefixLen n.version < 8) (ν : Addr) (m : NodeMetadata) :
    let n₂ := (n.setVersion (setLock n.version)).below p ν m
    n.Continues (n₂.setVersion (unlockedVersion n₂.version)) := by
  intro n₂
  have hv : view (unlockedVersion n₂.version) = { view n.version with
      locked := false, expanding := false, vexpand := (getVexpand n.version + 1) % 256,
      prefixLen := getPrefixLen n.version - p - 1, offset := getOffset n.version + p + 1 } :=
    view_below hp hlen ν m
  obtain ⟨ho, hc, hpl, -⟩ := view_fields hv
  have hex : getVexpand (unlockedVersion n₂.version) = (getVexpand n.version + 1) % 256 :=
    congrArg View.vexpand hv
  have hslot (b : UInt8) :
      (n₂.setVersion (unlockedVersion n₂.version)).slotOf b = n.slotOf b :=
    ArtNode.slotOf_setVersion (n := n) hc b
  refine ⟨rfl, hc.ge, fun b i hi => (hslot b).trans hi, ?_, 1, hex, ?_, by omega⟩
  · rw [ArtNode.setVersion_version, ho, hpl]
    simp only
    omega
  · rw [ArtNode.setVersion_version, hpl]
    simp only
    omega

/-! ### A locked node and a new leaf -/

/-- The memory in which the node `n` at `c` is locked and a leaf for `key` has been allocated
below it. -/
def Mem.lockedWithLeaf (env : Env) (s : Mem) (c : Addr) (n : ArtNode) (key : Key)
    (g : Global) : Mem :=
  (s.setNode c (n.setVersion (setLock n.version))).withLeaf env key.length
    (childLeaf n.sidleMeta key) g

section LockedWithLeaf

variable {c : Addr} {n : ArtNode} (hs : s.Fresh env) (hn : s.node? c = some n) (key : Key)
    (g : Global)

include hs hn

theorem Mem.node?_lockedWithLeaf :
    (s.lockedWithLeaf env c n key g).node? c = some (n.setVersion (setLock n.version)) := by
  rw [lockedWithLeaf, node?_congr (heap_withLeaf_of_ne (by exact hs.ne_of_node? hn)),
    node?_setNode_self]

omit hs hn in
theorem Mem.leaf?_lockedWithLeaf :
    (s.lockedWithLeaf env c n key g).leaf? (env.addr s.allocated) =
      some (childLeaf n.sidleMeta key) := leaf?_withLeaf_self ..

omit hn in
theorem Mem.heap_lockedWithLeaf {x : Addr} (hx : x = 0 ∨ s.heap x ≠ none) (hxc : x ≠ c) :
    (s.lockedWithLeaf env c n key g).heap x = s.heap x := by
  rw [lockedWithLeaf, heap_withLeaf_of_ne (by exact hs.ne_addr hx (Nat.le_refl _)), setNode_heap,
    Function.update_of_ne hxc]

theorem Mem.Fresh.lockedWithLeaf : (s.lockedWithLeaf env c n key g).Fresh env :=
  (hs.setNode (hs.exists_addr_of_node? hn) _).withLeaf _ _ g

end LockedWithLeaf

namespace Represents

variable (h : Represents env s t)

include h

/-- The place of a node is split by the node that `art_node_expand_and_insert` has built. -/
theorem split_prefix {q : Place Addr UInt8} {c : Addr} {n nd n₂ : ArtNode} {key : Key} {p : ℕ}
    {b b' : UInt8} {s₀ : Mem} (hL : L ≤ 8) (hq : t.IsPlace q) (hget : t.get q = some (.node c))
    (hn : s.node? c = some n) (hkey : key.length = L) (hpath : t.path q <+: key)
    (hagree : ∀ j < (t.path q).length + p, key[j]? = (t.label c)[j]?)
    (hlab : (t.label c)[(t.path q).length + p]? = some b')
    (hkb : key[(t.path q).length + p]? = some b) (hbb : b ≠ b')
    (hs₀ : ∀ x, x ≠ c → x ≠ owner q → s₀.heap x = s.heap x)
    (hs₀a : s₀.allocated = s.allocated) {n₁ : ArtNode}
    (hps : PrefixSplit env s₀ s₁ c n₁ key p nd)
    (hfork : ForkNode s₀ (owner q) (t.path q).length p
      (fun j => key.getD ((t.path q).length + j) 0) b (env.addr (s.allocated + 1) + 1) b' c nd)
    (htr : Truncated n n₂ (env.addr s.allocated) ((t.path q).length + p + 1))
    (hn₂ : s₂.node? c = some n₂)
    (hlink : Linked env s (s₁.setNode c n₂) s₂ q (env.addr s.allocated)) :
    ∃ hc : Trie.CanSplit t q (.node c) (env.addr s.allocated)
        (key.take ((t.path q).length + p)) b' b key,
      Represents env s₂ (t.split q (.node c) (env.addr s.allocated)
        (key.take ((t.path q).length + p)) b' b key hc) := by
  have hlt : (t.path q).length + p < key.length := by
    by_contra hge
    rw [List.getElem?_eq_none (by omega)] at hkb
    simp at hkb
  have hc : Trie.CanSplit t q (.node c) (env.addr s.allocated)
      (key.take ((t.path q).length + p)) b' b key :=
    { place := hq
      get := hget
      fresh := h.not_live_addr
      path := List.prefix_take_iff.mpr ⟨hpath, Nat.le_add_right _ _⟩
      old_word := take_append_singleton_prefix (Nat.le_of_lt hlt)
        (fun j hj => (hagree j hj).symm) hlab
      new_word := take_append_singleton_prefix (Nat.le_of_lt hlt) (fun _ _ => rfl) hkb
      ne := hbb
      length := hkey }
  obtain ⟨hnew, hleaf, -, hother, -, -, husage⟩ := hps
  rw [hs₀a] at hnew hleaf hother
  have hν : env.addr s.allocated ≠ owner q :=
    (h.fresh.ne_addr (h.owner_used hq) (Nat.le_refl _)).symm
  have hlam : env.addr (s.allocated + 1) ≠ owner q :=
    (h.fresh.ne_addr (h.owner_used hq) (Nat.le_succ _)).symm
  have hcused : c = 0 ∨ s.heap c ≠ none := Or.inr (by simp [Mem.heap_of_node? hn])
  have hνc : env.addr s.allocated ≠ c := (h.fresh.ne_addr hcused (Nat.le_refl _)).symm
  have hlamc : env.addr (s.allocated + 1) ≠ c := (h.fresh.ne_addr hcused (Nat.le_succ _)).symm
  have hnew₂ : s₂.node? (env.addr s.allocated) = some nd := by
    rw [Mem.node?_congr (hlink.other _ hν), Mem.node?_setNode_of_ne _ _ hνc, hnew]
  have hleaf₂ : s₂.leaf? (env.addr (s.allocated + 1)) = some (childLeaf nd.sidleMeta key) := by
    rw [Mem.leaf?_congr (hlink.other _ hlam), Mem.leaf?_setNode_of_ne _ _ hlamc, hleaf]
  have hrest {x : Addr} (hx : s.heap x ≠ none) (hxc : x ≠ c) (hxo : x ≠ owner q) :
      s₂.heap x = s.heap x := by
    rw [hlink.other x hxo, Mem.setNode_heap, Function.update_of_ne hxc,
      hother x (h.fresh.ne_addr (Or.inr hx) (Nat.le_refl _))
        (h.fresh.ne_addr (Or.inr hx) (Nat.le_succ _)) hxc, hs₀ x hxc hxo]
  have hk : LeavesKept s s₂ := fun x lx hx =>
    LeavesKept.of_heap_eq (hrest (by simp [Mem.heap_of_leaf? hx])
      (Mem.ne_of_node?_of_leaf? hn hx).symm (h.leaf_ne_owner hq hx)) hx
  have hpNew : Refers s₂ (.leaf key) (env.addr (s.allocated + 1) + 1) :=
    (refers_leaf_iff hlink.fresh hleaf₂).mpr ⟨rfl, getLeafLen_ofNat (by omega)⟩
  have htake : (key.take ((t.path q).length + p)).length = (t.path q).length + p := by
    simp [Nat.le_of_lt hlt]
  refine ⟨hc, h.split hc hnew₂ hfork.ok hfork.old hfork.expanding hfork.parent hfork.offset ?_
    (fun j hj => ?_) (fun d => ?_) rfl hpNew (Nat.ne_of_gt (env.addr_pos _)) hlink.redirected hk
    (fun c' nc heq hnc => ?_) (fun x nx _ hxc hqx hx => ?_) hlink.fresh
    (by rw [hlink.global]; exact husage)⟩
  · rw [hfork.offset, hfork.prefixLen, htake]
  · rw [hfork.prefixLen] at hj
    have hlt' : (t.path q).length + j < key.length := by omega
    rw [hfork.prefix_ j hj, List.getElem?_take_of_lt (by omega), List.getD_eq_getElem?_getD,
      List.getElem?_eq_getElem hlt', Option.getD_some]
  · rw [hfork.childAt]
    by_cases hdb : d = b
    · rw [if_pos hdb, if_pos hdb, if_neg (hdb ▸ hbb)]
    · rw [if_neg hdb, if_neg hdb]
  · obtain rfl : c = c' := by simpa using heq
    obtain rfl : n = nc := by simpa [hn] using hnc
    exact ⟨n₂, hn₂, by rwa [htake]⟩
  · have hxc' : x ≠ c := fun heq => hxc (heq ▸ rfl)
    have hxo : x ≠ owner q := by
      cases q with
      | root => exact h.fresh.ne_zero_of_node? hx
      | edge m b => exact fun heq => hqx b (heq ▸ rfl)
    rw [Mem.node?_congr (hrest (by simp [Mem.heap_of_node? hx]) hxc' hxo), hx]

/-- An insertion whose key leaves the prefix of a node hangs on a lock, or it splits the
prefix and leaves the new node locked. -/
theorem settles_put_mismatch (hb : env.build.assertions = true) (hL : L ≤ 8)
    {q : Place Addr UInt8} {c : Addr} {key : Key} {slot : Slot} (hq : t.IsPlace q)
    (hget : t.get q = some (.node c)) (hslot : SlotAt s q slot) (hkey : key.length = L)
    (hpath : t.path q <+: key) (hc : ¬ t.label c <+: key) :
    ∃ o, PutEffect env s t key o ∧ KeepsDepths s t key o ∧ KeepsNodes s o ∧ env.machine.Settles
      (fun fuel => _adaptiveRadixTreePut env key fuel true (owner q) slot
        (t.path q).length) s o := by
  have hlive := Trie.live_of_place hq hget
  obtain ⟨n, hn, hrep⟩ := h.node c hlive
  obtain ⟨p, hp⟩ : ∃ p, prefixMatch n key (t.path q).length = p := ⟨_, rfl⟩
  have hne : p ≠ getPrefixLen n.version := hp ▸ (prefixMatch_eq_iff hrep hq hget hpath).not.mpr hc
  obtain ⟨hle, hagree, hdiff⟩ := prefixMatch_spec hrep hq hget hpath
  rw [hp] at hle hagree hdiff
  have hplt : p < getPrefixLen n.version := by omega
  obtain ⟨hparent, hoff⟩ := hrep.place q hq hget
  have hlen := hrep.length
  have hlabel := t.label_length c hlive
  have hrun (fuel : ℕ) : env.machine.run
      (_adaptiveRadixTreePut env key (fuel + 2) true (owner q) slot (t.path q).length) s =
      env.machine.run (putPrefixMismatch env (fuel + 1)
        (_adaptiveRadixTreePut env key (fuel + 1) false (owner q) slot (t.path q).length) slot c
        n.version key (t.path q).length p) s := by
    rw [h.run_put_compare hL hq hget hn hrep hslot, hp, if_pos hne]
  by_cases hlc : Locked s c
  · -- the node is locked
    refine ⟨diverged, .blocked ⟨c, hlive, hlc⟩, .diverged, .diverged, settles_of_add _ 2
      fun fuel => ?_⟩
    obtain ⟨n', hn', hl⟩ := hlc
    rw [hrun]
    exact env.machine.run_bind_of_diverged (run_artNodeLock_locked hn' hl _)
  let n₁ := n.setVersion (setLock n.version)
  have hlk : LockedNode n n₁ := lockedNode n
  have hco : c ≠ owner q := h.owner_ne hq hget
  have hn₁ : (s.setNode c n₁).node? c = some n₁ := Mem.node?_setNode_self ..
  have hown₁ : (s.setNode c n₁).node? (owner q) = s.node? (owner q) :=
    Mem.node?_setNode_of_ne _ _ hco.symm
  have hfresh₁ : (s.setNode c n₁).Fresh env := h.fresh.setNode (h.fresh.exists_addr_of_node? hn) _
  -- the node is locked by the insertion
  have hstart (fuel : ℕ) : env.machine.run
      (_adaptiveRadixTreePut env key (fuel + 2) true (owner q) slot (t.path q).length) s =
      env.machine.run (do
        let parent ← artNodeGetLockedParent (fuel + 1) c
        let new_ ← artNodeExpandAndInsert env (fuel + 1) parent c key (t.path q).length p
        store c .parent new_
        let byte ← keyBefore parent key (t.path q).length
        linkNewNode parent slot byte new_
        artNodeUnlock c
        pure (0 : ℤ)) (s.setNode c n₁) := by
    rw [hrun]
    unfold putPrefixMismatch
    refine (env.machine.run_bind_of_done
      (run_artNodeLock hn (not_locked hn hlc) hrep.old fuel)).trans ?_
    rw [if_neg (by simp)]
    refine (env.machine.run_bind_of_done (run_artNodeGetVersion hn₁)).trans ?_
    rw [if_neg (by simp [n₁, compareExpand_setLock])]
  by_cases hlo : Locked s (owner q)
  · -- the node above is locked
    refine ⟨diverged, .blocked (h.hasLock_of_owner hq hlo), .diverged, .diverged,
      settles_of_add _ 2 fun fuel => ?_⟩
    rw [hstart]
    exact env.machine.run_bind_of_diverged
      (h.run_getLockedParent_locked hn₁ hparent hown₁ hlo (fuel + 1))
  let s₁ := (s.setNode c n₁).lockNode (owner q)
  have hs₁c : s₁.node? c = some n₁ := (Mem.node?_lockNode_of_ne hco).trans hn₁
  have hlocked : s₁.node? (owner q) = (s.lockNode (owner q)).node? (owner q) :=
    Mem.node?_lockNode_congr hown₁
  obtain ⟨b, hkb⟩ : ∃ b, key[(t.path q).length + p]? = some b :=
    ⟨_, List.getElem?_eq_getElem (by omega)⟩
  have hlab : (t.label c)[(t.path q).length + p]? = some (n.prefix_ p) := by
    rw [← hrep.prefix_ p hplt, hoff]
  have hbb : n.prefix_ p ≠ b := by
    rintro rfl
    exact hdiff hplt (hkb.trans hlab.symm)
  have hpar₁ : (s.setNode c n₁).NullOrNode (owner q) := (h.nullOrNode_owner hq).congr hfresh₁ hown₁
  have hpre : PrefixPre env s₁ (owner q) c n₁ key (t.path q).length p :=
    { fresh := hfresh₁.lockNode _
      usage := by simpa [s₁] using h.usage
      parent := Mem.NullOrNode.lockNode hfresh₁ hpar₁
      node := hs₁c
      offset := hlk.offset.trans hoff
      prefixLen := by rw [hlk.prefixLen]; omega
      common_lt := by rwa [hlk.prefixLen]
      off_lt := by rw [hlk.prefixLen]; omega
      length := hkey ▸ hL }
  obtain ⟨nd, s₂, hbuild, hps, hndl, hfork⟩ := run_artNodeExpandAndInsert hb hpre hkb hbb 1
  have halloc : s₁.allocated = s.allocated := by simp [s₁]
  have hroot : s₂.root = s.root := hps.root.trans (by simp [s₁])
  have hfresh₂ : s₂.Fresh env := hps.fresh hpre.fresh hs₁c
  have hps' := hps
  obtain ⟨hnew, -, hnode, hother, -, -, -⟩ := hps'
  rw [halloc] at hnew hnode hother hbuild
  have hν : env.addr s.allocated ≠ owner q :=
    (h.fresh.ne_addr (h.owner_used hq) (Nat.le_refl _)).symm
  have hcused : c = 0 ∨ s.heap c ≠ none := Or.inr (by simp [Mem.heap_of_node? hn])
  have hνc : env.addr s.allocated ≠ c := (h.fresh.ne_addr hcused (Nat.le_refl _)).symm
  have hown₂ : s₂.node? (owner q) = (s.lockNode (owner q)).node? (owner q) := by
    rw [Mem.node?_congr (hother _ hν.symm
      (h.fresh.ne_addr (h.owner_used hq) (Nat.le_succ _)) hco.symm), hlocked]
  -- the place is redirected, and the old node unlocked
  let n₂ := n₁.below p (env.addr s.allocated) nd.sidleMeta
  obtain ⟨byte, hbyte, hrunb⟩ := h.run_keyBefore hq hpath
  obtain ⟨s₃, hlinkrun, hlink⟩ := (h.freeSlot hq hslot hlo).run_linkNewNode hbyte hown₂
    hroot hfresh₂ hnew hfork.parent hν
  have hnode₃ : s₃.node? c = some n₂ := by rw [Mem.node?_congr (hlink.other c hco), hnode]
  let n₃ := n₂.setVersion (unlockedVersion n₂.version)
  have hlink' := hlink.setNode hco (hfresh₂.exists_addr_of_node? hnode) n₃
  obtain ⟨htr, hnl₃⟩ := truncated_below hrep.ok hrep.old hplt (by omega) (env.addr s.allocated)
    nd.sidleMeta
  rw [hoff] at htr
  have hlam : env.addr (s₁.allocated + 1) = env.addr (s.allocated + 1) := by rw [halloc]
  rw [hlam] at hfork
  obtain ⟨hcs, hrep'⟩ := h.split_prefix hL hq hget hn hkey hpath hagree hlab hkb (Ne.symm hbb)
    (fun x hxc hxo => (Mem.heap_lockNode_of_ne hxo).trans (Function.update_of_ne hxc _ _))
      halloc hps
    hfork htr (Mem.node?_setNode_self s₃ c n₃) hlink'
  have hrest {x : Addr} (hx : s.heap x ≠ none) (hxc : x ≠ c) (hxo : x ≠ owner q) :
      (s₃.setNode c n₃).heap x = s.heap x := by
    rw [hlink'.other x hxo, Mem.setNode_heap, Function.update_of_ne hxc,
      hother x (h.fresh.ne_addr (Or.inr hx) (Nat.le_refl _))
        (h.fresh.ne_addr (Or.inr hx) (Nat.le_succ _)) hxc, Mem.heap_lockNode_of_ne hxo,
      Mem.setNode_heap, Function.update_of_ne hxc]
  refine ⟨done 0 (s₃.setNode c n₃),
    .done hrep' (Trie.stored_split hcs) (Or.inr ⟨rfl, fun hst => ?_⟩)
    ⟨fun _ => Or.inr ⟨q, c, hq, hget, hpath, hc⟩,
      fun _ => ⟨env.addr s.allocated, Or.inl rfl, nd, ?_, hndl⟩⟩ fun ht => ht.split hcs,
    .of_done fun ht hd => iff_of_false ?_ (not_not_intro ⟨q, c, hq, hget, hpath, hc⟩), .of_done ?_,
    Converges.settles _ (fun m => _adaptiveRadixTreePut_le_succ env key m true (owner q) slot _)
      ⟨3, ?_⟩⟩
  · rcases Trie.stored_of_place hq hst hpath with h' | ⟨d, hd, hdk⟩
    · simp [hget] at h'
    · obtain rfl : c = d := by simpa [hget] using hd
      exact hc hdk
  · rw [Mem.node?_setNode_of_ne _ _ hνc, Mem.node?_congr (hlink.other _ hν), hnew]
  · -- the old node is one deeper than before
    have hdepth : nd.sidleMeta.depth = n.sidleMeta.depth := by
      rw [hfork.sidleMeta, h.newMeta_depth hL hd hq hget
        (by rw [hlocked]; exact Mem.depth_lockNode (owner q)), h.depth_of_place hd hq hget hn]
    have hle := h.depth_le hd hlive hn
    refine h.not_depthsRight_of_split ht hd hq hget hn hrep' (Or.inr hlive)
      (Mem.node?_setNode_self s₃ c n₃) htr.childAt ?_ (fun x nx hxc hxo hnx => ?_) fun x l hl => ?_
    · change max n.sidleMeta.depth ((nd.sidleMeta.depth + 1) % 256) % 64 ≠ n.sidleMeta.depth
      rw [hdepth, Nat.mod_eq_of_lt (show n.sidleMeta.depth + 1 < 256 by omega),
        Nat.max_eq_right (Nat.le_succ _), Nat.mod_eq_of_lt (by omega)]
      exact Nat.succ_ne_self _
    · rw [Mem.node?_congr (hrest (by simp [Mem.heap_of_node? hnx]) hxc hxo), hnx]
    · rw [Mem.leaf?_congr (hrest (by simp [Mem.heap_of_leaf? hl])
        (Mem.ne_of_node?_of_leaf? hn hl).symm (h.leaf_ne_owner hq hl)), hl]
  · apply h.continues hrep' (h.fresh.node?_addr (Nat.le_refl _))
      fun x hx => by simpa [Trie.split] using hx
    intro x nx hnx
    by_cases hxc : x = c
    · subst hxc
      obtain rfl := Option.some.inj (hn.symm.trans hnx)
      exact ⟨n₃, Mem.node?_setNode_self .., fun _ _ => continues_below hplt (by omega) _ _⟩
    · by_cases hxo : x = owner q
      · obtain ⟨n', hn', hc'⟩ := hlink'.continues_node (P := True) h.fresh
          (Nat.ne_of_gt (env.addr_pos _)) hnx fun hne => absurd hxo hne
        exact ⟨n', hn', fun _ _ => hc' trivial⟩
      · exact ⟨nx, (Mem.node?_congr (hrest (by simp [Mem.heap_of_node? hnx]) hxc hxo)).trans hnx,
          fun _ _ => .refl nx⟩
  · rw [hstart]
    refine (env.machine.run_bind_of_done
      ((h.freeSlot hq hslot hlo).run_getLockedParent h.fresh hco hn₁ hparent hown₁ 0)).trans ?_
    refine (env.machine.run_bind_of_done hbuild).trans ?_
    -- the parent of the old node has been set already
    refine (env.machine.run_bind_of_done ((run_store (f := .parent) hnode trivial).trans
      (congrArg (done ()) (Mem.setNode_eq_self hnode)))).trans ?_
    refine (env.machine.run_bind_of_done (hrunb s₂)).trans ?_
    refine (env.machine.run_bind_of_done hlinkrun).trans ?_
    exact env.machine.run_bind_of_done (run_artNodeUnlock hnode₃)

/-! ### Ending at a node without a child for the byte -/

/-- An insertion whose key has the label of a node goes on with the child for the next byte,
or adds one. -/
theorem run_put_below (hL : L ≤ 8) {q : Place Addr UInt8} {c : Addr} {n : ArtNode} {key : Key}
    {slot : Slot} (hq : t.IsPlace q) (hget : t.get q = some (.node c)) (hn : s.node? c = some n)
    (hrep : NodeRep s t c n) (hslot : SlotAt s q slot) (hpath : t.path q <+: key) {b : UInt8}
    (hb : t.label c ++ [b] <+: key) (parent : Addr) (fuel : ℕ) :
    env.machine.run (_adaptiveRadixTreePut env key (fuel + 2) true parent slot
      (t.path q).length) s =
      env.machine.run (match (n.slotOf b).map fun i => Slot.child c i with
        | some slot => _adaptiveRadixTreePut env key (fuel + 1) true c slot ((t.label c).length + 1)
        | none =>
          putAddChild env (fuel + 1)
            (_adaptiveRadixTreePut env key (fuel + 1) false parent slot (t.path q).length)
            (fun slot => _adaptiveRadixTreePut env key (fuel + 1) true c slot
              ((t.label c).length + 1)) slot c key (t.label c).length
                (getPrefixLen n.version)) s := by
  have hc := hb.left_of_append_singleton
  have hp := (prefixMatch_eq_iff hrep hq hget hpath).mpr hc
  have hlen : (t.path q).length + getPrefixLen n.version = (t.label c).length := by
    rw [← (hrep.place q hq hget).2, hrep.length]
  rw [h.run_put_compare hL hq hget hn hrep hslot, if_neg (by simpa using hp), hp, hlen]
  unfold putDescend
  refine (env.machine.run_bind_of_done (run_keyAt_behind hb _)).trans ?_
  refine (env.machine.run_bind_of_done (run_artNodeFindChild hn hrep.ok _)).trans ?_
  refine (env.machine.run_bind_of_done (run_artNodeGetVersion hn)).trans ?_
  exact congrArg (fun p => env.machine.run p s) (if_neg (by simpa using hrep.old))

/-- The insertion locks the node and allocates the leaf. -/
theorem run_put_newLeaf (hL : L ≤ 8) {q : Place Addr UInt8} {c : Addr} {n : ArtNode} {key : Key}
    {slot : Slot} (hq : t.IsPlace q) (hget : t.get q = some (.node c)) (hn : s.node? c = some n)
    (hrep : NodeRep s t c n) (hslot : SlotAt s q slot) (hpath : t.path q <+: key) {b : UInt8}
    (hb : t.label c ++ [b] <+: key) (hedge : t.edge c b = none) (hl : ¬ Locked s c)
    (parent : Addr) :
    ∃ g, 0 ≤ g.curLocalMemoryUsage ∧ ∀ fuel, env.machine.run
      (_adaptiveRadixTreePut env key (fuel + 2) true parent slot (t.path q).length) s =
      env.machine.run (do
        let (next, new_) ← artNodeAddChild env (fuel + 1) c b (env.addr s.allocated + 1) true
        if new_ ≠ 0 then do
          let parent ← artNodeGetLockedParent (fuel + 1) c
          let byte ← keyBefore parent key (t.path q).length
          linkNewNode parent slot byte new_
          artNodeUnlock c
        else artNodeUnlock c
        match next with
        | some slot => _adaptiveRadixTreePut env key (fuel + 1) true c slot ((t.label c).length + 1)
        | none => pure (0 : ℤ))
        (s.lockedWithLeaf env c n key g) := by
  let n₁ := n.setVersion (setLock n.version)
  have hn₁ : (s.setNode c n₁).node? c = some n₁ := Mem.node?_setNode_self ..
  have hfresh₁ : (s.setNode c n₁).Fresh env := h.fresh.setNode (h.fresh.exists_addr_of_node? hn) _
  obtain ⟨g, hg, hgu⟩ := run_allocLeaf env (s := s.setNode c n₁) h.usage
    (hfresh₁.nullOrNode_of_node? hn₁) key .remote
  rw [newLeaf_remote hn₁] at hg
  refine ⟨g, hgu, fun fuel => ?_⟩
  have hlen : (t.label c).length - getPrefixLen n.version = (t.path q).length := by
    rw [← (hrep.place q hq hget).2, ← hrep.length, Nat.add_sub_cancel]
  rw [h.run_put_below hL hq hget hn hrep hslot hpath hb, (edge_eq_none_iff hrep).mp hedge,
    Option.map_none]
  simp only
  unfold putAddChild
  refine (env.machine.run_bind_of_done
    (run_artNodeLock hn (not_locked hn hl) hrep.old fuel)).trans ?_
  rw [if_neg (by simp)]
  refine (env.machine.run_bind_of_done (run_keyAt_behind hb _)).trans ?_
  refine (env.machine.run_bind_of_done hg).trans ?_
  simp only [hlen]
  rfl

omit h in
/-- A key that has come to a missing edge is not stored, and its walk ends inside no label. -/
theorem end_of_edge_none {c : Addr} {key : Key} {b : UInt8} (hc : t.live c)
    (hb : t.label c ++ [b] <+: key) (hedge : t.edge c b = none) :
    ¬ t.Stored key ∧ ¬ t.LeavesLabel key := by
  have hplace : t.IsPlace (.edge c b) := hc
  refine ⟨fun hst => ?_, Trie.not_leavesLabel hplace hb (by simp [hedge])⟩
  rcases Trie.stored_of_place hplace hst hb with h' | ⟨d, hd, -⟩
  · simp [hedge] at h'
  · simp [hedge] at hd

/-- The node has room for the new leaf. -/
theorem settles_put_room (hL : L ≤ 8) {q : Place Addr UInt8} {c : Addr} {n : ArtNode} {key : Key}
    {slot : Slot} (hq : t.IsPlace q) (hget : t.get q = some (.node c)) (hn : s.node? c = some n)
    (hrep : NodeRep s t c n) (hslot : SlotAt s q slot) (hkey : key.length = L)
    (hpath : t.path q <+: key) {b : UInt8} (hb : t.label c ++ [b] <+: key)
    (hedge : t.edge c b = none) (hl : ¬ Locked s c) (hroom : n.HasRoom) (parent : Addr) :
    ∃ o, PutEffect env s t key o ∧ KeepsDepths s t key o ∧ KeepsNodes s o ∧ env.machine.Settles
      (fun fuel => _adaptiveRadixTreePut env key fuel true parent slot (t.path q).length) s o := by
  obtain ⟨g, hg, hrun⟩ := h.run_put_newLeaf hL hq hget hn hrep hslot hpath hb hedge hl parent
  have hlive := Trie.live_of_place hq hget
  let n₁ := n.setVersion (setLock n.version)
  have hlk : LockedNode n n₁ := lockedNode n
  let lam := env.addr s.allocated
  let s₂ := s.lockedWithLeaf env c n key g
  have hclam : c ≠ lam := h.fresh.ne_of_node? hn
  have hn₂ : s₂.node? c = some n₁ := Mem.node?_lockedWithLeaf h.fresh hn key g
  have hslotb : n₁.slotOf b = none := (hlk.slotOf b).trans ((edge_eq_none_iff hrep).mp hedge)
  have hroom₁ : n₁.HasRoom := hlk.room.mpr hroom
  have hadd (fuel : ℕ) : env.machine.run (artNodeAddChild env fuel c b (lam + 1) true) s₂ = _ :=
    run_artNodeAddChild_leaf hn₂ (hlk.ok hrep.ok) hroom₁ hslotb
      (isLeaf_succ (env.addr_aligned s.allocated)) fuel true
  -- the node with the new leaf, locked and then unlocked
  let n₂ := n₁.addChild b (lam + 1)
  let n₃ := n₂.setVersion (unlockedVersion n₂.version)
  obtain ⟨ho₂, hc₂, hpl₂, hty₂, hold₂, -, hex₂⟩ :=
    view_fields (ArtNode.view_addChild (b := b) hroom₁ (lam + 1))
  have hexp₂ : isExpanding n₂.version = false := hex₂.trans (hlk.expanding.trans hrep.expanding)
  obtain ⟨ho₃, hc₃, hpl₃, hty₃, hold₃, hl₃, hex₃⟩ := view_fields (view_unlockedVersion hexp₂)
  have hn₃ : (s₂.setNode c n₃).node? c = some n₃ := Mem.node?_setNode_self ..
  have hfresh₂ : s₂.Fresh env := h.fresh.lockedWithLeaf hn key g
  have hfresh₃ : (s₂.setNode c n₃).Fresh env := hfresh₂.setNode (hfresh₂.exists_addr_of_node? hn₂) _
  have hleaf₃ : (s₂.setNode c n₃).leaf? lam = some (childLeaf n.sidleMeta key) := by
    rw [Mem.leaf?_setNode_of_ne _ _ hclam.symm]
    exact Mem.leaf?_lockedWithLeaf key g
  have hrest {x : Addr} (hx : s.heap x ≠ none) (hxc : x ≠ c) :
      (s₂.setNode c n₃).heap x = s.heap x := by
    rw [Mem.setNode_heap, Function.update_of_ne hxc,
      Mem.heap_lockedWithLeaf h.fresh key g (Or.inr hx) hxc]
  obtain ⟨hns, hnl⟩ := end_of_edge_none hlive hb hedge
  have hrep' := h.addLeaf hlive hedge hb hkey hn hn₃
    (((hlk.ok hrep.ok).addChild hroom₁ hslotb _).setVersion hty₃ hc₃)
    (ho₃.trans (ho₂.trans hlk.offset)) (hpl₃.trans (hpl₂.trans hlk.prefixLen))
    (hold₃.trans (hold₂.trans (hlk.old.trans hrep.old))) (hex₃.trans hexp₂)
    (ArtNode.prefix_addChild ..) (ArtNode.parent_addChild ..)
    (fun d => by
      rw [ArtNode.childAt_setVersion hc₃, ArtNode.childAt_addChild (hlk.ok hrep.ok) hroom₁ hslotb
        (Nat.succ_ne_zero lam), hlk.childAt])
    ((refers_leaf_iff hfresh₃ hleaf₃).mpr ⟨rfl, getLeafLen_ofNat (by omega)⟩)
    (fun x lx hx => LeavesKept.of_heap_eq (hrest (by simp [Mem.heap_of_leaf? hx])
      (Mem.ne_of_node?_of_leaf? hn hx).symm) hx)
    (fun x nx hxc hx => by
      rw [Mem.node?_congr (hrest (by simp [Mem.heap_of_node? hx]) hxc), hx])
    rfl hfresh₃ hg
  have hdepths (hd : DepthsRight s) : DepthsRight (s₂.setNode c n₃) :=
    hd.addLeaf h hrep' hL hlive hn hn₃ (congrArg _ (ArtNode.sidleMeta_addChild ..))
      (fun d => by
        rw [ArtNode.childAt_setVersion hc₃, ArtNode.childAt_addChild (hlk.ok hrep.ok) hroom₁ hslotb
          (Nat.succ_ne_zero lam), hlk.childAt]) hleaf₃
      (fun x lx hx => by
        rw [Mem.leaf?_congr (hrest (by simp [Mem.heap_of_leaf? hx])
          (Mem.ne_of_node?_of_leaf? hn hx).symm), hx])
      (fun x nx hxc hx => by
        rw [Mem.node?_congr (hrest (by simp [Mem.heap_of_node? hx]) hxc), hx]) rfl fun _ hx => hx
  refine ⟨done 0 (s₂.setNode c n₃), .done hrep' (Trie.stored_addLeaf _ _ _ _ hlive hedge hb hkey)
    (Or.inr ⟨rfl, hns⟩) ?_ fun ht => ht.addLeaf hlive hedge hb hkey,
    .of_done fun _ hd => iff_of_true (hdepths hd) hnl, .of_done ?_,
    settles_of_add _ 2 fun fuel => ?_⟩
  · simp only [hnl, or_false]
    have hlock (x : Addr) (hx : t.live x) : Locked (s₂.setNode c n₃) x ↔ Locked s x := by
      by_cases hxc : x = c
      · subst hxc
        refine iff_of_false ?_ hl
        rintro ⟨m, hm, hml⟩
        obtain rfl : n₃ = m := by simpa [hn₃] using hm
        simp [n₃, hl₃] at hml
      · obtain ⟨nx, hnx, -⟩ := h.node x hx
        simp only [Locked, Mem.node?_congr (hrest (by simp [Mem.heap_of_node? hnx]) hxc)]
    constructor
    · rintro ⟨x, hx, hlx⟩
      exact ⟨x, hx, (hlock x hx).mp hlx⟩
    · rintro ⟨x, hx, hlx⟩
      exact ⟨x, hx, (hlock x hx).mpr hlx⟩
  · apply h.continues hrep' (h.fresh.node?_addr (Nat.le_refl _)) fun x => Or.inr
    intro x nx hnx
    by_cases hxc : x = c
    · subst hxc
      obtain rfl := Option.some.inj (hn.symm.trans hnx)
      exact ⟨n₃, hn₃, fun _ _ => .addChild hlk (hlk.ok hrep.ok) hroom₁ hslotb
        (Nat.succ_ne_zero lam) hrep.expanding⟩
    · exact ⟨nx, (Mem.node?_congr (hrest (by simp [Mem.heap_of_node? hnx]) hxc)).trans hnx,
        fun _ _ => .refl nx⟩
  · rw [hrun]
    refine (env.machine.run_bind_of_done (hadd (fuel + 1))).trans ?_
    simp only [ne_eq, not_true_eq_false, if_false]
    refine (env.machine.run_bind_of_done (run_artNodeUnlock (Mem.node?_setNode_self ..))).trans ?_
    rw [Mem.setNode_setNode]
    rfl

/-- What growth needs of the locked node. -/
theorem growPre {c : Addr} {n : ArtNode} {q : Place Addr UInt8} (hq : t.IsPlace q)
    (hget : t.get q = some (.node c)) (hn : s.node? c = some n) (hrep : NodeRep s t c n) (key : Key)
    {g : Global} (hg : 0 ≤ g.curLocalMemoryUsage) :
    GrowPre env (s.lockedWithLeaf env c n key g) c (n.setVersion (setLock n.version)) := by
  have hlive := Trie.live_of_place hq hget
  have hlk := lockedNode n
  have hfresh₂ := h.fresh.lockedWithLeaf hn key g
  refine ⟨hfresh₂, hg, Mem.node?_lockedWithLeaf h.fresh hn key g, hlk.ok hrep.ok, ?_,
    fun b p hp => ?_⟩
  · have hpar : (n.setVersion (setLock n.version)).parent = owner q := (hrep.place q hq hget).1
    have hco := h.owner_ne hq hget
    rw [hpar]
    exact (h.nullOrNode_owner hq).congr hfresh₂ (Mem.node?_congr
      (Mem.heap_lockedWithLeaf h.fresh key g (h.owner_used hq) hco.symm))
  · rw [hlk.childAt] at hp
    obtain ⟨r, hr, href⟩ := edge_of_childAt hrep hp
    have hp0 := h.ne_zero_of_refers (q := .edge c b) hlive hr href
    cases r with
    | leaf k =>
      refine ⟨?_, hp0, Or.inl href.1⟩
      rintro rfl
      exact absurd href.1 (by simp [h.not_isLeaf hlive])
    | node d =>
      obtain rfl : p = d := href
      have hd := t.edge_node c b p hlive hr
      have hne : p ≠ c := by
        rintro rfl
        exact absurd (Trie.length_lt_of_edge hlive hr) (Nat.lt_irrefl _)
      obtain ⟨nd, hnd, -⟩ := h.node p hd
      refine ⟨hne, hp0, Or.inr ⟨nd, ?_⟩⟩
      rw [Mem.node?_congr (Mem.heap_lockedWithLeaf h.fresh key g
        (Or.inr (by simp [Mem.heap_of_node? hnd])) hne), hnd]

/-- The memory after growth and linking holds the trie with the copy and the new leaf. -/
theorem grow_addLeaf {q : Place Addr UInt8} {c : Addr} {n nd : ArtNode} {key : Key} {g : Global}
    {b : UInt8} {s₃ s₄ s₅ : Mem} (hL : L ≤ 8) (hq : t.IsPlace q) (hget : t.get q = some (.node c))
    (hn : s.node? c = some n) (hrep : NodeRep s t c n) (hkey : key.length = L)
    (hb : t.label c ++ [b] <+: key) (hedge : t.edge c b = none)
    (hg : 0 ≤ g.curLocalMemoryUsage)
    (hgm : GrownMem env (s.lockedWithLeaf env c n key g) s₃ (n.setVersion (setLock n.version)) nd)
    (hga : GrownAdd (s.lockedWithLeaf env c n key g) (n.setVersion (setLock n.version)) nd b
      (env.addr s.allocated + 1))
    (hs₄ : ∀ x, x ≠ c → x ≠ owner q → s₄.heap x = s₃.heap x)
    (hs₄g : s₄.global = s₃.global)
    (hlink : Linked env s s₄ s₅ q (env.addr (s.allocated + 1))) :
    ∃ t' : Tree L, Represents env s₅ t' ∧ (∀ k, t'.Stored k ↔ t.Stored k ∨ k = key) ∧
      (∀ x, t'.live x ↔ x = env.addr (s.allocated + 1) ∨ (t.live x ∧ x ≠ c)) ∧
      (DepthsRight s → DepthsRight s₅) ∧ (t.Branching → t'.Branching) := by
  let ν := env.addr (s.allocated + 1)
  have hlive := Trie.live_of_place hq hget
  have hlk := lockedNode n
  have hpre := h.growPre hq hget hn hrep key hg
  have hused {x : Addr} (hx : x = 0 ∨ s.heap x ≠ none) : x ≠ ν := h.fresh.ne_addr hx (Nat.le_succ _)
  have hc : Trie.CanRename t q c ν := ⟨hq, hget, fun hν => by
    obtain ⟨m, hm, -⟩ := h.node ν hν
    exact hused (Or.inr (by simp [Mem.heap_of_node? hm])) rfl⟩
  have hνc : ν ≠ c := (hused (Or.inr (by simp [Mem.heap_of_node? hn]))).symm
  have hνo : ν ≠ owner q := (hused (h.owner_used hq)).symm
  have hlamν : env.addr s.allocated ≠ ν := fun heq => by
    have := env.addr_injective heq
    omega
  have hlamc : env.addr s.allocated ≠ c := (h.fresh.ne_of_node? hn).symm
  have hlamo : env.addr s.allocated ≠ owner q :=
    (h.fresh.ne_addr (h.owner_used hq) (Nat.le_refl _)).symm
  have h₅₃ {x : Addr} (hxc : x ≠ c) (hxo : x ≠ owner q) : s₅.heap x = s₃.heap x := by
    rw [hlink.other x hxo, hs₄ x hxc hxo]
  have hnew₅ : s₅.node? ν = some nd := by rw [Mem.node?_congr (h₅₃ hνc hνo)]; exact hgm.new_
  have hlam₅ : s₅.leaf? (env.addr s.allocated) = some (childLeaf n.sidleMeta key) := by
    rw [Mem.leaf?_congr (h₅₃ hlamc hlamo), Mem.leaf?_congr (hgm.other _ hlamν fun d hd => ?_)]
    · exact Mem.leaf?_lockedWithLeaf key g
    · refine (hpre.child d _ hd).2.2.resolve_right ?_
      rintro ⟨m, hm⟩
      exact Mem.ne_of_node?_of_leaf? hm (Mem.leaf?_lockedWithLeaf key g) rfl
  -- only internal children have changed besides the node and the owner of its place
  have hrest {x : Addr} (hx : s.heap x ≠ none) (hxc : x ≠ c) (hxo : x ≠ owner q)
      (hchild : ∀ d, t.edge c d ≠ some (.node x)) : s₅.heap x = s.heap x := by
    rw [h₅₃ hxc hxo, hgm.other x (hused (Or.inr hx)) fun d hd => ?_,
      Mem.heap_lockedWithLeaf h.fresh key g (Or.inr hx) hxc]
    rw [hlk.childAt] at hd
    obtain ⟨r, hr, href⟩ := edge_of_childAt hrep hd
    cases r with
    | leaf k => exact href.1
    | node m =>
      obtain rfl : x = m := href
      exact absurd hr (hchild d)
  have hleaf {x : Addr} {lx : LeafNode} (hx : s.leaf? x = some lx) : s₅.leaf? x = some lx := by
    rw [Mem.leaf?_congr (hrest (by simp [Mem.heap_of_leaf? hx])
      (Mem.ne_of_node?_of_leaf? hn hx).symm (h.leaf_ne_owner hq hx) fun d hd => ?_), hx]
    obtain ⟨m, hm, -⟩ := h.node x (t.edge_node c d x hlive hd)
    exact Mem.ne_of_node?_of_leaf? hm hx rfl
  have hfresh₅ := hlink.fresh
  have hνi : ∃ i, i < s₅.allocated ∧ env.addr i = ν := hfresh₅.exists_addr_of_node? hnew₅
  -- before the leaf is added, the copy has the children of the old node
  let s₆ := s₅.setNode ν n
  have hfresh₆ : s₆.Fresh env := hfresh₅.setNode hνi n
  have husage : 0 ≤ s₅.global.curLocalMemoryUsage := by
    rw [hlink.global, hs₄g]
    exact hgm.usage
  have hred : Redirected s s₆ q ν :=
    (hlink.setNode hνo (hlink.allocated ▸ hνi) n).redirected
  have hleaf₆ (x : Addr) (lx : LeafNode) (hx : s.leaf? x = some lx) : s₆.leaf? x = some lx := by
    rw [Mem.leaf?_setNode_of_ne _ _ (hused (Or.inr (by simp [Mem.heap_of_leaf? hx]))), hleaf hx]
  have hadopt (d : UInt8) (x : Addr) (nx : ArtNode) (hd : t.edge c d = some (.node x))
      (hx : s.node? x = some nx) : s₆.node? x = some (nx.setParent ν) := by
    have hxl := t.edge_node c d x hlive hd
    have hxν : x ≠ ν := hused (Or.inr (by simp [Mem.heap_of_node? hx]))
    have hxc : x ≠ c := by
      rintro rfl
      exact hc.edge_ne hd
    have hxo : x ≠ owner q := by
      cases q with
      | root => exact h.ne_zero hxl
      | edge m d' =>
        rintro rfl
        have h₁ := Trie.length_lt_of_edge hq hget
        have h₂ : (t.label c).length < (t.label x).length := Trie.length_lt_of_edge hlive hd
        omega
    obtain ⟨p, hp, rfl⟩ := childAt hrep hd
    rw [Mem.node?_setNode_of_ne _ _ hxν, Mem.node?_congr (h₅₃ hxc hxo)]
    refine hgm.child d p nx ((hlk.childAt d).trans hp) (h.not_isLeaf hxl) ?_
    rw [Mem.node?_congr (Mem.heap_lockedWithLeaf h.fresh key g
      (Or.inr (by simp [Mem.heap_of_node? hx])) hxc), hx]
  have hkeep (x : Addr) (nx : ArtNode) (hxc : x ≠ c) (hchild : ∀ d, t.edge c d ≠ some (.node x))
      (hxo : x ≠ owner q) (hnx : s.node? x = some nx) : s₆.node? x = some nx := by
    have hxu : s.heap x ≠ none := by simp [Mem.heap_of_node? hnx]
    rw [Mem.node?_setNode_of_ne _ _ (hused (Or.inr hxu)),
      Mem.node?_congr (hrest hxu hxc hxo hchild),
      hnx]
  have hrename : Represents env s₆ (t.rename q c ν hc) := by
    refine h.grow hc hn (Mem.node?_setNode_self ..) hrep.ok hrep.old hrep.expanding
      (hrep.place q hq hget).1 rfl rfl rfl (fun _ => rfl) (Nat.ne_of_gt (env.addr_pos _)) hred
      (fun x lx hx => ⟨lx, hleaf₆ x lx hx, rfl, rfl⟩) hadopt
      (fun x nx hx hxc hchild hqx hnx => hkeep x nx hxc hchild ?_ hnx) hfresh₆ husage
    cases q with
    | root => exact h.fresh.ne_zero_of_node? hnx
    | edge m b => exact fun heq => hqx b (heq ▸ rfl)
  have hedge' : (t.rename q c ν hc).edge ν b = none := by rw [Trie.rename_edge_new, hedge]
  have hlabel' : (t.rename q c ν hc).label ν ++ [b] <+: key := by rwa [Trie.rename_label_new]
  have hlive' : (t.rename q c ν hc).live ν := Or.inl rfl
  have hchild (d : UInt8) : nd.childAt d =
      if d = b then some (env.addr s.allocated + 1) else n.childAt d := by
    rw [hga.childAt, hlk.childAt]
  have hleaf₅ (x : Addr) (lx : LeafNode) (hx : s₆.leaf? x = some lx) : s₅.leaf? x = some lx := by
    have hxν : x ≠ ν := (Mem.ne_of_node?_of_leaf? (Mem.node?_setNode_self s₅ ν n) hx).symm
    rwa [Mem.leaf?_setNode_of_ne _ _ hxν] at hx
  have hnode₅ (x : Addr) (nx : ArtNode) (hxν : x ≠ ν) (hx : s₆.node? x = some nx) :
      s₅.node? x = some nx := by
    rwa [Mem.node?_setNode_of_ne _ _ hxν] at hx
  have hrep' := hrename.addLeaf hlive' hedge' hlabel' hkey (Mem.node?_setNode_self ..)
    hnew₅ hga.ok (hga.offset.trans hlk.offset) (hga.prefixLen.trans hlk.prefixLen) hga.old
    hga.expanding hga.prefix_ hga.parent hchild
    ((refers_leaf_iff hfresh₅ hlam₅).mpr ⟨rfl, getLeafLen_ofNat (by omega)⟩)
    (fun x lx hx => ⟨lx, hleaf₅ x lx hx, rfl, rfl⟩) hnode₅ rfl hfresh₅ husage
  refine ⟨_, hrep', fun k => ?_, fun x => Iff.rfl, fun hd => ?_,
    fun ht => (ht.rename hc).addLeaf hlive' hedge' hlabel' hkey⟩
  · rw [Trie.stored_addLeaf _ _ _ _ hlive' hedge' hlabel' hkey, Trie.stored_rename]
  · have hd₆ : DepthsRight s₆ := by
      refine hd.rename h hc hrename hn (Mem.node?_setNode_self ..) rfl (fun _ => rfl)
        (Nat.ne_of_gt (env.addr_pos _)) hred hleaf₆ fun x nx hx hxc hxo hnx => ?_
      by_cases hchild : ∃ d, t.edge c d = some (.node x)
      · obtain ⟨d, hd⟩ := hchild
        exact ⟨_, hadopt d x nx hd hnx, rfl, fun _ => rfl⟩
      · exact ⟨nx, hkeep x nx hxc (fun d hd => hchild ⟨d, hd⟩) hxo hnx, rfl, fun _ => rfl⟩
    have hdepth : nd.sidleMeta.depth = n.sidleMeta.depth := by
      have hown := Mem.node?_congr
        (Mem.heap_lockedWithLeaf (n := n) h.fresh key g (h.owner_used hq) (h.owner_ne hq hget).symm)
      rw [hga.sidleMeta, show (n.setVersion (setLock n.version)).parent = owner q from
        (hrep.place q hq hget).1, h.newMeta_depth hL hd hq hget (congrArg _ hown)]
      exact (h.depth_of_place hd hq hget hn).symm
    exact hd₆.addLeaf hrename hrep' hL hlive' (Mem.node?_setNode_self ..) hnew₅ hdepth hchild hlam₅
      hleaf₅ hnode₅ rfl fun _ hx => hx

/-- The node is full: it grows, and its copy takes its place. -/
theorem settles_put_full (hL : L ≤ 8)
    {q : Place Addr UInt8} {c : Addr} {n : ArtNode} {key : Key} {slot : Slot} (hq : t.IsPlace q)
    (hget : t.get q = some (.node c)) (hn : s.node? c = some n) (hrep : NodeRep s t c n)
    (hslot : SlotAt s q slot) (hkey : key.length = L) (hpath : t.path q <+: key) {b : UInt8}
    (hb : t.label c ++ [b] <+: key) (hedge : t.edge c b = none) (hl : ¬ Locked s c)
    (hfull : ¬ n.HasRoom) :
    ∃ o, PutEffect env s t key o ∧ KeepsDepths s t key o ∧ KeepsNodes s o ∧ env.machine.Settles
      (fun fuel => _adaptiveRadixTreePut env key fuel true (owner q) slot
        (t.path q).length) s o := by
  obtain ⟨g, hg, hrun⟩ := h.run_put_newLeaf hL hq hget hn hrep hslot hpath hb hedge hl (owner q)
  have hlive := Trie.live_of_place hq hget
  let n₁ := n.setVersion (setLock n.version)
  have hlk : LockedNode n n₁ := lockedNode n
  let ν := env.addr (s.allocated + 1)
  have hpre := h.growPre hq hget hn hrep key hg
  have hslotb : n₁.slotOf b = none := (hlk.slotOf b).trans ((edge_eq_none_iff hrep).mp hedge)
  have hadd (fuel : ℕ) := run_artNodeAddChild_full hpre (hlk.room.not.mpr hfull) hslotb
    (isLeaf_succ (env.addr_aligned s.allocated)) (Nat.succ_ne_zero _) fuel
  have hco : c ≠ owner q := h.owner_ne hq hget
  have hνo : ν ≠ owner q := (h.fresh.ne_addr (h.owner_used hq) (Nat.le_succ _)).symm
  have hνc : ν ≠ c :=
    (h.fresh.ne_addr (Or.inr (by simp [Mem.heap_of_node? hn])) (Nat.le_succ _)).symm
  have hparent : (n₁.retired ν).parent = owner q := (hrep.place q hq hget).1
  have hret (s₃ : Mem) : (s₃.setNode c (n₁.retired ν)).node? c = some (n₁.retired ν) :=
    Mem.node?_setNode_self ..
  obtain ⟨hns, hnl⟩ := end_of_edge_none hlive hb hedge
  -- growth does not touch the owner of the place
  have hown {s₃ : Mem} {nd : ArtNode}
      (hgm : GrownMem env (s.lockedWithLeaf env c n key g) s₃ n₁ nd) :
      (s₃.setNode c (n₁.retired ν)).node? (owner q) = s.node? (owner q) := by
    rw [Mem.node?_setNode_of_ne _ _ hco.symm, Mem.node?_congr (hgm.other _ hνo.symm fun d hd => ?_),
      Mem.node?_congr (Mem.heap_lockedWithLeaf h.fresh key g (h.owner_used hq) hco.symm)]
    rw [hlk.childAt] at hd
    obtain ⟨r, hr, href⟩ := edge_of_childAt hrep hd
    cases r with
    | leaf k => exact href.1
    | node m =>
      obtain rfl : owner q = m := href
      cases q with
      | root => exact absurd rfl (h.ne_zero (t.edge_node c d _ hlive hr))
      | edge m d' =>
        have h₁ := Trie.length_lt_of_edge hq hget
        have h₂ : (t.label c).length < (t.label m).length := Trie.length_lt_of_edge hlive hr
        omega
  by_cases hlo : Locked s (owner q)
  · -- the node above is locked
    refine ⟨diverged, .blocked (h.hasLock_of_owner hq hlo), .diverged, .diverged,
      settles_of_add _ 2 fun fuel => ?_⟩
    obtain ⟨nd, s₃, hrunadd, hgm, -⟩ := hadd fuel
    rw [hrun]
    refine (env.machine.run_bind_of_done hrunadd).trans ?_
    simp only [ne_eq, Nat.ne_of_gt (env.addr_pos _), not_false_eq_true, if_true]
    exact env.machine.run_bind_of_diverged
      (h.run_getLockedParent_locked (hret s₃) hparent (hown hgm) hlo (fuel + 1))
  obtain ⟨nd, s₃, hrunadd, hgm, hga⟩ := hadd 1
  let s₄ := s₃.setNode c (n₁.retired ν)
  let s₅ := s₄.lockNode (owner q)
  have hfresh₃ : s₃.Fresh env := hgm.fresh hpre
  have hfresh₄ : s₄.Fresh env :=
    hfresh₃.setNode (hfresh₃.exists_addr_of_node? (hgm.node?_an hpre)) _
  have hnew₅ : s₅.node? ν = some nd := by
    rw [Mem.node?_lockNode_of_ne hνo, Mem.node?_setNode_of_ne _ _ hνc]
    exact hgm.new_
  obtain ⟨byte, hbyte, hrunb⟩ := h.run_keyBefore hq hpath
  obtain ⟨s₆, hlinkrun, hlink⟩ := (h.freeSlot hq hslot hlo).run_linkNewNode hbyte
    (Mem.node?_lockNode_congr (hown hgm)) ((Mem.root_lockNode _).trans hgm.root)
    (hfresh₄.lockNode _)
    hnew₅ (hga.parent.trans hparent) hνo
  have hc₅ : s₅.node? c = some (n₁.retired ν) := by
    rw [Mem.node?_lockNode_of_ne hco, Mem.node?_setNode_self]
  have hc₆ : s₆.node? c = some (n₁.retired ν) := by rw [Mem.node?_congr (hlink.other c hco), hc₅]
  let n₂ := (n₁.retired ν).setVersion (unlockedVersion (n₁.retired ν).version)
  have hlink' := hlink.setNode hco ((hfresh₄.lockNode _).exists_addr_of_node? hc₅) n₂
  have hother₅ (x : Addr) (hxc : x ≠ c) (hxo : x ≠ owner q) :
      (s₅.setNode c n₂).heap x = s₃.heap x := by
    rw [Mem.setNode_heap, Function.update_of_ne hxc, Mem.heap_lockNode_of_ne hxo, Mem.setNode_heap,
      Function.update_of_ne hxc]
  obtain ⟨t', hrep', hstored, hlive', hdepths, hbranch⟩ :=
    h.grow_addLeaf hL hq hget hn hrep hkey hb hedge hg hgm hga
    hother₅ (Mem.global_lockNode _) hlink'
  refine ⟨done 0 (s₆.setNode c n₂), .done hrep' hstored (Or.inr ⟨rfl, hns⟩) ?_ hbranch,
    .of_done fun _ hd => iff_of_true (hdepths hd) hnl, .of_done ?_, Converges.settles _
      (fun m => _adaptiveRadixTreePut_le_succ env key m true (owner q) slot _) ⟨3, ?_⟩⟩
  · simp only [hnl, or_false]
    refine hasLock_iff ν (· ≠ c) hlive' ?_ (fun x _ hlx hxc => hl (hxc ▸ hlx)) fun x hx hxc =>
      hlink'.locked_iff h.fresh fun hxo => ?_
    · rintro ⟨m, hm, hml⟩
      rw [Mem.node?_congr (hlink'.other ν hνo), Mem.node?_setNode_of_ne _ _ hνc, hnew₅] at hm
      obtain rfl : nd = m := by simpa using hm
      simp [hga.locked] at hml
    · obtain ⟨nx, hnx, -⟩ := h.node x hx
      have hxu : x = 0 ∨ s.heap x ≠ none := Or.inr (by simp [Mem.heap_of_node? hnx])
      have hx₂ : (s.lockedWithLeaf env c n key g).node? x = some nx := by
        rw [Mem.node?_congr (Mem.heap_lockedWithLeaf h.fresh key g hxu hxc), hnx]
      have hx₃ : (s₅.setNode c n₂).node? x = s₃.node? x := Mem.node?_congr (hother₅ x hxc hxo)
      by_cases hchild : ∃ d, n₁.childAt d = some x
      · obtain ⟨d, hd⟩ := hchild
        exact Locked.congr hnx (hx₃.trans (hgm.child d x nx hd (h.not_isLeaf hx) hx₂)) rfl
      · refine Locked.congr hnx (hx₃.trans ?_) rfl
        rw [Mem.node?_congr (hgm.other x (h.fresh.ne_addr hxu (Nat.le_succ _))
          fun d hd => absurd ⟨d, hd⟩ hchild), hx₂]
  · apply h.continues hrep' (h.fresh.node?_addr (Nat.le_succ _))
      fun x hx => ((hlive' x).mp hx).imp_right And.left
    intro x nx hnx
    have hxu : x = 0 ∨ s.heap x ≠ none := Or.inr (by simp [Mem.heap_of_node? hnx])
    by_cases hxc : x = c
    · -- the grown node is not in the tree any more
      subst hxc
      exact ⟨n₂, Mem.node?_setNode_self .., fun _ hx => absurd rfl
        (((hlive' x).mp hx).resolve_left hνc.symm).2⟩
    · have hx₂ : (s.lockedWithLeaf env c n key g).node? x = some nx := by
        rw [Mem.node?_congr (Mem.heap_lockedWithLeaf h.fresh key g hxu hxc), hnx]
      have hnode₅ (hxo : x ≠ owner q) :
          ∃ n', (s₅.setNode c n₂).node? x = some n' ∧ (True → nx.Continues n') := by
        have hx₃ : (s₅.setNode c n₂).node? x = s₃.node? x := Mem.node?_congr (hother₅ x hxc hxo)
        by_cases hchild : ∃ d, n₁.childAt d = some x
        · obtain ⟨d, hd⟩ := hchild
          have hleaf : isLeaf x = false := by
            obtain ⟨j, -, rfl⟩ := h.fresh.exists_addr_of_node? hnx
            exact not_isLeaf_of_aligned (env.addr_aligned j)
          exact ⟨_, hx₃.trans (hgm.child d x nx hd hleaf hx₂),
            fun _ => .of_version rfl rfl fun _ => rfl⟩
        · refine ⟨nx, hx₃.trans ?_, fun _ => .refl nx⟩
          rw [Mem.node?_congr (hgm.other x (h.fresh.ne_addr hxu (Nat.le_succ _))
            fun d hd => absurd ⟨d, hd⟩ hchild), hx₂]
      obtain ⟨n', hn', hc'⟩ := hlink'.continues_node h.fresh (Nat.ne_of_gt (env.addr_pos _))
        hnx hnode₅
      exact ⟨n', hn', fun _ _ => hc' trivial⟩
  · rw [hrun]
    refine (env.machine.run_bind_of_done hrunadd).trans ?_
    simp only [ne_eq, Nat.ne_of_gt (env.addr_pos _), not_false_eq_true, if_true]
    refine (env.machine.run_bind_of_done ((h.freeSlot hq hslot hlo).run_getLockedParent h.fresh hco
      (hret s₃) hparent (hown hgm) 0)).trans ?_
    refine (env.machine.run_bind_of_done (hrunb s₅)).trans ?_
    refine (env.machine.run_bind_of_done hlinkrun).trans ?_
    exact env.machine.run_bind_of_done (run_artNodeUnlock hc₆)

/-! ### The whole insertion -/

/-- An insertion from any place on the path of the key.  The induction is on the part of the
key that is left. -/
theorem settles_put (hb : env.build.assertions = true) (hL : L ≤ 8) {key : Key}
    (hkey : key.length = L) {q : Place Addr UInt8} {r : Ref Addr UInt8} {slot : Slot}
    (hq : t.IsPlace q) (hget : t.get q = some r) (hslot : SlotAt s q slot)
    (hpath : t.path q <+: key) :
    ∃ o, PutEffect env s t key o ∧ KeepsDepths s t key o ∧ KeepsNodes s o ∧ env.machine.Settles
      (fun fuel => _adaptiveRadixTreePut env key fuel true (owner q) slot
        (t.path q).length) s o := by
  induction hd : L - (t.path q).length using Nat.strong_induction_on generalizing q r slot with
  | _ d ih =>
    cases r with
    | leaf k => exact h.settles_put_leaf hb hL hq hget hslot hkey hpath
    | node c =>
      by_cases hc : t.label c <+: key
      · have hlive := Trie.live_of_place hq hget
        obtain ⟨n, hn, hrep⟩ := h.node c hlive
        have hlt := t.label_length c hlive
        obtain ⟨b, hbk⟩ := hc.exists_append_singleton (by omega)
        have hrun := h.run_put_below hL hq hget hn hrep hslot hpath hbk (owner q)
        cases hr : t.edge c b with
        | some r =>
          -- the walk goes on with the edge
          obtain ⟨i, hi⟩ := h.exists_slotAt hlive hr
          obtain ⟨n', i', hn', hslot', heq⟩ := hi
          obtain rfl : n = n' := by simpa [hn] using hn'
          obtain rfl : i = i' := by simpa using heq
          have hle := (Trie.path_prefix_word hq hget).length_le
          simp only [Ref.word_node] at hle
          obtain ⟨o, hput, hdepth, hkeep, hset⟩ := ih (L - (t.path (.edge c b)).length)
            (by simp only [Trie.path_edge, List.length_append, List.length_singleton]; omega)
            (q := .edge c b) hlive hr ⟨n, i, hn, hslot', rfl⟩ hbk rfl
          refine ⟨o, hput, hdepth, hkeep, hset.step _ 2 1 fun fuel => ?_⟩
          rw [hrun, hslot']
          simp [owner]
        | none =>
          by_cases hl : Locked s c
          · -- the node is locked
            refine ⟨diverged, .blocked ⟨c, hlive, hl⟩, .diverged, .diverged, settles_of_add _ 2
              fun fuel => ?_⟩
            obtain ⟨n', hn', hl'⟩ := hl
            rw [hrun, (edge_eq_none_iff hrep).mp hr]
            exact env.machine.run_bind_of_diverged (run_artNodeLock_locked hn' hl' _)
          · by_cases hroom : n.HasRoom
            · exact h.settles_put_room hL hq hget hn hrep hslot hkey hpath hbk hr hl hroom (owner q)
            · exact h.settles_put_full hL hq hget hn hrep hslot hkey hpath hbk hr hl hroom
      · exact h.settles_put_mismatch hb hL hq hget hslot hkey hpath hc

/-- The first key becomes the root. -/
theorem run_put_first (hL : L ≤ 127) {key : Key} (hkey : key.length = L) (hroot : t.root = none) :
    ∃ s', Represents env s' (Trie.ofLeaf Addr key hkey) ∧ DepthsRight s' ∧ Continues s s' ∧
      ∀ fuel, env.machine.run (adaptiveRadixTreePut env key fuel) s = done 0 s' := by
  have hs := h.root
  rw [hroot] at hs
  obtain ⟨g, hgu, hrun⟩ := run_put_null h.fresh h.usage hs key
  let l := newLeaf s 0 key .remote
  let s₂ := s.withRootLeaf env l g
  have hfresh : s₂.Fresh env := h.fresh.withRootLeaf l g
  have hleaf : s₂.leaf? (env.addr s.allocated) = some l := Mem.leaf?_withLeaf_self l.key.length l g
  have hrep : Represents env s₂ (Trie.ofLeaf Addr key hkey) :=
    ⟨hfresh, hgu, (refers_leaf_iff hfresh hleaf).mpr ⟨rfl, getLeafLen_ofNat (hkey ▸ hL)⟩,
      fun _ hn => hn.elim⟩
  refine ⟨s₂, hrep, ⟨fun _ => ?_, fun n _ _ _ hn => ((hrep.reachable_iff n).mp hn).elim⟩, ?_, hrun⟩
  · rw [show s₂.root = env.addr s.allocated + 1 from rfl, Mem.depth?_of_leaf? hfresh hleaf]
    simp [l, newLeaf, Mem.newMeta, Mem.childDepth, h.fresh.node?_zero, NodeMetadata.make]
  · apply h.continues hrep (h.fresh.node?_addr (Nat.le_refl _)) fun x hx => hx.elim
    intro x nx hnx
    have hx : (s.withLeaf env l.key.length l g).heap x = s.heap x :=
      Mem.heap_withLeaf_of_ne (h.fresh.ne_of_node? hnx)
    exact ⟨nx, (Mem.node?_congr hx).trans hnx, fun _ _ => .refl nx⟩

/-- The effect of the first insertion. -/
theorem run_put_empty (hL : L ≤ 8) {key : Key} (hkey : key.length = L) (hroot : t.root = none) :
    ∃ s', PutEffect env s t key (done 0 s') ∧ KeepsDepths s t key (done 0 s') ∧
      KeepsNodes s (done 0 s') ∧
      ∀ fuel, env.machine.run (adaptiveRadixTreePut env key fuel) s = done 0 s' := by
  obtain ⟨s', hrep, hdepths, hkeep, hrun⟩ := h.run_put_first (by omega) hkey hroot
  have hnl : ¬ HasLock s t := by
    rintro ⟨x, hx, -⟩
    obtain ⟨r, hr, -⟩ := Trie.exists_root_node hx
    simp [hroot] at hr
  have hend : ∀ c, t.get .root ≠ some (.node c) := by simp [hroot]
  refine ⟨s', .done hrep (fun k => ?_) (Or.inr ⟨rfl, Trie.not_stored_of_root hroot key⟩) ?_
      fun _ => Trie.branching_ofLeaf hkey,
    .of_done fun _ _ => iff_of_true hdepths
      (Trie.not_leavesLabel (q := .root) trivial List.nil_prefix hend),
    .of_done hkeep, hrun⟩
  · rw [Trie.stored_ofLeaf]
    simp [Trie.not_stored_of_root hroot k]
  · have := Trie.not_leavesLabel (t := t) (q := .root) (k := key) trivial List.nil_prefix hend
    simp only [hnl, this, or_self, iff_false]
    rintro ⟨x, hx, -⟩
    exact hx

/-- **What an insertion does.**  It hangs on a lock of the tree, or it terminates with the key
added. -/
theorem settles_adaptiveRadixTreePut (hb : env.build.assertions = true) (hL : L ≤ 8) {key : Key}
    (hkey : key.length = L) :
    ∃ o, PutEffect env s t key o ∧ KeepsDepths s t key o ∧ KeepsNodes s o ∧
      env.machine.Settles (adaptiveRadixTreePut env key) s o := by
  have hload : env.machine.run (lift .loadRoot) s = done s.root s := run_loadRoot
  cases hr : t.root with
  | none =>
    obtain ⟨s', hput, hdepth, hkeep, hrun⟩ := h.run_put_empty hL hkey hr
    exact ⟨_, hput, hdepth, hkeep, settles_of_add _ 0 hrun⟩
  | some r =>
    obtain ⟨p, hp, href⟩ := h.run_loadSlot (q := .root) trivial hr rfl
    have hp0 := h.ne_zero_of_refers (q := .root) trivial hr href
    obtain rfl : s.root = p := by simpa [loadSlot, hload] using hp
    obtain ⟨o, hput, hdepth, hkeep, hset⟩ :=
      h.settles_put hb hL hkey (q := .root) trivial hr rfl List.nil_prefix
    refine ⟨o, hput, hdepth, hkeep, ?_⟩
    cases hput with
    | blocked hl =>
      refine hset.step_run _ 1 0 fun fuel hfuel => ?_
      unfold adaptiveRadixTreePut
      rw [env.machine.run_bind_of_done hload, if_neg hp0]
      unfold putRetry
      exact env.machine.run_bind_of_diverged hfuel
    | done _ _ hret _ _ =>
      apply settles_adaptiveRadixTreePut_of_walk hp0 _ hset
      rcases hret with ⟨rfl, -⟩ | ⟨rfl, -⟩ <;> decide

end Represents

end Sidle.Art
