import Sidle.Art.ReleasePut

/-!
# How deep insertions can go

Without assertions the split of a leaf leaves a node without children.  The key of the leaf,
inserted again, becomes a leaf below that node, and this leaf can be split in turn.  Two insertions
take the tree one level down, for as long as the key has bytes, while a node counts its depth in
six bits.

## Main definitions

* `Descent` — the way of a key through nodes that have no prefix.
* `ladder` — the keys that take the tree down.

## Main results

* `exists_ladder` — **the depth that a node far below the root records**.
-/

namespace Sidle.Art

open Prog Machine Outcome

variable {D : Prop} {env : Env} {s s' : Mem} {key A : Key} {q : Place Addr UInt8} {slot : Slot}
  {k : ℕ} {c a : Addr} {cn : ArtNode} {b : UInt8}

/-- The node has no prefix, and records its place in a row of such nodes. -/
structure ArtNode.Rung (cn : ArtNode) (k : ℕ) : Prop where
  offset : getOffset cn.version = k
  prefixLen : getPrefixLen cn.version = 0
  depth : cn.sidleMeta.depth = (k + 1) % 64

/-- The key `A` leads to the slot of `q` through `k` nodes that have no prefix. -/
inductive Descent (s : Mem) (A : Key) : ℕ → Place Addr UInt8 → Slot → Prop
  | root : Descent s A 0 .root .root
  | step {k : ℕ} {q : Place Addr UInt8} {slot : Slot} {c : Addr} {cn : ArtNode} {b : UInt8} {i : ℕ}
      (h : Descent s A k q slot) (hp : s.PtrAt q c) (hc : s.node? c = some cn) (hcn : cn.Rung k)
      (hb : A[k]? = some b) (hi : cn.slotOf b = some i) :
      Descent s A (k + 1) (.edge c b) (.child c i)

/-! ### Walking down -/

theorem prefixMatch_of_prefixLen {n : ArtNode} (h : getPrefixLen n.version = 0) (key : Key)
    (off : ℕ) : prefixMatch n key off = 0 := by
  unfold prefixMatch
  rw [h]
  rfl

namespace Walk

variable {off : ℕ} (hw : Walk D s key q slot off) (h : Wired D env s)

include hw h

/-- An insertion goes past the header of a node that has no prefix. -/
theorem run_header (hp : s.PtrAt q c) (hc : s.node? c = some cn) (hcn : cn.Rung off)
    (hb : key[off]? = some b) (fuel : ℕ) :
    env.machine.run (_adaptiveRadixTreePut env key (fuel + 2) true (owner q) slot off) s =
      env.machine.run (match (cn.slotOf b).map fun i => Slot.child c i with
        | some slot => _adaptiveRadixTreePut env key (fuel + 1) true c slot (off + 1)
        | none => putAddChild env (fuel + 1)
          (_adaptiveRadixTreePut env key (fuel + 1) false (owner q) slot off)
          (fun slot => _adaptiveRadixTreePut env key (fuel + 1) true c slot (off + 1)) slot c key
          off 0) s := by
  have hrest := h.rest c cn (hw.place.reachable hp (h.fresh.not_isLeaf hc)) hc
  conv_lhs => unfold _adaptiveRadixTreePut
  simp only [parentIsOld, Bool.true_or, if_true, pure_eq_ret, ret_bind, Bool.false_eq_true,
    if_false]
  refine (env.machine.run_bind_of_done (hw.loadSlot h hp)).trans ?_
  rw [if_neg (by simpa using h.fresh.not_isLeaf hc)]
  refine (env.machine.run_bind_of_done
    (run_artNodeGetStableExpandVersion hc hrest.expanding fuel)).trans ?_
  rw [if_neg (by simpa using hcn.offset), if_neg (by simpa using hrest.old)]
  refine (env.machine.run_bind_of_done
    (run_artNodePrefixCompare hc hrest.prefixLen key off)).trans ?_
  refine (env.machine.run_bind_of_done (run_artNodeGetVersion hc)).trans ?_
  rw [if_neg (by simp [hrest.old, compareExpand_self]), prefixMatch_of_prefixLen hcn.prefixLen,
    if_neg (by simpa using hcn.prefixLen.symm)]
  unfold putDescend
  obtain ⟨hlt, rfl⟩ := List.getElem?_eq_some_iff.mp hb
  refine (env.machine.run_bind_of_done (run_keyAt hlt)).trans ?_
  refine (env.machine.run_bind_of_done (run_artNodeFindChild hc hrest.ok _)).trans ?_
  refine (env.machine.run_bind_of_done (run_artNodeGetVersion hc)).trans ?_
  exact congrArg (fun p => env.machine.run p s) (if_neg (by simpa using hrest.old))

end Walk

namespace Descent

variable (hd : Descent s A k q slot)

include hd

theorem level (h : Wired D env s) (hp : s.PtrAt q c) (hl : isLeaf c = false) : Level s k c := by
  induction hd generalizing c with
  | root => exact .root hp hl
  | step _ hp' hc _ _ _ ih =>
    have hlevel := ih hp' (h.fresh.not_isLeaf hc)
    exact hlevel.child hlevel.reachable hp hl

/-- The owner of the slot. -/
theorem owner_level (h : Wired D env s) {m : Addr} (hq : q = .edge m b) :
    ∃ j, k = j + 1 ∧ Level s j m ∧ A[j]? = some b := by
  cases hd with
  | root => cases hq
  | step hd hp hc _ hb _ =>
    obtain ⟨rfl, rfl⟩ := Place.edge.inj hq
    exact ⟨_, rfl, hd.level h hp (h.fresh.not_isLeaf hc), hb⟩

theorem place (h : Wired D env s) : s.IsPlace q := by
  cases q with
  | root => trivial
  | edge m b =>
    obtain ⟨_, -, hm, -⟩ := hd.owner_level h rfl
    exact hm.reachable

omit hd in
theorem root_zero (hd : Descent s A k .root slot) : k = 0 := by
  cases hd
  rfl

theorem slotAt : SlotAt s q slot := by
  cases hd with
  | root => rfl
  | step _ _ hc _ _ hi => exact ⟨_, _, hc, hi, rfl⟩

/-- A key that begins like `A` comes to the slot. -/
theorem walk (h : Wired D env s) (hD : ¬ D) (hptr : ∃ p, s.PtrAt q p)
    (hkey : ∀ j < k, key[j]? = A[j]?) : Walk D s key q slot k where
  place := hd.place h
  slot := hd.slotAt
  ptr := hptr
  byte m b hq := by
    obtain ⟨j, rfl, -, hb⟩ := hd.owner_level h hq
    exact ⟨j, rfl, (hkey j (Nat.lt_succ_self j)).trans hb⟩
  deep hd := absurd hd hD

/-- The insertion of a key that begins like `A` gets to the slot. -/
theorem run (h : Wired False env s) (hkey : ∀ j < k, key[j]? = A[j]?) (fuel : ℕ) :
    env.machine.run (_adaptiveRadixTreePut env key (fuel + 2 + k) true 0 .root 0) s =
      env.machine.run (_adaptiveRadixTreePut env key (fuel + 2) true (owner q) slot k) s := by
  induction hd generalizing fuel with
  | root => rfl
  | @step k q slot c cn b i hd hp hc hcn hb hi ih =>
    have hkey' : ∀ j < k, key[j]? = A[j]? := fun j hj => hkey j (Nat.lt_succ_of_lt hj)
    have hw := hd.walk h id ⟨c, hp⟩ hkey'
    have hstep := hw.run_header h hp hc hcn ((hkey k (Nat.lt_succ_self k)).trans hb) (fuel + 1)
    rw [hi] at hstep
    -- a level takes one unrolling
    rw [show fuel + 2 + (k + 1) = fuel + 1 + 2 + k by omega]
    exact (ih hkey' (fuel + 1)).trans hstep

/-- The depth that a new node at the slot records. -/
theorem newMeta_depth (hs : s.Fresh env) (t : NodeMemType) :
    (s.newMeta (owner q) t).depth = (k + 1) % 64 := by
  change s.childDepth (owner q) % 64 = _
  unfold Mem.childDepth
  cases hd with
  | root => rw [show s.node? (owner (.root : Place Addr UInt8)) = none from hs.node?_zero]
  | step _ _ hc hcn _ _ =>
    rw [show s.node? (owner (.edge _ _)) = some _ from hc]
    have := hcn.depth
    simp only
    omega

/-- Nodes further up keep the way as it is. -/
theorem kept (h : Wired D env s) (hroot : k ≠ 0 → s'.root = s.root)
    (hnode : ∀ j m md, j < k → Level s j m → s.node? m = some md →
      s'.node? m = some md ∨ j + 1 = k ∧ ∃ md', s'.node? m = some md' ∧
        md'.version = md.version ∧ md'.sidleMeta = md.sidleMeta ∧
        ∀ b, md'.slotOf b = md.slotOf b) : Descent s' A k q slot := by
  induction hd with
  | root => exact .root
  | @step k q slot c cn b i hd hp hc hcn hb hi ih =>
    have hsame (j : ℕ) (m : Addr) (md : ArtNode) (hj : j < k) (hm : Level s j m)
        (hmd : s.node? m = some md) : s'.node? m = some md :=
      (hnode j m md (by omega) hm hmd).resolve_right fun hr => by omega
    have hd' := ih (fun _ => hroot (Nat.succ_ne_zero k)) fun j m md hj hm hmd =>
      Or.inl (hsame j m md hj hm hmd)
    have hp' : s'.PtrAt q c := by
      cases q with
      | root => exact ⟨(hroot (Nat.succ_ne_zero k)).trans hp.1, hp.2⟩
      | edge m b' =>
        obtain ⟨j, rfl, hm, -⟩ := hd.owner_level h rfl
        obtain ⟨md, hmd, hb'⟩ := hp
        exact ⟨md, hsame j m md (Nat.lt_succ_self j) hm hmd, hb'⟩
    have hlevel := hd.level h hp (h.fresh.not_isLeaf hc)
    rcases hnode k c cn (Nat.lt_succ_self k) hlevel hc with hc' | ⟨-, cn', hc', hver, hmeta, hslot⟩
    · exact .step hd' hp' hc' hcn hb hi
    · refine .step hd' hp' hc' ⟨?_, ?_, ?_⟩ hb ((hslot b).trans hi)
      · rw [hver, hcn.offset]
      · rw [hver, hcn.prefixLen]
      · rw [hmeta, hcn.depth]

end Descent

/-! ### One level down -/

/-- A walk that has come to an end ends the insertion. -/
theorem converges_put_of_walk {r : ℤ} {fuel : ℕ} (hroot : s.root ≠ 0) (hr : r ≠ -1)
    (hwalk : env.machine.run (_adaptiveRadixTreePut env key fuel true 0 .root 0) s = done r s') :
    env.machine.Converges (adaptiveRadixTreePut env key) s r s' := by
  refine ⟨fuel + 1, ?_⟩
  unfold adaptiveRadixTreePut
  rw [env.machine.run_bind_of_done run_loadRoot, if_neg hroot]
  unfold putRetry
  refine (env.machine.run_bind_of_done hwalk).trans ?_
  rw [if_neg hr]
  rfl

/-- The slot at the end of a way leads to a node without children. -/
structure Foot (s : Mem) (A : Key) (k : ℕ) (q : Place Addr UInt8) (slot : Slot) (c : Addr)
    (cn : ArtNode) : Prop where
  way : Descent s A k q slot
  ptr : s.PtrAt q c
  node : s.node? c = some cn
  rung : cn.Rung k
  empty : EmptyNode cn

/-- The slot at the end of a way leads to the leaf of the key. -/
structure Top (s : Mem) (A : Key) (k : ℕ) (q : Place Addr UInt8) (slot : Slot) (a : Addr)
    (l : LeafNode) : Prop where
  way : Descent s A k q slot
  ptr : s.PtrAt q (a + 1)
  leaf : s.leaf? a = some l
  key : l.key = A
  keyLength : getLeafLen l.keyLength = l.key.length

theorem Mem.PtrAt.root_ne_zero {p : Ptr} (h : s.PtrAt .root p) : s.root ≠ 0 := h.1.trans_ne h.2

theorem Descent.root_ne_zero (hd : Descent s A k q slot) {p : Ptr} (hp : s.PtrAt q p) :
    s.root ≠ 0 := by
  induction hd generalizing p with
  | root => exact hp.root_ne_zero
  | step _ hp' _ _ _ _ ih => exact ih hp'

/-- A key that differs from `A` in the next byte replaces the leaf of `A` by a node. -/
theorem Top.split {l : LeafNode} (ht : Top s A k q slot a l) (hb : env.build.assertions = false)
    (h : Settled False env s) (hlen : key.length = A.length) (hk : k < A.length) (h256 : k < 256)
    (hkey : ∀ j < k, key[j]? = A[j]?) (hne : A[k]? ≠ key[k]?) :
    ∃ s' c cn, env.machine.Converges (adaptiveRadixTreePut env key) s 0 s' ∧
      Foot s' A k q slot c cn := by
  have hs := h.wired.fresh
  have hw := ht.way.walk h.wired id ⟨_, ht.ptr⟩ hkey
  have hpre : LeafPre env s (owner q) a l key k :=
    ⟨hs, h.usage, h.wired.nullOrNode_owner hw.place, ht.leaf, ht.keyLength, by rw [ht.key, hlen],
      by omega⟩
  -- the keys differ in the next byte, so that the new node gets no prefix
  have hmatch : keyMatch l.key key k = k := by
    refine le_antisymm (Nat.le_of_not_lt fun hlt => hne ?_) (le_keyMatch _ _ _)
    rw [← ht.key]
    exact getElem?_of_lt_keyMatch (Nat.le_refl k) hlt
  obtain ⟨nd, s₁, hbuild, hnd, hbar, -⟩ :=
    run_artNodeReplaceLeafChild_release hb hpre hmatch (by omega) (by omega) h256 1
  obtain ⟨-, nd', hf, -, hmeta, -⟩ := (ensures_replaceLeafChild_release hb hs h.usage hpre.parent
    ht.leaf key k 1 _ _ hbuild).resolve_left fun hz => Nat.ne_of_gt (env.addr_pos _) hz.1
  obtain rfl := Option.some.inj (hnd.symm.trans hf.new_)
  let ν := env.addr s.allocated
  have hν0 : ν ≠ 0 := Nat.ne_of_gt (env.addr_pos _)
  have hao := hw.leaf_ne_owner h ht.leaf
  have hνo : owner q ≠ ν := hs.ne_addr (h.wired.owner_used hw.place) (Nat.le_refl _)
  -- the node is complete before the slot gets it
  obtain ⟨s₂, hreplace, hlink⟩ := (h.wired.freeSlot hw.place hw.slot).run_replaceLeaf
    (hw.loadSlot h.wired ht.ptr) hbuild hν0 (Mem.node?_congr (hf.other _ hνo hao.symm)) hf.root
    hf.fresh
  have hisLeaf : isLeaf (a + 1) = true := hs.isLeaf_of_leaf? ht.leaf
  have hput : env.machine.run (_adaptiveRadixTreePut env key 2 true (owner q) slot k) s =
      done 0 s₂ := by
    unfold _adaptiveRadixTreePut
    simp only [parentIsOld, Bool.true_or, if_true, pure_eq_ret, ret_bind, Bool.false_eq_true,
      if_false]
    refine (env.machine.run_bind_of_done (hw.loadSlot h.wired ht.ptr)).trans ?_
    rw [if_pos hisLeaf]
    exact hreplace
  have hrun := (ht.way.run h.wired hkey 0).trans hput
  refine ⟨s₂, ν, nd, converges_put_of_walk (ht.way.root_ne_zero ht.ptr) (by decide) hrun, ?_, ?_,
    (Mem.node?_congr (hlink.other _ hνo.symm)).trans hnd, ⟨hbar.offset, ?_, ?_⟩, hbar.empty⟩
  · -- only the owner of the slot is written
    refine ht.way.kept h.wired (fun hk0 => ?_) fun j m md hj hm hmd => ?_
    · cases q with
      | root => exact absurd ht.way.root_zero hk0
      | edge m b => exact hlink.redirected.1
    · by_cases hmo : m = owner q
      · cases q with
        | root => exact absurd hmo (hs.ne_zero_of_node? hmd)
        | edge m' b =>
          obtain rfl : m = m' := hmo
          obtain ⟨j', rfl, hm', -⟩ := ht.way.owner_level h.wired rfl
          obtain rfl := h.wired.level_unique hm hm'
          obtain ⟨-, md', i, hmd', hi, hnew⟩ := hlink.redirected
          obtain rfl := Option.some.inj (hmd.symm.trans hmd')
          exact Or.inr ⟨rfl, _, hnew, rfl, rfl, ArtNode.slotOf_setChild hi hν0⟩
      · refine Or.inl ((Mem.node?_congr ?_).trans hmd)
        rw [hlink.other m hmo, hf.other m (hs.ne_of_node? hmd)
          (Mem.ne_of_node?_of_leaf? hmd ht.leaf)]
  · cases q with
    | root => exact ⟨hlink.redirected, hν0⟩
    | edge m b =>
      obtain ⟨-, md, i, hmd, hi, hnew⟩ := hlink.redirected
      refine ⟨_, hnew, ?_⟩
      rw [ArtNode.childAt_setChild (h.wired.rest m md hw.place hmd).ok hi hν0, if_pos rfl]
  · rw [hbar.prefixLen, Nat.sub_self]
  · rw [hmeta, ht.way.newMeta_depth hs]

/-- The key `A`, inserted again, becomes a leaf of the node. -/
theorem Foot.add (hf : Foot s A k q slot c cn) (h : Settled False env s) (hA : A.length ≤ 127)
    (hk : k < A.length) :
    ∃ s' i a l, env.machine.Converges (adaptiveRadixTreePut env A) s 0 s' ∧
      Top s' A (k + 1) (.edge c A[k]) (.child c i) a l := by
  have hs := h.wired.fresh
  have hw := hf.way.walk h.wired id ⟨c, hf.ptr⟩ fun _ _ => rfl
  have hb : A[k]? = some A[k] := List.getElem?_eq_getElem hk
  have hreach := hw.place.reachable hf.ptr (hs.not_isLeaf hf.node)
  -- the node has no child for the byte yet, and its slots are free
  have hslot : cn.slotOf A[k] = none := hf.empty.slotOf _
  obtain ⟨g, hg, hadd⟩ := hw.run_addChild_room h hf.ptr hf.node hf.empty.room hb hslot 0
  have hput := hw.run_header h.wired hf.ptr hf.node hf.rung hb 0
  rw [hslot] at hput
  have hrun := ((hf.way.run h.wired (fun _ _ => rfl) 0).trans hput).trans (hadd _ _ _)
  obtain ⟨hu, hleaf, hpl⟩ :=
    hw.leafPut_of_room h hf.ptr hf.node (fun hD => hD.elim) hf.empty.room hslot g
  have hchild := (hu.childAt A[k]).trans (if_pos rfl)
  obtain ⟨i, hi, -⟩ := ArtNode.childAt_eq_some.mp hchild
  have hlevel := hf.way.level h.wired hf.ptr (hs.not_isLeaf hf.node)
  refine ⟨_, i, _, _, converges_put_of_walk (hf.way.root_ne_zero hf.ptr) (by decide) hrun,
    .step (hf.way.kept h.wired (fun _ => hu.root) fun j m md hj hm hmd => ?_) ?_ hu.node' ?_ hb hi,
    ⟨_, hu.node', hchild⟩, hleaf, rfl, getLeafLen_ofNat hA⟩
  · refine Or.inl (hu.other m md ?_ hmd)
    rintro rfl
    exact absurd (h.wired.level_unique hm hlevel) (Nat.ne_of_lt hj)
  · cases q with
    | root => exact ⟨hu.root.trans hf.ptr.1, hf.ptr.2⟩
    | edge m b =>
      obtain ⟨md, hmd, hmb⟩ := hf.ptr
      refine ⟨md, hu.other m md ?_ hmd, hmb⟩
      exact (h.wired.owner_ne hw.place hf.ptr).symm
  · exact ⟨hu.offset.trans hf.rung.offset, hpl.trans hf.rung.prefixLen,
      (congrArg _ hu.sidleMeta).trans hf.rung.depth⟩

/-! ### All the way down -/

/-- The key `A` with another byte at `k`. -/
def forkAt (A : Key) (k : ℕ) : Key := A.modify k (· + 1)

/-- The key `A` and a key that leaves it at every byte up to `k`, one after the other. -/
def ladder (A : Key) : ℕ → List Key
  | 0 => [A, forkAt A 0]
  | k + 1 => ladder A k ++ [A] ++ [forkAt A (k + 1)]

theorem getElem?_forkAt_of_lt {j : ℕ} (h : j < k) : (forkAt A k)[j]? = A[j]? :=
  List.getElem?_modify_ne (· + 1) A (Nat.ne_of_gt h)

theorem getElem?_forkAt_ne (hk : k < A.length) : A[k]? ≠ (forkAt A k)[k]? := by
  unfold forkAt
  rw [List.getElem?_modify_eq, List.getElem?_eq_getElem hk, Option.map_eq_map, Option.map_some,
    ne_eq, Option.some.injEq]
  intro h
  have := congrArg UInt8.toNat h
  rw [UInt8.toNat_add] at this
  have hlt := A[k].toNat_lt
  have hone : (1 : UInt8).toNat = 1 := rfl
  omega

/-- **The depth that a node far below the root records.**  Insertions can take the tree down to
a node that is `k` nodes below the root, for every byte of a key, and it records `k + 1`, as far as
six bits hold it. -/
theorem exists_ladder (hb : env.build.assertions = false) (hA : A.length ≤ 127)
    (hk : k < A.length) :
    ∃ s q slot c cn, KeyRun env (ladder A k) s ∧ Foot s A k q slot c cn := by
  -- a split, after the key has become a leaf
  have hsplit {ks : List Key} {s : Mem} {k : ℕ} {q : Place Addr UInt8} {slot : Slot} {a : Addr}
      {l : LeafNode} (hrun : KeyRun env ks s) (ht : Top s A k q slot a l) (hk : k < A.length) :
      ∃ s' c cn, KeyRun env (ks ++ [forkAt A k]) s' ∧ Foot s' A k q slot c cn := by
    obtain ⟨s', c, cn, hput, hf⟩ := ht.split hb (hrun.settled hb)
      (show (forkAt A k).length = A.length from List.length_modify ..) hk (by omega)
      (fun j hj => getElem?_forkAt_of_lt hj) (getElem?_forkAt_ne hk)
    exact ⟨s', c, cn, hrun.put hput, hf⟩
  induction k with
  | zero =>
    have hinit : KeyRun env [] (Mem.init default) := .init (Int.le_refl 0)
    obtain ⟨g, -, hfirst⟩ :=
      run_put_null (hinit.settled hb).wired.fresh (hinit.settled hb).usage rfl A
    let l := newLeaf (Mem.init default) 0 A .remote
    have hleaf : ((Mem.init default).withRootLeaf env l g).leaf? (env.addr 0) = some l :=
      Mem.leaf?_withLeaf_self (s := Mem.init default) l.key.length l g
    have htop : Top ((Mem.init default).withRootLeaf env l g) A 0 .root .root (env.addr 0) l :=
      ⟨.root, ⟨rfl, Nat.succ_ne_zero _⟩, hleaf, rfl, getLeafLen_ofNat hA⟩
    obtain ⟨s', c, cn, hrun, hf⟩ := hsplit (hinit.put ⟨0, hfirst 0⟩) htop hk
    exact ⟨s', _, _, c, cn, hrun, hf⟩
  | succ k ih =>
    obtain ⟨s, q, slot, c, cn, hrun, hf⟩ := ih (Nat.lt_of_succ_lt hk)
    obtain ⟨s₁, i, a, l, hput, ht⟩ := hf.add (hrun.settled hb) hA (Nat.lt_of_succ_lt hk)
    obtain ⟨s', c', cn', hrun', hf'⟩ := hsplit (hrun.put hput) ht hk
    exact ⟨s', _, _, c', cn', hrun', hf'⟩

end Sidle.Art
