import Sidle.Masstree.Fill
import Sidle.Masstree.Remove
import Sidle.Masstree.Snapshot

/-!
# The writers make the stores that a leaf allows

`find_insert`, `make_new_layer`, `make_split`, `finish_insert` and `finish_remove` are programs over
the memory; to the readers of a leaf they are stores, one after the other.  What the transition
system of a leaf asks for before a store has been made sure of by the code when it comes to that
store.

## Main definitions

* `Mem.Shows` — the leaf at an address, with its bag, is in a state of the transition system.
* `Stores` — what a program does to a leaf is a run of allowed stores.
* `Seeking`, `Placed` — the leaf before and after a slot has been filled for a new key.
* `nodeView` — the view that shows one node.

## Main results

* `stores_assign` — an entry is written to the slot at the back.
* `stores_insert` — **an insertion into a leaf that has room**.
* `stores_finishRemove` — **a removal from a leaf that keeps entries**.
* `stores_shrinkLeft` — **the left leaf of a split**.
* `stores_makeNewLayer` — **an entry that becomes a layer**.
-/

namespace Sidle.Masstree

open Art (Build Fault)
open Prog Machine Trace

/-- The leaf at `a` is as its readers see it in the state `s`. -/
structure Mem.Shows (mem : Mem) (a : Addr) (s : LeafState) : Prop where
  node : mem.node? a = some (.leaf s.leaf)
  bag : s.leaf.ksuf ≠ 0 → mem.bag? s.leaf.ksuf = some s.external

/-- When the program returns, the leaf at `a`, which has been in the state `s`, has got to a state
that meets `Q` by stores each of which was allowed when it was made. -/
def Stores {α : Type} (a : Addr) (p : MtM α) (s : LeafState) (Q : α → LeafState → Prop) : Prop :=
  ∀ mem : Mem, mem.Shows a s → machine.Ensures p mem fun b mem' =>
    ∃ es s', run leafStep s es = some s' ∧ mem'.Shows a s' ∧ Q b s'

section Rules

variable {α β : Type} {a : Addr} {s s' : LeafState} {p : MtM α} {es : List LeafEvent}
  {Q : α → LeafState → Prop}

theorem stores_ret {b : α} (h : Q b s) : Stores a (ret b) s Q :=
  fun _ hs => ensures_ret.mpr ⟨[], s, rfl, hs, h⟩

theorem stores_fail {e : Fault} : Stores a (fail e) s Q := fun _ _ => ensures_fail

theorem Stores.imp {Q' : α → LeafState → Prop} (h : Stores a p s Q)
    (hQ : ∀ b s', Q b s' → Q' b s') : Stores a p s Q' := fun mem hs =>
  (h mem hs).imp fun b _ ⟨es, s', hrun, hs', hb⟩ => ⟨es, s', hrun, hs', hQ b s' hb⟩

theorem Stores.bind {h : α → MtM β} {Q : β → LeafState → Prop} {P : α → LeafState → Prop}
    (hp : Stores a p s P) (hh : ∀ b s', P b s' → Stores a (h b) s' Q) :
    Stores a (p >>= h) s Q := by
  intro mem hs
  refine (hp mem hs).bind fun b mem' ⟨es, s', hrun, hs', hb⟩ => ?_
  refine (hh b s' hb mem' hs').imp fun c mem'' ⟨fs, t, hrun', ht, hc⟩ => ?_
  exact ⟨es ++ fs, t, (run_append_of_run hrun fs).trans hrun', ht, hc⟩

theorem stores_ite {c : Prop} [Decidable c] {q : MtM α} (hp : c → Stores a p s Q)
    (hq : ¬c → Stores a q s Q) : Stores a (if c then p else q) s Q := by
  split
  · exact hp ‹_›
  · exact hq ‹_›

theorem stores_check {on c : Bool} {h : Unit → MtM α} (hh : Stores a (h ()) s Q) :
    Stores a (check on c >>= h) s Q := by
  refine Stores.bind (P := fun _ s' => s' = s) ?_ fun _ s' hs' => hs' ▸ hh
  exact stores_ite (fun _ => stores_fail) fun _ => stores_ret rfl

theorem stores_readLeaf {h : Leaf → MtM α} (hh : Stores a (h s.leaf) s Q) :
    Stores a (readLeaf a >>= h) s Q := fun mem hs =>
  ensures_bind_of_done (run_readLeaf hs.node) (hh mem hs)

/-- A store to the leaf is one store of the transition system, or several. -/
theorem stores_writeLeaf {f : Leaf → Leaf} (es : List LeafEvent)
    (hrun : run leafStep s es = some s') (hleaf : s'.leaf = f s.leaf)
    (hksuf : s'.leaf.ksuf = s.leaf.ksuf) (hexternal : s'.external = s.external)
    {Q : Unit → LeafState → Prop} (hQ : Q () s') : Stores a (writeLeaf a f) s Q := by
  intro mem hs b mem' hrun'
  rw [run_writeLeaf hs.node] at hrun'
  cases hrun'
  refine ⟨es, s', hrun, ⟨?_, fun h0 => ?_⟩, hQ⟩
  · rw [node?_setNode hs.node, hleaf]
  · rw [hexternal, hksuf]
    exact hs.bag (hksuf ▸ h0)

/-- An operation of the lock's holder on the version. -/
theorem stores_version (o : VersionOp) (ho : o ≠ .lock) (hl : s.leaf.version.locked = true)
    {build : Build} {Q : Unit → LeafState → Prop} (hQ : Q () (s.apply (.version o))) :
    Stores a (markLocked build a o.apply) s Q := by
  intro mem hs b mem' hrun
  rw [run_markLocked hs.node hl] at hrun
  cases hrun
  have hallows : s.Allows (.version o) := by
    cases o <;> first | exact absurd rfl ho | exact hl
  refine ⟨[.version o], s.apply (.version o), ?_, ⟨node?_setNode hs.node, hs.bag⟩, hQ⟩
  rw [run_cons_of_step (if_pos hallows)]
  rfl

end Rules

/-! ### The suffixes -/

section Suffixes

variable {build : Build} {a : Addr} {s s' : LeafState} {suffix : Str}

/-- Only suffixes differ between the states. -/
structure LeafState.SameKeys (s t : LeafState) : Prop where
  version : t.leaf.version = s.leaf.version
  modstate : t.leaf.modstate = s.leaf.modstate
  permutation : t.leaf.permutation = s.leaf.permutation
  ikey0 : t.leaf.ikey0 = s.leaf.ikey0
  keylenx : t.leaf.keylenx = s.leaf.keylenx

/-- One store, which is allowed. -/
theorem run_of_allows {e : LeafEvent} (h : s.Allows e) : run leafStep s [e] = some (s.apply e) := by
  rw [run_cons_of_step (if_pos h)]
  rfl

/-- The suffix finds room in the bag that `ksuf_` points to. -/
theorem stores_assignToExternal (ha : s.Assigning) :
    Stores a (assignToExternal s.leaf s.leaf.permutation.back suffix) s fun r s' => s.SameKeys s' ∧
      (r = false → s' = s ∧
        (if s.leaf.ksuf ≠ 0 then s.external.assign s.leaf.permutation.back suffix else none) =
          none) := by
  have hsame : s.SameKeys s := ⟨rfl, rfl, rfl, rfl, rfl⟩
  refine stores_ite (fun h0 => ?_) fun h0 => stores_ret ⟨hsame, fun _ => ⟨rfl, if_neg h0⟩⟩
  intro mem hs
  refine ensures_read.bind fun b mem' hb => ?_
  obtain ⟨rfl, c, hc, hbc⟩ := hb
  obtain rfl : s.external = b := (Option.some.inj ((hs.bag h0).symm.trans hc)).trans hbc.symm
  split
  · rename_i b hb
    have hassign : s.assignSuffix s.leaf.permutation.back suffix =
        some { s with external := b } := by
      rw [LeafState.assignSuffix, if_pos h0, hb]
    have hallows : s.Allows (.assignSuffix suffix) := ⟨ha, by rw [hassign]; rfl⟩
    have happly : s.apply (.assignSuffix suffix) = { s with external := b } := by
      rw [LeafState.apply, hassign]
      rfl
    refine (ensures_access (Q := fun _ mem'' => mem'' = mem'.setBag s.leaf.ksuf b)
      fun _ _ => rfl).bind fun _ mem'' hmem => ensures_ret.mpr ?_
    subst hmem
    refine ⟨_, _, run_of_allows hallows, ?_, ?_⟩
    · rw [happly]
      refine ⟨hs.node, fun _ => ?_⟩
      obtain ⟨d, hd, -⟩ := Option.map_eq_some_iff.mp (hs.bag h0)
      simp [Mem.bag?, Mem.setBag, hd]
    · rw [happly]
      exact ⟨⟨rfl, rfl, rfl, rfl, rfl⟩, fun h => by cases h⟩
  · exact ensures_ret.mpr ⟨[], s, rfl, hs, hsame, fun _ => ⟨rfl, (if_pos h0).trans ‹_›⟩⟩

/-- The suffixes in use are copied to a new bag. -/
theorem stores_assignExternal (ha : s.Assigning) (hfull : s.leaf.permutation.Full) :
    Stores a (assignExternal build a s.leaf s.leaf.permutation.back suffix false) s
      fun _ s' => s.SameKeys s' := by
  intro mem hs
  refine ensures_externalBag.bind fun oksuf mem' hb => ?_
  obtain ⟨rfl, hb⟩ := hb
  dsimp only
  split
  · exact ensures_fail
  · rename_i nksuf hnksuf
    obtain ⟨c, hc, hnksuf⟩ := Option.bind_eq_some_iff.mp hnksuf
    refine (ensures_access (Q := fun b mem'' => b = mem'.fresh ∧ mem'' = mem'.allocBag nksuf)
      fun _ h => ⟨by cases h; rfl, by cases h; rfl⟩).bind fun b _ h' => ?_
    obtain ⟨rfl, rfl⟩ := h'
    refine (keeps_assert (R := Eq) _ _).then fun _ _ h' => ?_
    subst h'
    -- readers look at slots in use only, and the suffixes of these have been copied
    have hallows : s.Allows (.replaceKsuf mem'.fresh nksuf) := by
      refine ⟨ha, fresh_ne_zero, fun q hq hlong => ?_⟩
      have hne : q ≠ s.leaf.permutation.back := by
        rintro rfl
        exact hfull.back_notMem_used ha.2.2 hq
      rw [Stringbag.get_of_assign hnksuf, Function.update_of_ne hne, get_of_copyKsufs hc,
        if_pos (by simp [hq, hne, hlong])]
      by_cases h0 : s.leaf.ksuf = 0
      · rw [LeafState.suffixAt, Leaf.ksufAt, Leaf.ksufAt, Leaf.bag, Leaf.bag,
          if_neg (not_not.mpr h0), if_neg (not_not.mpr h0)]
      · rw [hb, Mem.externalBag, hs.bag h0]
        rfl
    have hnode : (mem'.allocBag nksuf).node? a = some (.leaf s.leaf) := hs.node
    refine ensures_bind_of_done (run_writeLeaf hnode) ?_
    refine ensures_bind_of_done (run_writeLeaf (node?_setNode hnode)) ?_
    rw [setNode_setNode]
    have hshows : ((mem'.allocBag nksuf).setNode a
        (.leaf (s.apply (.replaceKsuf mem'.fresh nksuf)).leaf)).Shows a
          (s.apply (.replaceKsuf mem'.fresh nksuf)) := by
      refine ⟨node?_setNode hnode, fun _ => ?_⟩
      simp [LeafState.apply, Mem.bag?, Mem.setNode, Mem.allocBag]
    -- the old bag is only put on a list, and reads as before
    refine ensures_ite (fun _ => ensures_access fun c hc => ?_) fun _ => ensures_ret.mpr ?_
    · refine ⟨_, _, run_of_allows hallows, ⟨hshows.node, fun h => ?_⟩, ⟨rfl, rfl, rfl, rfl, rfl⟩⟩
      have hbag := hshows.bag h
      simp only [Mem.bag?, Mem.retireBag, Function.update_apply] at hbag ⊢
      split
      · rename_i heq
        rw [← heq, Option.map_map]
        exact hbag
      · exact hbag
    · exact ⟨_, _, run_of_allows hallows, hshows, ⟨rfl, rfl, rfl, rfl, rfl⟩⟩

/-- **A suffix is written to the slot at the back.** -/
theorem stores_assignKsuf (ha : s.Assigning) (hfull : s.leaf.permutation.Full) :
    Stores a (assignKsuf build a s.leaf.permutation.back suffix false) s
      fun _ s' => s.SameKeys s' := by
  refine stores_readLeaf ((stores_assignToExternal ha).bind fun r s' h => ?_)
  obtain ⟨hsame, hfalse⟩ := h
  refine stores_ite (fun _ => stores_ret hsame) fun hr => ?_
  obtain ⟨rfl, hnone⟩ := hfalse (Bool.eq_false_iff.mpr hr)
  split
  · rename_i b hb
    have hassign : s'.assignSuffix s'.leaf.permutation.back suffix =
        some { s' with leaf := { s'.leaf with iksuf := b } } := by
      rw [LeafState.assignSuffix, hnone, hb]
      rfl
    have hallows : s'.Allows (.assignSuffix suffix) := ⟨ha, by rw [hassign]; rfl⟩
    have happly : s'.apply (.assignSuffix suffix) =
        { s' with leaf := { s'.leaf with iksuf := b } } := by
      rw [LeafState.apply, hassign]
      rfl
    have hrun : run leafStep s' [.assignSuffix suffix] =
        some { s' with leaf := { s'.leaf with iksuf := b } } := by
      rw [run_of_allows hallows, happly]
    exact stores_writeLeaf _ hrun rfl rfl rfl ⟨rfl, rfl, rfl, rfl, rfl⟩
  · exact stores_assignExternal ha hfull

end Suffixes

/-! ### Insertions -/

section Insertions

variable {env : Env} {build : Build} {a : Addr} {s t : LeafState} {ka : Key} {fuel value : ℕ}
  {c : Tcursor}

/-- The key has been assigned to the slot at the back, and the rest is as in `s`. -/
structure LeafState.Filled (s : LeafState) (ka : Key) (t : LeafState) : Prop where
  version : t.leaf.version = s.leaf.version
  modstate : t.leaf.modstate = s.leaf.modstate
  permutation : t.leaf.permutation = s.leaf.permutation
  ikey0 : t.leaf.ikey0 = Function.update s.leaf.ikey0 s.leaf.permutation.back ka.ikey
  keylenx : t.leaf.keylenx = Function.update s.leaf.keylenx s.leaf.permutation.back
    (if ka.hasSuffix then ksufKeylenx else ka.length)

/-- A search does not see the slot at the back. -/
theorem LeafState.Filled.lower (h : s.Filled ka t) (hfull : s.leaf.permutation.Full)
    (hsize : s.leaf.size < width) : t.leaf.lower ka = s.leaf.lower ka := by
  have hsizes : t.leaf.size = s.leaf.size := congrArg Permuter.size h.permutation
  unfold Leaf.lower
  rw [hsizes, h.permutation]
  refine lowerBoundBy_congr fun m hm => ?_
  have hne : s.leaf.permutation.slot m ≠ s.leaf.permutation.back := by
    intro heq
    exact hfull.back_notMem_used hsize (hfull.mem_used.mpr ⟨m, hm, heq⟩)
  unfold Leaf.compareKey
  rw [h.ikey0, h.keylenx, Function.update_of_ne hne, Function.update_of_ne hne]

/-- **A key is assigned to the slot at the back.** -/
theorem stores_assign (ha : s.Assigning) (hfull : s.leaf.permutation.Full) :
    Stores a (assign build a s.leaf.permutation.back ka false) s fun _ t => s.Filled ka t := by
  have hrun : run leafStep s [.assignLv 0, .assignIkey0 ka.ikey,
      .assignKeylenx (if ka.hasSuffix then ksufKeylenx else ka.length)] =
        some (((s.apply (.assignLv 0)).apply (.assignIkey0 ka.ikey)).apply
          (.assignKeylenx (if ka.hasSuffix then ksufKeylenx else ka.length))) := by
    rw [run_cons_of_step (if_pos ha), run_cons_of_step (if_pos ha)]
    exact run_of_allows ha
  refine (stores_writeLeaf (Q := fun _ t => s.Filled ka t ∧ t.Assigning) _ hrun rfl rfl rfl
    ⟨⟨rfl, rfl, rfl, rfl, rfl⟩, ha⟩).bind fun _ t ht => ?_
  obtain ⟨hfilled, hassigning⟩ := ht
  refine stores_ite (fun _ => ?_) fun _ => stores_ret hfilled
  rw [← hfilled.permutation] at hfull ⊢
  refine (stores_assignKsuf hassigning hfull).imp fun _ u hu => ?_
  exact ⟨hu.version.trans hfilled.version, hu.modstate.trans hfilled.modstate,
    hu.permutation.trans hfilled.permutation, hu.ikey0.trans hfilled.ikey0,
    hu.keylenx.trans hfilled.keylenx⟩

/-- The cursor points to the place of a key that the leaf does not have, and a slot is free. -/
structure Seeking (c : Tcursor) (s : LeafState) : Prop where
  locked : s.leaf.version.locked = true
  full : s.leaf.permutation.Full
  size : s.leaf.size < width
  lower : s.leaf.lower c.ka = ⟨c.kx.i, none⟩

/-- The key of the cursor has been assigned to the slot at the back. -/
structure Placed (c : Tcursor) (s : LeafState) : Prop where
  seeking : Seeking c s
  modstate : s.leaf.modstate = .insert
  slot : c.kx.p = some s.leaf.permutation.back
  ikey0 : s.leaf.ikey0 s.leaf.permutation.back = c.ka.ikey
  keylenx : s.leaf.keylenx s.leaf.permutation.back =
    if c.ka.hasSuffix then ksufKeylenx else c.ka.length

/-- The key is assigned to the slot at the back, and the cursor gets it. -/
theorem stores_place (build : Build) (a : Addr) (h : Seeking c s)
    (hmod : s.leaf.modstate = .insert) :
    Stores a (do
      assign build a s.leaf.permutation.back c.ka false
      pure { c with kx := { c.kx with p := some s.leaf.permutation.back } }) s fun c' t =>
        c'.n = c.n ∧ c'.state = c.state ∧ Placed c' t := by
  refine (stores_assign ⟨h.locked, hmod, h.size⟩ h.full).bind fun _ t ht => stores_ret ?_
  have hsize : t.leaf.size = s.leaf.size := congrArg Permuter.size ht.permutation
  have hlower := ht.lower h.full h.size
  refine ⟨rfl, rfl, ⟨?_, ?_, ?_, ?_⟩, ?_, ?_, ?_, ?_⟩
  · rw [ht.version]
    exact h.locked
  · rw [ht.permutation]
    exact h.full
  · rw [hsize]
    exact h.size
  · exact hlower.trans h.lower
  · rw [ht.modstate]
    exact hmod
  · rw [ht.permutation]
  · rw [ht.permutation, ht.ikey0, Function.update_self]
  · rw [ht.permutation, ht.keylenx, Function.update_self]

/-- A leaf that is marked and gets another `modstate_`. -/
def LeafState.remode (s : LeafState) (m : Modstate) : LeafState :=
  (s.apply (.version .markInsert)).apply (.setModstate m)

theorem locked_remode {m : Modstate} (hl : s.leaf.version.locked = true) :
    (s.remode m).leaf.version.locked = true := (NodeVersion.locked_setFlag _ (by decide)).trans hl

/-- The mark, and the new `modstate_`. -/
theorem stores_remode {α : Type} {m : Modstate} (hl : s.leaf.version.locked = true)
    (hm : m ≠ .deletedLayer) {h : Unit → MtM α} {Q : α → LeafState → Prop}
    (hh : ∀ u, Stores a (h u) (s.remode m) Q) : Stores a (do
      markLocked build a NodeVersion.markInsert
      let u ← writeLeaf a fun l => { l with modstate := m }
      h u) s Q := by
  refine (stores_version .markInsert (by decide) hl
    (Q := fun _ t => t = s.apply (.version .markInsert)) rfl).bind fun _ t ht => ?_
  subst ht
  have hmarked : s.leaf.version.markInsert.inserting = true := Word.flag_setFlag (by decide) _
  have hallows : (s.apply (.version .markInsert)).Allows (.setModstate m) :=
    ⟨locked_remode hl, hmarked, hm⟩
  refine (stores_writeLeaf (Q := fun _ t => t = s.remode m) _ (run_of_allows hallows) rfl rfl rfl
    rfl).bind fun u t ht => ?_
  subst ht
  exact hh u

theorem Seeking.remode {m : Modstate} (h : Seeking c s) : Seeking c (s.remode m) :=
  ⟨locked_remode h.locked, h.full, h.size, h.lower⟩

/-- Searches of the same slots go the same way. -/
theorem lowerBoundBy_slots {perm perm' : Permuter} {cmp : ℕ → Ordering} {n lo hi : ℕ}
    (h : ∀ m < hi, perm.slot m = perm'.slot m) :
    lowerBoundBy perm cmp n lo hi = lowerBoundBy perm' cmp n lo hi := by
  induction n generalizing lo hi with
  | zero => rfl
  | succ n ih =>
    rw [lowerBoundBy, lowerBoundBy]
    split
    · have hm : (lo + hi) / 2 < hi := by omega
      simp only [h _ hm]
      split
      · exact ih fun m hm' => h m (Nat.lt_trans hm' hm)
      · rfl
      · exact ih h
    · rfl

/-- The free slot at the back may be exchanged for another one. -/
theorem Seeking.reserve (h : Seeking c s) : Seeking c (s.apply .reserve) := by
  have hsize : s.leaf.permutation.size < width := h.size
  refine ⟨h.locked, h.full.apply (.exchange s.leaf.size (width - 1)) ⟨hsize, by decide⟩, h.size, ?_⟩
  refine Eq.trans (lowerBoundBy_slots fun m hm => ?_) h.lower
  have hm : m < s.leaf.permutation.size := hm
  -- the two slots that are exchanged lie behind those in use
  have hlast : m ≠ width - 1 := by
    simp only [width] at hsize ⊢
    omega
  exact (Permuter.slot_exchange h.full.length hsize (by decide) (hm.trans hsize)).trans <| by
    rw [if_neg hlast, if_neg (Nat.ne_of_lt hm)]

/-- It is not the slot `0` then. -/
theorem Seeking.back_exchange_ne_zero (h : Seeking c s) (h0 : s.leaf.permutation.back = 0)
    (hroom : s.leaf.size + 1 < width) :
    (s.leaf.permutation.exchange s.leaf.size (width - 1)).back ≠ 0 := by
  have hsize : s.leaf.size < width := h.size
  intro hback
  rw [Permuter.back, Permuter.slot_exchange h.full.length hsize (by decide) (by decide),
    if_pos rfl] at hback
  have heq := h.full.slot_inj hsize (by decide) (hback.trans h0.symm)
  simp only [width] at hroom heq
  omega

/-- **Room is made for a key** in a leaf that need not be split. -/
theorem stores_makeRoom (h : Seeking c s)
    (hroom : s.leaf.permutation.back ≠ 0 ∨ s.leaf.size + 1 < width) :
    Stores c.n (makeRoom env fuel c) s fun c' t =>
      c'.n = c.n ∧ c'.state = c.state ∧ Placed c' t := by
  refine stores_readLeaf ?_
  extract_lets p src jp
  have hjp (u : PUnit) {t : LeafState} (ht : Seeking c t) (hmod : t.leaf.modstate = .insert)
      (hperm : t.leaf.permutation = s.leaf.permutation) :
      Stores c.n (jp u) t fun c' t => c'.n = c.n ∧ c'.state = c.state ∧ Placed c' t := by
    refine stores_ite (fun _ => ?_) fun hno => ?_
    · have hplace := stores_place env.build c.n ht hmod
      rwa [hperm] at hplace
    · -- the slot at the back is the slot `0`
      have h0 : t.leaf.permutation.back = 0 := by
        rw [hperm]
        by_contra hne
        exact hno ⟨h.size, Or.inl hne⟩
      have hsize : t.leaf.size = s.leaf.size := congrArg Permuter.size hperm
      have hlt : t.leaf.size + 1 < width := by
        rw [hsize]
        exact hroom.resolve_left (not_not.mpr (hperm ▸ h0))
      refine stores_readLeaf (stores_ite (fun _ => ?_) fun hsplit => ?_)
      · have hallows : t.Allows .reserve := ⟨ht.locked, hmod, ht.size⟩
        refine (stores_writeLeaf (Q := fun _ u => u = t.apply .reserve) _ (run_of_allows hallows)
          rfl rfl rfl rfl).bind fun _ u hu => ?_
        subst hu
        have hplace := stores_place env.build c.n ht.reserve hmod
        have hperm' : (t.apply .reserve).leaf.permutation =
            t.leaf.permutation.exchange t.leaf.size (width - 1) := rfl
        rwa [hperm'] at hplace
      · exact (hsplit ⟨ht.size, ht.back_exchange_ne_zero h0 hlt⟩).elim
  refine stores_ite (fun _ => ?_) fun hmod => hjp ⟨⟩ h (not_not.mp hmod) rfl
  exact stores_check (stores_remode h.locked (by decide) fun u => hjp u h.remode rfl rfl)

/-- The lock is given back. -/
theorem stores_unlock (hl : s.leaf.version.locked = true) {Q : Unit → LeafState → Prop}
    (hQ : Q () (s.apply (.version .unlock))) : Stores a (unlock build a) s Q := by
  intro mem hs b mem' hrun
  rw [run_unlock hs.node hl] at hrun
  cases hrun
  exact ⟨_, _, run_of_allows (e := .version .unlock) hl, ⟨node?_setNode hs.node, hs.bag⟩, hQ⟩

/-- **A key that has been placed is made visible**, with its value. -/
theorem stores_finishPut (env : Env) (value : ℕ) (h : Placed c s) (hstate : c.state = 2) :
    Stores c.n (do
      writeLeaf c.n fun l => { l with lv := Function.update l.lv (c.kx.p.getD 0) value }
      finishPut env c) s fun _ t => t.leaf.permutation =
        s.leaf.permutation.insertFromBack c.kx.i ∧ t.leaf.version.locked = false := by
  have hassigning : s.Assigning := ⟨h.seeking.locked, h.modstate, h.seeking.size⟩
  have hvalue : run leafStep s [.assignLv value] = some (s.apply (.assignLv value)) :=
    run_of_allows hassigning
  refine (stores_writeLeaf (Q := fun _ t => t = s.apply (.assignLv value)) _ hvalue
    (by rw [h.slot]; rfl) rfl rfl rfl).bind fun _ t ht => ?_
  have hplaced : Placed c t := by
    subst ht
    exact ⟨⟨h.seeking.locked, h.seeking.full, h.seeking.size, h.seeking.lower⟩, h.modstate, h.slot,
      h.ikey0, h.keylenx⟩
  have hperm : t.leaf.permutation = s.leaf.permutation := by rw [ht]; rfl
  have hallows : t.Allows (.finishInsert c.ka) :=
    ⟨⟨hplaced.seeking.locked, hplaced.modstate, hplaced.seeking.size⟩,
      by rw [hplaced.seeking.lower], hplaced.ikey0, hplaced.keylenx⟩
  -- the place that the cursor has kept is the one a search finds now
  have hinsert : Stores c.n (finishInsert env c) t fun _ u =>
      u = t.apply (.finishInsert c.ka) := by
    refine stores_readLeaf (stores_check ?_)
    refine stores_writeLeaf _ (run_of_allows hallows) ?_ rfl rfl rfl
    rw [LeafState.apply, hplaced.seeking.lower]
  unfold finishPut
  rw [if_pos hstate]
  refine hinsert.bind fun _ u hu => ?_
  have hlocked : u.leaf.version.locked = true := by
    rw [hu]
    exact hplaced.seeking.locked
  have hinserted : u.leaf.permutation = s.leaf.permutation.insertFromBack c.kx.i := by
    rw [hu, ← hperm]
    change t.leaf.permutation.insertFromBack (t.leaf.lower c.ka).i = _
    rw [hplaced.seeking.lower]
  exact stores_unlock hlocked ⟨hinserted, NodeVersion.locked_unlock⟩

/-- **An insertion** of a key that `find_insert` has not found, into a leaf that it has locked and
that need not be split. -/
theorem stores_insert (h : Seeking c s)
    (hroom : s.leaf.permutation.back ≠ 0 ∨ s.leaf.size + 1 < width) (hstate : c.state = 2) :
    Stores c.n (do
      let c' ← makeRoom env fuel c
      writeLeaf c'.n fun l => { l with lv := Function.update l.lv (c'.kx.p.getD 0) value }
      finishPut env c') s fun _ t => t.leaf.version.locked = false := by
  refine (stores_makeRoom h hroom).bind fun c' t ht => ?_
  obtain ⟨hn, hstate', hplaced⟩ := ht
  have hfinish := stores_finishPut env value hplaced (hstate'.trans hstate)
  rw [hn] at hfinish ⊢
  exact hfinish.imp fun _ _ hu => hu.2

end Insertions

/-! ### Removals -/

section Removals

variable {build : Build} {s : LeafState} {fuel : ℕ} {c : Tcursor}

/-- **A removal** of an entry that is not the last one of its leaf. -/
theorem stores_finishRemove (hl : s.leaf.version.locked = true)
    (hmod : s.leaf.modstate ≠ .deletedLayer) (hi : c.kx.i < s.leaf.size) (hsize : 1 < s.leaf.size) :
    Stores c.n (finishRemove build fuel c) s fun removed t =>
      removed = false ∧ t.leaf.permutation = s.leaf.permutation.remove c.kx.i := by
  refine stores_readLeaf ?_
  extract_lets perm jp
  have hjp (u : PUnit) {t : LeafState} (hlt : t.leaf.version.locked = true)
      (hmt : t.leaf.modstate = .remove) (hperm : t.leaf.permutation = s.leaf.permutation) :
      Stores c.n (jp u) t fun removed v =>
        removed = false ∧ v.leaf.permutation = s.leaf.permutation.remove c.kx.i := by
    have hallows : t.Allows (.finishRemove c.kx.i) :=
      ⟨hlt, hmt, by rw [Leaf.size, hperm]; exact hi⟩
    have hremoved : (t.apply (.finishRemove c.kx.i)).leaf.permutation = perm := by
      change t.leaf.permutation.remove c.kx.i = _
      rw [hperm]
    refine (stores_writeLeaf (Q := fun _ v => v.leaf.permutation = perm) _ (run_of_allows hallows)
      (by rw [← hremoved]; rfl) rfl rfl hremoved).bind fun _ v hv => ?_
    refine stores_ite (fun _ => stores_ret ⟨rfl, hv⟩) fun hempty => absurd ?_ hempty
    change s.leaf.permutation.size - 1 ≠ 0
    have hsize : 1 < s.leaf.permutation.size := hsize
    omega
  refine stores_ite (fun _ => ?_) fun hno => ?_
  · exact stores_remode hl (by decide) fun u => hjp u (locked_remode hl) rfl rfl
  -- a leaf that is not inserted into is in the mode of removals already
  · refine hjp ⟨⟩ hl ?_ rfl
    cases hmode : s.leaf.modstate with
    | insert => exact absurd hmode hno
    | remove => rfl
    | deletedLayer => exact absurd hmode hmod

end Removals

/-! ### Splits -/

section Splits

variable {env : Env} {s : LeafState} {mem : Mem} {c : Tcursor} {child : Addr} {r : Leaf}
  {splitType : ℕ}

theorem size_shrink {n : ℕ} : (s.apply (.shrink n)).leaf.size = n := by
  change (if s.leaf.size ≠ width then (s.leaf.permutation.setSize n).exchange n (width - 1)
    else s.leaf.permutation.setSize n).size = n
  split <;> rfl

theorem full_shrink (hfull : s.leaf.permutation.Full) {n : ℕ} (hn : n < width) :
    (s.apply (.shrink n)).leaf.permutation.Full := by
  have hset : (s.leaf.permutation.setSize n).Full := hfull.apply (.setSize n) (Nat.le_of_lt hn)
  change (if s.leaf.size ≠ width then (s.leaf.permutation.setSize n).exchange n (width - 1)
    else s.leaf.permutation.setSize n).Full
  split
  · exact hset.apply (.exchange n (width - 1)) ⟨hn, by decide⟩
  · exact hset

/-- **The left leaf of a split** is marked, it loses what has moved to the child, and gets the key
if the place of the key is here. -/
theorem stores_shrinkLeft (hs : mem.Shows c.n s) (hchild : mem.node? child = some (.leaf r))
    (hr : 0 < r.size) (hl : s.leaf.version.locked = true) (hmod : s.leaf.modstate = .insert)
    (hfull : s.leaf.permutation.Full) :
    machine.Ensures (shrinkLeft env c child splitType) mem fun _ mem' =>
      ∃ es s', run leafStep s es = some s' ∧ mem'.Shows c.n s' ∧
        s'.leaf.size = s.leaf.size - r.size := by
  unfold shrinkLeft
  refine ensures_bind_of_done (run_readLeaf hs.node) (ensures_bind_of_done (run_readLeaf hchild) ?_)
  -- the child has got an entry, so that a slot is free behind those that stay
  have hw : s.leaf.size ≤ width := hfull.size
  obtain ⟨n, hn⟩ : ∃ n, n = s.leaf.size - r.size := ⟨_, rfl⟩
  have hlt : n < width := by
    simp only [width] at hw ⊢
    omega
  rw [← hn]
  have hlocked : s.leaf.version.markSplit.locked = true :=
    (NodeVersion.locked_setFlag _ (by decide)).trans hl
  have hmarked : s.leaf.version.markSplit.splitting = true := Word.flag_setFlag (by decide) _
  have hallows : (s.apply (.version .markSplit)).Allows (.shrink n) :=
    ⟨hlocked, hmarked, hn ▸ Nat.sub_le ..⟩
  refine (stores_version .markSplit (by decide) hl
    (Q := fun _ t => t = s.apply (.version .markSplit)) rfl).bind (fun _ t ht => ?_) mem hs
  subst ht
  refine (stores_writeLeaf (Q := fun _ t => t = (s.apply (.version .markSplit)).apply (.shrink n)) _
    (run_of_allows hallows) rfl rfl rfl rfl).bind fun _ t ht => ?_
  have hassigning : t.Assigning := by
    rw [ht]
    refine ⟨hlocked, hmod, ?_⟩
    rwa [size_shrink]
  have hfull' : t.leaf.permutation.Full := ht ▸ full_shrink hfull hlt
  have hsize : t.leaf.size = n := by rw [ht, size_shrink]
  refine stores_ite (fun _ => ?_) fun _ => stores_ret hsize
  subst ht
  refine (stores_assign hassigning hfull').bind fun _ u hu => stores_ret ?_
  exact (congrArg Permuter.size hu.permutation).trans hsize

end Splits

/-! ### New layers -/

/-- The node at `a`, which has been allocated. -/
def nodeView (a : Addr) : View Mem (Option Node) := ⟨fun mem => a < mem.fresh, (·.node? a)⟩

section Elsewhere

variable {env : Env} {build : Build} {a b n : Addr} {x : Option Node} {fuel : ℕ}

theorem elsewhere_access {α β : Type} {find : Mem → Option α} {f : α → Mem → β × Mem}
    (h : ∀ mem c, find mem = some c → mem.fresh ≤ (f c mem).2.fresh ∧
      (a < mem.fresh → (f c mem).2.node? a = mem.node? a)) :
    machine.Blind (nodeView a) (access find f) := fun _ mem hs hx => ensures_access fun c hc =>
  ⟨Nat.lt_of_lt_of_le hs (h mem c hc).1, ((h mem c hc).2 hs).trans hx⟩

theorem elsewhere_read {α β : Type} {find : Mem → Option α} {g : α → β} :
    machine.Blind (nodeView a) (access find fun c mem => (g c, mem)) :=
  elsewhere_access fun _ _ _ => ⟨Nat.le_refl _, fun _ => rfl⟩

/-- A store to another node. -/
theorem elsewhere_store {α : Type} (hb : b ≠ a) {find : Mem → Option α} {f : α → Node} :
    machine.Blind (nodeView a) (access find fun c mem => ((), mem.setNode b (f c))) :=
  elsewhere_access fun _ _ _ => ⟨Nat.le_refl _, fun _ => node?_setNode_of_ne hb.symm⟩

theorem elsewhere_check (on c : Bool) : machine.Blind (nodeView a) (check on c) :=
  blind_ite blind_fail blind_ret

theorem elsewhere_onGlobal {β : Type} (f : Global → Option (β × Global)) :
    machine.Blind (nodeView a) (onGlobal f) :=
  fun _ _ hs hx => ensures_onGlobal fun _ _ _ => ⟨hs, hx⟩

theorem elsewhere_bag {α β : Type} {find : Mem → Option α} {f : α → Mem → β × Mem}
    (h : ∀ c mem, (f c mem).2.blocks = mem.blocks ∧ mem.allocated ≤ (f c mem).2.allocated) :
    machine.Blind (nodeView a) (access find f) := elsewhere_access fun mem c _ =>
  ⟨Nat.mul_le_mul_left 8 (Nat.succ_le_succ (h c mem).2), fun _ => by
    rw [Mem.node?, (h c mem).1, Mem.node?]⟩

/-- Another leaf is assigned to. -/
theorem elsewhere_assign {p : ℕ} {ka : Key} {initializing : Bool} (hb : b ≠ a) :
    machine.Blind (nodeView a) (assign build b p ka initializing) := by
  refine (elsewhere_store hb).bind fun _ => blind_ite ?_ blind_ret
  refine elsewhere_read.bind fun l => Blind.bind ?_ fun assigned => ?_
  · refine blind_ite (elsewhere_read.bind fun ksuf => ?_) blind_ret
    split
    · exact (elsewhere_bag fun _ _ => ⟨rfl, Nat.le_refl _⟩).bind fun _ => blind_ret
    · exact blind_ret
  · refine blind_ite blind_ret ?_
    split
    · exact elsewhere_store hb
    · refine Blind.bind ?_ fun oksuf => ?_
      · exact blind_ite elsewhere_read blind_ret
      dsimp only
      split
      · exact blind_fail
      · refine (elsewhere_bag fun _ _ => ⟨rfl, Nat.le_succ _⟩).bind fun _ => ?_
        refine (elsewhere_check _ _).bind fun _ => (elsewhere_store hb).bind fun _ => ?_
        refine (elsewhere_store hb).bind fun _ => ?_
        exact blind_ite (elsewhere_bag fun _ _ => ⟨rfl, Nat.le_refl _⟩) blind_ret

/-- Another node is locked. -/
theorem elsewhere_lock (hb : b ≠ a) : machine.Blind (nodeView a) (lock build fuel b) := by
  refine elsewhere_read.bind fun v => ?_
  -- each attempt of the loop reads or writes the version of `b` only
  induction fuel generalizing v with
  | zero => exact blind_diverge
  | succ fuel ih =>
    have hcas : machine.Blind (nodeView a) (casVersion b v v.lock) :=
      elsewhere_access fun mem m _ => by
        split
        · exact ⟨Nat.le_refl _, fun _ => node?_setNode_of_ne hb.symm⟩
        · exact ⟨Nat.le_refl _, fun _ => rfl⟩
    intro x
    have hfirst : machine.Tracks (nodeView a)
        (if v.locked then pure false else casVersion b v v.lock) x fun _ y => y = x :=
      blind_ite blind_ret hcas x
    refine tracks_join hfirst fun ok y hy => ?_
    subst hy
    refine tracks_ite (fun _ => ?_) fun _ => elsewhere_read.then fun w => ih w _
    refine (elsewhere_check _ _).then fun _ => elsewhere_read.then fun _ => ?_
    exact (elsewhere_check _ _).then fun _ => tracks_ret rfl

/-- The root of a new layer is another node. -/
theorem elsewhere_makeRoot {ksufsize : ℕ} : machine.Tracks (nodeView a) (makeRoot env ksufsize b) x
    fun nl y => y = x ∧ nl ≠ a := by
  unfold makeRoot
  extract_lets jp
  have hjp (t : NodeMemType) : machine.Tracks (nodeView a) (jp t) x fun nl y => y = x ∧ nl ≠ a := by
    have hleaf : machine.Tracks (nodeView a) (makeLeaf env ksufsize 1 t 1 false) x
        fun nl y => y = x ∧ nl ≠ a := by
      refine Tracks.bind (P := fun nl y => y = x ∧ nl ≠ a) ?_ fun nl y hy =>
        (elsewhere_onGlobal _).then fun _ => tracks_ret hy
      intro mem hs hx
      refine ensures_access fun _ _ => ⟨Nat.lt_trans hs fresh_lt_alloc, ?_, Nat.ne_of_gt hs⟩
      exact (node?_alloc.trans (if_neg (Nat.ne_of_lt hs))).trans hx
    refine hleaf.bind fun nl y hy => ?_
    obtain ⟨rfl, hne⟩ := hy
    refine (elsewhere_store hne).then fun _ => Blind.then ?_ fun _ => tracks_ret ⟨rfl, hne⟩
    exact (elsewhere_store hne).bind fun _ => elsewhere_store hne
  refine tracks_ite (fun _ => hjp _) fun _ => elsewhere_read.then fun l => ?_
  exact tracks_ite (fun _ => (elsewhere_onGlobal _).then fun t => hjp t) fun _ => hjp _

/-- The leaves of the common slices are other nodes. -/
theorem elsewhere_makeTwig {head tail : Addr} {oka ka : Key} (h : head ≠ n → tail ≠ n) :
    machine.Blind (nodeView n) (makeTwig env n fuel head tail oka ka) := by
  induction fuel generalizing head tail oka ka with
  | zero => exact blind_diverge
  | succ fuel ih =>
    refine fun x => tracks_ite (fun _ => ?_) fun _ => tracks_ret rfl
    refine elsewhere_makeRoot.bind fun nl y hy => ?_
    obtain ⟨rfl, hne⟩ := hy
    refine Blind.then ((elsewhere_check _ _).bind fun _ => elsewhere_store hne) fun _ => ?_
    extract_lets jp
    have hjp (u : PUnit) : machine.Tracks (nodeView n) (jp u) y fun _ z => z = y :=
      (elsewhere_store hne).then fun _ => ih (fun _ => hne) y
    exact tracks_ite (fun hhead => (elsewhere_store (h hhead)).then fun u => hjp u) fun _ => hjp ⟨⟩

end Elsewhere

section NewLayer

variable {env : Env} {build : Build} {a : Addr} {s : LeafState} {c : Tcursor} {l : Leaf}
  {fuel p : ℕ}

theorem own_writeLeaf {f : Leaf → Leaf} : machine.Tracks (nodeView a) (writeLeaf a f)
    (some (.leaf l)) fun _ y => y = some (.leaf (f l)) := by
  intro mem hs hx b mem' hrun
  rw [run_writeLeaf hx] at hrun
  cases hrun
  exact ⟨hs, node?_setNode hx⟩

theorem own_markLocked {f : NodeVersion → NodeVersion} (hl : l.version.locked = true) :
    machine.Tracks (nodeView a) (markLocked build a f) (some (.leaf l))
      fun _ y => y = some (.leaf { l with version := f l.version }) := by
  intro mem hs hx b mem' hrun
  rw [run_markLocked hx hl] at hrun
  cases hrun
  exact ⟨hs, node?_setNode hx⟩

theorem own_unlock (hl : l.version.locked = true) :
    machine.Tracks (nodeView a) (unlock build a) (some (.leaf l))
      fun _ y => y = some (.leaf { l with version := l.version.unlock }) := by
  intro mem hs hx b mem' hrun
  rw [run_unlock hx hl] at hrun
  cases hrun
  exact ⟨hs, node?_setNode hx⟩

/-- The stores by which an entry becomes a layer. -/
theorem run_makeLayer (hl : s.leaf.version.locked = true) (hused : p ∈ s.leaf.permutation.used)
    (hlong : s.leaf.hasKsuf p = true) (layer : Addr) :
    run leafStep s [.version .markInsert, .setLv p layer, .makeLayer p, .version .unlock] =
      some ((((s.apply (.version .markInsert)).apply (.setLv p layer)).apply (.makeLayer p)).apply
        (.version .unlock)) := by
  have hlocked : s.leaf.version.markInsert.locked = true :=
    (NodeVersion.locked_setFlag _ (by decide)).trans hl
  have hmarked : s.leaf.version.markInsert.inserting = true := Word.flag_setFlag (by decide) _
  have hmark : s.Allows (.version .markInsert) := hl
  have hlv : (s.apply (.version .markInsert)).Allows (.setLv p layer) := ⟨hlocked, hused⟩
  have hlayer : ((s.apply (.version .markInsert)).apply (.setLv p layer)).Allows (.makeLayer p) :=
    ⟨hlocked, hmarked, hused, hlong⟩
  rw [run_cons_of_step (if_pos hmark), run_cons_of_step (if_pos hlv),
    run_cons_of_step (if_pos hlayer)]
  exact run_of_allows hlocked

/-- The end of `make_new_layer`: the entry at `p` gets the layer, and the leaf is unlocked. -/
theorem stores_hookLayer {α : Type} {r : α} {layer : Addr} (hl : s.leaf.version.locked = true)
    (hused : p ∈ s.leaf.permutation.used) (hlong : s.leaf.hasKsuf p = true) :
    machine.Tracks (nodeView a) (do
      writeLeaf a fun l => { l with lv := Function.update l.lv p layer }
      writeLeaf a fun l => { l with keylenx := Function.update l.keylenx p layerKeylenx }
      unlock build a
      pure r) (some (.leaf (s.apply (.version .markInsert)).leaf)) fun _ y =>
        ∃ es s', run leafStep s es = some s' ∧ y = some (.leaf s'.leaf) ∧
          s'.leaf.keylenx p = layerKeylenx ∧ s'.leaf.version.locked = false := by
  have hlocked : s.leaf.version.markInsert.locked = true :=
    (NodeVersion.locked_setFlag _ (by decide)).trans hl
  refine own_writeLeaf.bind fun _ y hy => ?_
  subst hy
  refine own_writeLeaf.bind fun _ y hy => ?_
  subst hy
  refine (own_unlock hlocked).bind fun _ y hy => tracks_ret ?_
  exact ⟨_, _, run_makeLayer hl hused hlong _, hy, Function.update_self ..,
    NodeVersion.locked_unlock⟩

/-- **A new layer.**  The entry at `p` is marked before it gets the root of the layer, and its
length says that there is one when the root is in place. -/
theorem stores_makeNewLayer (hl : s.leaf.version.locked = true) (hp : c.kx.p = some p)
    (hused : p ∈ s.leaf.permutation.used) (hlong : s.leaf.hasKsuf p = true) :
    machine.Tracks (nodeView c.n) (makeNewLayer env fuel c) (some (.leaf s.leaf)) fun _ y =>
      ∃ es s', run leafStep s es = some s' ∧ y = some (.leaf s'.leaf) ∧
        s'.leaf.keylenx p = layerKeylenx ∧ s'.leaf.version.locked = false := by
  unfold makeNewLayer
  rw [hp]
  dsimp only [Option.getD_some]
  refine elsewhere_read.then fun l => Blind.then (blind_ite elsewhere_read blind_ret) fun b => ?_
  refine (elsewhere_makeTwig fun h => h).then fun r => ?_
  obtain ⟨head, tail, oka, ka⟩ := r
  dsimp only
  refine elsewhere_makeRoot.bind fun nl y hy => ?_
  obtain ⟨rfl, hne⟩ := hy
  refine (elsewhere_assign hne).then fun _ => (elsewhere_assign hne).then fun _ => ?_
  refine elsewhere_read.then fun l => (elsewhere_store hne).then fun _ => ?_
  refine (elsewhere_lock hne).then fun _ => (elsewhere_store hne).then fun _ => ?_
  -- so far only nodes have been written that no reader can reach
  refine (own_markLocked hl).bind fun _ y hy => ?_
  subst hy
  exact tracks_ite
    (fun htail => (elsewhere_store htail).then fun _ => stores_hookLayer hl hused hlong)
    fun _ => stores_hookLayer hl hused hlong

end NewLayer

end Sidle.Masstree
