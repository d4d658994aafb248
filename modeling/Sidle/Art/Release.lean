import Sidle.Art.Sequence

/-!
# The build without assertions

Three functions of the tree do their work inside `assert`: growth locks the new node there,
and the two splits link the children of the new node there.  A build that removes the
assertions therefore replaces a leaf by a node without children, and the tree has lost both
keys.  Only a tree with a single key is spared.

## Main definitions

* `SameAnswer`, `AnswersAgree` — the two builds answer alike.

## Main results

* `run_artNodeReplaceLeafChild_release` — what the split of a leaf comes to.
* `answers_agree_iff` — **when the two builds agree**.
-/

namespace Sidle.Art

open Prog Machine Outcome

variable {L : ℕ} {env env' : Env} {s s' : Mem}

/-! ### Splitting a leaf without assertions -/

/-- A split begins with a new node that gets its parent and its offset, as far as the offset fits,
and no lock. -/
theorem run_forkHeader_release {α : Type} (hb : env.build.assertions = false)
    (hu : 0 ≤ s.global.curLocalMemoryUsage) {parent : Addr} (hp : s.NullOrNode parent) (off : ℕ)
    (fuel : ℕ) :
    ∃ nd g o, (∀ k : Addr → ArtM α, env.machine.run (do
        let new_ ← newArtNode env parent
        store new_ .parent parent
        artNodeSetOffset new_ off
        assertTrue env.build (do
          let r ← artNodeLock fuel new_
          pure (r == 0))
        k new_) s = env.machine.run (k (env.addr s.allocated)) (s.withNode env .node4 nd g)) ∧
      ForkHeader s parent o false nd ∧ (off < 256 → o = off) ∧ 0 ≤ g.curLocalMemoryUsage := by
  obtain ⟨nd, g, hnew, hnd, hg⟩ := run_newArtNodeOf env hu hp (t := .node4) 0 (Nat.zero_le _)
  have hv : view (setOffset nd.version off) =
      ⟨getOffset (setOffset nd.version off), 0, 0, .node4, false, false, false, 0⟩ := by
    rw [view_setOffset_any, hnd.version, view_setType_zero]
  refine ⟨(nd.setParent parent).setVersion (setOffset nd.version off), g, _, fun k => ?_,
    ⟨hnd.layout, hv, rfl, hnd.sidleMeta⟩,
    fun hoff => (view_fields (view_setOffset nd.version hoff)).1, hg⟩
  refine (env.machine.run_bind_of_done hnew).trans ?_
  refine (env.machine.run_bind_of_done
    (run_store (f := .parent) (Mem.node?_withNode_self .node4 nd g) trivial)).trans ?_
  rw [Mem.setNode_withNode]
  refine (env.machine.run_bind_of_done
    (run_artNodeSetOffset (Mem.node?_withNode_self .node4 _ g) off)).trans ?_
  rw [Mem.setNode_withNode]
  exact env.machine.run_bind_of_done (run_assertTrue_release hb)

/-- The node that takes the place of a leaf when assertions are removed. -/
structure BarrenNode (off len : ℕ) (nd : ArtNode) : Prop where
  empty : EmptyNode nd
  offset : getOffset nd.version = off
  prefixLen : getPrefixLen nd.version = len
  old : isOld nd.version = false
  expanding : isExpanding nd.version = false

/-- The split of a leaf without assertions: neither the leaf nor the key becomes a child of
the new node. -/
theorem run_artNodeReplaceLeafChild_release {parent a : Addr} {l : LeafNode} {key : Key}
    {off i : ℕ} (hb : env.build.assertions = false) (hp : LeafPre env s parent a l key off)
    (hi : keyMatch l.key key off = i) (hlt : i < key.length) (h8 : i - off ≤ 8)
    (hoff : off < 256) (fuel : ℕ) :
    ∃ nd s', env.machine.run (artNodeReplaceLeafChild env fuel parent (a + 1) key off) s =
        done (env.addr s.allocated) s' ∧
      s'.node? (env.addr s.allocated) = some nd ∧ BarrenNode off (i - off) nd ∧
      s'.root = s.root := by
  have hoi : off ≤ i := hi ▸ le_keyMatch _ _ _
  obtain ⟨nd₀, g, o, hhead, hfh, ho, hg⟩ := run_forkHeader_release (α := Addr) hb hp.usage
    hp.parent off fuel
  rw [ho hoff] at hfh
  let ν := env.addr s.allocated
  let nd₁ := nd₀.withPrefix (fun j => l.key.getD (off + j) 0) (i - off)
  have haν : a ≠ ν := hp.fresh.ne_of_leaf? hp.leaf
  have hleaf (nd : ArtNode) : (s.withNode env .node4 nd g).leaf? a = some l := by
    rw [Mem.leaf?_congr (Mem.heap_withNode_of_ne haν), hp.leaf]
  let s₁ := s.withNode env .node4 nd₁ g
  let s₂ := s₁.setLeaf a (l.deepen nd₁.sidleMeta)
  have hν₁ : s₁.node? ν = some nd₁ := Mem.node?_withNode_self ..
  have hν₂ : s₂.node? ν = some nd₁ := by rw [Mem.node?_setLeaf_of_ne _ _ haν.symm, hν₁]
  let nd₂ := nd₁.setVersion (unlockedVersion nd₁.version)
  have hv₁ : view nd₁.version = ⟨off, 0, i - off, .node4, false, false, false, 0⟩ := by
    simp only [nd₁, ArtNode.withPrefix, view_setPrefixLen nd₀.version (show i - off < 256 by omega),
      hfh.view]
  have hv₂ : view nd₂.version = ⟨off, 0, i - off, .node4, false, false, false, 0⟩ := by
    have he : isExpanding nd₁.version = false := (view_fields hv₁).2.2.2.2.2.2
    rw [ArtNode.setVersion_version, view_unlockedVersion he, hv₁]
  obtain ⟨ho, hc, hpl, hty, hold, -, hex⟩ := view_fields hv₂
  refine ⟨nd₂, s₂.setNode ν nd₂, ?_, Mem.node?_setNode_self .., ⟨⟨hfh.layout, hty, hc⟩, ho, hpl,
    hold, hex⟩, rfl⟩
  have hpfx := run_setPrefixFromLeaf env (Mem.node?_withNode_self .node4 nd₀ g) (hleaf nd₀) off
    (i - off) h8 (by rw [hp.length]; omega)
  rw [Mem.setNode_withNode] at hpfx
  have hlen : i < l.key.length := hp.length ▸ hlt
  have hbyte : env.machine.run (leafByte a (getLeafLen l.keyLength) i) s₁ =
      done (l.key.getD i 0) s₁ := by
    unfold leafByte
    rw [hp.keyLength, if_neg (Nat.ne_of_lt hlen)]
    exact run_loadLeaf (f := .key i) (hleaf nd₁) hlen
  have hkbyte : env.machine.run (keyByte key i) s₁ = done key[i] s₁ := by
    unfold keyByte
    rw [if_neg (Nat.ne_of_lt hlt), run_keyAt hlt]
  have hskip (e : ArtM Bool) (st : Mem) :
      env.machine.run (assertTrue env.build e) st = done () st :=
    run_assertTrue_release hb
  unfold artNodeReplaceLeafChild
  rw [hp.a_eq]
  refine (env.machine.run_bind_of_done (run_loadLeaf (f := .keyLength) hp.leaf trivial)).trans ?_
  refine (env.machine.run_bind_of_done hp.run_compare).trans ?_
  rw [hi, if_neg fun h => Nat.ne_of_lt hlt h.2]
  refine (hhead _).trans ?_
  refine (env.machine.run_bind_of_done (hskip _ _)).trans ?_
  refine (env.machine.run_bind_of_done hpfx).trans ?_
  refine (env.machine.run_bind_of_done hbyte).trans ?_
  -- the two calls that would link the children
  refine (env.machine.run_bind_of_done (hskip _ _)).trans ?_
  refine (env.machine.run_bind_of_done hkbyte).trans ?_
  refine (env.machine.run_bind_of_done (hskip _ _)).trans ?_
  refine (env.machine.run_bind_of_done (run_loadLeaf (f := .metadata) (hleaf nd₁) trivial)).trans ?_
  refine (env.machine.run_bind_of_done (run_load (f := .sidleMeta) hν₁ trivial)).trans ?_
  refine (env.machine.run_bind_of_done
    (run_storeLeaf (f := .metadata) (hleaf nd₁) trivial)).trans ?_
  exact env.machine.run_bind_of_done (run_artNodeUnlock hν₂)

/-! ### Trees with at most one leaf -/

/-- The memory holds the empty tree. -/
def HoldsNothing (env : Env) (L : ℕ) (s : Mem) : Prop :=
  ∃ t : Tree L, Represents env s t ∧ t.root = none

theorem HoldsNothing.get (h : HoldsNothing env L s) (key : Key) :
    env.machine.Settles (adaptiveRadixTreeGet key) s (done .null s) := by
  obtain ⟨t, hrep, hroot⟩ := h
  have hs := hrep.root
  rw [hroot] at hs
  refine settles_of_add _ 0 fun fuel => ?_
  unfold adaptiveRadixTreeGet
  rw [env.machine.run_bind_of_done run_loadRoot, if_pos hs]
  rfl

/-- The memory holds the tree whose root is the leaf of `k`. -/
def HoldsLeaf (env : Env) (L : ℕ) (s : Mem) (k : Key) : Prop :=
  ∃ t : Tree L, Represents env s t ∧ t.root = some (.leaf k)

/-- A tree whose root is a leaf stores one key. -/
theorem stored_of_root_leaf {t : Tree L} {k : Key} (hroot : t.root = some (.leaf k)) (key : Key) :
    t.Stored key ↔ key = k := by
  constructor
  · intro hk
    rcases Trie.stored_of_place (q := .root) trivial hk List.nil_prefix with h | ⟨c, hc, -⟩
    · simpa [hroot, eq_comm] using h
    · simp [hroot] at hc
  · rintro rfl
    exact ⟨.root, trivial, hroot⟩

namespace HoldsLeaf

variable {k : Key} (h : HoldsLeaf env L s k)

include h

theorem length : k.length = L := by
  obtain ⟨t, -, hroot⟩ := h
  exact Trie.length_of_stored (t := t) ⟨.root, trivial, hroot⟩

/-- Another insertion of the key, in any build. -/
theorem put_self : ∃ s', env.machine.Converges (adaptiveRadixTreePut env k) s 1 s' ∧
    HoldsLeaf env L s' k := by
  obtain ⟨t, hrep, hroot⟩ := h
  obtain ⟨s', hrep', -, -, -, hset⟩ := hrep.settles_put_dup (q := .root) trivial hroot rfl
  obtain ⟨p, hp, href⟩ := hrep.run_loadSlot (q := .root) trivial hroot rfl
  have hp0 := hrep.ne_zero_of_refers (q := .root) trivial hroot href
  obtain rfl : s.root = p := by simpa [loadSlot, run_loadRoot] using hp
  exact ⟨s', (settles_adaptiveRadixTreePut_of_walk hp0 (by decide) hset).converges, t, hrep', hroot⟩

/-- A lookup of any key, in any build. -/
theorem get (key : Key) : ∃ res s', env.machine.Settles (adaptiveRadixTreeGet key) s
    (done res s') ∧ (res = .null ↔ key ≠ k) := by
  obtain ⟨t, hrep, hroot⟩ := h
  have hpath : t.path .root <+: key := List.nil_prefix
  obtain ⟨res, s', hans, hrun⟩ := hrep.run_get_leaf (q := .root) trivial hroot rfl hpath 0
  obtain ⟨p, hp, href⟩ := hrep.run_loadSlot (q := .root) trivial hroot rfl
  have hp0 := hrep.ne_zero_of_refers (q := .root) trivial hroot href
  obtain rfl : s.root = p := by simpa [loadSlot, run_loadRoot] using hp
  refine ⟨res, s', settles_adaptiveRadixTreeGet_of_walk hp0 hans.ne_retry
    (settles_of_add _ 1 hrun), ?_⟩
  have hst := stored_of_root_leaf hroot key
  cases hans with
  | found hk => simp [hst.mp hk]
  | null hk => simpa using hst.not.mp hk

/-- What the insertion of another key begins with. -/
theorem leafPre {key : Key} (hkey : key.length = L) :
    ∃ a l, l.key = k ∧ LeafPre env s 0 a l key 0 ∧ s.root = a + 1 ∧ ∀ fuel,
      env.machine.run (_adaptiveRadixTreePut env key (fuel + 1) true 0 .root 0) s =
        env.machine.run (adaptiveRadixTreeReplaceLeaf env fuel 0 .root (a + 1) key 0) s := by
  have hk := h.length
  obtain ⟨t, hrep, hroot⟩ := h
  obtain ⟨a, l, hl, rfl, hlen, hload, hrun⟩ :=
    hrep.run_put_atLeaf key (q := .root) trivial hroot rfl 0 0
  exact ⟨a, l, rfl, ⟨hrep.fresh, hrep.usage, hrep.nullOrNode_owner (q := .root) trivial, hl, hlen,
    hk.trans hkey.symm, Nat.zero_le _⟩, by simpa [loadSlot, run_loadRoot] using hload, hrun⟩

/-- The insertion of another key without assertions: both keys are gone. -/
theorem put_other_release (hb : env.build.assertions = false) {key : Key} (hkey : key.length = L)
    (hne : key ≠ k) (h8 : keyMatch k key 0 ≤ 8) :
    ∃ s' nd, env.machine.Converges (adaptiveRadixTreePut env key) s 0 s' ∧ s'.root ≠ 0 ∧
      isLeaf s'.root = false ∧ s'.node? s'.root = some nd ∧ BarrenNode 0 (keyMatch k key 0) nd ∧
      keyMatch k key 0 < L := by
  obtain ⟨a, l, rfl, hp, ha, hrun⟩ := h.leafPre hkey
  have hlt : keyMatch l.key key 0 < key.length := by
    have hle : keyMatch l.key key 0 ≤ key.length := keyMatch_le (Nat.zero_le _)
    have := (keyMatch_eq_length_iff hp.length (Nat.zero_le _) (by simp)).not.mpr hne.symm
    omega
  obtain ⟨nd, s₁, hbuild, hν, hbn, hs₁⟩ := run_artNodeReplaceLeafChild_release hb hp rfl hlt
    h8 (by decide) 0
  have hν0 : env.addr s.allocated ≠ 0 := Nat.ne_of_gt (env.addr_pos _)
  refine ⟨s₁.setRoot (env.addr s.allocated), nd, (settles_adaptiveRadixTreePut_of_walk
    (by rw [ha]; exact Nat.succ_ne_zero a) (by decide) (Converges.settles _
      (fun n => _adaptiveRadixTreePut_le_succ env key n true 0 .root 0) ⟨1, ?_⟩)).converges, hν0,
    not_isLeaf_of_aligned (env.addr_aligned _), hν, hbn, by omega⟩
  rw [hrun]
  unfold adaptiveRadixTreeReplaceLeaf
  rw [env.machine.run_bind_of_done hbuild, if_neg hν0, if_neg (not_not_intro rfl), ← ha, ← hs₁,
    env.machine.run_bind_of_done (run_casRoot _)]
  rfl

end HoldsLeaf

/-- A lookup below a root without children finds nothing. -/
theorem get_of_barren {nd : ArtNode} {i : ℕ} (h0 : s.root ≠ 0) (hl : isLeaf s.root = false)
    (hnd : s.node? s.root = some nd) (hbn : BarrenNode 0 i nd) (hi : i ≤ 8) (key : Key)
    (hkey : i < key.length) :
    env.machine.Settles (adaptiveRadixTreeGet key) s (done .null s) := by
  refine settles_adaptiveRadixTreeGet_of_walk h0 (by decide) (settles_of_add _ 2 fun fuel => ?_)
  unfold _adaptiveRadixTreeGet
  simp only [parentIsOld, Bool.true_or, if_true, pure_eq_ret, ret_bind,
    Bool.false_eq_true, if_false]
  refine (env.machine.run_bind_of_done run_loadRoot).trans ?_
  rw [if_neg (by simp [hl])]
  refine (env.machine.run_bind_of_done
    (run_artNodeGetStableExpandVersion hnd hbn.expanding fuel)).trans ?_
  rw [if_neg (by simp [hbn.offset]), if_neg (by simp [hbn.old])]
  refine (env.machine.run_bind_of_done
    (run_artNodePrefixCompare hnd (hbn.prefixLen ▸ hi) key 0)).trans ?_
  refine (env.machine.run_bind_of_done (run_artNodeGetVersion hnd)).trans ?_
  rw [if_neg (by simp [hbn.old, compareExpand_self])]
  split
  · rfl
  · have hbyte : env.machine.run (keyByte key i) s = done key[i] s := by
      unfold keyByte
      rw [if_neg (Nat.ne_of_lt hkey), run_keyAt hkey]
    unfold getDescend
    rw [Nat.zero_add, hbn.prefixLen]
    refine (env.machine.run_bind_of_done hbyte).trans ?_
    refine (env.machine.run_bind_of_done (run_artNodeFindChild hnd hbn.empty.ok _)).trans ?_
    refine (env.machine.run_bind_of_done (run_artNodeGetVersion hnd)).trans ?_
    rw [if_neg (by simp [hbn.old]), hbn.empty.slotOf]
    rfl

/-! ### Runs in the two builds -/

/-- A run whose keys are all `k` has built a single leaf, in any build. -/
theorem PutRun.holds (hL : L ≤ 8) {k : Key} {ks : List (Key × ℤ)} (h : PutRun env L ks s)
    (hks : ∀ key ∈ keysOf ks, key = k) :
    if keysOf ks = [] then HoldsNothing env L s else HoldsLeaf env L s k := by
  induction h with
  | init hg =>
    rw [if_pos (show keysOf [] = [] from rfl)]
    exact ⟨_, represents_init hg, rfl⟩
  | adjust _ hg ih =>
    have ih := ih hks
    split
    · rw [if_pos ‹_›] at ih
      obtain ⟨t, hrep, hroot⟩ := ih
      exact ⟨t, hrep.setGlobal hg, hroot⟩
    · rw [if_neg ‹_›] at ih
      obtain ⟨t, hrep, hroot⟩ := ih
      exact ⟨t, hrep.setGlobal hg, hroot⟩
  | @put ks _ _ key r _ hkey hput ih =>
    have hle := adaptiveRadixTreePut_le_succ env key
    obtain rfl : key = k := hks key (by simp [keysOf])
    have ih := ih fun key' hk' => hks key' (by simp [hk'])
    rw [if_neg (by simp)]
    split at ih
    · obtain ⟨t, hrep, hroot⟩ := ih
      obtain ⟨s', hrep', -, -, hrun⟩ := hrep.run_put_first (by omega) hkey hroot
      obtain ⟨-, rfl⟩ := env.machine.converges_unique hle hput ⟨0, hrun 0⟩
      exact ⟨_, hrep', rfl⟩
    · obtain ⟨s', hput', hone'⟩ := ih.put_self
      obtain ⟨-, rfl⟩ := env.machine.converges_unique hle hput hput'
      exact hone'

/-- In any build a key can be inserted again and again. -/
theorem exists_putRun_replicate (env : Env) (hL : L ≤ 8) {k : Key} (hk : k.length = L) (n : ℕ) :
    ∃ rs s, PutRun env L rs s ∧ keysOf rs = List.replicate n k := by
  induction n with
  | zero => exact ⟨[], _, .init (g := default) (Int.le_refl 0), rfl⟩
  | succ n ih =>
    obtain ⟨rs, s, hrun, hrs⟩ := ih
    have hstep : ∃ r s', env.machine.Converges (adaptiveRadixTreePut env k) s r s' := by
      have hone := hrun.holds hL (k := k) (by simp [hrs])
      split at hone
      · obtain ⟨t, hrep, hroot⟩ := hone
        obtain ⟨s', -, -, -, hput⟩ := hrep.run_put_first (by omega) hk hroot
        exact ⟨0, s', 0, hput 0⟩
      · obtain ⟨s', hput, -⟩ := hone.put_self
        exact ⟨1, s', hput⟩
    obtain ⟨r, s', hput⟩ := hstep
    exact ⟨rs ++ [(k, r)], s', .put hrun hk hput, by
      rw [keysOf_concat, hrs, List.replicate_succ']⟩

/-- A lookup of `key` finds a leaf in both memories or in none. -/
def SameAnswer (env env' : Env) (s s' : Mem) (key : Key) : Prop :=
  ∃ res s₁ res' s₁', env.machine.Settles (adaptiveRadixTreeGet key) s (done res s₁) ∧
    env'.machine.Settles (adaptiveRadixTreeGet key) s' (done res' s₁') ∧
      (res = .null ↔ res' = .null)

/-- After the insertions of `ks`, when they all return, the two builds answer alike. -/
def AnswersAgree (env env' : Env) (L : ℕ) (ks : List Key) : Prop :=
  ∀ rs s rs' s', PutRun env L rs s → keysOf rs = ks → PutRun env' L rs' s' → keysOf rs' = ks →
    ∀ key, SameAnswer env env' s s' key

/-- No prefix is split as long as the earlier keys are all the same. -/
theorem not_someSplits_concat {k key : Key} {ks : List Key} (hks : ∀ x ∈ ks, x = k) :
    ¬ SomeSplits (ks ++ [key]) := by
  rintro ⟨ks₁, x, hpre, w, b, -, -, -, y, z, hy, hz, hyz, -⟩
  have hsub : ks₁ ⊆ ks := by
    rcases List.prefix_concat_iff.mp hpre with heq | hpre
    · exact (List.append_inj' heq rfl).1 ▸ List.Subset.refl ks₁
    · exact fun u hu => hpre.subset (List.mem_append_left _ hu)
  exact hyz ((hks y (hsub hy)).trans (hks z (hsub hz)).symm)

/-- Without assertions, one key after copies of another: the first key is gone. -/
theorem exists_putRun_loses (hb : env.build.assertions = false) (hL : L ≤ 8) {k key : Key}
    (hk : k.length = L) (hkey : key.length = L) (hne : key ≠ k) (n : ℕ) :
    ∃ rs s, PutRun env L rs s ∧ keysOf rs = List.replicate (n + 1) k ++ [key] ∧
      env.machine.Settles (adaptiveRadixTreeGet k) s (done .null s) := by
  obtain ⟨rs, s, hrun, hrs⟩ := exists_putRun_replicate env hL hk (n + 1)
  have hone := hrun.holds hL (k := k) (by simp [hrs])
  rw [if_neg (by simp [hrs, List.replicate_succ])] at hone
  have h8 : keyMatch k key 0 ≤ 8 := by
    have : keyMatch k key 0 ≤ key.length := keyMatch_le (Nat.zero_le _)
    omega
  obtain ⟨s', nd, hput, h0, hl, hnd, hbn, hi⟩ := hone.put_other_release hb hkey hne h8
  exact ⟨rs ++ [(key, 0)], s', .put hrun hkey hput, by rw [keysOf_concat, hrs],
    get_of_barren h0 hl hnd hbn h8 k (hk ▸ hi)⟩

/-- One key after copies of another: the build with assertions finds the first key, and the
build without them does not. -/
theorem exists_differing_runs (hb : env.build.assertions = true)
    (hb' : env'.build.assertions = false) (hL : L ≤ 8) {k key : Key} (hk : k.length = L)
    (hkey : key.length = L) (hne : key ≠ k) (n : ℕ) :
    ∃ rs s rs' s', PutRun env L rs s ∧ keysOf rs = List.replicate (n + 1) k ++ [key] ∧
      PutRun env' L rs' s' ∧ keysOf rs' = List.replicate (n + 1) k ++ [key] ∧
      (∃ a s₁, env.machine.Settles (adaptiveRadixTreeGet k) s (done (.found a) s₁)) ∧
      env'.machine.Settles (adaptiveRadixTreeGet k) s' (done .null s') := by
  -- with assertions
  have hdebug : ∃ rs s, PutRun env L rs s ∧ keysOf rs = List.replicate (n + 1) k ++ [key] ∧
      ∃ a s₁, env.machine.Settles (adaptiveRadixTreeGet k) s (done (.found a) s₁) := by
    have hlen : ∀ x ∈ List.replicate (n + 1) k ++ [key], x.length = L := by simp [hk, hkey]
    obtain ⟨rs, s, hrun, hrs⟩ := exists_putRun hb hL (g := default) (Int.le_refl 0) hlen
      (not_someSplits_concat fun x hx => List.eq_of_mem_replicate hx)
    obtain ⟨t, hrep, hst⟩ := hrun.represents hb hL
    obtain ⟨res, s₁, hans, hset⟩ := hrep.settles_adaptiveRadixTreeGet (hrep.shortPrefixes hL) hk
    cases hans with
    | found hfound hl hlkey => exact ⟨rs, s, hrun, hrs, _, _, hset⟩
    | null hnone => exact absurd ((hst k).mpr (by simp [hrs])) hnone
  obtain ⟨rs, s, hrun, hrs, hget⟩ := hdebug
  obtain ⟨rs', s', hrun', hrs', hget'⟩ := exists_putRun_loses hb' hL hk hkey hne n
  exact ⟨rs, s, rs', s', hrun, hrs, hrun', hrs', hget, hget'⟩

/-- Keys that are not all equal begin with copies of one key and then another one. -/
theorem exists_first_other {ks : List Key} (h : ¬ ∀ k ∈ ks, ∀ k' ∈ ks, k = k') :
    ∃ k key n, key ≠ k ∧ List.replicate (n + 1) k ++ [key] <+: ks := by
  induction ks using List.reverseRecOn with
  | nil => simp at h
  | append_singleton ks key ih =>
    by_cases hks : ∀ k ∈ ks, ∀ k' ∈ ks, k = k'
    · -- the last key is the first one that differs
      cases ks with
      | nil => simp at h
      | cons k ks =>
        have hrep : k :: ks = List.replicate (ks.length + 1) k :=
          List.eq_replicate_of_mem fun x hx => hks x hx k List.mem_cons_self
        refine ⟨k, key, ks.length, fun heq => h fun x hx y hy => ?_, hrep ▸ List.prefix_refl _⟩
        subst heq
        have hmem (z : Key) (hz : z ∈ key :: ks ++ [key]) : z = key := by
          rcases List.mem_append.mp hz with hz | hz
          · exact hks z hz key List.mem_cons_self
          · exact List.mem_singleton.mp hz
        exact (hmem x hx).trans (hmem y hy).symm
    · obtain ⟨k, key', n, hne, hpre⟩ := ih hks
      exact ⟨k, key', n, hne, hpre.trans (List.prefix_append ks [key])⟩

/-- **When the two builds agree.**  A build with assertions and one without them answer alike
after every initial part of a sequence of insertions exactly when the keys of the sequence
are all equal. -/
theorem answers_agree_iff (hb : env.build.assertions = true) (hb' : env'.build.assertions = false)
    (hL : L ≤ 8) {ks : List Key} (hlen : ∀ k ∈ ks, k.length = L) :
    (∀ ks₁, ks₁ <+: ks → AnswersAgree env env' L ks₁) ↔ ∀ k ∈ ks, ∀ k' ∈ ks, k = k' := by
  constructor
  · intro hagree
    by_contra hne
    obtain ⟨k, key, n, hkey, hpre⟩ := exists_first_other hne
    have hk : k.length = L := hlen k (hpre.subset (by simp))
    obtain ⟨rs, s, rs', s', hrun, hrs, hrun', hrs', ⟨a, s₁, hget⟩, hget'⟩ :=
      exists_differing_runs hb hb' hL hk (hlen key (hpre.subset (by simp))) hkey n
    obtain ⟨res, s₂, res', s₂', hset, hset', hiff⟩ :=
      hagree _ hpre rs s rs' s' hrun hrs hrun' hrs' k
    have hle := adaptiveRadixTreeGet_le_succ k
    obtain ⟨rfl, -⟩ := env.machine.converges_unique hle hset.converges hget.converges
    obtain ⟨rfl, -⟩ := env'.machine.converges_unique hle hset'.converges hget'.converges
    simp at hiff
  · intro hks ks₁ hpre rs s rs' s' hrun hrs hrun' hrs' key
    cases ks₁ with
    | nil =>
      have hnone := hrun.holds hL (k := key) (by simp [hrs])
      have hnone' := hrun'.holds hL (k := key) (by simp [hrs'])
      rw [if_pos hrs] at hnone
      rw [if_pos hrs'] at hnone'
      exact ⟨.null, s, .null, s', hnone.get key, hnone'.get key, Iff.rfl⟩
    | cons k ks₁ =>
      have hall (x : Key) (hx : x ∈ k :: ks₁) : x = k :=
        hks x (hpre.subset hx) k (hpre.subset List.mem_cons_self)
      have hone := hrun.holds hL (k := k) (hrs ▸ hall)
      have hone' := hrun'.holds hL (k := k) (hrs' ▸ hall)
      rw [if_neg (by simp [hrs])] at hone
      rw [if_neg (by simp [hrs'])] at hone'
      obtain ⟨res, s₁, hset, hres⟩ := hone.get key
      obtain ⟨res', s₁', hset', hres'⟩ := hone'.get key
      exact ⟨res, s₁, res', s₁', hset, hset', hres.trans hres'.symm⟩

/-- The environment of `sampleEnv`, built without assertions. -/
def releaseEnv : Env := Env.bump .release fun _ _ => .normal

/-- A key that is inserted twice. -/
theorem answers_agree_iff_of_two :
    (∀ ks₁, ks₁ <+: [[1, 2], [1, 2]] → AnswersAgree sampleEnv releaseEnv 2 ks₁) ↔
      ∀ k ∈ [[1, 2], [1, 2]], ∀ k' ∈ ([[1, 2], [1, 2]] : List Key), k = k' :=
  answers_agree_iff rfl rfl (by decide) (by decide)

/-- Two keys: both builds insert them, and only the one with assertions finds the first. -/
theorem release_loses_key : ∃ rs s rs' s', PutRun sampleEnv 1 rs s ∧ keysOf rs = [[1], [2]] ∧
    PutRun releaseEnv 1 rs' s' ∧ keysOf rs' = [[1], [2]] ∧
    (∃ a s₁, sampleEnv.machine.Settles (adaptiveRadixTreeGet [1]) s (done (.found a) s₁)) ∧
    releaseEnv.machine.Settles (adaptiveRadixTreeGet [1]) s' (done .null s') :=
  exists_differing_runs rfl rfl (by decide) (show [1].length = 1 from rfl)
    (show [2].length = 1 from rfl) (by decide) 0

end Sidle.Art
