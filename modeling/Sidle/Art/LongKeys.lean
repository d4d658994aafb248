import Sidle.Art.Outcomes
import Sidle.Art.Release

/-!
# Long keys

The length of a leaf is one byte that is read back as a signed `char`, and the prefix of a node
has room for eight bytes.  Keys of more than 127 bytes are therefore not found again, and two
keys that share more than eight bytes cannot both be inserted.

## Main definitions

* `LeafNode.decode` — the key that a leaf decodes to.
* `LeafRoundTrips`, `FoundAfterPut` — a key is found again.
* `TwoKeysFound` — two keys are found again.

## Main results

* `leaf_round_trip_iff` — **a key is found again when it has at most 127 bytes**.
* `two_keys_found_iff` — **two keys are found again when they share at most eight bytes**.
-/

namespace Sidle.Art

open Prog Machine Outcome

variable {L : ℕ} {env : Env} {s : Mem} {key k : Key}

/-! ### The length of a leaf -/

/-- The key that a leaf decodes to, through `get_leaf_len` and `get_leaf_key`; a length behind the
end of the block decodes to nothing. -/
def LeafNode.decode (l : LeafNode) : Option Key :=
  if getLeafLen l.keyLength ≤ l.key.length then some (l.key.take (getLeafLen l.keyLength)) else none

/-- Whatever `alloc_leaf` builds decodes to its key. -/
def LeafRoundTrips (env : Env) (key : Key) : Prop :=
  ∀ s parent targetType isMigration p s',
    env.machine.run (allocLeaf env parent key targetType isMigration) s = done p s' →
    ∃ l, s'.leaf? (getLeaf p) = some l ∧ l.decode = some key

/-- A key that is inserted into the empty tree is found, is not inserted twice, and no other key of
its length is found. -/
def FoundAfterPut (env : Env) (key : Key) : Prop :=
  ∀ g : Global, 0 ≤ g.curLocalMemoryUsage → ∃ s₁,
    env.machine.Settles (adaptiveRadixTreePut env key) (Mem.init g) (done 0 s₁) ∧
    (∃ s₂, env.machine.Settles (adaptiveRadixTreePut env key) s₁ (done 1 s₂)) ∧
    ∀ key' : Key, key'.length = key.length → ∃ res s',
      env.machine.Settles (adaptiveRadixTreeGet key') s₁ (done res s') ∧
      if key' = key then ∃ a l, res = .found a ∧ s'.leaf? a = some l ∧ l.key = key else res = .null

theorem getLeafLen_ofNat_iff {m : ℕ} (hm : m ≤ 512) : getLeafLen (UInt8.ofNat m) = m ↔ m ≤ 127 := by
  constructor
  · intro h
    unfold getLeafLen at h
    rw [UInt8.toNat_ofNat'] at h
    split at h <;> omega
  · exact getLeafLen_ofNat

theorem LeafNode.decode_eq_some_iff {l : LeafNode} (hl : l.keyLength = UInt8.ofNat l.key.length)
    (hm : l.key.length ≤ 512) : l.decode = some l.key ↔ l.key.length ≤ 127 := by
  rw [← getLeafLen_ofNat_iff hm, ← hl, decode]
  constructor
  · intro h
    split at h
    · have hlen := congrArg List.length (Option.some.inj h)
      rw [List.length_take] at hlen
      omega
    · cases h
  · intro h
    rw [h, if_pos (Nat.le_refl _), List.take_length]

/-- **The length of a leaf.**  Exactly the keys of at most 127 bytes are read back. -/
theorem leafRoundTrips_iff (h : key.length ≤ 512) : LeafRoundTrips env key ↔ key.length ≤ 127 := by
  constructor
  · intro hround
    have hnull : (Mem.init default).NullOrNode 0 := rfl
    obtain ⟨g, hrun, -⟩ := run_allocLeaf env (Int.le_refl 0) hnull key .remote
    obtain ⟨l, hl, hdec⟩ := hround _ _ _ _ _ _ hrun
    rw [getLeaf_succ (env.addr_aligned _), Mem.leaf?_withLeaf_self] at hl
    obtain rfl := Option.some.inj hl
    exact (LeafNode.decode_eq_some_iff rfl h).mp hdec
  · intro h' s parent targetType isMigration p s' hrun
    refine ensures_allocLeaf (s := s) (Q := fun p s' =>
      ∃ l, s'.leaf? (getLeaf p) = some l ∧ l.decode = some key) parent key targetType isMigration
      (fun m g => ⟨⟨UInt8.ofNat key.length, m, 0, key⟩, ?_, ?_⟩) p s' hrun
    · rw [getLeaf_succ (env.addr_aligned _)]
      exact Mem.leaf?_withLeaf_self ..
    · exact (LeafNode.decode_eq_some_iff rfl h).mpr h'

/-! ### One key -/

variable (env) in
/-- The comparison with a leaf that has at least as many bytes as the key stays inside both. -/
theorem run_leafCompareLoop_of_le {a : Addr} {l : LeafNode} (hl : s.leaf? a = some l)
    (hle : key.length ≤ l.key.length) (l1 n i : ℕ) :
    ∃ j, env.machine.run (leafCompareLoop a l1 key n i) s = done j s := by
  induction n generalizing i with
  | zero => exact ⟨i, rfl⟩
  | succ n ih =>
    unfold leafCompareLoop
    by_cases hi : i < l1 ∧ i < key.length
    · obtain ⟨h₁, h₂⟩ := hi
      rw [if_pos ⟨h₁, h₂⟩, env.machine.run_bind_of_done
        (run_loadLeaf (f := .key i) hl (Nat.lt_of_lt_of_le h₂ hle)),
        env.machine.run_bind_of_done (run_keyAt h₂)]
      split
      · exact ih (i + 1)
      · exact ⟨i, rfl⟩
    · rw [if_neg hi]
      exact ⟨i, rfl⟩

/-- A lookup in a tree whose only leaf is read back with another length finds nothing. -/
theorem get_of_misread {a : Addr} {l : LeafNode} (hroot : s.root = a + 1) (ha : 8 ∣ a)
    (hl : s.leaf? a = some l) (hle : key.length ≤ l.key.length)
    (hne : getLeafLen l.keyLength ≠ key.length) :
    env.machine.Settles (adaptiveRadixTreeGet key) s (done .null s) := by
  have h0 : s.root ≠ 0 := by simp [hroot]
  refine settles_adaptiveRadixTreeGet_of_walk h0 (by decide) (settles_of_add _ 1 fun fuel => ?_)
  obtain ⟨j, hj⟩ := run_leafCompareLoop_of_le env hl hle (getLeafLen l.keyLength)
    (key.length - 0) 0
  have hload : env.machine.run (loadSlot .root) s = done (a + 1) s := hroot ▸ run_loadRoot
  rw [run_get_slot hload (isLeaf_succ ha)]
  unfold getAtLeaf
  rw [getLeaf_succ ha]
  refine (env.machine.run_bind_of_done (run_loadLeaf (f := .keyLength) hl trivial)).trans ?_
  refine (env.machine.run_bind_of_done hj).trans ?_
  rw [if_neg fun h => hne (h.1.symm.trans h.2)]
  rfl

variable (env) in
/-- The first key becomes the root and is not found again when it is too long. -/
theorem lost_of_long (h : key.length ≤ 512) (h' : 127 < key.length) {g : Global}
    (hg : 0 ≤ g.curLocalMemoryUsage) :
    ∃ s₁, env.machine.Settles (adaptiveRadixTreePut env key) (Mem.init g) (done 0 s₁) ∧
      env.machine.Settles (adaptiveRadixTreeGet key) s₁ (done .null s₁) := by
  have hfresh : (Mem.init g).Fresh env := fun _ ha => absurd rfl ha
  obtain ⟨g', -, hput⟩ := run_put_null hfresh hg rfl key
  let l := newLeaf (Mem.init g) 0 key .remote
  have hl : ((Mem.init g).withRootLeaf env l g').leaf? (env.addr 0) = some l :=
    Mem.leaf?_withLeaf_self (s := Mem.init g) l.key.length l g'
  refine ⟨_, settles_of_add _ 0 hput, get_of_misread rfl (env.addr_aligned 0) hl (Nat.le_refl _)
    fun hlen => ?_⟩
  exact absurd ((getLeafLen_ofNat_iff h).mp hlen) (by omega)

/-- A tree of one leaf has no prefixes. -/
theorem shortPrefixes_ofLeaf (hk : k.length = L) : ShortPrefixes s (Trie.ofLeaf Addr k hk) :=
  fun _ _ hc => hc.elim

/-- **When a key is found again.**  After the insertion into the empty tree, exactly the keys of at
most 127 bytes are. -/
theorem foundAfterPut_iff (h : key.length ≤ 512) : FoundAfterPut env key ↔ key.length ≤ 127 := by
  constructor
  · intro hfound
    by_contra h'
    obtain ⟨s₁, hput, -, hget⟩ := hfound default (Int.le_refl 0)
    obtain ⟨s₁', hput', hget'⟩ := lost_of_long env h (by omega) (g := default) (Int.le_refl 0)
    obtain ⟨-, rfl⟩ := env.machine.converges_unique (adaptiveRadixTreePut_le_succ env key)
      hput.converges hput'.converges
    obtain ⟨res, s', hset, hres⟩ := hget key rfl
    rw [if_pos rfl] at hres
    obtain ⟨a, l, rfl, -⟩ := hres
    obtain ⟨hnull, -⟩ := env.machine.converges_unique (adaptiveRadixTreeGet_le_succ key)
      hset.converges hget'.converges
    cases hnull
  · intro h' g hg
    have hinit : Represents env (Mem.init g) (Trie.empty Addr UInt8 key.length) :=
      represents_init hg
    obtain ⟨s₁, hrep, -, -, hput⟩ := hinit.run_put_first h' rfl rfl
    obtain ⟨s₂, hput', -⟩ := HoldsLeaf.put_self ⟨_, hrep, rfl⟩
    refine ⟨s₁, settles_of_add _ 0 hput,
      ⟨s₂, hput'.settles _ (adaptiveRadixTreePut_le_succ env key)⟩, fun key' hkey' => ?_⟩
    obtain ⟨res, s', hans, hset⟩ :=
      hrep.settles_adaptiveRadixTreeGet (shortPrefixes_ofLeaf rfl) hkey'
    refine ⟨res, s', hset, ?_⟩
    cases hans with
    | @found hk a l hl hkey =>
      have heq := (Trie.stored_ofLeaf rfl key').mp hk
      rw [if_pos heq]
      exact ⟨a, _, rfl, Mem.leaf?_setLeaf_self .., hkey.trans heq⟩
    | null hk => rw [if_neg fun heq => hk ((Trie.stored_ofLeaf rfl key').mpr heq)]

/-- **Leaves round trip** exactly when the key has at most 127 bytes, and then and only then a key
is found again. -/
theorem leaf_round_trip_iff (h : key.length ≤ 512) :
    (LeafRoundTrips env key ↔ key.length ≤ 127) ∧ (FoundAfterPut env key ↔ key.length ≤ 127) :=
  ⟨leafRoundTrips_iff h, foundAfterPut_iff h⟩

/-- A key of three bytes. -/
theorem leaf_round_trip_iff_of_three :
    (LeafRoundTrips sampleEnv [1, 2, 3] ↔ [1, 2, 3].length ≤ 127) ∧
      (FoundAfterPut sampleEnv [1, 2, 3] ↔ [1, 2, 3].length ≤ 127) :=
  leaf_round_trip_iff (show ([1, 2, 3] : Key).length ≤ 512 by decide)

/-- A key of 256 bytes, whose leaf has the length `0`. -/
theorem long_key_lost : ¬ LeafRoundTrips sampleEnv (List.replicate 256 7) ∧
    ∃ s₁, sampleEnv.machine.Settles (adaptiveRadixTreePut sampleEnv (List.replicate 256 7))
        (Mem.init default) (done 0 s₁) ∧
      sampleEnv.machine.Settles (adaptiveRadixTreeGet (List.replicate 256 7)) s₁
        (done .null s₁) := by
  have hlen : (List.replicate 256 (7 : UInt8)).length = 256 := List.length_replicate
  refine ⟨fun h => ?_, lost_of_long sampleEnv (by rw [hlen]; decide) (by rw [hlen]; decide)
    (Int.le_refl 0)⟩
  have := (leafRoundTrips_iff (by rw [hlen]; decide)).mp h
  rw [hlen] at this
  exact absurd this (by decide)

/-! ### Two keys -/

/-- Two keys that are inserted one after the other into the empty tree are both found. -/
def TwoKeysFound (env : Env) (k₁ k₂ : Key) : Prop :=
  ∀ g : Global, 0 ≤ g.curLocalMemoryUsage → ∃ s₁ s₂,
    env.machine.Settles (adaptiveRadixTreePut env k₁) (Mem.init g) (done 0 s₁) ∧
    env.machine.Settles (adaptiveRadixTreePut env k₂) s₁ (done 0 s₂) ∧
    ∀ k ∈ [k₁, k₂], ∃ a l s', env.machine.Settles (adaptiveRadixTreeGet k) s₂ (done (.found a) s') ∧
      s'.leaf? a = some l ∧ l.key = k

/-- Two keys share at most eight bytes exactly when their first nine bytes differ. -/
theorem keyMatch_le_eight_iff (hlen : k.length = key.length) (hne : k ≠ key) :
    keyMatch k key 0 ≤ 8 ↔ k.take 9 ≠ key.take 9 := by
  obtain ⟨i, b, c, hi, -, -, hagree, hkb, hkc, hbc⟩ :=
    exists_keyMatch hlen (List.nil_prefix (l := k)) List.nil_prefix hne
  rw [List.length_nil] at hi
  rw [hi]
  constructor
  · intro h8 htake
    have hget := congrArg (fun l : Key => l[i]?) htake
    simp only [List.getElem?_take_of_lt (show i < 9 by omega), hkb, hkc] at hget
    exact hbc (Option.some.inj hget).symm
  · intro htake
    by_contra h8
    refine htake (List.ext_getElem? fun j => ?_)
    rcases Nat.lt_or_ge j 9 with hj | hj
    · rw [List.getElem?_take_of_lt hj, List.getElem?_take_of_lt hj]
      exact hagree j (by omega)
    · rw [List.getElem?_take_eq_none hj, List.getElem?_take_eq_none hj]

namespace HoldsLeaf

variable (h : HoldsLeaf env L s k)

include h

/-- The insertion of another key that shares at most eight bytes. -/
theorem put_other (hb : env.build.assertions = true) (hL : L ≤ 127) (hkey : key.length = L)
    (hne : k ≠ key) (h8 : keyMatch k key 0 ≤ 8) :
    ∃ s' t, env.machine.Settles (adaptiveRadixTreePut env key) s (done 0 s') ∧
      Represents env s' (t : Tree L) ∧ ShortPrefixes s' t ∧ ∀ x, t.Stored x ↔ x = k ∨ x = key := by
  have hk := h.length
  obtain ⟨a, l, rfl, hp, hroot, hrun⟩ := h.leafPre hkey
  obtain ⟨t, hrep, htroot⟩ := h
  obtain ⟨i, b, c, hi, hle, hlt, hagree, hlb, hkc, hbc⟩ :=
    exists_keyMatch hp.length (List.nil_prefix (l := l.key)) List.nil_prefix hne
  rw [List.length_nil] at hi
  obtain ⟨nd, s₁, hbuild, hls, -, hfork⟩ :=
    run_artNodeReplaceLeafChild hb hp hi hlt (by omega) (by decide) hlb hkc hbc 0
  have hload : env.machine.run (loadSlot .root) s = done (a + 1) s := hroot ▸ run_loadRoot
  have hnone : s.node? (owner .root) = none := hrep.fresh.node?_zero
  have hnone₁ : s₁.node? (owner .root) = none := (hls.fresh hrep.fresh hp.leaf).node?_zero
  have hunlocked : ¬ Locked s (owner .root) := by
    rintro ⟨n, hn, -⟩
    simp [hnone] at hn
  obtain ⟨s₂, hput, hlink⟩ :=
    FreeSlot.root.run_replaceLeaf hload hbuild
    (Nat.ne_of_gt (env.addr_pos _)) (hnone₁.trans hnone.symm) hls.root
    (hls.fresh hrep.fresh hp.leaf)
  obtain ⟨hc, hrep'⟩ := hrep.split_leaf hL (q := .root) trivial htroot hp.leaf hp.keyLength hkey
    List.nil_prefix hle hlt hagree hlb hkc hbc hls hfork hlink
  refine ⟨s₂, _, settles_adaptiveRadixTreePut_of_walk (by rw [hroot]; exact Nat.succ_ne_zero a)
    (by decide) (Converges.settles _
    (fun n => _adaptiveRadixTreePut_le_succ env key n true 0 .root 0)
      ⟨2, by rw [hrun]; exact hput⟩), hrep', fun x nx hx hnx => ?_, fun x => ?_⟩
  · rcases hx with rfl | hx
    · have hν : s₂.node? (env.addr s.allocated) = some nd :=
        (Mem.node?_congr (hlink.other _ (Nat.ne_of_gt (env.addr_pos _)))).trans hls.new_
      obtain rfl : nd = nx := by simpa [hν] using hnx
      rw [hfork.prefixLen]
      omega
    · obtain ⟨r, hr, -⟩ := Trie.exists_root_node hx
      simp [htroot] at hr
  · rw [Trie.stored_split hc, stored_of_root_leaf htroot]

end HoldsLeaf

/-- The split of a leaf returns only when the keys share at most eight bytes behind the offset. -/
theorem ensures_artNodeReplaceLeafChild {parent a : Addr} {l : LeafNode} {off : ℕ}
    (hp : LeafPre env s parent a l key off) (hlt : keyMatch l.key key off < key.length) (fuel : ℕ) :
    env.machine.Ensures (artNodeReplaceLeafChild env fuel parent (a + 1) key off) s
      fun _ _ => keyMatch l.key key off - off ≤ 8 := by
  have htriv {α : Type} {p : ArtM α} {st : Mem} : env.machine.Ensures p st fun _ _ => True :=
    fun _ _ _ => trivial
  unfold artNodeReplaceLeafChild
  rw [hp.a_eq]
  refine (ensures_loadLeaf (Q := fun len s' => len = l.keyLength ∧ s' = s) fun l' hl' _ => ?_).bind
    fun len s' hlen => ?_
  · obtain rfl : l = l' := by simpa [hp.leaf] using hl'
    exact ⟨rfl, rfl⟩
  rcases hlen with ⟨rfl, rfl⟩
  refine Ensures.bind (P := fun i s' => i = keyMatch l.key key off) (fun i s' hrun => ?_)
    fun i s₁ hi => ?_
  · rw [hp.run_compare] at hrun
    cases hrun
    rfl
  subst hi
  rw [if_neg fun h => Nat.ne_of_lt hlt h.2]
  refine htriv.bind fun new_ s₂ _ => htriv.bind fun _ s₃ _ => htriv.bind fun _ s₄ _ => ?_
  refine htriv.bind fun _ s₅ _ => htriv.bind fun _ s₆ _ => ?_
  exact (ensures_setPrefixFromLeaf a off _).bind fun _ s₇ h8 => fun _ _ _ => h8

/-- The second of two keys that share more than eight bytes is not inserted. -/
theorem HoldsLeaf.ensures_put_other (h : HoldsLeaf env L s k) (hkey : key.length = L)
    (hne : k ≠ key)
    (fuel : ℕ) : env.machine.Ensures (adaptiveRadixTreePut env key fuel) s
      fun _ _ => keyMatch k key 0 ≤ 8 := by
  obtain ⟨a, l, rfl, hp, hroot, hrun⟩ := h.leafPre hkey
  have hlt : keyMatch l.key key 0 < key.length := by
    have hle : keyMatch l.key key 0 ≤ key.length := keyMatch_le (Nat.zero_le _)
    have := (keyMatch_eq_length_iff hp.length (Nat.zero_le _) (by simp)).not.mpr hne
    omega
  unfold adaptiveRadixTreePut
  refine (ensures_loadRoot (Q := fun p s' => p = a + 1 ∧ s' = s) ⟨hroot, rfl⟩).bind
    fun p s' hps => ?_
  rcases hps with ⟨rfl, rfl⟩
  rw [if_neg (Nat.succ_ne_zero a)]
  cases fuel with
  | zero => exact ensures_diverge
  | succ fuel =>
    refine Ensures.bind (P := fun _ _ => keyMatch l.key key 0 ≤ 8) ?_ fun _ _ h8 => fun _ _ _ => h8
    cases fuel with
    | zero => exact ensures_diverge
    | succ fuel =>
      intro r s' hput
      rw [hrun] at hput
      exact ((ensures_artNodeReplaceLeafChild hp hlt fuel).bind
        fun _ _ h8 => fun _ _ _ => h8) r s' hput

/-- With assertions the second of two keys that share more than eight bytes fails. -/
theorem run_artNodeReplaceLeafChild_long {parent a : Addr} {l : LeafNode} {off : ℕ}
    (hb : env.build.assertions = true) (hp : LeafPre env s parent a l key off) (hoff : off < 256)
    (hlt : keyMatch l.key key off < key.length) (h8 : 8 < keyMatch l.key key off - off) (fuel : ℕ) :
    env.machine.run (artNodeReplaceLeafChild env (fuel + 1) parent (a + 1) key off) s =
      fault .assertFailed := by
  obtain ⟨nd, g, hhead, -, -⟩ := run_forkHeader (α := Addr) hb hp.usage hp.parent off hoff fuel
  unfold artNodeReplaceLeafChild
  rw [hp.a_eq]
  refine (env.machine.run_bind_of_done (run_loadLeaf (f := .keyLength) hp.leaf trivial)).trans ?_
  refine (env.machine.run_bind_of_done hp.run_compare).trans ?_
  rw [if_neg fun h => Nat.ne_of_lt hlt h.2]
  refine (hhead _).trans (env.machine.run_bind_of_fault ?_)
  simp only [assertTrue, hb, if_true, decide_eq_false (Nat.not_le_of_lt h8), pure_eq_ret, ret_bind]
  rfl

/-- The insertion of such a key into a tree of one leaf. -/
theorem HoldsLeaf.put_long (h : HoldsLeaf env L s k) (hb : env.build.assertions = true)
    (hkey : key.length = L) (hne : k ≠ key) (h8 : 8 < keyMatch k key 0) :
    env.machine.Settles (adaptiveRadixTreePut env key) s (fault .assertFailed) := by
  obtain ⟨a, l, rfl, hp, hroot, hrun⟩ := h.leafPre hkey
  have hlt : keyMatch l.key key 0 < key.length := by
    have hle : keyMatch l.key key 0 ≤ key.length := keyMatch_le (Nat.zero_le _)
    have := (keyMatch_eq_length_iff hp.length (Nat.zero_le _) (by simp)).not.mpr hne
    omega
  refine settles_of_add _ 3 fun fuel => ?_
  unfold adaptiveRadixTreePut
  rw [env.machine.run_bind_of_done run_loadRoot, hroot, if_neg (Nat.succ_ne_zero a)]
  refine env.machine.run_bind_of_fault ?_
  rw [hrun]
  exact env.machine.run_bind_of_fault
    (run_artNodeReplaceLeafChild_long hb hp (by decide) hlt (by omega) fuel)

/-- **When two keys are found again.**  A build with assertions inserts two keys of one length
after each other exactly when their first nine bytes differ; a build without them loses both. -/
theorem two_keys_found_iff {k₁ k₂ : Key} (hlen : k₁.length = k₂.length) (h : k₁.length ≤ 127)
    (hne : k₁ ≠ k₂) :
    TwoKeysFound env k₁ k₂ ↔ env.build.assertions = true ∧ k₁.take 9 ≠ k₂.take 9 := by
  have hfirst {g : Global} (hg : 0 ≤ g.curLocalMemoryUsage) : ∃ s₁,
      env.machine.Settles (adaptiveRadixTreePut env k₁) (Mem.init g) (done 0 s₁) ∧
        HoldsLeaf env k₁.length s₁ k₁ := by
    have hinit : Represents env (Mem.init g) (Trie.empty Addr UInt8 k₁.length) := represents_init hg
    obtain ⟨s₁, hrep, -, -, hput⟩ := hinit.run_put_first h rfl rfl
    exact ⟨s₁, settles_of_add _ 0 hput, _, hrep, rfl⟩
  rw [← keyMatch_le_eight_iff hlen hne]
  constructor
  · intro hfound
    obtain ⟨s₁, s₂, hput₁, hput₂, hget⟩ := hfound default (Int.le_refl 0)
    obtain ⟨s₁', hput₁', hone⟩ := hfirst (g := default) (Int.le_refl 0)
    obtain ⟨-, rfl⟩ := env.machine.converges_unique (adaptiveRadixTreePut_le_succ env k₁)
      hput₁.converges hput₁'.converges
    obtain ⟨fuel, hrun⟩ := hput₂.converges
    have h8 := hone.ensures_put_other hlen.symm hne fuel 0 s₂ hrun
    refine ⟨?_, h8⟩
    by_contra hb
    obtain ⟨s₂', nd, hput₂', h0, hl, hnd, hbn, hlt⟩ :=
      hone.put_other_release (by simpa using hb) hlen.symm hne.symm h8
    obtain ⟨-, rfl⟩ := env.machine.converges_unique (adaptiveRadixTreePut_le_succ env k₂)
      hput₂.converges hput₂'
    obtain ⟨a, l, s', hset, -⟩ := hget k₁ (by simp)
    have hget' : env.machine.Settles (adaptiveRadixTreeGet k₁) s₂ (done .null s₂) :=
      get_of_barren h0 hl hnd hbn h8 k₁ hlt
    obtain ⟨hnull, -⟩ := env.machine.converges_unique (adaptiveRadixTreeGet_le_succ k₁)
      hset.converges hget'.converges
    cases hnull
  · rintro ⟨hb, h8⟩ g hg
    obtain ⟨s₁, hput₁, hone⟩ := hfirst hg
    obtain ⟨s₂, t, hput₂, hrep, hshort, hstored⟩ := hone.put_other hb h hlen.symm hne h8
    refine ⟨s₁, s₂, hput₁, hput₂, fun k hk => ?_⟩
    have hk : k = k₁ ∨ k = k₂ := by simpa using hk
    have hkl : k.length = k₁.length := by
      rcases hk with rfl | rfl
      · rfl
      · exact hlen.symm
    obtain ⟨res, s', hans, hset⟩ := hrep.settles_adaptiveRadixTreeGet hshort hkl
    cases hans with
    | @found _ a l hl hkey => exact ⟨a, _, _, hset, Mem.leaf?_setLeaf_self .., hkey⟩
    | null hnot => exact absurd ((hstored k).mpr hk) hnot

/-- Two keys that differ in their third byte. -/
theorem two_keys_found_iff_of_three :
    TwoKeysFound sampleEnv [1, 2, 3] [1, 2, 4] ↔
      sampleEnv.build.assertions = true ∧ ([1, 2, 3] : Key).take 9 ≠ ([1, 2, 4] : Key).take 9 :=
  two_keys_found_iff (by decide) (by decide) (by decide)

/-- Two keys that share nine bytes: the second insertion fails an assertion. -/
theorem long_prefix_fails : ∃ s₁,
    sampleEnv.machine.Settles (adaptiveRadixTreePut sampleEnv [0, 0, 0, 0, 0, 0, 0, 0, 0, 1])
        (Mem.init default) (done 0 s₁) ∧
      sampleEnv.machine.Settles (adaptiveRadixTreePut sampleEnv [0, 0, 0, 0, 0, 0, 0, 0, 0, 2]) s₁
        (fault .assertFailed) := by
  have hinit : Represents sampleEnv (Mem.init default) (Trie.empty Addr UInt8 10) :=
    represents_init (Int.le_refl 0)
  obtain ⟨s₁, hrep, -, -, hput⟩ := hinit.run_put_first (by decide)
    (show ([0, 0, 0, 0, 0, 0, 0, 0, 0, 1] : Key).length = 10 from rfl) rfl
  exact ⟨s₁, settles_of_add _ 0 hput,
    HoldsLeaf.put_long ⟨_, hrep, rfl⟩ rfl rfl (by decide) (by decide)⟩

end Sidle.Art
