import Sidle.Art.Insert
import Sidle.Art.Lookup

/-!
# Sequences of insertions

One thread inserts keys of one length into an empty tree, while other parts of the program
may move the thresholds and the flags between two insertions.  Every tree that such a run
builds is a trie of the inserted keys, so lookups and duplicates are right.  The locks are
not: the split of a prefix leaves its new node locked.

## Main definitions

* `PutRun` — a sequence of insertions that have all returned.

## Main results

* `PutRun.represents` — what a run has built.
* `put_and_get_correct` — **insertions and lookups are right**.
* `puts_unlocked_iff` — **when insertions leave no lock behind**.
* `depthsRight_iff_of_assertions` — when insertions get the depths right in a build that
  links the children.
-/

namespace Sidle.Art

open Prog Machine Outcome

/-- The memory before the first insertion. -/
def Mem.init (g : Global) : Mem := ⟨fun _ => none, 0, 0, g⟩

/-- Insertions of keys of length `L`, each with what it returned.  Between two insertions the
state shared with the workers may change in any way. -/
inductive PutRun (env : Env) (L : ℕ) : List (Key × ℤ) → Mem → Prop
  | init {g : Global} (hg : 0 ≤ g.curLocalMemoryUsage) : PutRun env L [] (Mem.init g)
  | adjust {ks : List (Key × ℤ)} {s : Mem} (h : PutRun env L ks s) {g : Global}
      (hg : 0 ≤ g.curLocalMemoryUsage) : PutRun env L ks (s.setGlobal g)
  | put {ks : List (Key × ℤ)} {s s' : Mem} {key : Key} {r : ℤ} (h : PutRun env L ks s)
      (hkey : key.length = L)
      (hput : env.machine.Converges (adaptiveRadixTreePut env key) s r s') :
      PutRun env L (ks ++ [(key, r)]) s'

/-- An allocator that hands out one block after another. -/
def Env.bump (build : Build) (checkMemoryUsage : ℤ → ℕ → MemUsageStatus) : Env where
  build := build
  addr i := 8 * (i + 1)
  addr_injective i j h := by
    have : 8 * (i + 1) = 8 * (j + 1) := h
    omega
  addr_aligned i := ⟨i + 1, rfl⟩
  addr_pos i := by
    change 0 < 8 * (i + 1)
    omega
  junk _ := ⟨.node4, 0, fun _ => 0, 0, 0, default, fun _ => 0, fun _ => 0, fun _ => 0⟩
  checkMemoryUsage := checkMemoryUsage

variable {L : ℕ} {env : Env} {s s' : Mem} {t : Tree L}

/-! ### Reachable nodes -/

namespace Represents

variable (h : Represents env s t)

include h

theorem hasLock_iff_reachable : HasLock s t ↔ ∃ n, Reachable s n ∧ Locked s n :=
  ⟨fun ⟨n, hn, hl⟩ => ⟨n, (h.reachable_iff n).mpr hn, hl⟩,
    fun ⟨n, hn, hl⟩ => ⟨n, (h.reachable_iff n).mp hn, hl⟩⟩

/-- The state shared with the workers is not part of the tree. -/
theorem setGlobal {g : Global} (hg : 0 ≤ g.curLocalMemoryUsage) :
    Represents env (s.setGlobal g) t := by
  refine ⟨h.fresh.setGlobal g, hg, ?_, fun n hn => ?_⟩
  · have hroot := h.root
    cases hr : t.root with
    | none => rwa [hr] at hroot
    | some r =>
      rw [hr] at hroot
      exact Refers.mono (fun a l hl => ⟨l, hl, rfl, rfl⟩) hroot
  · obtain ⟨nd, hnd, hrep⟩ := h.node n hn
    exact ⟨nd, hnd, hrep.transfer (fun a l hl => ⟨l, hl, rfl, rfl⟩) rfl (fun _ => rfl) hrep.place⟩

end Represents

theorem represents_init {g : Global} (hg : 0 ≤ g.curLocalMemoryUsage) :
    Represents env (Mem.init g) (Trie.empty Addr UInt8 L) :=
  ⟨fun _ ha => absurd rfl ha, hg, rfl, fun _ hn => hn.elim⟩

/-! ### Runs -/

/-- What an insertion that has returned has done. -/
theorem Represents.effect_of_converges (h : Represents env s t) (hb : env.build.assertions = true)
    (hL : L ≤ 8) {key : Key} (hkey : key.length = L) {r : ℤ}
    (hput : env.machine.Converges (adaptiveRadixTreePut env key) s r s') :
    PutEffect env s t key (done r s') ∧
      (t.Branching → DepthsRight s → (DepthsRight s' ↔ ¬ t.LeavesLabel key)) := by
  obtain ⟨o, ho, hd, -, hset⟩ := h.settles_adaptiveRadixTreePut hb hL hkey
  obtain rfl := hput.eq_of_settles _ (adaptiveRadixTreePut_le_succ env key) hset
  exact ⟨ho, hd r s' rfl⟩

/-- The keys of a run. -/
abbrev keysOf (ks : List (Key × ℤ)) : List Key := ks.map Prod.fst

theorem keysOf_concat (ks : List (Key × ℤ)) (key : Key) (r : ℤ) :
    keysOf (ks ++ [(key, r)]) = keysOf ks ++ [key] := by simp [keysOf]

/-- What a run has built is a trie of its keys, in which every node has two edges. -/
theorem PutRun.represents_branching (hb : env.build.assertions = true) (hL : L ≤ 8)
    {ks : List (Key × ℤ)} (h : PutRun env L ks s) :
    ∃ t : Tree L, Represents env s t ∧ (∀ k, t.Stored k ↔ k ∈ keysOf ks) ∧ t.Branching := by
  induction h with
  | init hg =>
    exact ⟨_, represents_init hg, fun k => by simpa using Trie.not_stored_empty k,
      Trie.branching_empty⟩
  | adjust _ hg ih =>
    obtain ⟨t, hrep, hst, ht⟩ := ih
    exact ⟨t, hrep.setGlobal hg, hst, ht⟩
  | put _ hkey hput ih =>
    obtain ⟨t, hrep, hst, ht⟩ := ih
    cases (hrep.effect_of_converges hb hL hkey hput).1 with
    | done hrep' hstored hret hlock hbranch =>
      exact ⟨_, hrep', fun k => by rw [hstored, hst]; simp [keysOf], hbranch ht⟩

/-- What a run has built is a trie of its keys. -/
theorem PutRun.represents (hb : env.build.assertions = true) (hL : L ≤ 8) {ks : List (Key × ℤ)}
    (h : PutRun env L ks s) :
    ∃ t : Tree L, Represents env s t ∧ ∀ k, t.Stored k ↔ k ∈ keysOf ks := by
  obtain ⟨t, hrep, hst, -⟩ := h.represents_branching hb hL
  exact ⟨t, hrep, hst⟩

/-- What the insertions of a run have returned. -/
theorem PutRun.returned (hb : env.build.assertions = true) (hL : L ≤ 8) {ks : List (Key × ℤ)}
    (h : PutRun env L ks s) {ks₁ ks₂ : List (Key × ℤ)} {key : Key} {r : ℤ}
    (hks : ks = ks₁ ++ (key, r) :: ks₂) : r = if key ∈ keysOf ks₁ then 1 else 0 := by
  induction h generalizing ks₂ with
  | init => simp at hks
  | adjust _ _ ih => exact ih hks
  | put h hkey hput ih =>
    rcases List.eq_nil_or_concat ks₂ with rfl | ⟨ks₂, e, rfl⟩
    · -- the last insertion
      obtain ⟨rfl, he⟩ := List.append_inj' hks rfl
      obtain ⟨rfl, rfl⟩ : _ = key ∧ _ = r := by simpa using he
      obtain ⟨t, hrep, hst⟩ := h.represents hb hL
      cases (hrep.effect_of_converges hb hL hkey hput).1 with
      | done hrep' hstored hret hlock hbranch =>
        rcases hret with ⟨rfl, hk⟩ | ⟨rfl, hk⟩
        · rw [if_pos ((hst _).mp hk)]
        · rw [if_neg (fun hmem => hk ((hst _).mpr hmem))]
    · rw [List.concat_eq_append, ← List.cons_append, ← List.append_assoc] at hks
      exact ih (List.append_inj' hks rfl).1

/-! ### Locks -/

/-- Some key splits a prefix that two keys before it share. -/
def SomeSplits (ks : List Key) : Prop :=
  ∃ ks₁ key, ks₁ ++ [key] <+: ks ∧ SplitsPrefix (· ∈ ks₁) key

instance (ks : List Key) : Decidable (SomeSplits ks) :=
  decidable_of_iff (∃ l ∈ ks.inits, ∃ h : l ≠ [], SplitsPrefix (· ∈ l.dropLast) (l.getLast h)) <| by
    constructor
    · rintro ⟨l, hl, h, hsplit⟩
      refine ⟨_, _, ?_, hsplit⟩
      rw [List.dropLast_append_getLast h]
      exact (List.mem_inits l ks).mp hl
    · rintro ⟨ks₁, key, hpre, hsplit⟩
      exact ⟨ks₁ ++ [key], (List.mem_inits _ ks).mpr hpre, by simp, by simpa using hsplit⟩

theorem SomeSplits.mono {ks ks' : List Key} (h : SomeSplits ks) (hpre : ks <+: ks') :
    SomeSplits ks' := by
  obtain ⟨ks₁, key, hk, hsplit⟩ := h
  exact ⟨ks₁, key, hk.trans hpre, hsplit⟩

/-- A run without splits leaves no lock behind. -/
theorem PutRun.not_hasLock (hb : env.build.assertions = true) (hL : L ≤ 8) {ks : List (Key × ℤ)}
    (h : PutRun env L ks s) (hks : ¬ SomeSplits (keysOf ks)) :
    ∃ t : Tree L, Represents env s t ∧ (∀ k, t.Stored k ↔ k ∈ keysOf ks) ∧ t.Branching ∧
      ¬ HasLock s t := by
  induction h with
  | init hg =>
    refine ⟨_, represents_init hg, fun k => by simpa using Trie.not_stored_empty k,
      Trie.branching_empty, ?_⟩
    rintro ⟨n, hn, -⟩
    exact hn
  | adjust _ hg ih =>
    obtain ⟨t, hrep, hst, ht, hl⟩ := ih hks
    exact ⟨t, hrep.setGlobal hg, hst, ht, hl⟩
  | @put ks _ _ key r h hkey hput ih =>
    obtain ⟨t, hrep, hst, ht, hl⟩ := ih fun hs => hks (hs.mono (by simp [keysOf]))
    cases (hrep.effect_of_converges hb hL hkey hput).1 with
    | done hrep' hstored hret hlock hbranch =>
      refine ⟨_, hrep', fun k => by rw [hstored, hst]; simp [keysOf], hbranch ht, fun hlk => ?_⟩
      have hleaves := (hlock.mp hlk).resolve_left hl
      rw [Trie.leavesLabel_iff ht hkey, SplitsPrefix.congr hst] at hleaves
      exact hks ⟨keysOf ks, key, by simp [keysOf], hleaves⟩

/-- An insertion that finds no lock returns; it leaves a lock behind exactly when its key
splits a prefix. -/
theorem Represents.put_of_not_hasLock (h : Represents env s t) (ht : t.Branching)
    (hb : env.build.assertions = true) (hL : L ≤ 8) (hl : ¬ HasLock s t) {key : Key}
    (hkey : key.length = L) :
    ∃ r s', env.machine.Converges (adaptiveRadixTreePut env key) s r s' ∧
      ((∃ n, Reachable s' n ∧ Locked s' n) ↔ SplitsPrefix t.Stored key) := by
  obtain ⟨o, ho, -, -, hset⟩ := h.settles_adaptiveRadixTreePut hb hL hkey
  cases ho with
  | blocked hlk => exact absurd hlk hl
  | done hrep' hstored hret hlock hbranch =>
    refine ⟨_, _, hset.converges, ?_⟩
    rw [← hrep'.hasLock_iff_reachable, hlock, ← Trie.leavesLabel_iff ht hkey]
    simp [hl]

/-- Keys that never split a prefix can all be inserted. -/
theorem exists_putRun (hb : env.build.assertions = true) (hL : L ≤ 8) {g : Global}
    (hg : 0 ≤ g.curLocalMemoryUsage) {ks : List Key} (hlen : ∀ k ∈ ks, k.length = L)
    (hks : ¬ SomeSplits ks) : ∃ rs s, PutRun env L rs s ∧ keysOf rs = ks := by
  induction ks using List.reverseRecOn with
  | nil => exact ⟨[], _, .init hg, rfl⟩
  | append_singleton ks key ih =>
    have hns : ¬ SomeSplits ks := fun hs => hks (hs.mono (List.prefix_append ks [key]))
    obtain ⟨rs, s, hrun, rfl⟩ := ih (fun k hk => hlen k (by simp [hk])) hns
    obtain ⟨t, hrep, -, ht, hl⟩ := hrun.not_hasLock hb hL hns
    obtain ⟨r, s', hput, -⟩ := hrep.put_of_not_hasLock ht hb hL hl (hlen key (by simp))
    exact ⟨rs ++ [(key, r)], s', .put hrun (hlen key (by simp)) hput, keysOf_concat rs key r⟩

/-- The environment of the examples below. -/
def sampleEnv : Env := Env.bump .debug fun _ _ => .normal

theorem exists_putRun_default (ks : List Key) (hL : L ≤ 8) (hlen : ∀ k ∈ ks, k.length = L)
    (hks : ¬ SomeSplits ks) : ∃ rs s, PutRun sampleEnv L rs s ∧ keysOf rs = ks :=
  exists_putRun rfl hL (g := default) (Int.le_refl 0) hlen hks

/-- The memory after the insertion of a key, as far as it returns. -/
def Mem.afterPut (env : Env) (key : Key) (fuel : ℕ) (s : Mem) : Mem :=
  (env.machine.run (adaptiveRadixTreePut env key fuel) s).state?.getD s

theorem converges_afterPut {key : Key} {fuel : ℕ} {r : ℤ}
    (hr : (env.machine.run (adaptiveRadixTreePut env key fuel) s).answer? = some r) :
    env.machine.Converges (adaptiveRadixTreePut env key) s r (s.afterPut env key fuel) := by
  obtain ⟨s', hs', hrun⟩ := eq_done_of_answer hr
  refine ⟨fuel, ?_⟩
  rw [Mem.afterPut, hs', hrun]
  rfl

theorem PutRun.afterPut {ks : List (Key × ℤ)} (h : PutRun env L ks s) {key : Key}
    (hkey : key.length = L) {fuel : ℕ} {r : ℤ}
    (hr : (env.machine.run (adaptiveRadixTreePut env key fuel) s).answer? = some r) :
    PutRun env L (ks ++ [(key, r)]) (s.afterPut env key fuel) := h.put hkey (converges_afterPut hr)

/-! ### The main results -/

/-- **Insertions and lookups are right.**  An insertion returns `1` exactly when its key has
been inserted before, and otherwise `0`; a lookup terminates, with a leaf of the key when it
has been inserted, and with null when it has not. -/
theorem put_and_get_correct (hb : env.build.assertions = true) (hL : L ≤ 8)
    {ks : List (Key × ℤ)} (h : PutRun env L ks s) :
    (∀ ks₁ key r ks₂, ks = ks₁ ++ (key, r) :: ks₂ → r = if key ∈ keysOf ks₁ then 1 else 0) ∧
      ∀ key : Key, key.length = L → ∃ res s', env.machine.Settles (adaptiveRadixTreeGet key) s
        (done res s') ∧ if key ∈ keysOf ks then ∃ a l, res = .found a ∧ s'.leaf? a = some l ∧
          l.key = key else res = .null := by
  refine ⟨fun ks₁ key r ks₂ hks => h.returned hb hL hks, fun key hkey => ?_⟩
  obtain ⟨t, hrep, hst⟩ := h.represents hb hL
  obtain ⟨res, s', hans, hset⟩ := hrep.settles_adaptiveRadixTreeGet (hrep.shortPrefixes hL) hkey
  refine ⟨res, s', hset, ?_⟩
  cases hans with
  | found hk hl hlkey =>
    rw [if_pos ((hst key).mp hk)]
    exact ⟨_, _, rfl, Mem.leaf?_setLeaf_self .., hlkey⟩
  | null hk => rw [if_neg fun hmem => hk ((hst key).mpr hmem)]

/-- Keys that all return: a leaf is split, and a key comes again. -/
theorem put_and_get_correct_of_three : ∃ rs s, keysOf rs = [[1, 2], [1, 3], [1, 2]] ∧
    (∀ ks₁ key r ks₂, rs = ks₁ ++ (key, r) :: ks₂ → r = if key ∈ keysOf ks₁ then 1 else 0) ∧
      ∀ key : Key, key.length = 2 → ∃ res s', sampleEnv.machine.Settles
        (adaptiveRadixTreeGet key) s (done res s') ∧ if key ∈ keysOf rs then
          ∃ a l, res = .found a ∧ s'.leaf? a = some l ∧ l.key = key else res = .null := by
  obtain ⟨rs, s, hrun, hrs⟩ := exists_putRun_default (L := 2) [[1, 2], [1, 3], [1, 2]] (by decide)
    (by decide) (by decide)
  exact ⟨rs, s, hrs, put_and_get_correct rfl (by decide) hrun⟩

/-- Insertions that all return make a run. -/
theorem exists_putRun_of_returns {ks : List Key} (hlen : ∀ k ∈ ks, k.length = L)
    {P : Mem → Prop} (hall : ∀ ks₁ key, ks₁ ++ [key] <+: ks → ∀ rs s, PutRun env L rs s →
      keysOf rs = ks₁ → ∃ r s', env.machine.Converges (adaptiveRadixTreePut env key) s r s' ∧ P s')
    {ks₁ : List Key} (hpre : ks₁ <+: ks) : ∃ rs s, PutRun env L rs s ∧ keysOf rs = ks₁ := by
  induction ks₁ using List.reverseRecOn with
  | nil => exact ⟨[], _, .init (g := default) (Int.le_refl 0), rfl⟩
  | append_singleton ks₁ key ih =>
    obtain ⟨rs, s, hrun, hrs⟩ := ih ((List.prefix_append ks₁ [key]).trans hpre)
    obtain ⟨r, s', hput, -⟩ := hall ks₁ key hpre rs s hrun hrs
    exact ⟨rs ++ [(key, r)], s', .put hrun (hlen key (hpre.subset (by simp))) hput,
      by rw [keysOf_concat, hrs]⟩

/-- **When insertions leave no lock behind.**  For a sequence of keys, every insertion
terminates and leaves no reachable node locked exactly when no key of the sequence splits a
prefix that two keys before it share. -/
theorem puts_unlocked_iff (hb : env.build.assertions = true) (hL : L ≤ 8) {ks : List Key}
    (hlen : ∀ k ∈ ks, k.length = L) :
    (∀ ks₁ key, ks₁ ++ [key] <+: ks → ∀ rs s, PutRun env L rs s → keysOf rs = ks₁ →
      ∃ r s', env.machine.Converges (adaptiveRadixTreePut env key) s r s' ∧
        ∀ n, Reachable s' n → ¬ Locked s' n) ↔
      ¬ SomeSplits ks := by
  constructor
  · rintro hall ⟨ks₁, key, hpre, hsplit⟩
    have hkey : key.length = L := hlen key (hpre.subset (by simp))
    obtain ⟨rs, s, hrun, hrs⟩ := exists_putRun_of_returns hlen hall
      ((List.prefix_append ks₁ [key]).trans hpre)
    obtain ⟨t, hrep, hst, ht⟩ := hrun.represents_branching hb hL
    obtain ⟨r, s', hput, hunl⟩ := hall ks₁ key hpre rs s hrun hrs
    cases (hrep.effect_of_converges hb hL hkey hput).1 with
    | done hrep' hstored hret hlock hbranch =>
      have hleaves : t.LeavesLabel key := by
        rw [Trie.leavesLabel_iff ht hkey, SplitsPrefix.congr hst, hrs]
        exact hsplit
      obtain ⟨n, hn, hl⟩ := hrep'.hasLock_iff_reachable.mp (hlock.mpr (Or.inr hleaves))
      exact hunl n hn hl
  · intro hns ks₁ key hpre rs s hrun hrs
    have hkey : key.length = L := hlen key (hpre.subset (by simp))
    obtain ⟨t, hrep, hst, ht, hl⟩ := hrun.not_hasLock hb hL (fun hs => hns (hs.mono
      (hrs ▸ (List.prefix_append ks₁ [key]).trans hpre)))
    obtain ⟨r, s', hput, hiff⟩ := hrep.put_of_not_hasLock ht hb hL hl hkey
    refine ⟨r, s', hput, fun n hn hln => hns ⟨ks₁, key, hpre, ?_⟩⟩
    rw [SplitsPrefix.congr hst, hrs] at hiff
    exact hiff.mp ⟨n, hn, hln⟩

/-- The keys of `put_and_get_correct_of_three` split no prefix. -/
theorem puts_unlocked_iff_of_three :
    (∀ ks₁ key, ks₁ ++ [key] <+: [[1, 2], [1, 3], [1, 2]] → ∀ rs s,
      PutRun sampleEnv 2 rs s → keysOf rs = ks₁ →
      ∃ r s', sampleEnv.machine.Converges
          (adaptiveRadixTreePut sampleEnv key) s r s' ∧
        ∀ n, Reachable s' n → ¬ Locked s' n) ↔
      ¬ SomeSplits [[1, 2], [1, 3], [1, 2]] :=
  puts_unlocked_iff rfl (by decide) (by decide)

/-- Three keys, the last of which splits the prefix `1` that the first two share: they are all
inserted, and a reachable node is locked. -/
theorem three_puts_leave_lock : ∃ rs s, PutRun sampleEnv 3 rs s ∧
    keysOf rs = [[1, 1, 1], [1, 1, 2], [2, 0, 0]] ∧ ∃ n, Reachable s n ∧ Locked s n := by
  obtain ⟨rs, s, hrun, hrs⟩ := exists_putRun_default (L := 3) [[1, 1, 1], [1, 1, 2]] (by decide)
    (by decide) (by decide)
  obtain ⟨t, hrep, hst, ht, hl⟩ := hrun.not_hasLock rfl (by decide) (hrs ▸ by decide)
  obtain ⟨r, s', hput, hiff⟩ :=
    hrep.put_of_not_hasLock ht rfl (by decide) hl (show [2, 0, 0].length = 3 from rfl)
  refine ⟨rs ++ [([2, 0, 0], r)], s', .put hrun rfl hput, by rw [keysOf_concat, hrs]; rfl,
    hiff.mpr ?_⟩
  rw [SplitsPrefix.congr hst, hrs]
  decide

/-! ### Depths -/

theorem someSplits_concat_iff {ks : List Key} {key : Key} :
    SomeSplits (ks ++ [key]) ↔ SomeSplits ks ∨ SplitsPrefix (· ∈ ks) key := by
  constructor
  · rintro ⟨ks₁, x, hpre, hsplit⟩
    rcases List.prefix_concat_iff.mp hpre with heq | hpre
    · obtain ⟨rfl, hx⟩ := List.append_inj' heq rfl
      obtain rfl : x = key := by simpa using hx
      exact Or.inr hsplit
    · exact Or.inl ⟨ks₁, x, hpre, hsplit⟩
  · rintro (h | h)
    · exact h.mono (List.prefix_append ks [key])
    · exact ⟨ks, key, List.prefix_refl _, h⟩

theorem depthsRight_init (env : Env) {g : Global} (hg : 0 ≤ g.curLocalMemoryUsage) :
    DepthsRight (Mem.init g) :=
  have hrep : Represents env (Mem.init g) (Trie.empty Addr UInt8 0) := represents_init hg
  ⟨fun h0 => absurd rfl h0, fun n _ _ _ hn => ((hrep.reachable_iff n).mp hn).elim⟩

/-- The depths are not part of the state shared with the workers. -/
theorem DepthsRight.setGlobal (hd : DepthsRight s) (h : Represents env s t) {g : Global}
    (hg : 0 ≤ g.curLocalMemoryUsage) : DepthsRight (s.setGlobal g) := by
  refine hd.update h (h.setGlobal hg) fun p hp => .inr ⟨hp, ?_, fun _ _ => rfl⟩
  cases p with
  | root => rfl
  | edge m b =>
    obtain ⟨n, hn, -⟩ := h.node m hp
    exact .of_node? hn hn b

/-- An insertion that has returned keeps the depths right when its key splits no prefix. -/
theorem PutRun.depthsRight_put_iff (hb : env.build.assertions = true) (hL : L ≤ 8)
    {ks : List (Key × ℤ)} (h : PutRun env L ks s) (hd : DepthsRight s) {key : Key} {r : ℤ}
    (hkey : key.length = L) (hput : env.machine.Converges (adaptiveRadixTreePut env key) s r s') :
    DepthsRight s' ↔ ¬ SplitsPrefix (· ∈ keysOf ks) key := by
  obtain ⟨t, hrep, hst, ht⟩ := h.represents_branching hb hL
  rw [(hrep.effect_of_converges hb hL hkey hput).2 ht hd, Trie.leavesLabel_iff ht hkey,
    SplitsPrefix.congr hst]

/-- A run without splits has right depths. -/
theorem PutRun.depthsRight (hb : env.build.assertions = true) (hL : L ≤ 8) {ks : List (Key × ℤ)}
    (h : PutRun env L ks s) (hks : ¬ SomeSplits (keysOf ks)) : DepthsRight s := by
  induction h with
  | init hg => exact depthsRight_init env hg
  | adjust h hg ih =>
    obtain ⟨t, hrep, -⟩ := h.represents hb hL
    exact (ih hks).setGlobal hrep hg
  | put h hkey hput ih =>
    rw [keysOf_concat, someSplits_concat_iff, not_or] at hks
    exact (h.depthsRight_put_iff hb hL (ih hks.1) hkey hput).mpr hks.2

/-- Where the children are linked, the depths are right after every insertion exactly when no
key of the sequence splits a prefix that two keys before it share. -/
theorem depthsRight_iff_of_assertions (hb : env.build.assertions = true) (hL : L ≤ 8)
    {ks : List Key} (hlen : ∀ k ∈ ks, k.length = L) :
    (∀ rs s, PutRun env L rs s → keysOf rs <+: ks → DepthsRight s) ↔ ¬ SomeSplits ks := by
  constructor
  · intro hall
    -- along the sequence: the first split would be seen
    suffices h : ∀ ks₁, ks₁ <+: ks → ¬ SomeSplits ks₁ from h ks (List.prefix_refl ks)
    intro ks₁
    induction ks₁ using List.reverseRecOn with
    | nil =>
      rintro - ⟨ks₁, key, hpre, -⟩
      simp at hpre
    | append_singleton ks₁ key ih =>
      intro hpre
      have hpre₁ := (List.prefix_append ks₁ [key]).trans hpre
      have hns := ih hpre₁
      rw [someSplits_concat_iff, not_or]
      refine ⟨hns, ?_⟩
      have hkey : key.length = L := hlen key (hpre.subset (by simp))
      have hg : 0 ≤ (default : Global).curLocalMemoryUsage := Int.le_refl 0
      obtain ⟨rs, s, hrun, rfl⟩ :=
        exists_putRun hb hL hg (fun k hk => hlen k (hpre₁.subset hk)) hns
      obtain ⟨t, hrep, -, ht, hl⟩ := hrun.not_hasLock hb hL hns
      obtain ⟨r, s', hput, -⟩ := hrep.put_of_not_hasLock ht hb hL hl hkey
      rw [← hrun.depthsRight_put_iff hb hL (hall rs s hrun hpre₁) hkey hput]
      exact hall _ _ (.put hrun hkey hput) (by rw [keysOf_concat]; exact hpre)
  · exact fun hns rs s hrun hpre => hrun.depthsRight hb hL fun hs => hns (hs.mono hpre)

/-- The keys of `three_puts_leave_lock`: the leaves of the first two are less deep than they
should be. -/
theorem three_puts_leave_depths : ∃ rs s, PutRun sampleEnv 3 rs s ∧
    keysOf rs = [[1, 1, 1], [1, 1, 2], [2, 0, 0]] ∧ ¬ DepthsRight s := by
  obtain ⟨rs, s, hrun, hrs⟩ := exists_putRun_default (L := 3) [[1, 1, 1], [1, 1, 2]] (by decide)
    (by decide) (by decide)
  have hns : ¬ SomeSplits (keysOf rs) := hrs ▸ by decide
  obtain ⟨t, hrep, -, ht, hl⟩ := hrun.not_hasLock rfl (by decide) hns
  obtain ⟨r, s', hput, -⟩ := hrep.put_of_not_hasLock ht rfl (by decide) hl
    (show [2, 0, 0].length = 3 from rfl)
  refine ⟨rs ++ [([2, 0, 0], r)], s', .put hrun rfl hput, by rw [keysOf_concat, hrs]; rfl, ?_⟩
  rw [hrun.depthsRight_put_iff rfl (by decide) (hrun.depthsRight rfl (by decide) hns) rfl hput, hrs]
  decide

end Sidle.Art
