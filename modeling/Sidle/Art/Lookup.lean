import Sidle.Art.Represents
import Sidle.Art.Tree

/-!
# Lookup

`adaptive_radix_tree_get` walks down the trie that the memory holds, one node a round,
and answers with the leaf of the key exactly when the key is stored.  It takes no lock,
so it terminates whatever nodes are locked.

## Main definitions

* `GetAnswer` — what a lookup has to answer.

## Main results

* `Represents.settles_get` — a lookup from any place on the path of the key.
* `Represents.adaptiveRadixTreeGet` — a lookup terminates with the right answer.
-/

namespace Sidle.Art

open Prog Machine Outcome

variable {L : ℕ} {env : Env} {s : Mem} {t : Tree L}

/-- The right answer of a lookup in a memory that holds `t`: the leaf with the key, whose
access it counts, or null. -/
inductive GetAnswer (s : Mem) (t : Tree L) (key : Key) : GetResult → Mem → Prop
  | found (hk : t.Stored key) {a : Addr} {l : LeafNode} (hl : s.leaf? a = some l)
      (hkey : l.key = key) :
      GetAnswer s t key (.found a)
        (s.setLeaf a { l with accessTime := (l.accessTime + 1) % 2 ^ 16 })
  | null (hk : ¬ t.Stored key) : GetAnswer s t key .null s

theorem GetAnswer.ne_retry {key : Key} {res : GetResult} {s' : Mem} (h : GetAnswer s t key res s') :
    res ≠ .retry := by
  cases h <;> simp

/-- Two keys of one length that agree up to `off` agree to the end exactly when they are
equal. -/
theorem keyMatch_eq_length_iff {k₁ k₂ : Key} {off : ℕ} (hlen : k₁.length = k₂.length)
    (hoff : off ≤ k₂.length) (hagree : ∀ i < off, k₁[i]? = k₂[i]?) :
    keyMatch k₁ k₂ off = k₂.length ↔ k₁ = k₂ := by
  constructor
  · intro h
    refine List.ext_getElem? fun i => ?_
    by_cases hi : i < off
    · exact hagree i hi
    · by_cases hi' : i < k₂.length
      · exact getElem?_of_lt_keyMatch (Nat.le_of_not_lt hi) (by omega)
      · rw [List.getElem?_eq_none (by omega), List.getElem?_eq_none (by omega)]
  · rintro rfl
    by_contra hne
    have : keyMatch k₁ k₁ off ≤ k₁.length := keyMatch_le hoff
    exact getElem?_keyMatch_ne hoff (by omega) rfl

theorem compareExpand_self (v : Version) : artNodeVersionCompareExpand v v = false := by
  simp [artNodeVersionCompareExpand]

/-- The end of a lookup at a leaf, for a key of any length. -/
theorem run_getAtLeaf {a : Addr} {l : LeafNode} (hl : s.leaf? a = some l) (ha : getLeaf (a + 1) = a)
    (hlen : getLeafLen l.keyLength = l.key.length) {key : Key} {off : ℕ} (hoff : off ≤ key.length)
    (hagree : ∀ i < off, l.key[i]? = key[i]?) :
    env.machine.run (getAtLeaf (a + 1) key off) s =
      if l.key = key then
        done (.found a) (s.setLeaf a { l with accessTime := (l.accessTime + 1) % 2 ^ 16 })
      else done .null s := by
  unfold getAtLeaf
  rw [ha]
  have hcmp : env.machine.run
    (leafCompareLoop a (getLeafLen l.keyLength) key (key.length - off) off) s =
      done (keyMatch l.key key off) s := by
    rw [hlen]
    exact run_leafCompareLoop hl key _ _
  refine (env.machine.run_bind_of_done (run_loadLeaf (f := .keyLength) hl trivial)).trans ?_
  refine (env.machine.run_bind_of_done hcmp).trans ?_
  by_cases heq : l.key = key
  · have hkm := (keyMatch_eq_length_iff (congrArg List.length heq) hoff hagree).mpr heq
    rw [if_pos heq, if_pos ⟨hkm.trans ((congrArg List.length heq).symm.trans hlen.symm), hkm⟩,
      env.machine.run_bind_of_done (run_updateAccess hl)]
    rfl
  · rw [if_neg heq, if_neg]
    · rfl
    · rintro ⟨h₁, h₂⟩
      have hkey : l.key.length = key.length := hlen.symm.trans (h₁.symm.trans h₂)
      exact heq ((keyMatch_eq_length_iff hkey hoff hagree).mp h₂)

/-- A lookup whose slot holds a leaf. -/
theorem run_get_slot {slot : Slot} {p : Ptr} (hload : env.machine.run (loadSlot slot) s = done p s)
    (hl : isLeaf p = true) (key : Key) (fuel : ℕ) (parent : Addr) (off : ℕ) :
    env.machine.run (_adaptiveRadixTreeGet key (fuel + 1) true parent slot off) s =
      env.machine.run (getAtLeaf p key off) s := by
  unfold _adaptiveRadixTreeGet
  simp only [parentIsOld, Bool.true_or, if_true, pure_eq_ret, ret_bind,
    Bool.false_eq_true, if_false]
  refine (env.machine.run_bind_of_done hload).trans ?_
  rw [if_pos hl]

/-- The retry loop ends with a walk from the root that does not ask for a retry. -/
theorem settles_adaptiveRadixTreeGet_of_walk {key : Key} {res : GetResult} {s' : Mem}
    (hroot : s.root ≠ 0) (hres : res ≠ .retry)
    (hwalk : env.machine.Settles (fun fuel => _adaptiveRadixTreeGet key fuel true 0 .root 0) s
      (done res s')) : env.machine.Settles (adaptiveRadixTreeGet key) s (done res s') := by
  refine hwalk.step_run _ 1 0 fun fuel hfuel => ?_
  unfold adaptiveRadixTreeGet
  rw [env.machine.run_bind_of_done run_loadRoot, if_neg hroot]
  unfold getRetry
  refine (env.machine.run_bind_of_done hfuel).trans ?_
  rw [if_neg hres]
  rfl

/-- No prefix of the tree is longer than the array that holds it. -/
def ShortPrefixes (s : Mem) (t : Tree L) : Prop :=
  ∀ c nd, t.live c → s.node? c = some nd → getPrefixLen nd.version ≤ 8

namespace Represents

variable (h : Represents env s t)

include h

/-- A lookup that has come to a leaf. -/
theorem run_get_leaf {q : Place Addr UInt8} {k key : Key} {slot : Slot} (hq : t.IsPlace q)
    (hget : t.get q = some (.leaf k)) (hslot : SlotAt s q slot) (hpath : t.path q <+: key)
    (parent : Addr) :
    ∃ res s', GetAnswer s t key res s' ∧ ∀ fuel, env.machine.run
      (_adaptiveRadixTreeGet key (fuel + 1) true parent slot (t.path q).length) s =
        done res s' := by
  obtain ⟨p, hload, href⟩ := h.run_loadSlot hq hget hslot
  obtain ⟨a, l, rfl, hl, rfl, hlen⟩ := href.of_leaf
  obtain ⟨i, -, hi⟩ := h.fresh.exists_addr_of_leaf? hl
  have hal : 8 ∣ a := hi ▸ env.addr_aligned i
  have hword : t.path q <+: l.key := Trie.path_prefix_word hq hget
  have hrun (fuel : ℕ) := run_get_slot hload (isLeaf_succ hal) key fuel parent (t.path q).length
  simp only [hrun, run_getAtLeaf hl (getLeaf_succ hal) hlen hpath.length_le
    fun i hi => by rw [hword.getElem?_eq hi, hpath.getElem?_eq hi]]
  by_cases heq : l.key = key
  · simp only [if_pos heq]
    exact ⟨_, _, .found ⟨q, hq, heq ▸ hget⟩ hl heq, fun _ => rfl⟩
  · simp only [if_neg heq]
    refine ⟨_, _, .null fun hst => ?_, fun _ => rfl⟩
    rcases Trie.stored_of_place hq hst hpath with h' | ⟨c, hc, -⟩
    · exact heq (by simpa [hget] using h')
    · simp [hget] at hc

/-- A prefix is no longer than the keys. -/
theorem shortPrefixes (hL : L ≤ 8) : ShortPrefixes s t := by
  intro c nd hc hnd
  obtain ⟨nd', hnd', hrep⟩ := h.node c hc
  obtain rfl := Option.some.inj (hnd.symm.trans hnd')
  have hplen := hrep.length
  have hlabel := t.label_length c hc
  omega

/-- A lookup that has come to a node, up to the comparison of the prefix. -/
theorem run_get_compare (key : Key) (hP : ShortPrefixes s t) {q : Place Addr UInt8} {c : Addr}
    {nd : ArtNode} {slot : Slot} (hq : t.IsPlace q) (hget : t.get q = some (.node c))
    (hnd : s.node? c = some nd)
    (hrep : NodeRep s t c nd) (hslot : SlotAt s q slot) (parent : Addr) (fuel : ℕ) :
    env.machine.run (_adaptiveRadixTreeGet key (fuel + 2) true parent slot (t.path q).length) s =
      env.machine.run
        (if prefixMatch nd key (t.path q).length ≠ getPrefixLen nd.version then pure .null
        else getDescend (_adaptiveRadixTreeGet key (fuel + 1) false parent slot)
          (_adaptiveRadixTreeGet key (fuel + 1) true c) c nd.version key
          ((t.path q).length + getPrefixLen nd.version)) s := by
  obtain ⟨p, hload, rfl⟩ := h.run_loadSlot hq hget hslot
  have hc := Trie.live_of_place hq hget
  have hoff := (hrep.place q hq hget).2
  conv_lhs => unfold _adaptiveRadixTreeGet
  simp only [parentIsOld, Bool.true_or, if_true, pure_eq_ret, ret_bind,
    Bool.false_eq_true, if_false]
  refine (env.machine.run_bind_of_done hload).trans ?_
  rw [if_neg (by simpa using h.not_isLeaf hc)]
  refine (env.machine.run_bind_of_done
    (run_artNodeGetStableExpandVersion hnd hrep.expanding fuel)).trans ?_
  rw [if_neg (by simpa using hoff), if_neg (by simpa using hrep.old)]
  refine (env.machine.run_bind_of_done
    (run_artNodePrefixCompare hnd (hP p nd hc hnd) key (t.path q).length)).trans ?_
  refine (env.machine.run_bind_of_done (run_artNodeGetVersion hnd)).trans ?_
  rw [if_neg (by simp [hrep.old, compareExpand_self])]

/-- A lookup that has passed the prefix of a node looks for the child for the next byte. -/
theorem run_get_below (hP : ShortPrefixes s t) {key : Key} {q : Place Addr UInt8} {c : Addr}
    {nd : ArtNode} {slot : Slot} (hq : t.IsPlace q) (hget : t.get q = some (.node c))
    (hnd : s.node? c = some nd) (hrep : NodeRep s t c nd) (hslot : SlotAt s q slot)
    (hlt : (t.label c).length < key.length)
    (hp : prefixMatch nd key (t.path q).length = getPrefixLen nd.version) (parent : Addr)
    (fuel : ℕ) :
    env.machine.run (_adaptiveRadixTreeGet key (fuel + 2) true parent slot (t.path q).length) s =
      env.machine.run (match (nd.slotOf key[(t.label c).length]).map fun i => Slot.child c i with
        | some slot => _adaptiveRadixTreeGet key (fuel + 1) true c slot ((t.label c).length + 1)
        | none => pure .null) s := by
  have hlen : (t.path q).length + getPrefixLen nd.version = (t.label c).length := by
    rw [← (hrep.place q hq hget).2, hrep.length]
  have hbyte : env.machine.run (keyByte key (t.label c).length) s =
      done key[(t.label c).length] s := by
    unfold keyByte
    rw [if_neg (Nat.ne_of_lt hlt), run_keyAt hlt]
  rw [h.run_get_compare key hP hq hget hnd hrep hslot parent, if_neg (by simpa using hp), hlen]
  unfold getDescend
  rw [if_pos (Nat.ne_of_lt hlt)]
  refine (env.machine.run_bind_of_done hbyte).trans ?_
  refine (env.machine.run_bind_of_done (run_artNodeFindChild hnd hrep.ok _)).trans ?_
  refine (env.machine.run_bind_of_done (run_artNodeGetVersion hnd)).trans ?_
  exact congrArg (fun p => env.machine.run p s) (if_neg (by simpa using hrep.old))

/-- A lookup that has come to a node ends there or goes on with one of its edges. -/
theorem run_get_node (hP : ShortPrefixes s t) {q : Place Addr UInt8} {c : Addr} {key : Key}
    {slot : Slot} (hq : t.IsPlace q) (hget : t.get q = some (.node c)) (hslot : SlotAt s q slot)
    (hkey : key.length = L) (hpath : t.path q <+: key) (parent : Addr) :
    (¬ t.Stored key ∧ ∀ fuel, env.machine.run
        (_adaptiveRadixTreeGet key (fuel + 2) true parent slot (t.path q).length) s =
          done .null s) ∨
      ∃ b r i, t.label c ++ [b] <+: key ∧ t.edge c b = some r ∧ SlotAt s (.edge c b) (.child c i) ∧
        ∀ fuel, env.machine.run
          (_adaptiveRadixTreeGet key (fuel + 2) true parent slot (t.path q).length) s =
          env.machine.run (_adaptiveRadixTreeGet key (fuel + 1) true c (.child c i)
            ((t.label c).length + 1)) s := by
  have hc := Trie.live_of_place hq hget
  obtain ⟨nd, hnd, hrep⟩ := h.node c hc
  have hstart := h.run_get_compare key hP hq hget hnd hrep hslot parent
  have hiff := prefixMatch_eq_iff hrep hq hget hpath
  by_cases hpre : t.label c <+: key
  · -- the prefix agrees with the key
    have hlt : (t.label c).length < key.length := hkey ▸ t.label_length c hc
    have hb : t.label c ++ [key[(t.label c).length]] <+: key :=
      List.append_singleton_prefix_iff.mpr ⟨hpre, List.getElem?_eq_getElem hlt⟩
    have hdown := h.run_get_below hP hq hget hnd hrep hslot hlt (hiff.mpr hpre) parent
    cases hr : t.edge c key[(t.label c).length] with
    | none =>
      refine Or.inl ⟨fun hst => ?_, fun fuel => ?_⟩
      · have hplace : t.IsPlace (.edge c key[(t.label c).length]) := hc
        rcases Trie.stored_of_place hplace hst hb with h' | ⟨d, hd, -⟩
        · simp [hr] at h'
        · simp [hr] at hd
      · rw [hdown, (edge_eq_none_iff hrep).mp hr]
        rfl
    | some r =>
      obtain ⟨i, hi⟩ := h.exists_slotAt hc hr
      refine Or.inr ⟨_, r, i, hb, hr, hi, fun fuel => ?_⟩
      obtain ⟨nd', j, hnd', hj, hslot'⟩ := hi
      obtain rfl : nd = nd' := by simpa [hnd] using hnd'
      obtain rfl : i = j := by simpa using hslot'
      rw [hdown, hj]
      rfl
  · refine Or.inl ⟨fun hst => ?_, fun fuel => ?_⟩
    · rcases Trie.stored_of_place hq hst hpath with h' | ⟨d, hd, hdk⟩
      · simp [hget] at h'
      · obtain rfl : c = d := by simpa [hget] using hd
        exact hpre hdk
    · rw [hstart, if_pos (by simpa using hiff.not.mpr hpre)]
      rfl

/-- A lookup from any place on the path of the key comes to the right answer.  The
induction is on the part of the key that is left. -/
theorem settles_get (hP : ShortPrefixes s t) {key : Key} (hkey : key.length = L)
    {q : Place Addr UInt8}
    {r : Ref Addr UInt8} {slot : Slot} (hq : t.IsPlace q) (hget : t.get q = some r)
    (hslot : SlotAt s q slot) (hpath : t.path q <+: key) (parent : Addr) :
    ∃ res s', GetAnswer s t key res s' ∧ env.machine.Settles
      (fun fuel => _adaptiveRadixTreeGet key fuel true parent slot (t.path q).length) s
      (done res s') := by
  induction hd : L - (t.path q).length using Nat.strong_induction_on
    generalizing q r slot parent with
  | _ d ih =>
    cases r with
    | leaf k =>
      obtain ⟨res, s', hans, hrun⟩ := h.run_get_leaf hq hget hslot hpath parent
      exact ⟨res, s', hans, settles_of_add _ 1 hrun⟩
    | node c =>
      rcases h.run_get_node hP hq hget hslot hkey hpath parent with
        ⟨hns, hrun⟩ | ⟨b, r, i, hb, hr, hi, hrun⟩
      · exact ⟨.null, s, .null hns, settles_of_add _ 2 hrun⟩
      · have hc := Trie.live_of_place hq hget
        have hle := (Trie.path_prefix_word hq hget).length_le
        have hlt := t.label_length c hc
        simp only [Ref.word_node] at hle
        obtain ⟨res, s', hans, hset⟩ := ih (L - (t.path (.edge c b)).length)
          (by simp only [Trie.path_edge, List.length_append, List.length_singleton]; omega)
          (q := .edge c b) hc hr hi hb c rfl
        refine ⟨res, s', hans, hset.step _ 2 1 fun fuel => ?_⟩
        rw [hrun]
        simp

/-- A lookup terminates with the right answer. -/
theorem settles_adaptiveRadixTreeGet (hP : ShortPrefixes s t) {key : Key} (hkey : key.length = L) :
    ∃ res s', GetAnswer s t key res s' ∧
      env.machine.Settles (adaptiveRadixTreeGet key) s (done res s') := by
  have hload : env.machine.run (lift .loadRoot) s = done s.root s := run_loadRoot
  cases hr : t.root with
  | none =>
    have hroot := h.root
    rw [hr] at hroot
    refine ⟨.null, s, .null (Trie.not_stored_of_root hr key), settles_of_add _ 0 fun fuel => ?_⟩
    unfold adaptiveRadixTreeGet
    rw [env.machine.run_bind_of_done hload, if_pos hroot]
    rfl
  | some r =>
    obtain ⟨p, hp, href⟩ := h.run_loadSlot (q := .root) trivial hr rfl
    have hp0 := h.ne_zero_of_refers (q := .root) trivial hr href
    obtain rfl : s.root = p := by simpa [loadSlot, hload] using hp
    obtain ⟨res, s', hans, hset⟩ := h.settles_get hP hkey (q := .root) trivial hr rfl
      List.nil_prefix 0
    exact ⟨res, s', hans, settles_adaptiveRadixTreeGet_of_walk hp0 hans.ne_retry hset⟩

end Represents

end Sidle.Art
