import Sidle.Art.Lookup

/-!
# Lookups in memories that look alike

A lookup reads of a node its offset, its prefix and the child for a byte, and whether the
node is old or being expanded.  Two memories whose nodes agree on this, up to the addresses
of the nodes, answer every lookup alike, for keys of any length and step by step.

## Main definitions

* `AlikeNode`, `Alike` — nodes and memories that agree for a lookup, along a relation
  between their pointers.

## Main results

* `Alike.answer_get` — **lookups in memories that look alike have one answer**.
-/

namespace Sidle.Art

open Prog Machine Outcome

variable {env : Env} {s s' : Mem} {R : Ptr → Ptr → Prop} {key : Key}

/-- The nodes `n` and `n'` agree on what a lookup reads; the relation `R` is between the
pointers of their memories. -/
structure AlikeNode (R : Ptr → Ptr → Prop) (n n' : ArtNode) : Prop where
  ok : n.Ok
  ok' : n'.Ok
  offset : getOffset n'.version = getOffset n.version
  prefixLen : getPrefixLen n'.version = getPrefixLen n.version
  prefixLen_le : getPrefixLen n.version ≤ 8
  prefix_ : n'.prefix_ = n.prefix_
  old : isOld n.version = false ∧ isOld n'.version = false
  expanding : isExpanding n.version = false ∧ isExpanding n'.version = false
  child : ∀ b, Option.Rel R (n.childAt b) (n'.childAt b)

/-- The memories look alike to a lookup, along the relation `R` between their pointers. -/
structure Alike (s s' : Mem) (R : Ptr → Ptr → Prop) : Prop where
  root : (s.root = 0 ∧ s'.root = 0) ∨ (s.root ≠ 0 ∧ s'.root ≠ 0 ∧ R s.root s'.root)
  leaf : ∀ p p', R p p' → isLeaf p = true → p' = p ∧ ∃ l, s.leaf? (getLeaf p) = some l ∧
    s'.leaf? (getLeaf p) = some l
  node : ∀ p p', R p p' → isLeaf p = false → isLeaf p' = false ∧
    ∃ n n', s.node? p = some n ∧ s'.node? p' = some n' ∧ AlikeNode R n n'

/-- Nothing that is not old stands above the slot. -/
def LiveParent (s : Mem) (parent : Addr) : Prop :=
  parent = 0 ∨ ∃ n, s.node? parent = some n ∧ isOld n.version = false

theorem run_parentIsOld {parent : Addr} (h : LiveParent s parent) (first : Bool) :
    env.machine.run (parentIsOld first parent) s = done false s := by
  unfold parentIsOld
  split
  · rfl
  · rename_i hne
    rcases h with rfl | ⟨n, hn, hold⟩
    · simp at hne
    · refine (env.machine.run_bind_of_done (run_artNodeGetVersion hn)).trans ?_
      rw [hold]
      rfl

variable (env) in
/-- What the comparison with a leaf comes to depends on the leaf only. -/
theorem run_leafCompareLoop_cases (a : Addr) (l : LeafNode) (l1 : ℕ) (key : Key) (k i : ℕ) :
    (∃ m, ∀ s : Mem, s.leaf? a = some l →
      env.machine.run (leafCompareLoop a l1 key k i) s = done m s) ∨
    ∀ s : Mem, s.leaf? a = some l →
      env.machine.run (leafCompareLoop a l1 key k i) s = fault .badAccess := by
  induction k generalizing i with
  | zero => exact .inl ⟨i, fun _ _ => rfl⟩
  | succ k ih =>
    unfold leafCompareLoop
    by_cases hi : i < l1 ∧ i < key.length
    · simp only [if_pos hi]
      by_cases hlt : i < l.key.length
      · have hstep {s : Mem} (hs : s.leaf? a = some l) : env.machine.run (do
            let b ← loadLeaf a (.key i)
            let c ← keyAt key i
            if b = c then leafCompareLoop a l1 key k (i + 1) else pure i) s =
              env.machine.run (if l.key.getD i 0 = key[i] then leafCompareLoop a l1 key k (i + 1)
                else pure i) s :=
          (env.machine.run_bind_of_done (run_loadLeaf (f := .key i) hs hlt)).trans
            (env.machine.run_bind_of_done (run_keyAt hi.2))
        by_cases hb : l.key.getD i 0 = key[i]
        · rcases ih (i + 1) with ⟨m, hm⟩ | hf
          · refine .inl ⟨m, fun s hs => ?_⟩
            rw [hstep hs, if_pos hb, hm s hs]
          · refine .inr fun s hs => ?_
            rw [hstep hs, if_pos hb, hf s hs]
        · refine .inl ⟨i, fun s hs => ?_⟩
          rw [hstep hs, if_neg hb]
          rfl
      · refine .inr fun s hs => env.machine.run_bind_of_fault (env.machine.run_op_error ?_)
        simp [Env.machine, Env.exec, hs, LeafField.InBounds, hlt]
    · simp only [if_neg hi]
      exact .inl ⟨i, fun _ _ => rfl⟩

variable (env) in
/-- The end of a lookup at a leaf depends on the leaf only, and does not ask for a retry. -/
theorem answer_getAtLeaf (p : Ptr) (l : LeafNode) (key : Key) (off : ℕ) :
    ∃ o, o ≠ some .retry ∧ ∀ s : Mem, s.leaf? (getLeaf p) = some l →
      (env.machine.run (getAtLeaf p key off) s).answer? = o := by
  have hlen {s : Mem} (hs : s.leaf? (getLeaf p) = some l) :
      env.machine.run (loadLeaf (getLeaf p) .keyLength) s = done l.keyLength s :=
    run_loadLeaf (f := .keyLength) hs trivial
  unfold getAtLeaf
  rcases run_leafCompareLoop_cases env (getLeaf p) l (getLeafLen l.keyLength) key
    (key.length - off) off with ⟨m, hm⟩ | hf
  · by_cases hfound : m = getLeafLen l.keyLength ∧ m = key.length
    · refine ⟨some (.found (getLeaf p)), by simp, fun s hs => ?_⟩
      rw [env.machine.run_bind_of_done (hlen hs), env.machine.run_bind_of_done (hm s hs),
        if_pos hfound, env.machine.run_bind_of_done (run_updateAccess hs)]
      rfl
    · refine ⟨some .null, by simp, fun s hs => ?_⟩
      rw [env.machine.run_bind_of_done (hlen hs), env.machine.run_bind_of_done (hm s hs),
        if_neg hfound]
      rfl
  · refine ⟨none, by simp, fun s hs => ?_⟩
    rw [env.machine.run_bind_of_done (hlen hs), env.machine.run_bind_of_fault (hf s hs)]
    rfl

/-- The byte of a key at a position is read without the memory. -/
theorem keyByte_cases (key : Key) (off : ℕ) :
    (∃ b, keyByte key off = ret b) ∨ keyByte key off = fail .badAccess := by
  unfold keyByte keyAt
  split
  · exact .inl ⟨0, rfl⟩
  · split
    · exact .inl ⟨_, rfl⟩
    · exact .inr rfl

theorem AlikeNode.prefixMatch {n n' : ArtNode} (h : AlikeNode R n n') (key : Key) (off : ℕ) :
    prefixMatch n' key off = prefixMatch n key off := by
  simp only [Art.prefixMatch, h.prefix_, h.prefixLen]

/-- Two nodes that look alike have a child for the same bytes. -/
theorem AlikeNode.slots {n n' : ArtNode} (h : AlikeNode R n n') (b : UInt8) :
    (n.slotOf b = none ∧ n'.slotOf b = none) ∨
      ∃ i i', n.slotOf b = some i ∧ n'.slotOf b = some i' ∧ R (n.child i) (n'.child i') := by
  have hc := h.child b
  unfold ArtNode.childAt at hc
  cases hi : n.slotOf b <;> cases hi' : n'.slotOf b <;> rw [hi, hi'] at hc
  · exact .inl ⟨rfl, rfl⟩
  · cases hc
  · cases hc
  · cases hc with
    | some hR => exact .inr ⟨_, _, rfl, rfl, hR⟩

/-- Below the prefix a lookup ends, fails, or goes on with the child for a byte. -/
theorem run_getDescend {an : Addr} {n : ArtNode} (hn : s.node? an = some n) (hok : n.Ok)
    (hold : isOld n.version = false) (goBegin : ℕ → ArtM GetResult)
    (descend : Slot → ℕ → ArtM GetResult) (key : Key) (off : ℕ) {b : UInt8}
    (hb : keyByte key off = ret b) :
    env.machine.run (getDescend goBegin descend an n.version key off) s =
      match n.slotOf b with
      | some i => env.machine.run
        (descend (.child an i) (off + if off ≠ key.length then 1 else 0)) s
      | none => done .null s := by
  unfold getDescend
  rw [hb]
  refine (env.machine.run_bind_of_done (run_artNodeFindChild hn hok b)).trans ?_
  refine (env.machine.run_bind_of_done (run_artNodeGetVersion hn)).trans ?_
  refine (congrArg (fun p => env.machine.run p s) (if_neg (by simpa using hold))).trans ?_
  cases n.slotOf b <;> rfl

/-- The retry loop stops after a walk that does not ask for a retry. -/
theorem answer_getRetry {fuel : ℕ}
    (hne : (env.machine.run (_adaptiveRadixTreeGet key fuel true 0 .root 0) s).answer? ≠
      some .retry) :
    (env.machine.run (getRetry key (fuel + 1)) s).answer? =
      (env.machine.run (_adaptiveRadixTreeGet key fuel true 0 .root 0) s).answer? := by
  unfold getRetry
  rw [env.machine.run_bind]
  cases hw : env.machine.run (_adaptiveRadixTreeGet key fuel true 0 .root 0) s with
  | done res u =>
    rw [hw] at hne
    rw [done_andThen, if_neg (by simpa [answer?] using hne)]
    rfl
  | fault | diverged => rfl

namespace Alike

variable (h : Alike s s' R)

include h

/-- The walks of a lookup from related slots give the same answer, which is not a retry.  The
induction is on the fuel, which both walks spend alike. -/
theorem answer_walk (key : Key) (fuel : ℕ) {parent parent' : Addr} {slot slot' : Slot} {p p' : Ptr}
    (hp : LiveParent s parent) (hp' : LiveParent s' parent') (hR : R p p')
    (hload : env.machine.run (loadSlot slot) s = done p s)
    (hload' : env.machine.run (loadSlot slot') s' = done p' s') (first : Bool) (off : ℕ) :
    (env.machine.run (_adaptiveRadixTreeGet key fuel first parent slot off) s).answer? =
        (env.machine.run (_adaptiveRadixTreeGet key fuel first parent' slot' off) s').answer? ∧
      (env.machine.run (_adaptiveRadixTreeGet key fuel first parent slot off) s).answer? ≠
        some .retry := by
  induction fuel generalizing parent parent' slot slot' p p' first off with
  | zero => exact ⟨rfl, by simp [_adaptiveRadixTreeGet, answer?]⟩
  | succ fuel ih =>
    have hagain := ih hp hp' hR hload hload' false
    unfold _adaptiveRadixTreeGet
    simp only [env.machine.run_bind_of_done (run_parentIsOld hp first),
      env.machine.run_bind_of_done (run_parentIsOld hp' first), Bool.false_eq_true, if_false,
      env.machine.run_bind_of_done hload, env.machine.run_bind_of_done hload']
    cases hl : isLeaf p with
    | true =>
      obtain ⟨rfl, l, hls, hls'⟩ := h.leaf p p' hR hl
      obtain ⟨o, ho, hans⟩ := answer_getAtLeaf env p' l key off
      rw [hl, if_pos rfl, if_pos rfl, hans s hls, hans s' hls']
      exact ⟨rfl, ho⟩
    | false =>
      obtain ⟨hl', n, n', hn, hn', hnn⟩ := h.node p p' hR hl
      rw [hl', if_neg Bool.false_ne_true, if_neg Bool.false_ne_true]
      cases fuel with
      | zero => exact ⟨rfl, by simp [artNodeGetStableExpandVersion, answer?]⟩
      | succ fuel =>
        have hold := hnn.old
        rw [env.machine.run_bind_of_done
          (run_artNodeGetStableExpandVersion hn hnn.expanding.1 fuel),
          env.machine.run_bind_of_done (run_artNodeGetStableExpandVersion hn' hnn.expanding.2 fuel),
          hnn.offset]
        by_cases hoff : getOffset n.version = off
        · have hlen' : getPrefixLen n'.version ≤ 8 := hnn.prefixLen.trans_le hnn.prefixLen_le
          simp only [if_neg (not_not.mpr hoff), hold.1, hold.2, Bool.false_eq_true, if_false,
            env.machine.run_bind_of_done (run_artNodePrefixCompare hn hnn.prefixLen_le key off),
            env.machine.run_bind_of_done (run_artNodePrefixCompare hn' hlen' key off),
            env.machine.run_bind_of_done (run_artNodeGetVersion hn),
            env.machine.run_bind_of_done (run_artNodeGetVersion hn'), compareExpand_self,
            Bool.or_self, hnn.prefixLen, hnn.prefixMatch]
          by_cases hpm : prefixMatch n key off = getPrefixLen n.version
          · rw [if_neg (not_not.mpr hpm), if_neg (not_not.mpr hpm)]
            rcases keyByte_cases key (off + getPrefixLen n.version) with ⟨b, hb⟩ | hfail
            · rw [run_getDescend hn hnn.ok hold.1 _ _ key _ hb,
                run_getDescend hn' hnn.ok' hold.2 _ _ key _ hb]
              rcases hnn.slots b with ⟨hs, hs'⟩ | ⟨i, i', hi, hi', hc⟩
              · rw [hs, hs']
                exact ⟨rfl, by simp [answer?]⟩
              · rw [hi, hi']
                exact ih (.inr ⟨n, hn, hold.1⟩) (.inr ⟨n', hn', hold.2⟩) hc
                  (run_load (f := .child i) hn (ArtNode.slotOf_lt hnn.ok hi))
                  (run_load (f := .child i') hn' (ArtNode.slotOf_lt hnn.ok' hi')) true _
            · rw [getDescend, getDescend, hfail]
              exact ⟨rfl, by simp [answer?]⟩
          · rw [if_pos hpm, if_pos hpm]
            exact ⟨rfl, by simp [answer?]⟩
        · rw [if_pos hoff, if_pos hoff]
          exact hagain off

/-- A walk from the root. -/
theorem answer_walk_root (h0 : R s.root s'.root) (key : Key) (fuel : ℕ) :
    (env.machine.run (_adaptiveRadixTreeGet key fuel true 0 .root 0) s).answer? =
        (env.machine.run (_adaptiveRadixTreeGet key fuel true 0 .root 0) s').answer? ∧
      (env.machine.run (_adaptiveRadixTreeGet key fuel true 0 .root 0) s).answer? ≠ some .retry :=
  h.answer_walk key fuel (.inl rfl) (.inl rfl) h0 run_loadRoot run_loadRoot true 0

/-- **Lookups in memories that look alike have one answer**, whatever the key and the fuel. -/
theorem answer_get (key : Key) (fuel : ℕ) :
    (env.machine.run (adaptiveRadixTreeGet key fuel) s).answer? =
      (env.machine.run (adaptiveRadixTreeGet key fuel) s').answer? := by
  unfold adaptiveRadixTreeGet
  rw [env.machine.run_bind_of_done run_loadRoot, env.machine.run_bind_of_done run_loadRoot]
  rcases h.root with ⟨h0, h0'⟩ | ⟨h0, h0', hR⟩
  · rw [if_pos h0, if_pos h0']
    rfl
  · rw [if_neg h0, if_neg h0']
    cases fuel with
    | zero => rfl
    | succ fuel =>
      -- the first walk does not ask for another one
      obtain ⟨heq, hne⟩ := h.answer_walk_root hR key fuel
      rw [answer_getRetry hne, answer_getRetry (heq ▸ hne), heq]

/-- A lookup returns the same in both memories. -/
theorem converges_get_iff (key : Key) (res : GetResult) :
    (∃ u, env.machine.Converges (adaptiveRadixTreeGet key) s res u) ↔
      ∃ u, env.machine.Converges (adaptiveRadixTreeGet key) s' res u := by
  have hiff (w : Mem) : (∃ u, env.machine.Converges (adaptiveRadixTreeGet key) w res u) ↔
      ∃ fuel, (env.machine.run (adaptiveRadixTreeGet key fuel) w).answer? = some res := by
    constructor
    · rintro ⟨u, fuel, hrun⟩
      exact ⟨fuel, by rw [hrun]; rfl⟩
    · rintro ⟨fuel, hans⟩
      obtain ⟨u, -, hrun⟩ := eq_done_of_answer hans
      exact ⟨u, fuel, hrun⟩
  rw [hiff, hiff]
  exact exists_congr fun fuel => by rw [h.answer_get key fuel]

end Alike

end Sidle.Art
