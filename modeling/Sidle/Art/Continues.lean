import Sidle.Art.Depth

/-!
# What insertions leave alone

An insertion replaces a node that it grows, and changes the others only a little: a node that
stays in the tree keeps its layout and its slots, the end of its prefix stays where it is, and
when its prefix is cut the expansion counter says so.

## Main definitions

* `ArtNode.Continues` — a later state of a node that has stayed in the tree.
* `Continues` — the same of all the nodes of a memory.

## Main results

* `ArtNode.Continues.addChild`, `ArtNode.Continues.setChild` — updates of an insertion.
* `Linked.continues_node`, `Represents.continues` — memories that hold a trie before and after
  an update.
-/

namespace Sidle.Art

open Prog Machine Outcome

/-- The node `n'` is a later state of the node `n`.  The prefix has been cut `k` times since,
each time by at least one byte. -/
structure ArtNode.Continues (n n' : ArtNode) : Prop where
  layout : n'.layout = n.layout
  count : getCount n.version ≤ getCount n'.version
  slot : ∀ b i, n.slotOf b = some i → n'.slotOf b = some i
  length : getOffset n'.version + getPrefixLen n'.version =
    getOffset n.version + getPrefixLen n.version
  expand : ∃ k, getVexpand n'.version = (getVexpand n.version + k) % 256 ∧
    getPrefixLen n'.version + k ≤ getPrefixLen n.version ∧
    (k = 0 → getPrefixLen n'.version = getPrefixLen n.version)

/-- The nodes of the memory `s` stay nodes, and those that are in the tree of `s'` were in the
tree before and have been continued. -/
def Continues (s s' : Mem) : Prop :=
  ∀ x n, s.node? x = some n → ∃ n', s'.node? x = some n' ∧
    (Reachable s' x → Reachable s x ∧ n.Continues n')

namespace ArtNode.Continues

variable {n n' n'' : ArtNode}

protected theorem trans (h : n.Continues n') (h' : n'.Continues n'') : n.Continues n'' := by
  obtain ⟨k, hk, hle, hzero⟩ := h.expand
  obtain ⟨k', hk', hle', hzero'⟩ := h'.expand
  refine ⟨h'.layout.trans h.layout, Nat.le_trans h.count h'.count,
    fun b i hi => h'.slot b i (h.slot b i hi), h'.length.trans h.length, k + k', ?_, by omega, ?_⟩
  · rw [hk', hk, Nat.mod_add_mod, Nat.add_assoc]
  · intro hkk
    rw [hzero' (by omega), hzero (by omega)]

/-- What does not touch the version word, the layout and the slots. -/
theorem of_version (hlayout : n'.layout = n.layout) (hversion : n'.version = n.version)
    (hslot : ∀ b, n'.slotOf b = n.slotOf b) : n.Continues n' := by
  refine ⟨hlayout, ?_, fun b i hi => (hslot b).trans hi, ?_, 0, ?_, ?_, ?_⟩
  all_goals rw [hversion]
  · rw [Nat.add_zero, Nat.mod_eq_of_lt (getVexpand_lt n.version)]
  · exact Nat.le_refl _
  · exact fun _ => rfl

protected theorem refl (n : ArtNode) : n.Continues n := of_version rfl rfl fun _ => rfl

/-- Redirecting a slot that is in use. -/
theorem setChild {b : UInt8} {i : ℕ} {p : Ptr} (hi : n.slotOf b = some i) (hp : p ≠ 0) :
    n.Continues (n.setChild i p) := of_version rfl rfl (slotOf_setChild hi hp)

/-- A version word that differs in its locks and in the count only. -/
theorem of_view (locked : Bool) {count : ℕ} (hlayout : n'.layout = n.layout)
    (hview : view n'.version = { view n.version with locked := locked, count := count })
    (hcount : getCount n.version ≤ count)
    (hslot : ∀ b i, n.slotOf b = some i → n'.slotOf b = some i) : n.Continues n' := by
  obtain ⟨hoff, hcount', hlen, -⟩ := view_fields hview
  have hexp : getVexpand n'.version = getVexpand n.version := congrArg View.vexpand hview
  refine ⟨hlayout, hcount'.ge.trans' hcount, hslot, by rw [hoff, hlen]; rfl, 0, ?_, hlen.le,
    fun _ => hlen⟩
  rw [hexp, Nat.add_zero, Nat.mod_eq_of_lt (getVexpand_lt n.version)]

/-- A node that has been locked, given a child and unlocked. -/
theorem addChild {b : UInt8} {p : Ptr} {n₁ : ArtNode} (hlk : LockedNode n n₁) (hok : n₁.Ok)
    (hroom : n₁.HasRoom) (hb : n₁.slotOf b = none) (hp : p ≠ 0)
    (hexp : isExpanding n.version = false) :
    n.Continues ((n₁.addChild b p).setVersion (unlockedVersion (n₁.addChild b p).version)) := by
  have hview₁ : view n₁.version = { view n.version with locked := true } := by
    rw [hlk.eq]
    exact view_setLock n.version
  have hview₂ := ArtNode.view_addChild (b := b) hroom p
  have hexp₂ : isExpanding (n₁.addChild b p).version = false := by
    rw [← view_expanding, hview₂, view_expanding, hlk.expanding, hexp]
  have hview₃ := view_unlockedVersion hexp₂
  have hlayout : ((n₁.addChild b p).setVersion (unlockedVersion (n₁.addChild b p).version)).layout =
      n.layout := by
    rw [hlk.eq]
    exact addChild_layout p
  have hcount₁ : getCount n₁.version = getCount n.version := congrArg View.count hview₁
  have hcount : getCount n.version ≤ getCount (n₁.addChild b p).version := by
    by_cases hk : n₁.layout = .node256
    · rw [addChild_node256 hk]
      exact hcount₁.ge
    · rw [count_addChild hroom hk, hcount₁]
      exact Nat.le_succ _
  have hview : view ((n₁.addChild b p).setVersion
    (unlockedVersion (n₁.addChild b p).version)).version =
      { view n.version with locked := false, count := getCount (n₁.addChild b p).version } := by
    rw [setVersion_version, hview₃, hview₂, hview₁]
  apply of_view false hlayout hview hcount
  intro c i hi
  rw [slotOf_setVersion (congrArg View.count hview₃), slotOf_addChild hok hroom hb hp]
  have hi₁ : n₁.slotOf c = some i := (hlk.slotOf c).trans hi
  have hcb : c ≠ b := by
    rintro rfl
    rw [hb] at hi₁
    cases hi₁
  rw [if_neg hcb, hi₁]

end ArtNode.Continues

namespace Continues

variable {s s' s'' : Mem}

protected theorem refl (s : Mem) : Continues s s := by
  intro x n hn
  exact ⟨n, hn, fun hx => ⟨hx, .refl n⟩⟩

protected theorem trans (h : Continues s s') (h' : Continues s' s'') : Continues s s'' := by
  intro x n hn
  obtain ⟨n', hn', hreach⟩ := h x n hn
  obtain ⟨n'', hn'', hreach'⟩ := h' x n' hn'
  refine ⟨n'', hn'', fun hx => ?_⟩
  obtain ⟨hx', hc'⟩ := hreach' hx
  obtain ⟨hx'', hc⟩ := hreach hx'
  exact ⟨hx'', hc.trans hc'⟩

end Continues

theorem Mem.Fresh.node?_addr {env : Env} {s : Mem} (hs : s.Fresh env) {i : ℕ}
    (hi : s.allocated ≤ i) : s.node? (env.addr i) = none := by
  cases hn : s.node? (env.addr i) with
  | none => rfl
  | some n => exact absurd rfl (hs.ne_addr (Or.inr (by simp [Mem.heap_of_node? hn])) hi)

/-- Redirecting the slot of a place continues the node that the place belongs to. -/
theorem Linked.continues_node {env : Env} {s s₁ s₂ : Mem} {q : Place Addr UInt8} {new_ x : Addr}
    {n : ArtNode} {P : Prop} (h : Linked env s s₁ s₂ q new_) (hs : s.Fresh env) (hnew : new_ ≠ 0)
    (hx : s.node? x = some n)
    (hother : x ≠ owner q → ∃ n', s₁.node? x = some n' ∧ (P → n.Continues n')) :
    ∃ n', s₂.node? x = some n' ∧ (P → n.Continues n') := by
  by_cases hxo : x = owner q
  · cases q with
    | root => exact absurd hxo (hs.ne_zero_of_node? hx)
    | edge m b =>
      obtain ⟨-, nd, i, hnd, hi, hnd'⟩ := h.redirected
      obtain rfl : x = m := hxo
      obtain rfl := Option.some.inj (hnd.symm.trans hx)
      exact ⟨_, hnd', fun _ => .setChild hi hnew⟩
  · obtain ⟨n', hn', hc⟩ := hother hxo
    exact ⟨n', (Mem.node?_congr (h.other x hxo)).trans hn', hc⟩

/-- Memories that hold a trie before and after an update that adds the node `new_` at most. -/
theorem Represents.continues {L : ℕ} {env : Env} {s s' : Mem} {t t' : Tree L} {new_ : Addr}
    (h : Represents env s t) (h' : Represents env s' t') (hnew : s.node? new_ = none)
    (hlive : ∀ x, t'.live x → x = new_ ∨ t.live x)
    (hnode : ∀ x n, s.node? x = some n → ∃ n', s'.node? x = some n' ∧
      (t.live x → t'.live x → n.Continues n')) : Continues s s' := by
  intro x n hn
  obtain ⟨n', hn', hc⟩ := hnode x n hn
  refine ⟨n', hn', fun hx => ?_⟩
  have hx' := (h'.reachable_iff x).mp hx
  have hxt : t.live x := by
    rcases hlive x hx' with rfl | hxt
    · rw [hnew] at hn
      cases hn
    · exact hxt
  exact ⟨(h.reachable_iff x).mpr hxt, hc hxt hx'⟩

end Sidle.Art
