import Sidle.Masstree.Frame

/-!
# What a lookup finds in the copy of a leaf

A migration copies a leaf with its struct only.  The suffixes that lie in the bag behind the
struct are left behind: the copy of an entry that has one there is not found any more, while
suffixes in a bag of their own are shared by the leaf and its copy.

## Main definitions

* `Leaf.lookup` — the lookup in a leaf.
* `Leaf.WellFormed` — the entries are sorted and say where their suffixes are.
* `SameEntries` — the leaves hold what they held.

## Main results

* `lookup_copy_iff` — the copy answers as the leaf does if no entry has its suffix behind the
  struct, and only then.
* `leafMigration_lookup_iff` — the same for a migration.
-/

namespace Sidle.Masstree

open Art (Build Fault)
open Prog Machine Word Worker

/-! ### The lookup -/

/-- The lookup in a leaf: what `ksuf_matches` says of the entry found, and its word. -/
def Leaf.lookup (l : Leaf) (external : Stringbag) (ka : Key) : ℤ × ℕ :=
  match (l.lower ka).p with
  | some p => (l.ksufMatches external p ka, l.lv p)
  | none => (0, 0)

/-- The bag that `ksuf_` points to. -/
def Mem.externalBag (mem : Mem) (l : Leaf) : Stringbag :=
  (mem.bag? l.ksuf).getD (Stringbag.external 0)

/-- The lookup in the leaf at `a`. -/
def Mem.lookup (mem : Mem) (a : Addr) (ka : Key) : Option (ℤ × ℕ) :=
  (mem.leaf? a).map fun l => l.lookup (mem.externalBag l) ka

/-- The entries are sorted, and those that have a suffix say so. -/
structure Leaf.WellFormed (l : Leaf) (external : Stringbag) : Prop where
  size : l.size ≤ l.permutation.slots.length
  ikey : ∀ q ∈ l.permutation.used, l.ikey0 q < 2 ^ 64
  keylenx : ∀ q ∈ l.permutation.used,
    l.keylenx q ≤ ikeySize ∨ l.keylenx q = ksufKeylenx ∨ l.keylenx q = layerKeylenx
  suffix : ∀ q ∈ l.permutation.used, l.hasKsuf q = true → l.ksufAt external q ≠ []
  sorted : l.permutation.used.Pairwise fun q q' => l.ikey0 q < l.ikey0 q' ∨
    l.ikey0 q = l.ikey0 q' ∧ l.keylenx q ≤ ikeySize ∧ l.keylenx q < l.keylenx q'

/-- The copy of a leaf, with an empty bag behind its struct. -/
def Leaf.copied (l : Leaf) (capacity : ℕ) : Leaf := { l with iksuf := Stringbag.internal capacity }

section Lookup

variable {l : Leaf} {external : Stringbag} {ka : Key} {q : ℕ}

theorem length_used (h : l.size ≤ l.permutation.slots.length) :
    l.permutation.used.length = l.size := by
  simp only [Permuter.used, List.length_take]
  exact min_eq_left h

theorem getElem_used {i : ℕ} (hi : i < l.permutation.used.length) :
    l.permutation.used[i] = l.permutation.slot i := by
  have hlen : i < l.permutation.slots.length := by
    simp only [Permuter.used, List.length_take] at hi
    omega
  simp [Permuter.used, Permuter.slot, List.getD_eq_getElem?_getD, List.getElem?_eq_getElem hlen]

/-- An entry that the search finds is in use. -/
theorem lower_mem_used (h : l.size ≤ l.permutation.slots.length)
    (hq : (l.lower ka).p = some q) : q ∈ l.permutation.used := by
  obtain ⟨m, -, hm, rfl⟩ := lowerBoundBy_mem hq
  rw [← length_used h] at hm
  exact getElem_used hm ▸ List.getElem_mem hm

/-- The search finds an entry with a suffix for any key with its slice and some suffix. -/
theorem lower_of_hasKsuf (h : l.WellFormed external) (hq : q ∈ l.permutation.used)
    (hsuf : l.hasKsuf q = true) (hikey : ka.ikey = l.ikey0 q) (hka : ikeySize < ka.length) :
    (l.lower ka).p = some q := by
  obtain ⟨i, hi, rfl⟩ := List.mem_iff_getElem.mp hq
  have hlen := length_used h.size
  have hkeylenx : l.keylenx l.permutation.used[i] = ksufKeylenx := by
    simpa [Leaf.hasKsuf, keylenxHasKsuf] using hsuf
  have hsorted {j k : ℕ} (hj : j < l.permutation.used.length) (hk : k < l.permutation.used.length)
      (hjk : j < k) := List.pairwise_iff_getElem.mp h.sorted j k hj hk hjk
  have heq : l.compareKey ka (l.permutation.slot i) = .eq := by
    rw [← getElem_used hi]
    simp only [Leaf.compareKey, Key.compare, hikey, compare_eq_iff_eq.mpr, if_pos hka]
    rw [if_neg (by rw [hkeylenx]; decide)]
  have hlow (j : ℕ) (hj : j < i) : l.compareKey ka (l.permutation.slot j) = .gt := by
    have hj' : j < l.permutation.used.length := by omega
    rw [← getElem_used hj']
    simp only [Leaf.compareKey, Key.compare, hikey]
    cases hsorted hj' hi hj with
    | inl hlt => simp only [compare_gt_iff_gt.mpr hlt]
    | inr hlen => simp only [compare_eq_iff_eq.mpr hlen.1.symm, if_pos hka, if_pos hlen.2.1]
  have hhigh (j : ℕ) (hij : i < j) (hj : j < l.size) :
      l.compareKey ka (l.permutation.slot j) = .lt := by
    have hj' : j < l.permutation.used.length := by omega
    rw [← getElem_used hj']
    simp only [Leaf.compareKey, Key.compare, hikey]
    cases hsorted hi hj' hij with
    | inl hlt => simp only [compare_lt_iff_lt.mpr hlt]
    | inr hlen =>
      rw [hkeylenx] at hlen
      exact absurd hlen.2.1 (by decide)
  unfold Leaf.lower
  rw [lowerBoundBy_eq heq (fun j _ => hlow j) hhigh (Nat.zero_le i) (by omega) (by omega)]
  rw [getElem_used hi]

/-- **The copy answers as the leaf does exactly if no entry has its suffix behind the
struct.** -/
theorem lookup_copy_iff (h : l.WellFormed external) (capacity : ℕ) :
    (∀ ka, (l.copied capacity).lookup external ka = l.lookup external ka) ↔
      l.ksuf ≠ 0 ∨ ∀ q ∈ l.permutation.used, l.hasKsuf q = false := by
  have hmatch {ka : Key} {p : ℕ} (hp : (l.lower ka).p = some p) :
      (l.copied capacity).lookup external ka =
        ((l.copied capacity).ksufMatches external p ka, l.lv p) ∧
        l.lookup external ka = (l.ksufMatches external p ka, l.lv p) := by
    have hp' : ((l.copied capacity).lower ka).p = some p := hp
    exact ⟨by simp only [Leaf.lookup, hp']; rfl, by simp only [Leaf.lookup, hp]⟩
  constructor
  · intro hall
    by_contra hcon
    push Not at hcon
    obtain ⟨hksuf, q, hq, hsuf⟩ := hcon
    have hsuf : l.hasKsuf q = true := by simpa using hsuf
    have hkeylenx : l.keylenx q = ksufKeylenx := by simpa [Leaf.hasKsuf, keylenxHasKsuf] using hsuf
    have hne := h.suffix q hq hsuf
    have hksufAt : l.ksufAt external q = l.iksuf.get q := by simp [Leaf.ksufAt, Leaf.bag, hksuf]
    rw [hksufAt] at hne
    -- the key of the entry
    let ka : Key := ⟨[], slice (l.ikey0 q) ++ l.iksuf.get q⟩
    have hlen : ka.length = ikeySize + (l.iksuf.get q).length := by
      simp only [Key.length, ka, List.length_append, length_slice]
    have hsuffix : ka.suffix = l.iksuf.get q := by
      simp only [Key.suffix, ka]
      rw [List.drop_append_of_le_length (length_slice _).ge, ← length_slice (l.ikey0 q)]
      simp
    have hlower : (l.lower ka).p = some q :=
      lower_of_hasKsuf h hq hsuf (makeComparable_slice (h.ikey q hq) _)
        (by have := List.length_pos_iff.mpr hne; omega)
    obtain ⟨hcopy, hold⟩ := hmatch hlower
    have heq := congrArg Prod.fst (hcopy.symm.trans ((hall ka).trans hold))
    have hempty : (l.copied capacity).ksufAt external q = [] := by
      simp [Leaf.ksufAt, Leaf.bag, Leaf.copied, hksuf, Stringbag.internal, Stringbag.make]
    have hkeylenx' : (l.copied capacity).keylenx q = ksufKeylenx := hkeylenx
    simp only [Leaf.ksufMatches, hkeylenx, hkeylenx', hksufAt, hempty, hsuffix] at heq
    simp [ksufKeylenx, layerKeylenx, hne.symm] at heq
  · intro hcond ka
    cases hp : (l.lower ka).p with
    | none =>
      have hp' : ((l.copied capacity).lower ka).p = none := hp
      simp only [Leaf.lookup, hp, hp']
    | some p =>
      obtain ⟨hcopy, hold⟩ := hmatch hp
      rw [hcopy, hold]
      congr 1
      have hused := lower_mem_used h.size hp
      cases hcond with
      | inl hksuf => simp [Leaf.ksufMatches, Leaf.copied, Leaf.ksufAt, Leaf.bag, hksuf]
      | inr hno =>
        have hnot : l.keylenx p ≠ ksufKeylenx := by
          simpa [Leaf.hasKsuf, keylenxHasKsuf] using hno p hused
        have hkeylenx' : (l.copied capacity).keylenx p = l.keylenx p := rfl
        simp only [Leaf.ksufMatches, hkeylenx']
        rcases h.keylenx p hused with hle | heq | heq
        · rw [if_pos (by simp only [ikeySize, ksufKeylenx] at *; omega), if_pos]
          simp only [ikeySize, ksufKeylenx] at *
          omega
        · exact absurd heq hnot
        · rw [heq]
          simp [ksufKeylenx, layerKeylenx]

end Lookup

/-! ### The nodes say what they said -/

/-- What a lookup reads in a node. -/
inductive Contents
  | leaf (permutation : Permuter) (keylenx ikey0 lv : ℕ → ℕ) (ksuf : Addr) (iksuf : Stringbag)
  | internode (nkeys : ℕ) (ikey0 : ℕ → ℕ) (child : ℕ → Addr)

/-- What a lookup reads in the node. -/
def Node.contents : Node → Contents
  | leaf l => .leaf l.permutation l.keylenx l.ikey0 l.lv l.ksuf l.iksuf
  | internode x => .internode x.nkeys x.ikey0 x.child

/-- What a lookup reads in the nodes of the memory. -/
def Mem.contents (mem : Mem) (a : Addr) : Option Contents := (mem.node? a).map Node.contents

theorem lookup_congr {l l' : Leaf} (h : (Node.leaf l').contents = (Node.leaf l).contents)
    (external : Stringbag) (ka : Key) : l'.lookup external ka = l.lookup external ka := by
  obtain ⟨hperm, hkeylenx, hikey, hlv, hksuf, hiksuf⟩ := (Contents.leaf.injEq .. ▸ h)
  have h' : l' = { l' with
      permutation := l.permutation
      keylenx := l.keylenx
      ikey0 := l.ikey0
      lv := l.lv
      ksuf := l.ksuf
      iksuf := l.iksuf } := by
    rw [← hperm, ← hkeylenx, ← hikey, ← hlv, ← hksuf, ← hiksuf]
  rw [h']
  rfl

/-- The nodes say what they said, and the bags hold what they held. -/
structure SameContents (mem mem' : Mem) : Prop where
  contents : mem'.contents = mem.contents
  bag : mem'.bag? = mem.bag?

instance : IsPreorder Mem SameContents where
  refl _ := ⟨rfl, rfl⟩
  trans _ _ _ h h' := ⟨h'.contents.trans h.contents, h'.bag.trans h.bag⟩

section Frames

variable {mem mem' : Mem} {a : Addr} {n n' : Node}

theorem contents_eq_internode {x : Internode} (h : mem'.contents a = mem.contents a)
    (hx : mem'.internode? a = some x) :
    ∃ x', mem.internode? a = some x' ∧ x.nkeys = x'.nkeys ∧ x.child = x'.child := by
  rw [internode?_eq_some] at hx
  simp only [Mem.contents, hx, Option.map_some] at h
  obtain ⟨n', hn', hcontents⟩ := Option.map_eq_some_iff.mp h.symm
  cases n' with
  | leaf => cases hcontents
  | internode x' =>
    obtain ⟨hnkeys, -, hchild⟩ := (Contents.internode.injEq .. ▸ hcontents)
    exact ⟨x', internode?_eq_some.mpr hn', hnkeys.symm, hchild.symm⟩

theorem contents_setNode (h : mem.node? a = some n) :
    (mem.setNode a n').contents = Function.update mem.contents a (some n'.contents) := by
  funext b
  by_cases hb : b = a
  · subst hb
    obtain ⟨c, hc, -⟩ := node?_eq_some.mp h
    simp [Mem.contents, Mem.node?, Mem.setNode, hc]
  · simp [Mem.contents, Mem.node?, Mem.setNode, Function.update_of_ne hb]

theorem sameContents_setNode (h : mem.node? a = some n) (hn : n'.contents = n.contents) :
    SameContents mem (mem.setNode a n') := by
  refine ⟨?_, rfl⟩
  rw [contents_setNode h, hn, Function.update_eq_self_iff]
  simp [Mem.contents, h]

theorem Quiet.sameContents (h : Quiet mem mem') : SameContents mem mem' := by
  refine ⟨funext fun a => ?_, by rw [h.rest]; rfl⟩
  have hcore := congrArg (Option.map fun b => b.node.contents) (h.core a)
  have hcontents (m : Node) : m.core.contents = m.contents := by cases m <;> rfl
  simpa [Mem.contents, Mem.node?, Function.comp_def, hcontents] using hcore

theorem contents_setVersion (v : NodeVersion) : (n.setVersion v).contents = n.contents := by
  cases n <;> rfl

theorem contents_setParent (p : Addr) : (n.setParent p).contents = n.contents := by
  cases n <;> rfl

end Frames

section Keeps

variable (build : Build) (a p new_ : Addr)

theorem keeps_sameContents {α : Type} {p : MtM α} (h : machine.Keeps Quiet p) :
    machine.Keeps SameContents p := fun mem => (h mem).imp fun _ _ hq => hq.sameContents

theorem keeps_writeVersion (f : NodeVersion → NodeVersion) :
    machine.Keeps SameContents (writeVersion a f) :=
  keeps_access fun _ _ hn => sameContents_setNode hn (contents_setVersion _)

theorem keeps_setParent : machine.Keeps SameContents (setParent a p) :=
  keeps_access fun _ _ hn => sameContents_setNode hn (contents_setParent _)

theorem keeps_unlock : machine.Keeps SameContents (unlock build a) :=
  keeps_read.bind fun _ => (keeps_assert _ _).bind fun _ => keeps_writeVersion a _

theorem keeps_unlockLocked (env : Env) : machine.Keeps SameContents (unlockLocked env a) :=
  keeps_read.bind fun _ => keeps_ite (keeps_unlock _ a) keeps_ret

theorem keeps_markLocked (f : NodeVersion → NodeVersion) :
    machine.Keeps SameContents (markLocked build a f) :=
  keeps_read.bind fun _ => (keeps_assert _ _).bind fun _ => keeps_writeVersion a f

theorem keeps_retireBlock : machine.Keeps SameContents (retireBlock a) := by
  refine keeps_access fun mem n hn => ⟨funext fun b => ?_, rfl⟩
  by_cases hb : b = a
  · subst hb
    simp [Mem.contents, Mem.node?, Mem.retire, Function.comp_def]
  · simp [Mem.contents, Mem.node?, Mem.retire, Function.update_of_ne hb]

theorem keeps_retireBag : machine.Keeps SameContents (retireBag a) := by
  refine keeps_access fun mem b hb => ⟨rfl, funext fun c => ?_⟩
  by_cases hc : c = a
  · subst hc
    simp [Mem.bag?, Mem.retireBag, Function.comp_def]
  · simp [Mem.bag?, Mem.retireBag, Function.update_of_ne hc]

theorem keeps_deallocateLeaf : machine.Keeps SameContents (deallocateLeaf a) := by
  refine keeps_read.bind fun l => ?_
  exact keeps_when (keeps_retireBag _) fun _ => keeps_retireBlock a

end Keeps

/-! ### The migration -/

section Migration

variable {env : Env} {fuel : ℕ} {cur new_ parent : Addr} {target : NodeMemType} {mem : Mem}

theorem ensures_giveUp {a b p : Addr} :
    machine.Ensures (giveUp env a b p) mem fun q _ => q = 0 := by
  refine (keeps_unlock _ a).then fun _ _ _ => (keeps_unlock _ b).then fun _ _ _ => ?_
  exact ensures_ite (fun _ => (keeps_unlock _ p).then fun _ _ _ => ensures_ret.mpr rfl)
    fun _ => ensures_ret.mpr rfl

/-- The child at `posi` is replaced. -/
def Internode.setChild (x : Internode) (posi : ℕ) (child : Addr) : Internode :=
  { x with child := Function.update x.child posi child }

theorem childPosition_spec {x : Internode} {ikey posi : ℕ} {child : Addr}
    (h : x.childPosition ikey child = some posi) : x.child posi = child := by
  unfold Internode.childPosition at h
  split at h
  · rename_i hc
    cases h
    exact hc
  · simpa using List.find?_some h

/-- The internode `p` has got `new_` in the place of `cur`, and nothing else that a lookup reads
has changed. -/
def Replaced (mem : Mem) (cur new_ p : Addr) (mem' : Mem) : Prop :=
  ∃ x posi, mem.internode? p = some x ∧ x.child posi = cur ∧
    mem'.contents = Function.update mem.contents p
      (some (Node.internode (x.setChild posi new_)).contents) ∧ mem'.bag? = mem.bag?

theorem SameContents.replaced {mem mem₁ mem₂ mem' : Mem} {p : Addr} (h : SameContents mem mem₁)
    (h₁ : Replaced mem₁ cur new_ p mem₂) (h₂ : SameContents mem₂ mem') :
    Replaced mem cur new_ p mem' := by
  obtain ⟨x, posi, hx, hchild, hcontents, hbag⟩ := h₁
  obtain ⟨x', hx', hnkeys, hchild'⟩ := contents_eq_internode (congrFun h.contents p) hx
  have hikey : x.ikey0 = x'.ikey0 := by
    have hp := congrFun h.contents p
    simp only [Mem.contents, internode?_eq_some.mp hx, internode?_eq_some.mp hx', Option.map_some,
      Node.contents, Option.some.injEq, Contents.internode.injEq] at hp
    exact hp.2.1
  refine ⟨x', posi, hx', hchild' ▸ hchild, ?_, h₂.bag.trans (hbag.trans h.bag)⟩
  rw [h₂.contents, hcontents, h.contents]
  simp only [Node.contents, Internode.setChild, hnkeys, hikey, hchild']

theorem ensures_assignCopy {p : Addr} {posi : ℕ}
    (hx : ∀ x, mem.internode? p = some x → x.child posi = cur) :
    machine.Ensures (assignCopy p posi new_) mem fun _ mem' => Replaced mem cur new_ p mem' := by
  refine (keeps_setParent new_ p).then fun _ mem₁ h₁ => ?_
  refine ensures_access fun x hx₁ => ?_
  obtain ⟨x', hx', -, hchild⟩ := contents_eq_internode (congrFun h₁.contents p) hx₁
  have hset : Replaced mem₁ cur new_ p (mem₁.setNode p (.internode (x.setChild posi new_))) :=
    ⟨x, posi, hx₁, hchild ▸ hx x' hx', contents_setNode (internode?_eq_some.mp hx₁), rfl⟩
  exact h₁.replaced hset (refl_of SameContents _)

/-- The parent of the leaf gets the new leaf in its place. -/
theorem ensures_replaceLeaf :
    machine.Ensures (replaceLeaf env fuel cur new_) mem fun p mem' =>
      p ≠ 0 → Replaced mem cur new_ p mem' := by
  unfold replaceLeaf
  refine (ensures_lockedParent env.build cur fuel mem).bind fun p mem₁ h₁ => ?_
  refine (keeps_read (R := SameContents)).then fun v mem₂ h₂ => ?_
  extract_lets jp
  have hrest (invalid : Bool) (mem₃ : Mem) (h₃ : SameContents mem mem₃) :
      machine.Ensures (jp invalid) mem₃ fun p mem' => p ≠ 0 → Replaced mem cur new_ p mem' := by
    refine ensures_ite (fun _ => ensures_giveUp.imp fun _ _ h h0 => absurd h h0) fun _ => ?_
    refine (keeps_read (R := SameContents)).then fun l mem₄ h₄ => ?_
    refine ensures_read.bind fun x mem₅ h₅ => ?_
    obtain ⟨rfl, x', hx, rfl⟩ := h₅
    refine (keeps_assert (R := Eq) _ _).then fun _ mem₆ h₆ => ?_
    subst h₆
    split
    · exact ensures_giveUp.imp fun _ _ h h0 => absurd h h0
    · rename_i posi hposi
      have hcopy : machine.Ensures (assignCopy p posi new_) mem₅ fun _ mem' =>
          Replaced mem₅ cur new_ p mem' := ensures_assignCopy fun y hy => by
        obtain rfl : x = y := Option.some.inj (hx.symm.trans hy)
        exact childPosition_spec hposi
      refine hcopy.bind fun _ mem₇ h₇ => ?_
      refine (keeps_sameContents (keeps_changeLink cur new_ fuel)).then fun _ mem₈ h₈ => ?_
      refine (keeps_markLocked env.build cur _).then fun _ mem₉ h₉ => ?_
      refine (keeps_deallocateLeaf cur).then fun _ mem₁₀ h₁₀ => ?_
      refine (keeps_unlockLocked cur env).then fun _ mem₁₁ h₁₁ => ?_
      refine (keeps_unlockLocked new_ env).then fun _ mem₁₂ h₁₂ => ensures_ret.mpr fun _ => ?_
      have hafter : SameContents mem₇ mem₁₂ :=
        trans_of _ h₈ (trans_of _ h₉ (trans_of _ h₁₀ (trans_of _ h₁₁ h₁₂)))
      exact (trans_of _ h₃ h₄ : SameContents mem _).replaced h₇ hafter
  have h₀ : SameContents mem mem₂ := trans_of _ h₁.1.sameContents h₂
  refine ensures_ite (fun _ => hrest true mem₂ h₀) fun _ => ?_
  refine (keeps_read (R := SameContents)).then fun pv mem₃ h₃ => ?_
  exact hrest pv.deleted mem₃ (trans_of _ h₀ h₃)

theorem Quiet.fresh {mem' : Mem} (h : Quiet mem mem') : mem'.fresh = mem.fresh := by
  rw [h.rest]
  rfl

theorem contents_alloc {size : ℕ} {n : Node} :
    (mem.alloc size n).contents = Function.update mem.contents mem.fresh (some n.contents) := by
  funext a
  by_cases ha : a = mem.fresh
  · subst ha
    simp [Mem.contents, Mem.node?, Mem.alloc]
  · simp [Mem.contents, Mem.node?, Mem.alloc, Function.update_of_ne ha]

/-- A new leaf is empty, and it does not touch the other nodes. -/
theorem ensures_makeLeaf {ksufsize depth accessTime : ℕ} {isMigration : Bool} :
    machine.Ensures (makeLeaf env ksufsize depth target accessTime isMigration) mem
      fun a mem' => a = mem.fresh ∧ mem'.bag? = mem.bag? ∧
        mem'.contents = Function.update mem.contents mem.fresh
          (some (Node.leaf
            (Leaf.make (Leaf.allocationSize ksufsize) target depth accessTime)).contents) := by
  refine ensures_poolAllocate.bind fun a mem₁ h₁ => ?_
  obtain ⟨rfl, rfl⟩ := h₁
  have hglobal : machine.Keeps SameContents
      (updateLocalMemoryUsage env target depth (Leaf.allocationSize ksufsize) isMigration true) :=
    keeps_onGlobal fun _ _ _ _ => ⟨rfl, rfl⟩
  refine hglobal.then fun _ mem₂ h₂ => ensures_ret.mpr ⟨rfl, h₂.bag, ?_⟩
  exact h₂.contents.trans contents_alloc

/-- The struct of the leaf is copied, and what lies behind it is not. -/
theorem ensures_memcpyLeaf {l r : Leaf} {capacity : ℕ}
    (hl : mem.contents cur = some (Node.leaf l).contents)
    (hr : mem.contents new_ = some (Node.leaf r).contents)
    (hempty : r.iksuf = Stringbag.internal capacity) :
    machine.Ensures (memcpyLeaf new_ cur) mem fun _ mem' => mem'.bag? = mem.bag? ∧
      mem'.contents = Function.update mem.contents new_
        (some (Node.leaf (l.copied capacity)).contents) := by
  refine ensures_read.bind fun l₁ mem₁ h₁ => ?_
  obtain ⟨rfl, l', hl', rfl⟩ := h₁
  refine ensures_access fun r' hr' => ⟨rfl, ?_⟩
  rw [leaf?_eq_some] at hl' hr'
  simp only [Mem.contents, hl', hr', Option.map_some, Option.some.injEq] at hl hr
  rw [contents_setNode hr']
  simp only [Node.contents, Leaf.copied, Contents.leaf.injEq] at hl hr ⊢
  obtain ⟨hperm, hkeylenx, hikey, hlv, hksuf, -⟩ := hl
  rw [hperm, hkeylenx, hikey, hlv, hksuf, hr.2.2.2.2.2, hempty]

/-- What a successful migration of a leaf has done: the parent has the new leaf in its place,
and the new leaf is a copy with an empty bag behind its struct. -/
structure Migrated (mem : Mem) (cur : Addr) (l : Leaf) (p : Addr) (mem' : Mem) : Prop where
  copy : ∃ capacity, mem'.contents mem.fresh = some (Node.leaf (l.copied capacity)).contents
  parent : ∃ x x' posi, mem.internode? p = some x ∧ x.child posi = cur ∧
    mem'.internode? p = some x' ∧ x'.child = Function.update x.child posi mem.fresh
  bag : mem'.bag? = mem.bag?

theorem ensures_leafMigration {l : Leaf} (hl : mem.leaf? cur = some l)
    (hfresh : mem.node? mem.fresh = none) :
    machine.Ensures (leafMigration env fuel cur parent target) mem fun p mem' =>
      p ≠ 0 → Migrated mem cur l p mem' := by
  have hne : cur ≠ mem.fresh := fun h => by
    rw [← h, leaf?_eq_some.mp hl] at hfresh
    cases hfresh
  have hcur : mem.contents cur = some (Node.leaf l).contents := by
    simp [Mem.contents, leaf?_eq_some.mp hl]
  refine ensures_ite (fun _ => ensures_ret.mpr fun h => absurd rfl h) fun _ => ?_
  refine (keeps_read (R := Eq)).then fun v _ h => ?_
  subst h
  refine (keeps_read (R := Eq)).then fun l₀ _ h => ?_
  subst h
  refine ensures_ite (fun _ => ensures_ret.mpr fun h => absurd rfl h) fun _ => ?_
  refine (keeps_read (R := Eq)).then fun v _ h => ?_
  subst h
  refine ensures_ite (fun _ => ensures_ret.mpr fun h => absurd rfl h) fun _ => ?_
  refine (keeps_waitUnchanged cur fuel).then fun _ mem₁ h₁ => ?_
  refine (keeps_read (R := Eq)).then fun l₁ _ h => ?_
  subst h
  have hbag : machine.Keeps Eq (externalBag l₁) := keeps_ite keeps_read keeps_ret
  refine hbag.then fun b _ h => ?_
  subst h
  refine ensures_makeLeaf.bind fun new_ mem₂ h₂ => ?_
  obtain ⟨rfl, hbag₂, hcontents₂⟩ := h₂
  rw [h₁.fresh, h₁.sameContents.contents] at hcontents₂
  rw [h₁.sameContents.bag] at hbag₂
  rw [h₁.fresh]
  refine (keeps_sameContents (keeps_lock env.build cur fuel)).then fun _ mem₃ h₃ => ?_
  have hcur₃ : mem₃.contents cur = some (Node.leaf l).contents := by
    rw [h₃.contents, hcontents₂, Function.update_of_ne hne, hcur]
  have hnew₃ := (congrFun h₃.contents mem.fresh).trans
    ((congrFun hcontents₂ mem.fresh).trans (Function.update_self ..))
  refine (ensures_memcpyLeaf hcur₃ hnew₃ rfl).bind fun _ mem₄ h₄ => ?_
  obtain ⟨hbag₄, hcontents₄⟩ := h₄
  have hmeta : machine.Keeps SameContents
      (writeLeaf mem.fresh fun r => { r with metadata := { r.metadata with type := target } }) :=
    keeps_access fun _ _ hr => sameContents_setNode (leaf?_eq_some.mp hr) rfl
  refine hmeta.then fun _ mem₅ h₅ => (keeps_writeVersion cur _).then fun _ mem₆ h₆ => ?_
  refine ensures_replaceLeaf.imp fun p mem' hrep hp => ?_
  obtain ⟨x, posi, hx, hchild, hcontents, hbag⟩ := hrep hp
  have hbefore : mem₆.contents = Function.update mem.contents mem.fresh
      (some (Node.leaf (l.copied
        (Leaf.allocationSize (l₁.ksufUsedCapacity b) - Leaf.sizeof))).contents) := by
    rw [h₆.contents, h₅.contents, hcontents₄, h₃.contents, hcontents₂, Function.update_idem]
  have hpne : p ≠ mem.fresh := fun h => by
    have hpc := congrFun hbefore p
    rw [h, Function.update_self] at hpc
    simp [Mem.contents, internode?_eq_some.mp (h ▸ hx), Node.contents] at hpc
  have hpsame : mem₆.contents p = mem.contents p := by
    rw [hbefore, Function.update_of_ne hpne]
  obtain ⟨x₀, hx₀, -, hchild₀⟩ := contents_eq_internode hpsame hx
  refine ⟨⟨Leaf.allocationSize (l₁.ksufUsedCapacity b) - Leaf.sizeof, ?_⟩, ?_, ?_⟩
  · rw [hcontents, Function.update_of_ne hpne.symm, hbefore, Function.update_self]
  · have hp' := congrFun hcontents p
    rw [Function.update_self] at hp'
    obtain ⟨n, hn, hnc⟩ := Option.map_eq_some_iff.mp hp'
    cases n with
    | leaf => cases hnc
    | internode x' =>
      refine ⟨x₀, x', posi, hx₀, hchild₀ ▸ hchild, internode?_eq_some.mpr hn, ?_⟩
      rw [← hchild₀]
      exact (Contents.internode.injEq .. ▸ hnc).2.2
  · rw [hbag, h₆.bag, h₅.bag, hbag₄, h₃.bag, hbag₂]

/-- **When the copy of a leaf answers as the leaf.**  A migration that succeeds puts a new leaf in
the place of the leaf; every lookup in it answers what it answered in the leaf if and only if
the suffixes of the leaf lie in a bag of their own, or no entry has one. -/
theorem leafMigration_lookup_iff {l : Leaf} {p : Addr} {mem' : Mem} (hl : mem.leaf? cur = some l)
    (hwf : l.WellFormed (mem.externalBag l)) (hfresh : mem.node? mem.fresh = none)
    (hrun : machine.run (leafMigration env fuel cur parent target) mem = .done p mem')
    (hp : p ≠ 0) :
    (∃ x x' posi, mem.internode? p = some x ∧ x.child posi = cur ∧
        mem'.internode? p = some x' ∧ x'.child = Function.update x.child posi mem.fresh) ∧
      ((∀ ka, mem'.lookup mem.fresh ka = mem.lookup cur ka) ↔
        l.ksuf ≠ 0 ∨ ∀ q ∈ l.permutation.used, l.hasKsuf q = false) := by
  have hmig := ensures_leafMigration hl hfresh p mem' hrun hp
  refine ⟨hmig.parent, ?_⟩
  obtain ⟨capacity, hcopy⟩ := hmig.copy
  obtain ⟨n, hn, hnc⟩ := Option.map_eq_some_iff.mp hcopy
  cases n with
  | internode => cases hnc
  | leaf l' =>
    have hksuf : l'.ksuf = l.ksuf := (Contents.leaf.injEq .. ▸ hnc).2.2.2.2.1
    have hbag : mem'.externalBag l' = mem.externalBag l := by
      simp only [Mem.externalBag, hksuf, hmig.bag]
    rw [← lookup_copy_iff hwf capacity]
    refine forall_congr' fun ka => ?_
    simp only [Mem.lookup, leaf?_eq_some.mpr hn, hl, Option.map_some, Option.some.injEq, hbag,
      lookup_congr hnc]

end Migration

/-! ### A leaf with a long key -/

section LongKey

/-- A leaf of type `t` with the key `aaaaaaaab`, whose last byte lies behind the struct. -/
def longKeyLeaf (t : NodeMemType) : Leaf :=
  { Leaf.make 384 t 2 1 with
    keylenx := fun _ => ksufKeylenx
    permutation := Permuter.makeSorted 1
    ikey0 := fun _ => makeComparable (List.replicate 8 97)
    lv := fun _ => 7
    next := 16
    parent := 24
    iksuf := { Stringbag.internal 72 with get := fun p => if p = 0 then [98] else [] } }

/-- That leaf below a root of the same type, beside a leaf with the key `b`. -/
def longKeyMem (t : NodeMemType) : Mem where
  blocks := fun a =>
    if a = 8 then some ⟨.leaf (longKeyLeaf t), 384, false⟩
    else if a = 16 then
      some ⟨.leaf
        { Leaf.make 320 t 2 1 with
          keylenx := fun _ => 1
          permutation := Permuter.makeSorted 1
          ikey0 := fun _ => makeComparable [98]
          lv := fun _ => 9
          prev := 8
          parent := 24 }, 320, false⟩
    else if a = 24 then
      some ⟨.internode
        { Internode.make 1 t 1 with
          version := setFlag 30 (NodeVersion.make false)
          nkeys := 1
          ikey0 := fun _ => makeComparable [98]
          child := fun i => if i = 0 then 8 else 16 }, 272, false⟩
    else none
  bags := fun _ => none
  allocated := 3
  root := 24
  callbacks := []
  demotionQueue := []
  global :=
    { threshold := ⟨8, 1, 1⟩
      maxLocalMemoryUsage := 4096
      curLocalMemoryUsage := 976
      slowDownInLoad := false
      flags := ⟨false, true, true, true⟩
      promotionPairQueue := []
      demotionPairQueue := [] }

/-- A build with assertions, and memory that is never short. -/
def plainEnv : Env := ⟨.debug, fun _ _ => .normal⟩

theorem longKeyLeaf_wellFormed (t : NodeMemType) (external : Stringbag) :
    (longKeyLeaf t).WellFormed external := by
  have hused : (longKeyLeaf t).permutation.used = [0] := rfl
  constructor
  · exact (by decide : 1 ≤ 15)
  · exact fun q _ => show makeComparable (List.replicate 8 97) < 2 ^ 64 by decide
  · exact fun _ _ => Or.inr (Or.inl rfl)
  · intro q hq _
    rw [hused, List.mem_singleton] at hq
    subst hq
    exact List.cons_ne_nil 98 []
  · rw [hused]
    exact List.pairwise_singleton _ _

theorem leafMigration_lookup_iff_longKey :
    ∃ mem', machine.run (leafMigration plainEnv 9 8 24 .remote) (longKeyMem .local_) =
      .done 24 mem' ∧
      ((∀ ka, mem'.lookup (longKeyMem .local_).fresh ka = (longKeyMem .local_).lookup 8 ka) ↔
        (longKeyLeaf .local_).ksuf ≠ 0 ∨
          ∀ q ∈ (longKeyLeaf .local_).permutation.used,
            (longKeyLeaf .local_).hasKsuf q = false) := by
  obtain ⟨mem', -, hrun⟩ := Outcome.eq_done_of_answer
    (show (machine.run (leafMigration plainEnv 9 8 24 .remote) (longKeyMem .local_)).answer? =
      some 24 by
      decide +kernel)
  exact ⟨mem', hrun, (leafMigration_lookup_iff (l := longKeyLeaf .local_) rfl
    (longKeyLeaf_wellFormed _ _) rfl
    hrun (by decide)).2⟩

/-- The key is found in the leaf, and not in the leaf that has taken its place. -/
theorem longKey_lost :
    (longKeyLeaf .local_).WellFormed ((longKeyMem .local_).externalBag (longKeyLeaf .local_)) ∧
      (machine.run (leafMigration plainEnv 9 8 24 .remote) (longKeyMem .local_)).answer? = some 24 ∧
      (longKeyMem .local_).lookup 8 (Key.ofStr (List.replicate 8 97 ++ [98])) = some (1, 7) ∧
      (machine.run (leafMigration plainEnv 9 8 24 .remote) (longKeyMem .local_)).state?.bind
        (·.lookup (longKeyMem .local_).fresh (Key.ofStr (List.replicate 8 97 ++ [98]))) =
          some (0, 7) :=
  ⟨longKeyLeaf_wellFormed _ _, by decide +kernel, by decide +kernel, by decide +kernel⟩

end LongKey

end Sidle.Masstree
