import Sidle.Masstree.Upkeep

/-!
# An insertion keeps the memory sound

The insertion of a key, from the descent to the last unlock, on a memory that is sound and in
which no node is locked.  Between the two it holds the lock of the leaf of its cursor, and while
it splits nodes those of the node that was split, of the new node beside it and of their parent.

## Main definitions

* `Outline.held`, `Grown` — which nodes are locked, and how an outline may grow.
* `AtLeaf`, `Splitting` — where an insertion stands.

## Main results

* `traced_findLocked` — the cursor's leaf is locked, and in the tree.
* `traced_splitRound` — a round of the splits moves up to the next internode.
* `traced_put` — **an insertion keeps the memory sound and leaves no lock behind.**
-/

namespace Sidle.Masstree

open Art (Build Fault)
open Prog Machine Outcome Word Worker

/-! ### Outlines that grow -/

section Growth

/-- The locked nodes. -/
def Outline.held (x : Outline) : Set Addr := {a | Held x a}

/-- Every node stays, and no node is marked as deleted. -/
structure Grown (x y : Outline) : Prop where
  old : ∀ ⦃a s⦄, x a = some s → ∃ t, y a = some t ∧ t.leaf = s.leaf ∧ t.deleted = s.deleted
  new_ : ∀ ⦃a s⦄, x a = none → y a = some s → s.deleted = false

/-- The locks stay as they are, no node is marked as deleted, and of the new ones those of `E` are
locked. -/
structure Extends (E : Set Addr) (x y : Outline) : Prop where
  old : ∀ ⦃a s⦄, x a = some s → ∃ t, y a = some t ∧ t.leaf = s.leaf ∧ t.deleted = s.deleted ∧
    t.locked = s.locked
  new_ : ∀ ⦃a s⦄, x a = none → y a = some s → s.deleted = false ∧ (s.locked = true ↔ a ∈ E)
  locked : ∀ ⦃a⦄, a ∈ E → x a = none ∧ Held y a

variable {E E' : Set Addr} {x y z : Outline} {a b : Addr} {s t : Sketch}

theorem Grown.refl : Grown x x := by
  refine ⟨fun _ s h => ⟨s, h, rfl, rfl⟩, fun _ _ h h' => ?_⟩
  rw [h] at h'
  cases h'

theorem Grown.trans (h : Grown x y) (h' : Grown y z) : Grown x z := by
  refine ⟨fun a s hs => ?_, fun a s hx hz => ?_⟩
  · obtain ⟨t, ht, hleaf, hdel⟩ := h.old hs
    obtain ⟨u, hu, hleaf', hdel'⟩ := h'.old ht
    exact ⟨u, hu, hleaf'.trans hleaf, hdel'.trans hdel⟩
  · cases hy : y a with
    | none => exact h'.new_ hy hz
    | some t =>
      obtain ⟨u, hu, -, hdel⟩ := h'.old hy
      rw [hz] at hu
      cases hu
      exact hdel.trans (h.new_ hx hy)

theorem Extends.grown (h : Extends E x y) : Grown x y := by
  refine ⟨fun a s hs => ?_, fun a s hx hy => (h.new_ hx hy).1⟩
  obtain ⟨t, ht, hleaf, hdel, -⟩ := h.old hs
  exact ⟨t, ht, hleaf, hdel⟩

theorem Extends.held (h : Extends E x y) : y.held = x.held ∪ E := by
  ext a
  cases hx : x a with
  | none =>
    have hnot : ¬Held x a := by
      rintro ⟨s, hs, -⟩
      rw [hx] at hs
      cases hs
    constructor
    · rintro ⟨s, hs, hl⟩
      exact Or.inr ((h.new_ hx hs).2.mp hl)
    · rintro (ha | ha)
      · exact absurd ha hnot
      · exact (h.locked ha).2
  | some s =>
    obtain ⟨t, ht, -, -, hlock⟩ := h.old hx
    constructor
    · rintro ⟨u, hu, hl⟩
      rw [ht] at hu
      cases hu
      exact Or.inl ⟨s, hx, hlock.symm.trans hl⟩
    · rintro (⟨u, hu, hl⟩ | ha)
      · rw [hx] at hu
        cases hu
        exact ⟨t, ht, hlock.trans hl⟩
      · have hnone := (h.locked ha).1
        rw [hx] at hnone
        cases hnone

theorem Extends.refl : Extends ∅ x x := by
  refine ⟨fun _ s h => ⟨s, h, rfl, rfl, rfl⟩, fun _ _ h h' => ?_, fun _ h => absurd h ?_⟩
  · rw [h] at h'
    cases h'
  · exact Set.notMem_empty _

theorem Extends.trans (h : Extends E x y) (h' : Extends E' y z) : Extends (E ∪ E') x z := by
  refine ⟨fun a s hs => ?_, fun a s hx hz => ?_, fun a ha => ?_⟩
  · obtain ⟨t, ht, hleaf, hdel, hlock⟩ := h.old hs
    obtain ⟨u, hu, hleaf', hdel', hlock'⟩ := h'.old ht
    exact ⟨u, hu, hleaf'.trans hleaf, hdel'.trans hdel, hlock'.trans hlock⟩
  · cases hy : y a with
    | none =>
      obtain ⟨hd, hl⟩ := h'.new_ hy hz
      refine ⟨hd, hl.trans ⟨Or.inr, fun ha => ha.resolve_left fun ha => ?_⟩⟩
      obtain ⟨-, u, hu, -⟩ := h.locked ha
      rw [hy] at hu
      cases hu
    | some t =>
      obtain ⟨hd, hl⟩ := h.new_ hx hy
      obtain ⟨u, hu, -, hdel, hlock⟩ := h'.old hy
      rw [hz] at hu
      cases hu
      refine ⟨hdel.trans hd, (hlock ▸ hl).trans ⟨Or.inl, fun ha => ha.resolve_right fun ha => ?_⟩⟩
      have hnone := (h'.locked ha).1
      rw [hy] at hnone
      cases hnone
  · rcases ha with ha | ha
    · obtain ⟨hx, u, hu, hl⟩ := h.locked ha
      obtain ⟨v, hv, -, -, hlock⟩ := h'.old hu
      exact ⟨hx, v, hv, hlock.trans hl⟩
    · obtain ⟨hy, hz⟩ := h'.locked ha
      refine ⟨?_, hz⟩
      cases hx : x a with
      | none => rfl
      | some s =>
        obtain ⟨t, ht, -⟩ := h.old hx
        rw [hy] at ht
        cases ht

/-- A node is new. -/
theorem extends_new (hx : x a = none) (hdel : t.deleted = false)
    (hE : ∀ b, b ∈ E ↔ b = a ∧ t.locked) : Extends E x (Function.update x a (some t)) := by
  refine ⟨fun b s hs => ⟨s, ?_, rfl, rfl, rfl⟩, fun b s hb hs => ?_, fun b hb => ?_⟩
  · rw [Function.update_of_ne, hs]
    rintro rfl
    rw [hx] at hs
    cases hs
  · by_cases hba : b = a
    · subst hba
      rw [Function.update_self] at hs
      cases hs
      exact ⟨hdel, fun hl => (hE b).mpr ⟨rfl, hl⟩, fun h => ((hE b).mp h).2⟩
    · rw [Function.update_of_ne hba, hb] at hs
      cases hs
  · obtain ⟨rfl, hl⟩ := (hE b).mp hb
    exact ⟨hx, t, Function.update_self .., hl⟩

theorem Made.extends {leaf : Bool} (h : Made leaf x a y) : Extends ∅ x y := by
  obtain ⟨-, hnone, rfl⟩ := h
  exact extends_new hnone rfl fun b => by simp [newSketch]

/-- What is changed of a node is neither its kind, nor its lock, nor its deleted bit. -/
theorem extends_update (hs : x a = some s) (hleaf : t.leaf = s.leaf)
    (hdel : t.deleted = s.deleted) (hlock : t.locked = s.locked) :
    Extends ∅ x (Function.update x a (some t)) := by
  refine ⟨fun b u hu => ?_, fun b u hb hu => ?_, fun _ h => absurd h (Set.notMem_empty _)⟩
  · by_cases hba : b = a
    · subst hba
      rw [hs] at hu
      cases hu
      exact ⟨t, Function.update_self .., hleaf, hdel, hlock⟩
    · exact ⟨u, (Function.update_of_ne hba _ _).trans hu, rfl, rfl, rfl⟩
  · by_cases hba : b = a
    · subst hba
      rw [hs] at hb
      cases hb
    · rw [Function.update_of_ne hba, hb] at hu
      cases hu

theorem held_update (hs : x a = some s) : Outline.held (Function.update x a (some t)) =
    if t.locked then insert a x.held else x.held \ {a} := by
  ext b
  by_cases hba : b = a
  · subst hba
    have hb : b ∈ Outline.held (Function.update x b (some t)) ↔ t.locked = true := by
      constructor
      · rintro ⟨u, hu, hl⟩
        rw [Function.update_self] at hu
        cases hu
        exact hl
      · exact fun hl => ⟨t, Function.update_self .., hl⟩
    rw [hb]
    cases t.locked <;> simp
  · have hb : b ∈ Outline.held (Function.update x a (some t)) ↔ b ∈ x.held := by
      simp only [Outline.held, Set.mem_ofPred_eq, Held, Function.update_of_ne hba]
    rw [hb]
    cases t.locked <;> simp [hba]

theorem held_locking (hs : x a = some s) : Outline.held (locking x a s) = insert a x.held :=
  (held_update hs).trans (if_pos rfl)

theorem notMem_held (hs : x a = some s) (hl : s.locked = false) : a ∉ x.held := by
  rintro ⟨t, ht, hlt⟩
  rw [hs] at ht
  cases ht
  rw [hl] at hlt
  cases hlt

/-- A change of the sketch of a node, but for its kind and its deleted bit. -/
theorem grown_update (hs : x a = some s) (hleaf : t.leaf = s.leaf) (hdel : t.deleted = s.deleted) :
    Grown x (Function.update x a (some t)) := by
  refine ⟨fun b u hu => ?_, fun b u hb hu => ?_⟩
  · by_cases hba : b = a
    · subst hba
      rw [hs] at hu
      cases hu
      exact ⟨t, Function.update_self .., hleaf, hdel⟩
    · exact ⟨u, (Function.update_of_ne hba _ _).trans hu, rfl, rfl⟩
  · by_cases hba : b = a
    · subst hba
      rw [hs] at hb
      cases hb
    · rw [Function.update_of_ne hba, hb] at hu
      cases hu

/-- The leaf at `a` is in use. -/
def AtLeaf (x : Outline) (a : Addr) : Prop :=
  ∃ s, x a = some s ∧ s.leaf = true ∧ s.deleted = false

/-- There is an internode at `a`. -/
def AtInternode (x : Outline) (a : Addr) : Prop := ∃ s, x a = some s ∧ s.leaf = false

theorem AtLeaf.grown (h : AtLeaf x a) (hg : Grown x y) : AtLeaf y a := by
  obtain ⟨s, hs, hleaf, hdel⟩ := h
  obtain ⟨t, ht, hleaf', hdel'⟩ := hg.old hs
  exact ⟨t, ht, hleaf'.trans hleaf, hdel'.trans hdel⟩

theorem AtInternode.grown (h : AtInternode x a) (hg : Grown x y) : AtInternode y a := by
  obtain ⟨s, hs, hleaf⟩ := h
  obtain ⟨t, ht, hleaf', -⟩ := hg.old hs
  exact ⟨t, ht, hleaf'.trans hleaf⟩

theorem AtLeaf.ne_atInternode (h : AtLeaf x a) (h' : AtInternode x b) : a ≠ b := by
  rintro rfl
  obtain ⟨s, hs, hleaf, -⟩ := h
  obtain ⟨t, ht, hleaf'⟩ := h'
  rw [hs] at ht
  cases ht
  rw [hleaf] at hleaf'
  cases hleaf'

/-- An outline that has grown, and the nodes of `H` are locked. -/
structure Reaches (H : Set Addr) (x y : Outline) : Prop where
  grown : Grown x y
  held : y.held = H

theorem Extends.reaches (h : Extends E x y) : Reaches (x.held ∪ E) x y := ⟨h.grown, h.held⟩

theorem Reaches.trans {H H' : Set Addr} (h : Reaches H x y) (h' : Reaches H' y z) :
    Reaches H' x z := ⟨h.grown.trans h'.grown, h'.held⟩

theorem Reaches.of_eq {H H' : Set Addr} (h : Reaches H x y) (hH : H = H') : Reaches H' x y :=
  hH ▸ h

variable {build : Build} {fuel : ℕ}

theorem reaches_lock : machine.Tracks outlineView (lock build fuel a) x fun _ y =>
    a ∉ x.held ∧ Reaches (insert a x.held) x y := by
  refine traced_lock.imp fun _ y hy => ?_
  rcases hy with ⟨s, hs, hfree, rfl⟩
  exact ⟨notMem_held hs hfree, grown_update hs rfl rfl, held_locking hs⟩

theorem reaches_unlock : machine.Tracks outlineView (unlock build a) x fun _ y =>
    Reaches (x.held \ {a}) x y := by
  refine traced_unlock.imp fun _ y hy => ?_
  rcases hy with ⟨s, hs, rfl⟩
  exact ⟨grown_update hs rfl rfl, held_update hs⟩

end Growth

/-! ### The descent -/

section Descent

variable {build : Build} {a : Addr} {x : Outline} {fuel : ℕ} {ka : Key} {v : NodeVersion}

theorem sketched_stable : machine.Blind outlineView (stable a fuel) := by
  induction fuel with
  | zero => exact blind_diverge
  | succ fuel ih => exact sketched_read.bind fun _ => blind_ite ih blind_ret

theorem sketched_hasChanged (readonly : Bool) :
    machine.Blind outlineView (hasChanged a v readonly) := sketched_read.bind fun _ => blind_ret

theorem sketched_maybeParent : machine.Blind outlineView (maybeParent a) :=
  sketched_read.bind fun _ => blind_ret

theorem sketched_climbToRoot : machine.Blind outlineView (climbToRoot fuel a) := by
  induction fuel generalizing a with
  | zero => exact blind_diverge
  | succ fuel ih =>
    exact sketched_stable.bind fun _ => blind_ite blind_ret (sketched_maybeParent.bind fun _ => ih)

theorem sketched_internodeLastKeyCompare :
    machine.Blind outlineView (internodeLastKeyCompare ka a fuel v) := by
  induction fuel generalizing v with
  | zero => exact blind_diverge
  | succ fuel ih =>
    refine sketched_read.bind fun _ => (sketched_hasChanged true).bind fun _ => ?_
    exact blind_ite (sketched_stable.bind fun _ => ih) blind_ret

theorem sketched_leafLastKeyCompare :
    machine.Blind outlineView (leafLastKeyCompare ka a fuel v) := by
  induction fuel generalizing v with
  | zero => exact blind_diverge
  | succ fuel ih =>
    refine sketched_read.bind fun _ => (sketched_hasChanged true).bind fun _ => ?_
    exact blind_ite (sketched_stable.bind fun _ => ih) blind_ret

theorem sketched_descend : machine.Blind outlineView (descend ka fuel a v) := by
  induction fuel generalizing a v with
  | zero => exact blind_diverge
  | succ fuel ih =>
    have hagain (beyond : Bool) (v' : NodeVersion) : machine.Blind outlineView
        (if beyond then pure none else descend ka fuel a v') := blind_ite blind_ret ih
    refine blind_ite blind_ret (sketched_read.bind fun _ => blind_ite blind_ret ?_)
    refine sketched_stable.bind fun _ => (sketched_hasChanged true).bind fun _ => blind_ite ih ?_
    refine sketched_stable.bind fun v' => blind_ite ?_ ?_
    · exact sketched_internodeLastKeyCompare.bind fun _ => blind_ret.bind fun b => hagain b v'
    · exact blind_ret.bind fun b => hagain b v'

theorem sketched_reachLeaf : machine.Blind outlineView (reachLeaf a ka fuel) := by
  induction fuel with
  | zero => exact blind_diverge
  | succ fuel ih =>
    refine sketched_climbToRoot.bind fun nv => sketched_descend.bind fun found => ?_
    cases found with
    | none => exact ih
    | some lv =>
      refine (sketched_writeLeaf ?_).bind fun _ => blind_ret
      intro l
      exact ⟨rfl, rfl, rfl, rfl, rfl⟩

theorem sketched_walkToKey : machine.Blind outlineView (walkToKey ka fuel a v) := by
  induction fuel generalizing a v with
  | zero => exact blind_diverge
  | succ fuel ih =>
    refine blind_ite blind_ret (sketched_read.bind fun _ => blind_ite blind_ret ?_)
    refine sketched_read.bind fun _ => blind_ite blind_ret ?_
    exact sketched_stable.bind fun _ => ih

theorem sketched_advanceToKey : machine.Blind outlineView (advanceToKey fuel ka a v) := by
  refine sketched_stable.bind fun _ => blind_ite ?_ blind_ret
  exact sketched_leafLastKeyCompare.bind fun _ => blind_ite sketched_walkToKey blind_ret

theorem sketched_externalBag (l : Leaf) : machine.Blind outlineView (externalBag l) :=
  blind_ite sketched_read blind_ret

/-- Two words that differ at most in the lock agree on the deleted bit. -/
theorem deleted_of_not_changed {w : NodeVersion} (h : ¬1 < (v ^^^ w).toNat) :
    v.deleted = w.deleted := by
  have hbit : (v ^^^ w).getLsbD 29 = false := by
    rw [← BitVec.testBit_toNat]
    exact Nat.testBit_lt_two_pow (by omega)
  rw [BitVec.getLsbD_xor] at hbit
  rw [NodeVersion.deleted, NodeVersion.deleted, flag_eq (by decide), flag_eq (by decide)]
  simpa using hbit

/-- A node that has not changed since its version was read is still in use if it was. -/
theorem traced_hasChanged : machine.Tracks outlineView (hasChanged a v false) x fun b y =>
    y = x ∧ ∀ s, x a = some s → b = false → v.deleted = s.deleted := by
  refine (traced_readVersion (Q := fun w y => y = x ∧ ∃ s, x a = some s ∧ w.deleted = s.deleted)
    ?_).bind fun w y hy => ?_
  · intro s w hs _ _ hd
    exact ⟨rfl, s, hs, hd⟩
  · obtain ⟨rfl, s, hs, hd⟩ := hy
    refine tracks_ret ⟨rfl, fun s' hs' hb => ?_⟩
    rw [hs] at hs'
    cases hs'
    rw [← hd]
    exact deleted_of_not_changed (by simpa using hb)

/-- The leaf at `a` has been found, and locked. -/
def Found (x : Outline) (a : Addr) (y : Outline) : Prop :=
  ∃ s, x a = some s ∧ s.leaf = true ∧ s.deleted = false ∧ s.locked = false ∧ y = locking x a s

/-- `tcursor::find_locked` from `forward`, where the descent has come to the leaf `n`. -/
def findLockedAt (build : Build) (fuel : ℕ) (root : Addr) (c : Tcursor) (n : Addr)
    (v : NodeVersion) : MtM Tcursor :=
  if v.deleted then findLocked build fuel root c none
  else do
    let l ← readLeaf n
    let b ← externalBag l
    let kx := l.lower c.ka
    let state := match kx.p with
      | some p => l.ksufMatches b p c.ka
      | none => 0
    let down ←
      if state < 0 then do
        let changed ← hasChanged n v false
        if changed then pure false
        else do
          let vl ← readVersion (l.lv (kx.p.getD 0))
          pure vl.isRoot
      else pure false
    if down then
      findLocked build fuel (l.lv (kx.p.getD 0)) { c with ka := c.ka.shiftBy (-state).toNat } none
    else do
      let _ ← lockFrom build n fuel v
      let changed ← hasChanged n v false
      let l' ← readLeaf n
      if changed || l'.permutation != l.permutation then do
        unlock build n
        let at_ ← advanceToKey fuel c.ka n v
        findLocked build fuel root c (some at_)
      else if state < 0 then do
        let layer ← maybeParent (l'.lv (kx.p.getD 0))
        writeLeaf n fun l => { l with lv := Function.update l.lv (kx.p.getD 0) layer }
        unlock build n
        findLocked build fuel layer { c with ka := c.ka.shiftBy (-state).toNat } none
      else if l'.deletedLayer then do
        unlock build n
        findLocked build fuel c.root { c with ka := c.ka.unshiftAll } none
      else pure { c with n := n, kx := kx, state := state }

/-- **The leaf of the cursor has been free, is locked, and has not been deleted.** -/
theorem traced_findLocked {root : Addr} {c : Tcursor} {at_ : Option (Addr × NodeVersion)} :
    machine.Tracks outlineView (findLocked build fuel root c at_) x fun c' y => Found x c'.n y := by
  induction fuel generalizing root c at_ with
  | zero => exact tracks_diverge
  | succ fuel ih =>
    have hfrom (n : Addr) (v : NodeVersion) : machine.Tracks outlineView
        (findLockedAt build fuel root c n v) x fun c' y => Found x c'.n y := by
      refine tracks_ite (fun _ => ih) fun hv => sketched_read.then fun l => ?_
      refine (sketched_externalBag l).then fun b => ?_
      extract_lets kx state jp
      -- the leaf is locked, unless the search goes on in the layer below
      have hjp (down : Bool) : machine.Tracks outlineView (jp down) x
          fun c' y => Found x c'.n y := by
        refine tracks_ite (fun _ => ih) fun _ => ?_
        refine (traced_lockFrom v).bind fun _ y hy => ?_
        rcases hy with ⟨s, hs, hfree, rfl⟩
        have hself : locking x n s n = some { s with locked := true } := Function.update_self ..
        refine traced_hasChanged.bind fun changed y hy => ?_
        rcases hy with ⟨rfl, hsame⟩
        refine (traced_readLeaf (Q := fun _ y => y = locking x n s ∧ s.leaf = true) ?_).bind
          fun l' y hy => ?_
        · intro s' l' hs' hleaf
          rw [hself] at hs'
          cases hs'
          exact ⟨rfl, hleaf⟩
        rcases hy with ⟨rfl, hleaf⟩
        have hunlock {α : Type} {q : Unit → MtM α} {Q : α → Outline → Prop}
            (hq : machine.Tracks outlineView (q ()) x Q) :
            machine.Tracks outlineView (unlock build n >>= q) (locking x n s) Q :=
          (traced_unlock_locking hs hfree).bind fun _ _ hy => hy ▸ hq
        refine tracks_ite (fun _ => ?_) fun hc => tracks_ite (fun _ => ?_) fun _ => ?_
        · exact hunlock (sketched_advanceToKey.then fun _ => ih)
        · refine sketched_maybeParent.then fun layer => ?_
          refine Blind.then (sketched_writeLeaf ?_) fun _ => hunlock ih
          intro l
          exact ⟨rfl, rfl, rfl, rfl, rfl⟩
        · refine tracks_ite (fun _ => hunlock ih) fun _ => tracks_ret ?_
          refine ⟨s, hs, hleaf, ?_, hfree, rfl⟩
          have hunchanged : changed = false := by
            cases changed
            · rfl
            · simp at hc
          rw [← hsame _ hself hunchanged]
          simpa using hv
      refine tracks_ite (fun _ => ?_) fun _ => hjp false
      refine (sketched_hasChanged false).then fun changed => ?_
      exact tracks_ite (fun _ => hjp false) fun _ => sketched_read.then fun vl => hjp vl.isRoot
    cases at_ with
    | none => exact sketched_reachLeaf.then fun nv => hfrom nv.1 nv.2
    | some nv => exact hfrom nv.1 nv.2

end Descent

/-! ### A new layer -/

section Layers

variable {env : Env} {n : Addr} {x : Outline} {fuel : ℕ} {c : Tcursor}

/-- The twig consists of new leaves. -/
theorem extends_makeTwig {twigHead twigTail : Addr} {oka ka : Key} :
    machine.Tracks outlineView (makeTwig env n fuel twigHead twigTail oka ka) x
      fun _ y => Extends ∅ x y := by
  induction fuel generalizing x twigHead twigTail oka ka with
  | zero => exact tracks_diverge
  | succ fuel ih =>
    refine tracks_ite (fun _ => ?_) fun _ => tracks_ret Extends.refl
    refine traced_makeRoot.bind fun nl y hy => ?_
    refine sketched_assignInitializeForLayer.then fun _ => ?_
    have hlv (p : ℕ) (w : Addr) : machine.Blind outlineView
        (writeLeaf w fun l => { l with lv := Function.update l.lv p nl }) :=
      sketched_writeLeaf fun _ => ⟨rfl, rfl, rfl, rfl, rfl⟩
    have hrest : machine.Tracks outlineView (do
        writeLeaf nl fun l => { l with permutation := Permuter.makeSorted 1 }
        makeTwig env n fuel (if twigHead ≠ n then twigHead else nl) nl oka.shift ka.shift) y
          fun _ z => Extends ∅ x z := by
      refine Blind.then (sketched_writeLeaf ?_) fun _ => ih.imp ?_
      · intro l
        exact ⟨rfl, rfl, rfl, rfl, rfl⟩
      · intro _ z hz
        simpa using hy.extends.trans hz
    exact tracks_ite (fun _ => (hlv 0 twigTail).then fun _ => hrest) fun _ => hrest

theorem Made.atLeaf {y : Outline} {a : Addr} (h : Made true x a y) : AtLeaf y a := by
  obtain ⟨-, -, rfl⟩ := h
  exact ⟨newSketch true, Function.update_self .., rfl, rfl⟩

/-- **The leaf of the cursor is given up for the one at the end of the twig.** -/
theorem reaches_makeNewLayer (hheld : x.held = {c.n}) :
    machine.Tracks outlineView (makeNewLayer env fuel c) x fun c' y =>
      Reaches {c'.n} x y ∧ AtLeaf y c'.n := by
  refine sketched_read.then fun l => (sketched_externalBag l).then fun b => ?_
  refine extends_makeTwig.bind fun r y hy => ?_
  obtain ⟨twigHead, twigTail, oka, ka⟩ := r
  refine traced_makeRoot.bind fun nl z hz => ?_
  refine sketched_assign.then fun _ => sketched_assign.then fun _ => sketched_read.then fun l' => ?_
  refine Blind.then (sketched_writeLeaf ?_) fun _ => reaches_lock.bind fun _ w hw => ?_
  · intro l
    exact ⟨rfl, rfl, rfl, rfl, rfl⟩
  rcases hw with ⟨hnl, hw⟩
  have hxz : Reaches {c.n} x z := by
    have h := (hy.trans hz.extends).reaches
    rw [Set.union_empty, Set.union_empty, hheld] at h
    exact h
  rw [hxz.held] at hnl hw
  have hxw := hxz.trans hw
  have hcn : Held w c.n := by
    have h : c.n ∈ w.held := by
      rw [hxw.held]
      exact Or.inr rfl
    exact h
  refine Blind.then (sketched_writeLeaf ?_) fun _ => ?_
  · intro l
    exact ⟨rfl, rfl, rfl, rfl, rfl⟩
  refine (traced_markLocked markOk_markInsert hcn).bind fun _ w' hw' => ?_
  rw [hw']
  have hrest : machine.Tracks outlineView (do
      writeLeaf c.n fun l =>
        { l with
          lv := Function.update l.lv (c.kx.p.getD 0) (if twigHead ≠ c.n then twigHead else nl) }
      writeLeaf c.n fun l =>
        { l with keylenx := Function.update l.keylenx (c.kx.p.getD 0) layerKeylenx }
      unlock env.build c.n
      pure { c with
        n := nl
        ka := ka
        kx := ⟨if oka.compareKey ka = Ordering.lt then 1 else 0,
          some (if oka.compareKey ka = Ordering.lt then 1 else 0)⟩ }) w
        fun c' y => Reaches {c'.n} x y ∧ AtLeaf y c'.n := by
    refine Blind.then (sketched_writeLeaf ?_) fun _ => ?_
    · intro l
      exact ⟨rfl, rfl, rfl, rfl, rfl⟩
    refine Blind.then (sketched_writeLeaf ?_) fun _ => ?_
    · intro l
      exact ⟨rfl, rfl, rfl, rfl, rfl⟩
    refine reaches_unlock.bind fun _ y' hy' => tracks_ret ⟨?_, ?_⟩
    · refine (hxw.trans hy').of_eq ?_
      rw [hxw.held, Set.insert_sdiff_of_notMem _ hnl, Set.sdiff_self, insert_empty_eq]
    · exact (hz.atLeaf.grown hw.grown).grown hy'.grown
  refine tracks_ite (fun _ => Blind.then (sketched_writeLeaf ?_) fun _ => hrest) fun _ => hrest
  intro l
  exact ⟨rfl, rfl, rfl, rfl, rfl⟩

end Layers

/-! ### Splits -/

section Splits

variable {env : Env} {n nr p : Addr} {x y : Outline} {fuel : ℕ} {c : Tcursor} {r : SplitRound}

/-- The parent is unlocked again. -/
theorem traced_parentMetadata {a : Addr} :
    machine.Tracks outlineView (parentMetadata env fuel a) x fun _ y => y = x := by
  refine traced_lockedParent.bind fun p y hy => ?_
  rcases hy with ⟨rfl, rfl⟩ | ⟨h0, s, hs, -, hfree, rfl⟩
  · exact tracks_ite (fun h => absurd rfl h) fun _ => tracks_ret rfl
  · refine tracks_ite (fun _ => sketched_read.then fun _ => ?_) fun h => absurd h0 h
    exact (traced_unlock_locking hs hfree).bind fun _ y hy => tracks_ret hy

/-- The leaf on the right enters the list. -/
theorem extends_leafSplitInto {ka : Key} {kxi : ℕ} (hn : AtLeaf x n)
    (hr : ∃ s, x nr = some s ∧ s.leaf = true ∧ s.single = true ∧ s.deleted = false)
    (hne : nr ≠ n) : machine.Tracks outlineView (leafSplitInto env fuel n nr ka kxi) x
      fun _ y => Extends ∅ x y := by
  obtain ⟨s, hs, hleaf, hdel⟩ := hn
  obtain ⟨t, ht, htleaf, hsingle, htdel⟩ := hr
  refine sketched_read.then fun v => sketched_read.then fun vr => ?_
  refine (sketched_assert _ _).then fun _ => sketched_read.then fun l => ?_
  refine (sketched_assert _ _).then fun _ => ?_
  have hsplit (mid : ℕ) : machine.Tracks outlineView (do
      masstreeInvariant env.build (decide (0 < mid ∧ mid ≤ l.size))
      forRange mid (l.size + 1 - mid) fun x =>
        if x = kxi then assign env.build nr (x - mid) ka true
        else
          assignInitializeFrom env.build nr (x - mid) n
            (l.permutation.slot (if kxi < x then x - 1 else x))
      let permr := Permuter.makeSorted (l.size + 1 - mid)
      writeLeaf nr fun r =>
        { r with permutation := if mid ≤ kxi then permr.removeToBack (kxi - mid) else permr }
      let r ← readLeaf nr
      linkSplit fuel n nr
      pure (if kxi < mid then 0 else if mid = l.size then 2 else 1, r.ikey0 0)) x
        fun _ y => Extends ∅ x y := by
    refine (sketched_assert _ _).then fun _ => ?_
    refine Blind.then (blind_forRange _ _ fun i => ?_) fun _ => ?_
    · exact blind_ite sketched_assign sketched_assignInitializeFrom
    refine Blind.then (sketched_writeLeaf ?_) fun _ => sketched_read.then fun r => ?_
    · intro l
      exact ⟨rfl, rfl, rfl, rfl, rfl⟩
    refine (traced_linkSplit hs hleaf hdel ht htleaf hsingle htdel hne fuel).bind fun _ y hy => ?_
    subst hy
    refine tracks_ret ?_
    let z := Function.update x n (some { s with single := false })
    have hz : z nr = some t := (Function.update_of_ne hne _ _).trans ht
    have hleft : Extends ∅ x z := extends_update hs rfl rfl rfl
    have hright : Extends ∅ z (Function.update z nr (some { t with single := false })) :=
      extends_update hz rfl rfl rfl
    simpa using hleft.trans hright
  cases l.splitPoint ka kxi with
  | none => exact tracks_diverge
  | some mid => exact hsplit mid

/-- **A new leaf, locked, on the right of the cursor's.** -/
theorem extends_splitLeaf (hn : AtLeaf x c.n) (hheld : Held x c.n) :
    machine.Tracks outlineView (splitLeaf env fuel c) x fun r y =>
      r.2.n = c.n ∧ x r.2.child = none ∧ Extends {r.2.child} x y ∧ AtLeaf y r.2.child := by
  refine traced_parentMetadata.bind fun m y hy => ?_
  rw [hy]
  refine sketched_read.then fun l => sketched_decideNewNodePosition.then fun t => ?_
  refine (sketched_externalBag l).then fun b => traced_makeLeaf.bind fun child y hy => ?_
  obtain ⟨-, hnone, rfl⟩ := hy
  obtain ⟨s, hs, hleaf, hdel⟩ := hn
  obtain ⟨s', hs', hlocked⟩ := hheld
  rw [hs] at hs'
  cases hs'
  have hne : child ≠ c.n := by
    rintro rfl
    rw [hs] at hnone
    cases hnone
  let z := Function.update x child (some (newSketch true))
  have hz : z c.n = some s := (Function.update_of_ne hne.symm _ _).trans hs
  have hzchild : z child = some (newSketch true) := Function.update_self ..
  let w := Function.update x child (some { newSketch true with locked := true })
  -- the new leaf has the version word of the old one, the lock included
  refine (traced_readVersion (Q := fun v y => y = z ∧ VersionOk true v ∧ v.locked = true ∧
    v.deleted = false) ?_).bind fun v y hy => ?_
  · intro s' v hs' hok hl hd
    obtain rfl : s = s' := Option.some.inj (hz.symm.trans hs')
    exact ⟨rfl, hleaf ▸ hok, hl.trans hlocked, hd.trans hdel⟩
  obtain ⟨rfl, hok, hl, hd⟩ := hy
  refine (traced_writeVersion (Q := fun _ y => y = w) ?_).bind fun _ y hy => ?_
  · intro s' v' hs' _ _ _
    obtain rfl : newSketch true = s' := Option.some.inj (hzchild.symm.trans hs')
    refine ⟨hok, hd, ?_⟩
    rw [hl]
    exact Function.update_idem ..
  subst hy
  have hw : Extends {child} x w := extends_new hnone rfl fun b => by simp
  have hchild : w child = some { newSketch true with locked := true } := Function.update_self ..
  have hleft : AtLeaf w c.n := AtLeaf.grown ⟨s, hs, hleaf, hdel⟩ hw.grown
  refine (extends_leafSplitInto hleft ⟨_, hchild, rfl, rfl, rfl⟩ hne).bind fun r y hy => ?_
  refine tracks_ret ⟨rfl, hnone, by simpa using hw.trans hy, ?_⟩
  exact AtLeaf.grown ⟨_, hchild, rfl, rfl⟩ hy.grown

/-! #### Internodes -/

theorem AtInternode.parent (h : AtInternode x p) : p ≠ 0 → ∃ s, x p = some s ∧ s.leaf = false :=
  fun _ => h

/-- A store to an internode that does not change the number of its keys. -/
theorem sketched_writeInternode_of_kept {a : Addr} {f : Internode → Internode}
    (h : ∀ z, (f z).version = z.version ∧ (f z).parent = z.parent ∧ (f z).nkeys = z.nkeys) :
    machine.Blind outlineView (writeInternode a f) := by
  refine sketched_writeInternode fun z => ?_
  obtain ⟨hv, hp, hk⟩ := h z
  refine ⟨hv, hp, ?_, rfl, rfl⟩
  simp only [Node.sketch, hv, hk]

/-- The number of the keys of an internode is changed. -/
theorem extends_writeInternode {a : Addr} {s : Sketch} {f : Internode → Internode} {g : ℕ → ℕ}
    (hs : x a = some s) (hg : g s.nkeys ≤ width)
    (h : ∀ z, (f z).version = z.version ∧ (f z).parent = z.parent ∧ (f z).nkeys = g z.nkeys) :
    machine.Tracks outlineView (writeInternode a f) x fun _ y =>
      Extends ∅ x y ∧ y = Function.update x a (some { s with nkeys := g s.nkeys }) := by
  refine traced_writeInternode h fun s' hs' _ => ?_
  rw [hs] at hs'
  cases hs'
  exact ⟨hg, extends_update hs rfl rfl rfl, rfl⟩

/-- **A new internode above the two nodes.** -/
theorem extends_hangNewParent {kp : ℕ} (hp : p ≠ 0 → AtInternode x p) :
    machine.Tracks outlineView (hangNewParent env r p kp) x fun _ y => Extends ∅ x y := by
  have hnew (m : NodeMemType × ℕ) : machine.Tracks outlineView (do
      let newNodeType ← decideNewNodePosition m.1 m.2
      let nn ← makeInternode env (r.height + 1) m.2 newNodeType false
      writeInternode nn fun x => { x with child := Function.update x.child 0 r.n }
      setParent r.child nn
      writeInternode nn fun x => x.assign 0 r.xikey r.child
      writeInternode nn fun x => { x with nkeys := 1 }
      if p = 0 then makeLayerRoot nn
      else do
        setParent nn p
        writeInternode p fun x => { x with child := Function.update x.child kp nn }
      setParent r.n nn) x fun _ y => Extends ∅ x y := by
    refine sketched_decideNewNodePosition.then fun t => traced_makeInternode.bind fun nn y hy => ?_
    have hext := hy.extends
    obtain ⟨-, -, rfl⟩ := hy
    let y := Function.update x nn (some (newSketch false))
    have hnn : y nn = some (newSketch false) := Function.update_self ..
    refine Blind.then (sketched_writeInternode_of_kept ?_) fun _ => ?_
    · intro z
      exact ⟨rfl, rfl, rfl⟩
    refine (traced_setParent fun _ => ⟨_, hnn, rfl⟩).bind fun _ y' hy' => ?_
    rw [hy']
    refine Blind.then (sketched_writeInternode_of_kept ?_) fun _ => ?_
    · intro z
      exact ⟨rfl, rfl, rfl⟩
    refine (extends_writeInternode (g := fun _ => 1) hnn (by decide) ?_).bind fun _ z hz => ?_
    · intro z
      exact ⟨rfl, rfl, rfl⟩
    obtain ⟨hz, -⟩ := hz
    have hxz : Extends ∅ x z := by simpa using hext.trans hz
    have hnnz : AtInternode z nn := AtInternode.grown ⟨_, hnn, rfl⟩ hz.grown
    have hlast : machine.Tracks outlineView (setParent r.n nn) z fun _ y => Extends ∅ x y :=
      (traced_setParent hnnz.parent).imp fun _ _ hy => hy ▸ hxz
    refine tracks_ite (fun _ => sketched_makeLayerRoot.then fun _ => hlast) fun h0 => ?_
    refine (traced_setParent fun _ => (hp h0).grown hxz.grown).bind fun _ z' hz' => ?_
    rw [hz']
    refine Blind.then (sketched_writeInternode_of_kept ?_) fun _ => hlast
    intro z
    exact ⟨rfl, rfl, rfl⟩
  refine tracks_ite (fun _ => sketched_read.then fun xp => ?_) fun _ => hnew _
  exact (sketched_assert _ _).then fun _ => hnew _

/-- The full internode gives away at least a key if the new child is still to go into it. -/
theorem extends_internodeSplitInto {ka value splitType kp : ℕ} (hp : AtInternode x p)
    (hn : AtInternode x n) (hne : n ≠ p) (hheld : Held x p) :
    machine.Tracks outlineView (internodeSplitInto env p n kp ka value splitType) x fun q y =>
      Extends ∅ x y ∧ (q.1 ≠ none → q.1 = some kp ∧
        ∃ s, y p = some s ∧ s.leaf = false ∧ s.nkeys < width) := by
  obtain ⟨s, hs, hleaf⟩ := hp
  obtain ⟨t, ht, htleaf⟩ := hn
  refine sketched_read.then fun v => sketched_read.then fun vr => ?_
  refine (sketched_assert _ _).then fun _ => sketched_read.then fun xi => ?_
  have hmid : (if splitType = 2 then width else (width + 1) / 2) ≤ width := by
    split <;> decide
  generalize (if splitType = 2 then width else (width + 1) / 2) = mid at hmid
  have hright (z : Internode) : (xi.splitRight z mid kp ka value).version = z.version ∧
      (xi.splitRight z mid kp ka value).parent = z.parent ∧
      (xi.splitRight z mid kp ka value).nkeys = width + 1 - (mid + 1) := by
    unfold Internode.splitRight
    split
    · exact ⟨rfl, rfl, rfl⟩
    · split
      · exact ⟨rfl, rfl, rfl⟩
      · exact ⟨rfl, rfl, rfl⟩
  refine (extends_writeInternode (g := fun _ => width + 1 - (mid + 1)) ht (by omega) hright).bind
    fun _ y hy => ?_
  obtain ⟨hxy, hy⟩ := hy
  have hyn : AtInternode y n := AtInternode.grown ⟨t, ht, htleaf⟩ hxy.grown
  have hyp : y p = some s := by
    rw [hy, Function.update_of_ne hne.symm, hs]
  have hyheld : Held y p := by
    obtain ⟨s', hs', hl⟩ := hheld
    rw [hs] at hs'
    cases hs'
    exact ⟨s, hyp, hl⟩
  have hrest : machine.Tracks outlineView (do
      let r ← readInternode n
      forRange 0 (r.nkeys + 1) fun i => setParent (r.child i) n
      markLocked env.build p NodeVersion.markSplit
      writeInternode p fun xi => { xi with nkeys := if kp < mid then mid - 1 else mid }
      pure (if kp < mid then some kp else none, xi.splitIkey mid kp ka)) y fun q z =>
        Extends ∅ x z ∧ (q.1 ≠ none → q.1 = some kp ∧
          ∃ s, z p = some s ∧ s.leaf = false ∧ s.nkeys < width) := by
    refine sketched_read.then fun r => ?_
    refine (tracks_forRange _ _ fun i => traced_setParent hyn.parent).bind fun _ y' hy' => ?_
    rw [hy']
    refine (traced_markLocked markOk_markSplit hyheld).bind fun _ y' hy' => ?_
    rw [hy']
    refine (extends_writeInternode (g := fun _ => if kp < mid then mid - 1 else mid) hyp ?_ ?_).bind
      fun _ z hz => tracks_ret ?_
    · split <;> omega
    · intro z
      exact ⟨rfl, rfl, rfl⟩
    obtain ⟨hyz, rfl⟩ := hz
    refine ⟨by simpa using hxy.trans hyz, fun h => ?_⟩
    by_cases hk : kp < mid
    · rw [if_pos hk]
      refine ⟨rfl, _, Function.update_self .., hleaf, ?_⟩
      simp only [if_pos hk]
      omega
    · rw [if_neg hk] at h
      exact absurd rfl h
  refine tracks_ite (fun _ => ?_) fun _ => hrest
  exact (traced_setParent hyn.parent).bind fun _ y' hy' => hy' ▸ hrest

/-- The internode has room for another child. -/
theorem extends_insertChild {s : Sketch} {kp : ℕ} (hs : x p = some s) (hleaf : s.leaf = false)
    (hroom : s.nkeys < width) : machine.Tracks outlineView (insertChild r p kp) x
      fun _ y => Extends ∅ x y := by
  refine Blind.then (sketched_writeInternode_of_kept ?_) fun _ => ?_
  · intro z
    exact ⟨rfl, rfl, rfl⟩
  refine (traced_setParent fun _ => ⟨s, hs, hleaf⟩).bind fun _ y hy => ?_
  rw [hy]
  refine Blind.then (sketched_writeInternode_of_kept ?_) fun _ => ?_
  · intro z
    exact ⟨rfl, rfl, rfl⟩
  refine (extends_writeInternode (g := (· + 1)) hs hroom ?_).imp fun _ _ hy => hy.1
  intro z
  exact ⟨rfl, rfl, rfl⟩

/-- **A new internode, locked, beside the full one.** -/
theorem extends_splitParent {kp splitType : ℕ} (hp : AtInternode x p) (hheld : Held x p) :
    machine.Tracks outlineView (splitParent env fuel r p kp splitType) x fun q y =>
      x q.1 = none ∧ Extends {q.1} x y ∧ AtInternode y q.1 ∧ ∀ kp', q.2.1 = some kp' →
        ∃ s, y p = some s ∧ s.leaf = false ∧ s.nkeys < width := by
  refine traced_parentMetadata.bind fun m y hy => ?_
  rw [hy]
  refine sketched_read.then fun xi => sketched_decideNewNodePosition.then fun t => ?_
  refine traced_makeInternode.bind fun nextChild y hy => ?_
  obtain ⟨-, hnone, rfl⟩ := hy
  obtain ⟨s, hs, hleaf⟩ := hp
  obtain ⟨s', hs', hlocked⟩ := hheld
  rw [hs] at hs'
  cases hs'
  have hne : nextChild ≠ p := by
    rintro rfl
    rw [hs] at hnone
    cases hnone
  let z := Function.update x nextChild (some (newSketch false))
  have hz : z p = some s := (Function.update_of_ne hne.symm _ _).trans hs
  have hznew : z nextChild = some (newSketch false) := Function.update_self ..
  let w := Function.update x nextChild (some { newSketch false with locked := true })
  -- the new internode has the version word of the old one, the lock included
  refine (traced_readVersion (Q := fun v y => y = z ∧ VersionOk false v ∧ v.locked = true)
    ?_).bind fun v y hy => ?_
  · intro s' v hs' hok hl _
    obtain rfl : s = s' := Option.some.inj (hz.symm.trans hs')
    exact ⟨rfl, hleaf ▸ hok, hl.trans hlocked⟩
  obtain ⟨rfl, hok, hl⟩ := hy
  refine (traced_writeVersion (Q := fun _ y => y = w) ?_).bind fun _ y hy => ?_
  · intro s' v' hs' _ _ _
    obtain rfl : newSketch false = s' := Option.some.inj (hznew.symm.trans hs')
    refine ⟨hok, hok.deleted rfl, ?_⟩
    rw [hl]
    exact Function.update_idem ..
  subst hy
  have hw : Extends {nextChild} x w := extends_new hnone rfl fun b => by simp
  have hnew : w nextChild = some { newSketch false with locked := true } := Function.update_self ..
  have hwp : w p = some s := (Function.update_of_ne hne.symm _ _).trans hs
  refine (traced_markLocked markOk_clearRoot ⟨_, hnew, rfl⟩).bind fun _ y hy => ?_
  rw [hy]
  refine (extends_internodeSplitInto ⟨s, hwp, hleaf⟩ ⟨_, hnew, rfl⟩ hne ⟨s, hwp, hlocked⟩).bind
    fun q y hy => tracks_ret ?_
  obtain ⟨hy, hroom⟩ := hy
  refine ⟨hnone, by simpa using hw.trans hy, AtInternode.grown ⟨_, hnew, rfl⟩ hy.grown, ?_⟩
  intro kp' hkp'
  exact (hroom (by rw [hkp']; simp)).2

/-- The left leaf is stripped of what has moved. -/
theorem traced_shrinkLeft {child : Addr} {splitType : ℕ} (hheld : Held x c.n) :
    machine.Tracks outlineView (shrinkLeft env c child splitType) x fun c' y =>
      y = x ∧ (c'.n = c.n ∨ c'.n = child) := by
  refine sketched_read.then fun nl => sketched_read.then fun nr => ?_
  refine (traced_markLocked markOk_markSplit hheld).bind fun _ y hy => ?_
  rw [hy]
  refine Blind.then (sketched_writeLeaf ?_) fun _ => tracks_ite (fun _ => ?_) fun _ => ?_
  · intro l
    exact ⟨rfl, rfl, rfl, rfl, rfl⟩
  · exact sketched_assign.then fun _ => tracks_ret ⟨rfl, Or.inl rfl⟩
  · exact tracks_ret ⟨rfl, Or.inr rfl⟩

/-! #### The loop -/

/-- The nodes `a` and `b`, beside each other, are to be hung up, and the lock of the leaf `c` is
held besides theirs. -/
structure Splitting (x : Outline) (c a b : Addr) : Prop where
  held : x.held = {c, a, b}
  leaf : AtLeaf x c
  ne : a ≠ b
  nodes : a = c ∧ AtLeaf x b ∨ AtInternode x a ∧ AtInternode x b

/-- The parent of the node that was split is locked, if there is one. -/
def ParentLocked (x : Outline) (p : Addr) (y : Outline) : Prop :=
  (p = 0 ∧ y = x) ∨ (p ≠ 0 ∧ AtInternode y p ∧ p ∉ x.held ∧ Reaches (insert p x.held) x y)

theorem parentLocked_lockedParent {a : Addr} :
    machine.Tracks outlineView (lockedParent env.build a fuel) x fun p y => ParentLocked x p y := by
  refine traced_lockedParent.imp fun p y hy => ?_
  rcases hy with hy | ⟨h0, s, hs, hleaf, hfree, rfl⟩
  · exact Or.inl hy
  · refine Or.inr ⟨h0, ⟨_, Function.update_self .., hleaf⟩, notMem_held hs hfree, ?_, ?_⟩
    · exact grown_update hs rfl rfl
    · exact held_locking hs

/-- What hangs the new node up: `none`, or the next round, whose new node is the locked `b`. -/
def HungUp (p : Addr) (y : Outline) (next : Option SplitRound) (z : Outline) : Prop :=
  match next with
  | none => Extends ∅ y z
  | some r' =>
    r'.n = p ∧ p ≠ 0 ∧ y r'.child = none ∧ Extends {r'.child} y z ∧ AtInternode z r'.child

/-- The new node is hung up beside the one that was split, and `q` is what comes then. -/
theorem hungUp {α : Type} {kp splitType : ℕ} {high full : Bool} {q : Option SplitRound → MtM α}
    {Q : α → Outline → Prop} (h0 : p = 0 → high = true) (hp : p ≠ 0 → AtInternode x p)
    (hheld : p ≠ 0 → Held x p)
    (hroom : p ≠ 0 → full = false → ∃ s, x p = some s ∧ s.leaf = false ∧ s.nkeys < width)
    (hq : ∀ next y, HungUp p x next y → machine.Tracks outlineView (q next) y Q) :
    machine.Tracks outlineView (if high then do
        hangNewParent env r p kp
        q none
      else if full then do
        let (nextChild, kp', xikey') ← splitParent env fuel r p kp splitType
        match kp' with
        | some kp' => do
          insertChild r p kp'
          q (some ⟨p, nextChild, xikey', r.height + 1⟩)
        | none => q (some ⟨p, nextChild, xikey', r.height + 1⟩)
      else do
        insertChild r p kp
        q none) x Q := by
  refine tracks_ite (fun _ => ?_) fun hlow => ?_
  · exact (extends_hangNewParent hp).bind fun _ y hy => hq none y hy
  have hne : p ≠ 0 := fun h => hlow (h0 h)
  refine tracks_ite (fun _ => ?_) fun hfull => ?_
  · refine (extends_splitParent (hp hne) (hheld hne)).bind fun t y hy => ?_
    obtain ⟨nextChild, kp', xikey'⟩ := t
    obtain ⟨hnone, hext, hnew, hspace⟩ := hy
    cases kp' with
    | none => exact hq _ y ⟨rfl, hne, hnone, hext, hnew⟩
    | some kp' =>
      obtain ⟨s, hs, hleaf, hlt⟩ := hspace kp' rfl
      refine (extends_insertChild hs hleaf hlt).bind fun _ z hz => hq _ z ?_
      exact ⟨rfl, hne, hnone, by simpa using hext.trans hz, hnew.grown hz.grown⟩
  · obtain ⟨s, hs, hleaf, hlt⟩ := hroom hne (by simpa using hfull)
    exact (extends_insertChild hs hleaf hlt).bind fun _ y hy => hq none y hy

/-- A lock is given back if it is not needed any more. -/
theorem reaches_unlockIf {P : Prop} [Decidable P] {a : Addr} :
    machine.Tracks outlineView (if P then unlock env.build a else pure ()) x
      fun _ y => Reaches {b | b ∈ x.held ∧ (P → b ≠ a)} x y := by
  refine tracks_ite (fun hP => reaches_unlock.imp fun _ y hy => hy.of_eq ?_) fun hP => tracks_ret ?_
  · ext b
    simp [hP]
  · refine ⟨Grown.refl, ?_⟩
    ext b
    simp [hP]

/-- Of the two nodes beside each other only the one where the cursor goes stays locked. -/
theorem unlocked_iff {a b c c' d : Addr} {R : Addr → Prop} (hc' : c' = c ∨ a = c ∧ c' = b)
    (hab : a ≠ b) (hac : a = c ∨ a ≠ c ∧ b ≠ c) (hR : ∀ d, R d → d ≠ a ∧ d ≠ b) :
    ((d ∈ ({c, a, b} : Set Addr) ∨ R d) ∧ (a ≠ c' → d ≠ a)) ∧ (b ≠ c' → d ≠ b) ↔ d = c' ∨ R d := by
  have hmem : d ∈ ({c, a, b} : Set Addr) ↔ d = c ∨ d = a ∨ d = b := Iff.rfl
  rw [hmem]
  have hRd := hR d
  grind

/-- What a round of the loop comes to. -/
def RoundEnds (x : Outline) (q : Tcursor × Option SplitRound) (y : Outline) : Prop :=
  Grown x y ∧ match q.2 with
    | none => y.held = {q.1.n} ∧ AtLeaf y q.1.n
    | some r' => Splitting y q.1.n r'.n r'.child

theorem ParentLocked.grown (h : ParentLocked x p y) : Grown x y := by
  rcases h with ⟨-, rfl⟩ | ⟨-, -, -, h⟩
  · exact Grown.refl
  · exact h.grown

theorem ParentLocked.atInternode (h : ParentLocked x p y) (h0 : p ≠ 0) : AtInternode y p := by
  rcases h with ⟨hp, -⟩ | ⟨-, h, -⟩
  · exact absurd hp h0
  · exact h

theorem ParentLocked.notMem (h : ParentLocked x p y) (h0 : p ≠ 0) : p ∉ x.held := by
  rcases h with ⟨hp, -⟩ | ⟨-, -, h, -⟩
  · exact absurd hp h0
  · exact h

theorem ParentLocked.mem_held (h : ParentLocked x p y) (d : Addr) :
    d ∈ y.held ↔ d ∈ x.held ∨ p ≠ 0 ∧ d = p := by
  rcases h with ⟨h0, rfl⟩ | ⟨h0, -, -, h⟩
  · simp [h0]
  · rw [h.held, Set.mem_insert_iff, or_comm]
    simp [h0]

theorem ParentLocked.held (h : ParentLocked x p y) (h0 : p ≠ 0) : Held y p :=
  (h.mem_held p).mpr (Or.inr ⟨h0, rfl⟩)

theorem HungUp.grown {next : Option SplitRound} {z : Outline} (h : HungUp p y next z) :
    Grown y z := by
  cases next with
  | none => exact Extends.grown h
  | some r' => exact h.2.2.2.1.grown

theorem HungUp.mem_held {next : Option SplitRound} {z : Outline} (h : HungUp p y next z)
    (d : Addr) : d ∈ z.held ↔ d ∈ y.held ∨ ∃ r', next = some r' ∧ d = r'.child := by
  cases next with
  | none =>
    rw [Extends.held h]
    simp
  | some r' =>
    rw [h.2.2.2.1.held]
    simp [or_comm]

/-- **The locks at the end of a round**: of the two nodes that of the cursor stays locked, and the
parent if the loop goes on from there. -/
theorem roundEnds_unlocks {splitType : ℕ} {next : Option SplitRound} {z : Outline}
    (h : Splitting x c.n r.n r.child) (hy : ParentLocked x p y) (hz : HungUp p y next z) :
    machine.Tracks outlineView (do
      let c' ← if r.n = c.n then shrinkLeft env c r.child splitType else pure c
      if r.n ≠ c'.n then unlock env.build r.n else pure ()
      if r.child ≠ c'.n then unlock env.build r.child else pure ()
      if next.isNone ∧ p ≠ 0 then unlock env.build p else pure ()
      pure (c', next)) z fun q w => RoundEnds x q w := by
  have hxz := hy.grown.trans hz.grown
  have hleaf := h.leaf.grown hxz
  -- what is locked besides the leaf of the cursor and the two nodes
  let R (d : Addr) : Prop := p ≠ 0 ∧ d = p ∨ ∃ r', next = some r' ∧ d = r'.child
  have hzheld (d : Addr) : d ∈ z.held ↔ d ∈ x.held ∨ R d := by
    rw [hz.mem_held, hy.mem_held, or_assoc]
  have hnew : ∀ r', next = some r' → r'.child ∉ y.held := by
    rintro r' rfl ⟨s, hs, -⟩
    rw [hz.2.2.1] at hs
    cases hs
  have hcn : Held z c.n := (hzheld c.n).mpr (Or.inl (h.held ▸ Or.inl rfl))
  have hshrink : machine.Tracks outlineView
      (if r.n = c.n then shrinkLeft env c r.child splitType else pure c) z fun c' w =>
        w = z ∧ (c'.n = c.n ∨ r.n = c.n ∧ c'.n = r.child) := by
    refine tracks_ite (fun hrc => ?_) fun _ => tracks_ret ⟨rfl, Or.inl rfl⟩
    refine (traced_shrinkLeft hcn).imp fun c' w hw => ⟨hw.1, ?_⟩
    exact hw.2.imp_right fun h => ⟨hrc, h⟩
  refine tracks_join hshrink fun c' w hw => ?_
  rcases hw with ⟨rfl, hc'⟩
  refine tracks_join reaches_unlockIf fun _ w₁ hw₁ => ?_
  refine tracks_join reaches_unlockIf fun _ w₂ hw₂ => ?_
  refine tracks_join reaches_unlockIf fun _ w₃ hw₃ => tracks_ret ?_
  have hww := hw₁.grown.trans (hw₂.grown.trans hw₃.grown)
  refine ⟨hxz.trans hww, ?_⟩
  have hleaf' : AtLeaf w₃ c'.n := by
    rcases hc' with hc' | ⟨hrc, hc'⟩
    · exact hc' ▸ hleaf.grown hww
    · rcases h.nodes with ⟨-, hb⟩ | ⟨ha, -⟩
      · exact hc' ▸ hb.grown (hxz.trans hww)
      · exact absurd hrc.symm (h.leaf.ne_atInternode ha)
  have hR (d : Addr) (hd : R d) : d ≠ r.n ∧ d ≠ r.child := by
    have hdx : d ∉ x.held := by
      rcases hd with ⟨h0, rfl⟩ | ⟨r', hr', rfl⟩
      · exact hy.notMem h0
      · intro hdx
        exact hnew r' hr' ((hy.mem_held _).mpr (Or.inl hdx))
    rw [h.held] at hdx
    constructor
    · rintro rfl
      exact hdx (Or.inr (Or.inl rfl))
    · rintro rfl
      exact hdx (Or.inr (Or.inr rfl))
  have hnodes : r.n = c.n ∨ r.n ≠ c.n ∧ r.child ≠ c.n := by
    rcases h.nodes with ⟨ha, -⟩ | ⟨ha, hb⟩
    · exact Or.inl ha
    · exact Or.inr ⟨(h.leaf.ne_atInternode ha).symm, (h.leaf.ne_atInternode hb).symm⟩
  have hheld₂ (d : Addr) : d ∈ w₂.held ↔ d = c'.n ∨ R d := by
    rw [hw₂.held, Set.mem_ofPred_eq, hw₁.held, Set.mem_ofPred_eq, hzheld, h.held]
    exact unlocked_iff hc' h.ne hnodes hR
  have hheld₃ (d : Addr) :
      d ∈ w₃.held ↔ (d = c'.n ∨ R d) ∧ (next.isNone = true ∧ p ≠ 0 → d ≠ p) := by
    rw [hw₃.held, Set.mem_ofPred_eq, hheld₂]
  cases next with
  | none =>
    refine ⟨?_, hleaf'⟩
    ext d
    have hRd : R d ↔ p ≠ 0 ∧ d = p := by simp [R]
    rw [hheld₃, hRd, Set.mem_singleton_iff]
    constructor
    · rintro ⟨hd | hd, hdp⟩
      · exact hd
      · exact absurd hd.2 (hdp ⟨rfl, hd.1⟩)
    · rintro rfl
      refine ⟨Or.inl rfl, fun h0 => ?_⟩
      exact hleaf'.ne_atInternode ((hy.atInternode h0.2).grown (hz.grown.trans hww))
  | some r' =>
    have hgrown := hz.grown.trans hww
    obtain ⟨hr'n, h0, -, -, hr'⟩ := hz
    refine ⟨?_, hleaf', ?_, Or.inr ⟨hr'n ▸ (hy.atInternode h0).grown hgrown, hr'.grown hww⟩⟩
    · ext d
      have hRd : R d ↔ d = r'.n ∨ d = r'.child := by simp [R, h0, hr'n]
      rw [hheld₃, hRd]
      exact ⟨fun hd => hd.1, fun hd => ⟨hd, fun h => by cases h.1⟩⟩
    · intro hne
      refine hnew r' rfl ?_
      rw [← hne, hr'n]
      exact hy.held h0

/-- **A round of the loop**: either it is the last one, and only the leaf of the cursor stays
locked, or the next one goes on one level above. -/
theorem reaches_splitRound {splitType : ℕ} (h : Splitting x c.n r.n r.child) :
    machine.Tracks outlineView (splitRound env fuel c splitType r) x fun q y =>
      RoundEnds x q y := by
  refine sketched_read.then fun v => sketched_read.then fun vc => ?_
  refine (sketched_assert _ _).then fun _ => parentLocked_lockedParent.bind fun p y hy => ?_
  extract_lets jp jp'
  have hjp (next : Option SplitRound) (z : Outline) (hz : HungUp p y next z) :
      machine.Tracks outlineView (jp next) z fun q w => RoundEnds x q w :=
    roundEnds_unlocks h hy hz
  refine tracks_ite (fun h0 => ?_) fun h0 => ?_
  · refine (traced_readInternode (Q := fun xp z => z = y ∧ ∃ s, y p = some s ∧ s.leaf = false ∧
      xp.nkeys = s.nkeys) fun s xp hs hleaf hk => ⟨rfl, s, hs, hleaf, hk⟩).bind fun xp z hz => ?_
    obtain ⟨rfl, s, hs, hleaf, hk⟩ := hz
    refine (traced_markLocked markOk_markInsert (hy.held h0)).bind fun _ z' hz' => ?_
    rw [hz']
    refine hungUp (fun h => absurd h h0) hy.atInternode hy.held (fun _ hfull => ?_) hjp
    refine ⟨s, hs, hleaf, ?_⟩
    rw [← hk]
    simpa using hfull
  · have hhang : machine.Tracks outlineView (hangNewParent env r p 0) y
        fun _ z => Extends ∅ y z := extends_hangNewParent hy.atInternode
    have hdone := hhang.bind fun _ z hz => hjp none z hz
    exact hdone

/-- **The loop** ends with the lock of the leaf that the cursor has come to. -/
theorem reaches_splitRounds {splitType rounds : ℕ} (h : Splitting x c.n r.n r.child) :
    machine.Tracks outlineView (splitRounds env fuel splitType rounds c r) x fun c' y =>
      Reaches {c'.n} x y ∧ AtLeaf y c'.n := by
  induction rounds generalizing x c r with
  | zero => exact tracks_diverge
  | succ rounds ih =>
    refine (reaches_splitRound h).bind fun q y hy => ?_
    obtain ⟨c', next⟩ := q
    obtain ⟨hg, hy⟩ := hy
    cases next with
    | none => exact tracks_ret ⟨⟨hg, hy.1⟩, hy.2⟩
    | some r' =>
      refine (ih hy).imp fun c'' z hz => ?_
      exact ⟨⟨hg.trans hz.1.grown, hz.1.held⟩, hz.2⟩

theorem reaches_makeSplit (hleaf : AtLeaf x c.n) (hheld : x.held = {c.n}) :
    machine.Tracks outlineView (makeSplit env fuel c) x fun c' y =>
      Reaches {c'.n} x y ∧ AtLeaf y c'.n := by
  refine sketched_read.then fun l => tracks_ite (fun _ => ?_) fun _ => ?_
  · refine Blind.then (sketched_writeLeaf ?_) fun _ => sketched_assign.then fun _ => ?_
    · intro l
      exact ⟨rfl, rfl, rfl, rfl, rfl⟩
    exact tracks_ret ⟨⟨Grown.refl, hheld⟩, hleaf⟩
  · have hcn : Held x c.n := by
      have hmem : c.n ∈ x.held := hheld ▸ Set.mem_singleton c.n
      exact hmem
    refine (extends_splitLeaf hleaf hcn).bind fun q y hy => ?_
    obtain ⟨splitType, r⟩ := q
    obtain ⟨hn, hnone, hext, hchild⟩ := hy
    have hne : r.n ≠ r.child := by
      obtain ⟨s, hs, -⟩ := hleaf
      intro heq
      rw [← heq, hn, hs] at hnone
      cases hnone
    have hstart : Splitting y c.n r.n r.child := by
      refine ⟨?_, hleaf.grown hext.grown, hne, Or.inl ⟨hn, hchild⟩⟩
      rw [hext.held, hheld, hn]
      simp [Set.pair_comm]
    refine (reaches_splitRounds hstart).imp fun c' z hz => ?_
    exact ⟨⟨hext.grown.trans hz.1.grown, hz.1.held⟩, hz.2⟩

end Splits

/-! ### An insertion -/

section Put

variable {env : Env} {x : Outline} {fuel : ℕ} {c : Tcursor} {key : Str} {value : ℕ}

theorem reaches_makeRoom (hleaf : AtLeaf x c.n) (hheld : x.held = {c.n}) :
    machine.Tracks outlineView (makeRoom env fuel c) x fun c' y =>
      Reaches {c'.n} x y ∧ AtLeaf y c'.n := by
  have hcn : Held x c.n := by
    have hmem : c.n ∈ x.held := hheld ▸ Set.mem_singleton c.n
    exact hmem
  refine sketched_read.then fun l => ?_
  have hrest : machine.Tracks outlineView
      (if l.size < width ∧
          (l.permutation.back ≠ 0 ∨ l.prev = 0 ∨ l.ikeyBound = c.ka.ikey) then do
        assign env.build c.n l.permutation.back c.ka false
        pure { c with kx := { c.kx with p := some l.permutation.back } }
      else makeSplit env fuel c) x fun c' y => Reaches {c'.n} x y ∧ AtLeaf y c'.n := by
    refine tracks_ite (fun _ => ?_) fun _ => reaches_makeSplit hleaf hheld
    exact sketched_assign.then fun _ => tracks_ret ⟨⟨Grown.refl, hheld⟩, hleaf⟩
  refine tracks_ite (fun _ => (sketched_assert _ _).then fun _ => ?_) fun _ => hrest
  refine (traced_markLocked markOk_markInsert hcn).bind fun _ y hy => ?_
  rw [hy]
  refine Blind.then (sketched_writeLeaf ?_) fun _ => hrest
  intro l
  exact ⟨rfl, rfl, rfl, rfl, rfl⟩

/-- **The leaf where the key goes is locked, and no other node is.** -/
theorem reaches_findInsert (hheld : x.held = ∅) :
    machine.Tracks outlineView (findInsert env fuel c) x fun c' y =>
      Reaches {c'.n} x y ∧ AtLeaf y c'.n := by
  refine traced_findLocked.bind fun c' y hy => ?_
  rcases hy with ⟨s, hs, hleaf, hdel, hfree, rfl⟩
  have hgrown : Grown x (locking x c'.n s) := grown_update hs rfl rfl
  have hheld' : Outline.held (locking x c'.n s) = {c'.n} := by
    rw [held_locking hs, hheld, insert_empty_eq]
  have hleaf' : AtLeaf (locking x c'.n s) c'.n := AtLeaf.grown ⟨s, hs, hleaf, hdel⟩ hgrown
  have hback {c'' : Tcursor} {z : Outline}
      (hz : Reaches {c''.n} (locking x c'.n s) z ∧ AtLeaf z c''.n) :
      Reaches {c''.n} x z ∧ AtLeaf z c''.n := ⟨⟨hgrown.trans hz.1.grown, hz.1.held⟩, hz.2⟩
  refine tracks_ite (fun _ => ?_) fun _ => tracks_ite (fun _ => ?_) fun _ => ?_
  · exact tracks_ret ⟨⟨hgrown, hheld'⟩, hleaf'⟩
  · exact (reaches_makeNewLayer (c := { c' with state := 2 }) hheld').imp fun _ _ => hback
  · exact (reaches_makeRoom (c := { c' with state := 2 }) hleaf' hheld').imp fun _ _ => hback

theorem reaches_finishPut (hheld : x.held = {c.n}) :
    machine.Tracks outlineView (finishPut env c) x fun _ y => Reaches ∅ x y := by
  have hunlock : machine.Tracks outlineView (unlock env.build c.n) x fun _ y => Reaches ∅ x y := by
    refine reaches_unlock.imp fun _ y hy => hy.of_eq ?_
    rw [hheld, Set.sdiff_self]
  refine tracks_ite (fun _ => ?_) fun _ => hunlock
  have hfinish : machine.Blind outlineView (finishInsert env c) := by
    refine sketched_read.bind fun l => (sketched_assert _ _).bind fun _ => sketched_writeLeaf ?_
    intro l
    exact ⟨rfl, rfl, rfl, rfl, rfl⟩
  exact hfinish.then fun _ => hunlock

theorem sketched_fixRoot : machine.Blind outlineView fixRoot := by
  have hroot : machine.Blind outlineView readRoot := fun _ =>
    traced_access fun _ _ hs hx _ => ⟨hs, hx⟩
  refine hroot.bind fun root => sketched_read.bind fun v => ?_
  refine blind_ite blind_ret (sketched_maybeParent.bind fun root' => ?_)
  exact (sketched_casRoot _ _).bind fun _ => blind_ret

/-- **An insertion** into a table in which no node is locked keeps the memory sound, and leaves no
node locked. -/
theorem reaches_put (hheld : x.held = ∅) :
    machine.Tracks outlineView (put env fuel key value) x fun _ y => Reaches ∅ x y := by
  refine sketched_fixRoot.then fun root => (reaches_findInsert hheld).bind fun c y hy => ?_
  obtain ⟨hy, -⟩ := hy
  refine Blind.then (sketched_writeLeaf ?_) fun _ => ?_
  · intro l
    exact ⟨rfl, rfl, rfl, rfl, rfl⟩
  refine (reaches_finishPut hy.held).imp fun _ z hz => ?_
  exact ⟨hy.grown.trans hz.grown, hz.held⟩

/-- The root of a new table. -/
theorem reaches_initializeTable (hheld : x.held = ∅) :
    machine.Tracks outlineView (initializeTable env) x fun _ y => Reaches ∅ x y := by
  refine traced_makeRoot.bind fun r y hy => ?_
  refine (sketched_casRoot 0 r y).imp fun _ z hz => ?_
  rw [hz]
  refine ⟨hy.extends.grown, ?_⟩
  rw [hy.extends.held, hheld, Set.union_empty]

end Put

/-! ### Tables -/

section Tables

/-- A memory without nodes. -/
def Mem.start (g : Global) : Mem := ⟨fun _ => none, fun _ => none, 0, 0, [], [], g⟩

/-- **The tables that insertions build.**  Between two of them the workers may change the shared
state. -/
inductive Inserted (env : Env) : Mem → Prop
  | create {g : Global} {mem : Mem}
      (h : machine.run (initializeTable env) (Mem.start g) = done () mem) : Inserted env mem
  | put {mem mem' : Mem} {fuel : ℕ} {key : Str} {value : ℕ} (hmem : Inserted env mem)
      (h : machine.run (put env fuel key value) mem = done () mem') : Inserted env mem'
  | share {mem : Mem} (hmem : Inserted env mem) (g : Global) : Inserted env { mem with global := g }

variable {env : Env} {mem : Mem}

theorem sound_start (g : Global) : (Mem.start g).Sound where
  null := rfl
  lt _ h := absurd rfl h
  bag_lt _ h := absurd rfl h
  version _ _ h := by cases h
  parent _ _ h := by cases h
  nkeys _ _ h := by cases h
  size _ _ _ _ h := by cases h
  bag _ _ _ _ h := by cases h
  own _ _ _ _ _ _ _ h := by cases h
  live _ _ h := by cases h
  chained := ⟨fun _ _ h => (by cases h), fun _ _ h => (by cases h), fun _ _ h => (by cases h)⟩

/-- A table that insertions build is sound, and none of its nodes is locked or deleted. -/
theorem Inserted.sound (h : Inserted env mem) :
    mem.Sound ∧ mem.outline.held = ∅ ∧ ∀ a s, mem.outline a = some s → s.deleted = false := by
  have hgrown {mem mem' : Mem} (hdel : ∀ a s, mem.outline a = some s → s.deleted = false)
      (hg : Grown mem.outline mem'.outline) (a : Addr) (s : Sketch)
      (hs : mem'.outline a = some s) : s.deleted = false := by
    cases ha : mem.outline a with
    | none => exact hg.new_ ha hs
    | some t =>
      obtain ⟨u, hu, -, hud⟩ := hg.old ha
      rw [hs] at hu
      cases hu
      exact hud.trans (hdel a t ha)
  induction h with
  | @create g _ h =>
    have hempty : (Mem.start g).outline.held = ∅ := by
      refine Set.eq_empty_iff_forall_notMem.mpr ?_
      rintro a ⟨s, hs, -⟩
      cases hs
    obtain ⟨hs, hr⟩ := reaches_initializeTable hempty _ (sound_start g) rfl _ _ h
    exact ⟨hs, hr.held, hgrown (fun a s hs => by cases hs) hr.grown⟩
  | put _ h ih =>
    obtain ⟨hs, hheld, hdel⟩ := ih
    obtain ⟨hs', hr⟩ := reaches_put hheld _ hs rfl _ _ h
    exact ⟨hs', hr.held, hgrown hdel hr.grown⟩
  | share _ g ih =>
    obtain ⟨hs, hheld, hdel⟩ := ih
    exact ⟨hs.congr rfl rfl rfl, hheld, hdel⟩

end Tables

end Sidle.Masstree
