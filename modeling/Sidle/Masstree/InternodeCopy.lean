import Sidle.Masstree.AbsentChild
import Sidle.Masstree.Reach
import Sidle.Masstree.Relocate

/-!
# The copy of an internode

After `masstree_internode_migration` the copy stands where the internode stood, and the parent and
the children know it.  The original is left behind, with its pointer to the parent and without a
root bit.  A pointer to it still leads to the root if there was a parent; the original of a root
leads nowhere.

## Main definitions

* `Mem.Layer` — a layer at rest, in which places may be empty.
* `Renewed` — what `reach_leaf` finds after a migration.

## Main results

* `ensures_internodeMigration` — what a migration has done.
* `internodeMigration_reaches_iff` — **when a pointer still leads to the same leaf**.
-/

namespace Sidle.Masstree

open Art (Build Fault)
open Prog Machine Outcome Word Worker

/-! ### Layers with empty places -/

/-- The nodes in `S` are those of a layer on which nobody works: parents and children agree, no
node is in two places, and the internode without a parent is the one with the root bit. -/
structure Mem.Layer (mem : Mem) (S : Set Addr) : Prop where
  null : mem.blocks 0 = none
  fresh : mem.blocks mem.fresh = none
  node : ∀ ⦃a⦄, a ∈ S → ∃ n, mem.node? a = some n ∧ n.Tagged ∧ n.version.marks.Calm
  root : ∀ ⦃a x⦄, a ∈ S → mem.node? a = some (.internode x) →
    (x.version.isRoot = true ↔ x.parent = 0)
  parent : ∀ ⦃a n⦄, a ∈ S → mem.node? a = some n → n.parent ≠ 0 → n.parent ∈ S ∧ n.parent ≠ a ∧
    ∃ y, mem.node? n.parent = some (.internode y) ∧ a ∈ y.children
  child : ∀ ⦃a x c⦄, a ∈ S → mem.node? a = some (.internode x) → c ∈ x.children → c ≠ 0 →
    c ∈ S ∧ ∃ n, mem.node? c = some n ∧ n.parent = a
  place : ∀ ⦃a x i j⦄, a ∈ S → mem.node? a = some (.internode x) → i ≤ x.nkeys → j ≤ x.nkeys →
    x.child i = x.child j → x.child i ≠ 0 → i = j

section Layers

variable {mem : Mem} {S : Set Addr} {a b : Addr} {x : Internode} {n : Node}

theorem Mem.Layer.ne_fresh (h : mem.Layer S) (hn : mem.node? a = some n) : a ≠ mem.fresh := by
  rintro rfl
  rw [Mem.node?, h.fresh] at hn
  cases hn

theorem Mem.Layer.ne_zero (h : mem.Layer S) (hn : mem.node? a = some n) : a ≠ 0 := by
  rintro rfl
  rw [node?_zero h.null] at hn
  cases hn

theorem Mem.Layer.child_ne (h : mem.Layer S) (ha : a ∈ S) (hx : mem.node? a = some (.internode x))
    (hb : b ∈ x.children) (h0 : b ≠ 0) : b ≠ a := by
  rintro rfl
  obtain ⟨-, n, hn, hp⟩ := h.child ha hx hb h0
  obtain rfl : n = .internode x := Option.some.inj (hn.symm.trans hx)
  exact (h.parent ha hx (hp ▸ h0)).2.1 hp

/-- The parent of an internode. -/
theorem Mem.Layer.exists_parent (h : mem.Layer S) (ha : a ∈ S)
    (hx : mem.node? a = some (.internode x))
    (hp : x.parent ≠ 0) : x.parent ∈ S ∧ x.parent ≠ a ∧ ∃ y,
      mem.node? x.parent = some (.internode y) ∧
      a ∈ y.children ∧ y.version.marks.Calm := by
  obtain ⟨hpS, hpa, y, hy, hmem⟩ := h.parent ha hx hp
  obtain ⟨n, hn, -, hcalm⟩ := h.node hpS
  obtain rfl : n = .internode y := Option.some.inj (hn.symm.trans hy)
  exact ⟨hpS, hpa, y, hy, hmem, hcalm⟩

end Layers

/-! ### On the way -/

/-- The internode `x` at `a` of `mem₀` is being replaced by `new_`: the nodes of `told` know their
new parent, and the old parent knows its new child if `hung` says so. -/
structure Copying (mem₀ : Mem) (a new_ : Addr) (x : Internode) (hung : Bool) (told : List Addr)
    (mem : Mem) : Prop where
  rest : ∀ b, b ≠ a → b ≠ new_ → mem.guide b = (mem₀.guide b).map fun g =>
    { g with
      parent := if b ∈ told then new_ else g.parent
      next := if hung = true ∧ b = x.parent then Forest.moved a new_ ∘ g.next else g.next }
  copy : mem.guide new_ = some (Node.internode x).guide
  original : ∃ o, mem.node? a = some (.internode o) ∧ o.parent = x.parent ∧
    o.children = x.children ∧
    o.version.isRoot = x.version.isRoot
  place : hung = false → x.parent ≠ a → x.parent ≠ new_ →
    mem.contents x.parent = mem₀.contents x.parent

section Copying

variable {env : Env} {mem₀ mem mem' : Mem} {a b new_ : Addr} {x : Internode} {hung : Bool}
  {told : List Addr} {n n' : Node}

theorem guide_setNode (h : mem.node? b = some n) :
    (mem.setNode b n').guide = Function.update mem.guide b (some n'.guide) := by
  funext c
  unfold Mem.guide
  rw [node?_setNode_eq h]
  by_cases hc : c = b
  · subst hc
    simp
  · rw [if_neg hc, Function.update_of_ne hc]

theorem guide_setParent {p : Addr} : (n.setParent p).guide = { n.guide with parent := p } := by
  cases n <;> rfl

theorem guide_core (n : Node) : n.core.guide = n.guide := by
  cases n with
  | leaf l => simp only [Node.core, Node.guide, marks_clearLock]
  | internode x =>
    simp only [Node.core, Node.guide, marks_clearLock]
    rfl

theorem Quiet.guide (h : Quiet mem mem') : mem'.guide = mem.guide := by
  funext c
  have hcore := congrArg (Option.map fun b : Block => b.node.guide) (h.core c)
  simpa [Mem.guide, Mem.node?, Function.comp_def, guide_core] using hcore

/-- The fields of an internode stay through a quiet change. -/
theorem Quiet.internode (h : Quiet mem mem') (hx : mem.node? a = some (.internode x)) :
    ∃ o, mem'.node? a = some (.internode o) ∧ o.parent = x.parent ∧ o.children = x.children ∧
      o.version.marks = x.version.marks := by
  obtain ⟨o, ho, hcore⟩ := h.internode? (internode?_eq_some.mpr hx)
  have hguide : (Node.internode o).guide = (Node.internode x).guide := by
    rw [← guide_core, hcore, guide_core]
  have hentry : (Node.internode o).entry false = (Node.internode x).entry false := by
    rw [← entry_core, hcore, entry_core]
  exact ⟨o, internode?_eq_some.mp ho, congrArg Guide.parent hguide,
    congrArg Forest.Entry.children hentry, congrArg Guide.marks hguide⟩

theorem isRoot_of_marks {v w : NodeVersion} (h : v.marks = w.marks) : v.isRoot = w.isRoot :=
  congrArg Marks.isRoot h

theorem Copying.quiet (h : Copying mem₀ a new_ x hung told mem) (hq : Quiet mem mem') :
    Copying mem₀ a new_ x hung told mem' := by
  refine ⟨fun b hb hb' => ?_, ?_, ?_, fun hh hp hp' => ?_⟩
  · rw [hq.guide, h.rest b hb hb']
  · rw [hq.guide, h.copy]
  · obtain ⟨o, ho, hparent, hchildren, hroot⟩ := h.original
    obtain ⟨o', ho', hparent', hchildren', hmarks⟩ := hq.internode ho
    exact ⟨o', ho', hparent'.trans hparent, hchildren'.trans hchildren,
      (isRoot_of_marks hmarks).trans hroot⟩
  · rw [hq.sameContents.contents, h.place hh hp hp']

/-- A store to the copy that does not change what is read of it. -/
theorem Copying.setCopy (h : Copying mem₀ a new_ x hung told mem) (hn : mem.node? new_ = some n)
    (hne : new_ ≠ a) (hn' : n'.guide = n.guide) :
      Copying mem₀ a new_ x hung told (mem.setNode new_ n') := by
  have hguide : (mem.setNode new_ n').guide = mem.guide := by
    rw [guide_setNode hn, hn', Function.update_eq_self_iff]
    exact (guide_of_node? hn).symm
  refine ⟨fun b hb hb' => ?_, ?_, ?_, fun hh hp hp' => ?_⟩
  · rw [hguide, h.rest b hb hb']
  · rw [hguide, h.copy]
  · obtain ⟨o, ho, hrest⟩ := h.original
    exact ⟨o, (node?_setNode_of_ne hne.symm).trans ho, hrest⟩
  · rw [contents_setNode hn, Function.update_of_ne hp', h.place hh hp hp']

/-- The copy has been made and the original marked. -/
theorem ensures_copyInternode_copying {t : NodeMemType} (hfresh : mem.blocks mem.fresh = none)
    (hx : mem.node? a = some (.internode x)) (o : Internode) :
    machine.Ensures (copyInternode env a o t) mem fun new_ mem' => new_ = mem.fresh ∧
      Copying mem a mem.fresh x false [] mem' := by
  have hne : mem.fresh ≠ a := by
    rintro rfl
    rw [Mem.node?, hfresh] at hx
    cases hx
  have hmake : machine.Ensures (makeInternode env o.height o.sidleMeta.depth t true) mem
      fun new_ mem' => new_ = mem.fresh ∧ ∃ m, mem'.node? mem.fresh = some m ∧
        ∀ b, b ≠ mem.fresh → mem'.node? b = mem.node? b := by
    refine ensures_poolAllocate.bind fun c mem₁ h₁ => ?_
    obtain ⟨rfl, rfl⟩ := h₁
    refine (keeps_onGlobal (R := fun s s' => s'.node? = s.node?) fun _ _ _ _ => rfl).then
      fun _ mem₂ h₂ => ensures_ret.mpr ⟨rfl, ?_⟩
    refine ⟨.internode (Internode.make o.height t o.sidleMeta.depth), ?_, fun b hb => ?_⟩
    · rw [h₂, node?_alloc, if_pos rfl]
    · rw [h₂, node?_alloc, if_neg hb]
  refine hmake.bind fun c mem₁ h₁ => ?_
  obtain ⟨rfl, m, hm, hrest⟩ := h₁
  refine ensures_read.bind fun o' mem₂ ho' => ?_
  obtain ⟨rfl, o'', ho', rfl⟩ := ho'
  obtain rfl : o' = x := Node.internode.inj (Option.some.inj
    ((internode?_eq_some.mp ho').symm.trans ((hrest a hne.symm).trans hx)))
  -- the copy, its type, and the mark
  refine (ensures_access (Q := fun _ s => s.node? mem.fresh = some (.internode o') ∧
    ∀ b, b ≠ mem.fresh → s.node? b = mem.node? b)
      fun y hy => ⟨node?_setNode hm, fun b hb => ?_⟩).bind
      fun _ mem₃ h₃ => ?_
  · rw [node?_setNode_of_ne hb, hrest b hb]
  refine (ensures_access (Q := fun _ s => s.guide mem.fresh = some (Node.internode o').guide ∧
    ∀ b, b ≠ mem.fresh → s.node? b = mem.node? b) fun y hy => ⟨?_, fun b hb => ?_⟩).bind
      fun _ mem₄ h₄ => ?_
  · obtain rfl : y = o' := Node.internode.inj (Option.some.inj
      ((internode?_eq_some.mp hy).symm.trans h₃.1))
    rw [guide_setNode h₃.1, Function.update_self]
    rfl
  · rw [node?_setNode_of_ne hb, h₃.2 b hb]
  refine (ensures_access fun n hn => ?_).bind
    (P := fun _ mem' => Copying mem a mem.fresh o' false [] mem')
    fun _ _ h => ensures_ret.mpr ⟨rfl, h⟩
  obtain rfl : n = .internode o' := Option.some.inj (hn.symm.trans ((h₄.2 a hne.symm).trans hx))
  refine ⟨fun b hb hb' => ?_, ?_, ⟨_, node?_setNode hn, rfl, rfl, ?_⟩, fun _ hp hp' => ?_⟩
  · rw [guide_setNode hn, Function.update_of_ne hb]
    have hsame : mem₄.guide b = mem.guide b := congrArg _ (h₄.2 b hb')
    simp [hsame]
  · rw [guide_setNode hn, Function.update_of_ne hne, h₄.1]
  · exact flag_setFlag_of_ne (by decide) _ (by decide)
  · rw [contents_setNode hn, Function.update_of_ne hp]
    exact congrArg _ (h₄.2 o'.parent hp')

/-- A root is replaced by a root. -/
theorem Copying.ensures_makeLayerRoot (h : Copying mem₀ a new_ x hung told mem) (hne : new_ ≠ a)
    (hp : x.parent = 0) (hroot : x.version.isRoot = true) :
    machine.Ensures (makeLayerRoot new_) mem
      fun _ mem' => Copying mem₀ a new_ x hung told mem' := by
  obtain ⟨m, hm, hguide⟩ := guide_eq_some.mp h.copy
  refine (ensures_access (Q := fun _ s => Copying mem₀ a new_ x hung told s) fun n hn => ?_).bind
    fun _ mem₁ h₁ => ?_
  · obtain rfl : n = m := Option.some.inj (hn.symm.trans hm)
    refine h.setCopy hn hne ?_
    rw [guide_setParent, hguide, ← hp]
    rfl
  · obtain ⟨m', hm', hguide'⟩ := guide_eq_some.mp h₁.copy
    refine ensures_access fun n hn => ?_
    obtain rfl : n = m' := Option.some.inj (hn.symm.trans hm')
    refine h₁.setCopy hn hne ?_
    have hisRoot : n.version.marks.isRoot = true := by
      rw [← Node.guide_marks, hguide']
      exact hroot
    have hmarks : NodeVersion.marks (setFlag 30 n.version) = n.version.marks := by
      rw [marks_setRoot, ← hisRoot]
    cases n with
    | leaf l => exact congrArg (Guide.mk _ _ · _) hmarks
    | internode y => exact congrArg (Guide.mk _ _ · _) hmarks

/-- The child at a place is replaced for all slices that led to it. -/
theorem next_setChild {y : Internode} {posi : ℕ} (hchild : y.child posi = a)
    (hplace : ∀ j ≤ y.nkeys, y.child j = a → j = posi) :
    (Node.internode (y.setChild posi new_)).guide.next =
      Forest.moved a new_ ∘ (Node.internode y).guide.next := by
  funext ikey
  change Function.update y.child posi new_ (y.upper ikey) =
    Forest.moved a new_ (y.child (y.upper ikey))
  unfold Forest.moved
  by_cases hj : y.upper ikey = posi
  · rw [hj, Function.update_self, hchild, if_pos rfl]
  · rw [Function.update_of_ne hj, if_neg]
    intro hc
    exact hj (hplace _ (upperBoundBy_le (Nat.zero_le _)) hc)

/-- The parent gets the copy in the place of the node. -/
theorem Copying.ensures_assignCopy {y : Internode} {posi : ℕ}
    (h : Copying mem₀ a new_ x false [] mem)
    (hne : new_ ≠ a) (hpa : x.parent ≠ a) (hpnew : x.parent ≠ new_)
    (hy : mem.node? x.parent = some (.internode y))
    (hchild : y.child posi = a) (hplace : ∀ j ≤ y.nkeys, y.child j = a → j = posi) :
    machine.Ensures (assignCopy x.parent posi new_) mem fun _ mem' =>
      Copying mem₀ a new_ x true [] mem' := by
  obtain ⟨m, hm, hguide⟩ := guide_eq_some.mp h.copy
  refine (ensures_access (Q := fun _ s => Copying mem₀ a new_ x false [] s ∧
    s.node? x.parent = some (.internode y)) fun n hn => ?_).bind fun _ mem₁ h₁ => ?_
  · obtain rfl : n = m := Option.some.inj (hn.symm.trans hm)
    refine ⟨h.setCopy hn hne ?_, (node?_setNode_of_ne hpnew).trans hy⟩
    rw [guide_setParent, hguide]
    rfl
  obtain ⟨h₁, hy₁⟩ := h₁
  refine ensures_access fun y' hy' => ?_
  obtain rfl : y' = y := Node.internode.inj
    (Option.some.inj ((internode?_eq_some.mp hy').symm.trans hy₁))
  have hnext : (Node.internode (y'.setChild posi new_)).guide = { (Node.internode y').guide with
      next := Forest.moved a new_ ∘ (Node.internode y').guide.next } :=
    congrArg (Guide.mk _ _ _) (next_setChild hchild hplace)
  have hguide' : (mem₁.setNode x.parent (.internode (y'.setChild posi new_))).guide =
      Function.update mem₁.guide x.parent (some (Node.internode (y'.setChild posi new_)).guide) :=
    guide_setNode hy₁
  refine ⟨fun b hb hb' => ?_, ?_, ?_, fun hh => absurd hh (by decide)⟩
  · change (mem₁.setNode x.parent (.internode (y'.setChild posi new_))).guide b = _
    rw [hguide']
    by_cases hbp : b = x.parent
    · subst hbp
      have hold := h₁.rest x.parent hpa hpnew
      rw [guide_of_node? hy₁] at hold
      obtain ⟨g, hg, hgy⟩ := Option.map_eq_some_iff.mp hold.symm
      simp only [Bool.false_eq_true, false_and, if_false] at hgy
      rw [Function.update_self, hnext, hg, Option.map_some, ← hgy]
      simp
    · rw [Function.update_of_ne hbp, h₁.rest b hb hb']
      simp [hbp]
  · change (mem₁.setNode x.parent (.internode (y'.setChild posi new_))).guide new_ = _
    rw [hguide', Function.update_of_ne hpnew.symm, h₁.copy]
  · obtain ⟨o, ho, hrest⟩ := h₁.original
    exact ⟨o, (node?_setNode_of_ne hpa.symm).trans ho, hrest⟩

/-- One more child is told of its new parent. -/
theorem Copying.ensures_setParent {c : Addr} (h : Copying mem₀ a new_ x true told mem) (hca : c ≠ a)
    (hcnew : c ≠ new_) :
    machine.Ensures (Masstree.setParent c new_) mem fun _ mem' =>
      Copying mem₀ a new_ x true (told ++ [c]) mem' := by
  refine ensures_access fun n hn => ⟨fun b hb hb' => ?_, ?_, ?_, fun hh => absurd hh (by decide)⟩
  · rw [guide_setNode hn]
    by_cases hbc : b = c
    · subst hbc
      have hold := h.rest b hb hb'
      rw [guide_of_node? hn] at hold
      obtain ⟨g, hg, hgn⟩ := Option.map_eq_some_iff.mp hold.symm
      rw [Function.update_self, guide_setParent, ← hgn, hg]
      simp
    · rw [Function.update_of_ne hbc, h.rest b hb hb']
      simp [hbc]
  · rw [guide_setNode hn, Function.update_of_ne hcnew.symm, h.copy]
  · obtain ⟨o, ho, hrest⟩ := h.original
    exact ⟨o, (node?_setNode_of_ne hca.symm).trans ho, hrest⟩

/-! ### What a migration has done -/

/-- The internode `x` at `a` of `mem` has been replaced by `new_`. -/
structure Renewed (mem : Mem) (a new_ : Addr) (x : Internode) (mem' : Mem) : Prop where
  rest : ∀ b, b ≠ a → b ≠ new_ → mem'.guide b = (mem.guide b).map fun g =>
    { g with
      parent := if b ∈ x.children then new_ else g.parent
      next := if b = x.parent then Forest.moved a new_ ∘ g.next else g.next }
  copy : mem'.guide new_ = some (Node.internode x).guide
  original : ∃ g, mem'.guide a = some g ∧ g.parent = x.parent ∧ g.Open ∧ g.marks.isRoot = false

/-- The lock of a calm node is released without a trace in what is read of it. -/
theorem guide_unlock (h : n.version.marks.Calm) :
    (n.setVersion n.version.unlock).guide = n.guide := by
  have hc : ¬n.version.CarriesOut := by
    intro hc
    have hm : n.version.migrating = false := h.migrating
    rw [hc.1] at hm
    cases hm
  have hmarks : n.version.unlock.marks = n.version.marks := by rw [marks_unlock _ hc, h.unlock]
  cases n with
  | leaf l => exact congrArg (Guide.mk _ _ · _) hmarks
  | internode y => exact congrArg (Guide.mk _ _ · _) hmarks

/-- The children are told, and the original is retired. -/
theorem Copying.ensures_tellChildren {p : Addr} (h : Copying mem₀ a new_ x true [] mem)
    (hne : new_ ≠ a)
    (hchild : ∀ c ∈ x.children, c ≠ a ∧ c ≠ new_) (hcalm : x.version.marks.Calm) :
    machine.Ensures (tellChildren env a new_ p) mem
      fun q mem' => q = p ∧ Renewed mem₀ a new_ x mem' := by
  refine ensures_read.bind fun o mem₁ ho => ?_
  obtain ⟨rfl, o', ho, rfl⟩ := ho
  obtain ⟨o₁, ho₁, -, hchildren, -⟩ := h.original
  obtain rfl : o = o₁ := Node.internode.inj
    (Option.some.inj ((internode?_eq_some.mp ho).symm.trans ho₁))
  have hlen : x.children.length = o.nkeys + 1 := by
    rw [← hchildren]
    simp [Internode.children]
  have hloop : machine.Ensures
    (forRange 0 (o.nkeys + 1) fun i => Masstree.setParent (o.child i) new_) mem₁
      fun _ mem' => Copying mem₀ a new_ x true (x.children.take (0 + (o.nkeys + 1))) mem' := by
    refine ensures_forRange (I := fun i s => Copying mem₀ a new_ x true (x.children.take i) s)
      0 (o.nkeys + 1) (fun i s _ hi hI => ?_) (by simpa using h)
    have hget : x.children[i]? = some (o.child i) := by
      rw [← hchildren, getElem?_children]
      exact ⟨by omega, rfl⟩
    rw [List.take_add_one, hget]
    obtain ⟨hca, hcnew⟩ := hchild _ (List.mem_of_getElem? hget)
    exact hI.ensures_setParent hca hcnew
  refine hloop.bind fun _ mem₂ h₂ => ?_
  rw [Nat.zero_add, ← hlen, List.take_length] at h₂
  refine ensures_markLocked.bind fun _ mem₃ h₃ => ?_
  obtain ⟨m, hm, rfl⟩ := h₃
  obtain ⟨o₂, ho₂, hparent, -, -⟩ := h₂.original
  obtain rfl : m = .internode o₂ := Option.some.inj (hm.symm.trans ho₂)
  refine (ensures_access (Q := fun _ s => s.node? = (mem₂.setNode a
    ((Node.internode o₂).setVersion (Node.internode o₂).version.markDeleted)).node?)
      fun n hn => ?_).bind
      fun _ mem₄ h₄ => ?_
  · funext b
    exact node?_retire
  refine ensures_unlock.bind fun _ mem₅ h₅ => ?_
  obtain ⟨m, hm, rfl⟩ := h₅
  obtain rfl : m = (Node.internode o₂).setVersion (Node.internode o₂).version.markDeleted := by
    rw [h₄, node?_setNode ho₂] at hm
    exact (Option.some.inj hm).symm
  have hcopy : mem₄.guide new_ = some (Node.internode x).guide := by
    unfold Mem.guide
    rw [h₄, node?_setNode_of_ne hne]
    exact h₂.copy
  refine ensures_unlock.bind fun _ mem₆ h₆ => ensures_ret.mpr ⟨rfl, ?_⟩
  obtain ⟨c, hc, rfl⟩ := h₆
  have hc₄ : mem₄.node? new_ = some c := (node?_setNode_of_ne hne).symm.trans hc
  have hcguide : c.guide = (Node.internode x).guide :=
    Option.some.inj ((guide_of_node? hc₄).symm.trans hcopy)
  refine ⟨fun b hb hb' => ?_, ?_, ?_⟩
  · rw [guide_setNode hc, Function.update_of_ne hb', guide_setNode hm, Function.update_of_ne hb]
    have hsame : mem₄.guide b = mem₂.guide b := by
      unfold Mem.guide
      rw [h₄, node?_setNode_of_ne hb]
    rw [hsame, h₂.rest b hb hb']
    simp
  · rw [guide_setNode hc, Function.update_self, guide_unlock, hcguide]
    rw [← Node.guide_marks, hcguide]
    exact hcalm
  · refine ⟨_, by rw [guide_setNode hc, Function.update_of_ne hne.symm, guide_setNode hm,
      Function.update_self], ?_, ?_, ?_⟩
    · rw [Node.guide_parent, parent_setVersion, parent_setVersion]
      exact hparent
    · rw [Node.guide_open, version_setVersion]
      exact ⟨NodeVersion.inserting_unlock, NodeVersion.splitting_unlock⟩
    · rw [Node.guide_isRoot, version_setVersion]
      refine NodeVersion.isRoot_unlock ?_
      rw [version_setVersion, NodeVersion.markDeleted_eq]
      exact flag_setFlag (by decide) _

end Copying

/-! ### The migration -/

section Migration

variable {env : Env} {mem mem₀ mem' : Mem} {S : Set Addr} {a new_ : Addr} {x : Internode}
  {t : NodeMemType}

/-- The copy is hung up below the parent, or made a root. -/
theorem Mem.Layer.ensures_hangCopy (h : mem₀.Layer S) (ha : a ∈ S)
    (hx : mem₀.node? a = some (.internode x)) (hnew : mem₀.node? new_ = none) (hne : new_ ≠ a)
    (hcopy : Copying mem₀ a new_ x false [] mem) :
    machine.Ensures (hangCopy env a new_ x.parent) mem fun posi mem' =>
      posi.isSome = true ∧ Copying mem₀ a new_ x true [] mem' := by
  refine ensures_ite (fun hp0 => ?_) fun hp0 => ?_
  · have hroot : x.version.isRoot = true := (h.root ha hx).mpr hp0
    refine (hcopy.ensures_makeLayerRoot hne hp0 hroot).bind
      fun _ mem₁ h₁ => ensures_ret.mpr ⟨rfl, ?_⟩
    refine ⟨fun b hb hb' => ?_, h₁.copy, h₁.original, fun hh => absurd hh (by decide)⟩
    rw [h₁.rest b hb hb']
    by_cases hbp : b = x.parent
    · rw [hbp, hp0, Mem.guide, node?_zero h.null]
      rfl
    · simp [hbp]
  · obtain ⟨hpS, hpa, y, hy, hmem, -⟩ := h.exists_parent ha hx hp0
    have hpnew : x.parent ≠ new_ := by
      intro he
      rw [he, hnew] at hy
      cases hy
    refine (keeps_read (R := Eq)).then fun o _ h' => ?_
    subst h'
    refine ensures_read.bind fun y' mem₁ hy' => ?_
    obtain ⟨rfl, y'', hy', rfl⟩ := hy'
    refine (keeps_assert (R := Eq) _ _).then fun _ _ h' => ?_
    subst h'
    obtain ⟨z, hz, hnkeys, hchild⟩ := contents_eq_internode (hcopy.place rfl hpa hpnew) hy'
    obtain rfl : z = y := Node.internode.inj
      (Option.some.inj ((internode?_eq_some.mp hz).symm.trans hy))
    have hchildren : y'.children = z.children := by simp only [Internode.children, hnkeys, hchild]
    obtain ⟨posi, hposi⟩ := exists_childPosition (o.ikey0 0) (hchildren ▸ hmem)
    rw [hposi]
    obtain ⟨hle, hposi⟩ := getElem?_children.mp (childPosition_eq_some hposi)
    refine (hcopy.ensures_assignCopy hne hpa hpnew (internode?_eq_some.mp hy') hposi ?_).bind
      fun _ mem₂ h₂ => ensures_ret.mpr ⟨rfl, h₂⟩
    intro j hj hja
    rw [hnkeys] at hj hle
    rw [hchild] at hja hposi
    refine h.place hpS hy hj hle (hja.trans hposi.symm) ?_
    rw [hja]
    exact h.ne_zero hx

/-- The replacement of an internode of a layer, of which a copy has been made. -/
theorem Mem.Layer.ensures_replaceInternode (h : mem₀.Layer S) (ha : a ∈ S)
    (hx : mem₀.node? a = some (.internode x)) (hnew : mem₀.node? new_ = none) (h0 : new_ ≠ 0)
    (hcopy : Copying mem₀ a new_ x false [] mem) (fuel : ℕ) :
    machine.Ensures (replaceInternode env fuel a new_) mem
      fun _ mem' => Renewed mem₀ a new_ x mem' := by
  have hne : new_ ≠ a := by
    rintro rfl
    rw [hnew] at hx
    cases hx
  obtain ⟨n, hn, -, hcalm⟩ := h.node ha
  obtain rfl : n = .internode x := Option.some.inj (hn.symm.trans hx)
  have hchild : ∀ c ∈ x.children, c ≠ a ∧ c ≠ new_ := by
    intro c hc
    by_cases hc0 : c = 0
    · exact ⟨hc0 ▸ (h.ne_zero hx).symm, hc0 ▸ h0.symm⟩
    · obtain ⟨-, m, hm, -⟩ := h.child ha hx hc hc0
      refine ⟨h.child_ne ha hx hc hc0, ?_⟩
      rintro rfl
      rw [hnew] at hm
      cases hm
  rw [replaceInternode_eq]
  refine (ensures_lockedParent env.build a fuel mem).bind fun p mem₁ h₁ => ?_
  obtain ⟨hq, ⟨m, hm, hp⟩, -⟩ := h₁
  have hcopy₁ := hcopy.quiet hq
  obtain ⟨o, ho, hparent, -, -⟩ := hcopy.original
  obtain rfl : m = .internode o := Option.some.inj (hm.symm.trans ho)
  obtain rfl : x.parent = p := hparent.symm.trans hp
  refine ensures_read.bind fun v mem₂ hv => ?_
  obtain ⟨rfl, m, hm₂, rfl⟩ := hv
  have hroot : m.version.isRoot = x.version.isRoot := by
    obtain ⟨o', ho', -, -, hroot⟩ := hcopy₁.original
    rw [Option.some.inj (hm₂.symm.trans ho')]
    exact hroot
  -- in a layer at rest the parent is valid
  have hvalid : machine.Ensures (parentInvalid x.parent m.version) mem₂
      fun b s => b = false ∧ s = mem₂ := by
    refine ensures_ite (fun hp0 => ensures_ret.mpr ⟨?_, rfl⟩) fun hp0 => ?_
    · rw [hroot, (h.root ha hx).mpr hp0]
      rfl
    · refine ensures_read.bind fun pv s hpv => ?_
      obtain ⟨rfl, k, hk, rfl⟩ := hpv
      refine ensures_ret.mpr ⟨?_, rfl⟩
      obtain ⟨-, hpa, y, hy, -, hycalm⟩ := h.exists_parent ha hx hp0
      have hpnew : x.parent ≠ new_ := by
        intro he
        rw [he, hnew] at hy
        cases hy
      have hguide := hcopy₁.rest x.parent hpa hpnew
      rw [guide_of_node? hk, guide_of_node? hy, Option.map_some, Option.some.injEq] at hguide
      have hmarks : k.version.marks = y.version.marks := by
        rw [← Node.guide_marks, hguide]
        rfl
      exact (congrArg Marks.deleted hmarks).trans hycalm.deleted
  refine hvalid.bind fun b s hb => ?_
  obtain ⟨rfl, rfl⟩ := hb
  simp only [Bool.false_eq_true, if_false]
  refine (h.ensures_hangCopy ha hx hnew hne hcopy₁).bind fun posi s' hs' => ?_
  obtain ⟨hsome, hs'⟩ := hs'
  obtain ⟨posi, rfl⟩ := Option.isSome_iff_exists.mp hsome
  exact (hs'.ensures_tellChildren hne hchild hcalm).imp fun _ _ hr => hr.2

/-- The guides and the way they were made from are the same after a quiet change. -/
theorem Copying.of_quiet {o : Internode} (hq : Quiet mem₀ mem)
    (hx : mem₀.node? a = some (.internode x))
    (ho : mem.node? a = some (.internode o)) (h : Copying mem a new_ o false [] mem') :
    Copying mem₀ a new_ x false [] mem' := by
  obtain ⟨o', ho', hparent, hchildren, hmarks⟩ := hq.internode hx
  obtain rfl : o = o' := Node.internode.inj (Option.some.inj (ho.symm.trans ho'))
  have hguide : (Node.internode o).guide = (Node.internode x).guide := by
    have h₁ := guide_of_node? ho
    rw [hq.guide, guide_of_node? hx] at h₁
    exact (Option.some.inj h₁).symm
  refine ⟨fun b hb hb' => ?_, hguide ▸ h.copy, ?_, fun hh hp hp' => ?_⟩
  · rw [h.rest b hb hb', hq.guide]
    simp
  · obtain ⟨k, hk, hkp, hkc, hkr⟩ := h.original
    exact ⟨k, hk, hkp.trans hparent, hkc.trans hchildren, hkr.trans (isRoot_of_marks hmarks)⟩
  · rw [← hparent] at hp hp' ⊢
    rw [h.place hh hp hp', hq.sameContents.contents]

/-- **What a migration has done** to the internode of a layer at rest. -/
theorem Mem.Layer.ensures_internodeMigration (h : mem.Layer S) (ha : a ∈ S)
    (hx : mem.node? a = some (.internode x)) (ht : x.sidleMeta.type ≠ t) (isNew : Bool) (fuel : ℕ) :
    machine.Ensures (internodeMigration env fuel a t isNew) mem fun _ mem' =>
      Renewed mem a mem.fresh x mem' := by
  have hnew : mem.node? mem.fresh = none := by rw [Mem.node?, h.fresh]; rfl
  have hmain (mem₁ : Mem) (hq : Quiet mem mem₁) :
    machine.Ensures (internodeMigration env fuel a t false)
      mem₁ fun _ mem' => Renewed mem a mem.fresh x mem' := by
    rw [internodeMigration_eq]
    refine ensures_read.bind fun v mem₂ hv => ?_
    obtain ⟨rfl, m, hm, rfl⟩ := hv
    refine (keeps_assert (R := Eq) _ _).then fun _ _ h' => ?_
    subst h'
    refine ensures_read.bind fun o mem₃ ho => ?_
    obtain ⟨rfl, o', ho, rfl⟩ := ho
    have ho' := internode?_eq_some.mp ho
    obtain rfl : m = .internode o := Option.some.inj (hm.symm.trans ho')
    have hcore : (Node.internode o).core = (Node.internode x).core := by
      obtain ⟨k, hk, hcore⟩ := hq.internode? (internode?_eq_some.mpr hx)
      rwa [Option.some.inj (ho.symm.trans hk)]
    obtain ⟨n, hn, -, hcalm⟩ := h.node ha
    obtain rfl : n = .internode x := Option.some.inj (hn.symm.trans hx)
    have hentry : (Node.internode o).entry false = (Node.internode x).entry false := by
      rw [← entry_core, hcore, entry_core]
    have hdata := congrArg Forest.Entry.data hentry
    have htype : o.sidleMeta.type = x.sidleMeta.type := congrArg Info.type hdata
    have hdel : o.version.deleted = false :=
      (congrArg (fun d : Info => d.marks.deleted) hdata).trans hcalm.deleted
    refine ensures_ite (fun hc => ?_) fun _ => ?_
    · have hsame : o.sidleMeta.type = t := by simpa [Node.version, hdel] using hc
      exact absurd (htype.symm.trans hsame) ht
    refine (keeps_assert (R := Eq) _ _).then fun _ _ h' => ?_
    subst h'
    have hfresh : mem₃.blocks mem₃.fresh = none := by
      have hblock := hq.core mem.fresh
      rw [h.fresh, Option.map_none, Option.map_eq_none_iff] at hblock
      rw [hq.fresh]
      exact hblock
    refine (ensures_copyInternode_copying hfresh ho' o).bind fun new_ mem₄ h₄ => ?_
    obtain ⟨rfl, hcopy⟩ := h₄
    rw [hq.fresh] at hcopy ⊢
    exact h.ensures_replaceInternode ha hx hnew fresh_ne_zero (hcopy.of_quiet hq hx ho') fuel
  cases isNew with
  | false => exact hmain mem (refl_of Quiet mem)
  | true =>
    rw [internodeMigration_isNew]
    exact (keeps_lock env.build a fuel).then fun _ mem₁ h₁ => hmain mem₁ h₁

end Migration

/-! ### The climb after a migration -/

section Climb

variable {mem mem' : Mem} {S : Set Addr} {a b c start root : Addr} {x : Internode}

theorem Mem.Layer.guide_fresh (h : mem.Layer S) : mem.guide mem.fresh = none := by
  rw [Mem.guide, Mem.node?, h.fresh]
  rfl

theorem Mem.Layer.top_iff (h : mem.Layer S) (ha : a ∈ S) (hx : mem.node? a = some (.internode x)) :
    Top mem.guide a ↔ x.parent = 0 := by
  obtain ⟨n, hn, -, hcalm⟩ := h.node ha
  obtain rfl : n = .internode x := Option.some.inj (hn.symm.trans hx)
  rw [← h.root ha hx]
  constructor
  · rintro ⟨g, hg, -, hroot⟩
    rw [guide_of_node? hx] at hg
    cases hg
    exact hroot
  · intro hroot
    exact ⟨_, guide_of_node? hx, ⟨hcalm.inserting, hcalm.splitting⟩, hroot⟩

/-- The climb goes from a child to the internode. -/
theorem Mem.Layer.up_child (h : mem.Layer S) (ha : a ∈ S) (hx : mem.node? a = some (.internode x))
    (hb : b ∈ x.children) (hup : Up mem.guide b c) : c = a := by
  obtain ⟨g, hg, -, -, rfl, -⟩ := hup
  obtain ⟨m, hm, rfl⟩ := guide_eq_some.mp hg
  obtain ⟨-, n, hn, hp⟩ := h.child ha hx hb (h.ne_zero hm)
  obtain rfl : m = n := Option.some.inj (hm.symm.trans hn)
  rw [Node.guide_parent, hp]

/-- What is left alone. -/
theorem Renewed.guide_rest (hr : Renewed mem a mem.fresh x mem') (h : mem.Layer S) (hb : b ≠ a)
    {g : Guide} (hg : mem.guide b = some g) :
    mem'.guide b = some { g with
      parent := if b ∈ x.children then mem.fresh else g.parent
      next := if b = x.parent then Forest.moved a mem.fresh ∘ g.next else g.next } := by
  rw [hr.rest b hb, hg]
  · rfl
  · rintro rfl
    rw [h.guide_fresh] at hg
    cases hg

theorem Renewed.top (hr : Renewed mem a mem.fresh x mem') (h : mem.Layer S) (hb : b ≠ a)
    (htop : Top mem.guide b) : Top mem'.guide b := by
  obtain ⟨g, hg, hopen, hroot⟩ := htop
  exact ⟨_, hr.guide_rest h hb hg, hopen, hroot⟩

theorem Renewed.top_copy (hr : Renewed mem a mem.fresh x mem')
    (hx : mem.node? a = some (.internode x))
    (htop : Top mem.guide a) : Top mem'.guide mem.fresh := by
  obtain ⟨g, hg, hopen, hroot⟩ := htop
  rw [guide_of_node? hx] at hg
  cases hg
  exact ⟨_, hr.copy, hopen, hroot⟩

theorem Renewed.up_rest (hr : Renewed mem a mem.fresh x mem') (h : mem.Layer S) (hb : b ≠ a)
    (hchild : b ∉ x.children) (hup : Up mem.guide b c) :
    Up mem'.guide b c := by
  obtain ⟨g, hg, hopen, hroot, hp, hc⟩ := hup
  exact ⟨_, hr.guide_rest h hb hg, hopen, hroot, by simp [hchild, hp], hc⟩

theorem Renewed.up_child (hr : Renewed mem a mem.fresh x mem') (h : mem.Layer S) (hb : b ≠ a)
    (hchild : b ∈ x.children) (hup : Up mem.guide b c) :
    Up mem'.guide b mem.fresh := by
  obtain ⟨g, hg, hopen, hroot, -, -⟩ := hup
  exact ⟨_, hr.guide_rest h hb hg, hopen, hroot, by simp [hchild], fresh_ne_zero⟩

theorem Renewed.up_copy (hr : Renewed mem a mem.fresh x mem')
    (hx : mem.node? a = some (.internode x))
    (hup : Up mem.guide a c) : Up mem'.guide mem.fresh c := by
  obtain ⟨g, hg, hopen, hroot, hp, hc⟩ := hup
  rw [guide_of_node? hx] at hg
  cases hg
  exact ⟨_, hr.copy, hopen, hroot, hp, hc⟩

theorem Renewed.up_original (hr : Renewed mem a mem.fresh x mem')
    (hx : mem.node? a = some (.internode x))
    (hup : Up mem.guide a c) : Up mem'.guide a c := by
  obtain ⟨g, hg, -, -, hp, hc⟩ := hup
  rw [guide_of_node? hx] at hg
  cases hg
  obtain ⟨g', hg', hp', hopen', hroot'⟩ := hr.original
  exact ⟨g', hg', hopen', hroot', hp'.trans hp, hc⟩

/-- The original of a root leads nowhere. -/
theorem Renewed.not_climbs_original (hr : Renewed mem a mem.fresh x mem') (hp : x.parent = 0) :
    ¬Climbs mem'.guide a root := by
  obtain ⟨g, hg, hp', -, hroot⟩ := hr.original
  have hend (c : Addr) : ¬Up mem'.guide a c := by
    rintro ⟨g', hg', -, -, hpc, hc⟩
    rw [hg] at hg'
    cases hg'
    exact hc (hpc.symm.trans (hp'.trans hp))
  rintro ⟨hup, htop⟩
  obtain rfl := eq_of_climb hup hend
  obtain ⟨g', hg', -, hroot'⟩ := htop
  rw [hg] at hg'
  cases hg'
  rw [hroot] at hroot'
  cases hroot'

/-- A climb to another node ends there still. -/
theorem Renewed.climbs_of_ne (hr : Renewed mem a mem.fresh x mem') (h : mem.Layer S) (ha : a ∈ S)
    (hx : mem.node? a = some (.internode x)) (hclimb : Climbs mem.guide start root)
    (hne : root ≠ a) :
    Climbs mem'.guide start root := by
  refine ⟨?_, hr.top h hne hclimb.2⟩
  have hup := hclimb.1
  clear hclimb
  -- from the internode the climb goes on from the original and from the copy
  have hall : Relation.ReflTransGen (Up mem'.guide) start root ∧
      (start = a → Relation.ReflTransGen (Up mem'.guide) mem.fresh root) := by
    induction hup using Relation.ReflTransGen.head_induction_on with
    | refl => exact ⟨.refl, fun he => absurd he hne⟩
    | @head b c hbc _ ih =>
      by_cases hb : b = a
      · subst hb
        refine ⟨.head (hr.up_original hx hbc) ih.1, fun _ => ?_⟩
        exact .head (hr.up_copy hx hbc) ih.1
      · refine ⟨?_, fun he => absurd he hb⟩
        by_cases hchild : b ∈ x.children
        · exact .head (hr.up_child h hb hchild hbc) (ih.2 (h.up_child ha hx hchild hbc))
        · exact .head (hr.up_rest h hb hchild hbc) ih.1
  exact hall.1

/-- A climb through a child of the root ends at the copy. -/
theorem Renewed.climbs_copy (hr : Renewed mem a mem.fresh x mem') (h : mem.Layer S) (ha : a ∈ S)
    (hx : mem.node? a = some (.internode x)) (hclimb : Climbs mem.guide start a)
    (hc : c ∈ x.children)
    (hup : Relation.ReflTransGen (Up mem.guide) start c) : Climbs mem'.guide start mem.fresh := by
  refine ⟨?_, hr.top_copy hx hclimb.2⟩
  have hca := climb_to_end hup hclimb.1 fun _ => hclimb.2.not_up
  induction hup using Relation.ReflTransGen.head_induction_on with
  | refl =>
    cases Relation.ReflTransGen.cases_head hca with
    | inl he =>
      -- the internode is not its own child
      exact absurd he (h.child_ne ha hx hc (he ▸ h.ne_zero hx))
    | inr hstep =>
      obtain ⟨d, hcd, -⟩ := hstep
      have hne : c ≠ a := by
        rintro rfl
        exact hclimb.2.not_up hcd
      exact .single (hr.up_child h hne hc hcd)
  | @head b d hbd hdc ih =>
    have hb : b ≠ a := by
      rintro rfl
      exact hclimb.2.not_up hbd
    by_cases hchild : b ∈ x.children
    · exact .single (hr.up_child h hb hchild hbd)
    · exact .head (hr.up_rest h hb hchild hbd) (ih ⟨hdc.trans hca, hclimb.2⟩)

/-- A climb to the root that goes through none of its children comes to the original still. -/
theorem Renewed.climb_original (hr : Renewed mem a mem.fresh x mem') (h : mem.Layer S) (ha : a ∈ S)
    (hx : mem.node? a = some (.internode x)) (hclimb : Climbs mem.guide start a)
    (hno : ∀ c ∈ x.children, ¬Relation.ReflTransGen (Up mem.guide) start c) :
    Relation.ReflTransGen (Up mem'.guide) start a := by
  have hup := hclimb.1
  induction hup using Relation.ReflTransGen.head_induction_on with
  | refl => exact .refl
  | @head b d hbd hda ih =>
    have hb : b ≠ a := by
      rintro rfl
      exact hclimb.2.not_up hbd
    have hchild : b ∉ x.children := fun hmem => hno b hmem .refl
    exact .head (hr.up_rest h hb hchild hbd)
      (ih ⟨hda, hclimb.2⟩ fun c hc hdc => hno c hc (.head hbd hdc))

end Climb

/-! ### The descent after a migration -/

section Descent

variable {mem mem' : Mem} {S : Set Addr} {a n l : Addr} {x : Internode} {ikey : ℕ}

theorem next_mem_children (y : Internode) (ikey : ℕ) :
    (Node.internode y).guide.next ikey ∈ y.children :=
  mem_children.mpr ⟨y.upper ikey, upperBoundBy_le (Nat.zero_le _), rfl⟩

/-- The descent from a node of the layer comes to the same leaf, through the copy now. -/
theorem Renewed.descends (hr : Renewed mem a mem.fresh x mem') (h : mem.Layer S) (ha : a ∈ S)
    (hx : mem.node? a = some (.internode x)) (hn : n ∈ S) (hdesc : Descends mem.guide ikey n l) :
    Descends mem'.guide ikey (Forest.moved a mem.fresh n) l := by
  induction hdesc with
  | @leaf l g hl hopen hleaf htag =>
    have hla : l ≠ a := by
      rintro rfl
      rw [guide_of_node? hx] at hl
      cases hl
      cases hleaf
    rw [Forest.moved, if_neg hla]
    exact .leaf (hr.guide_rest h hla hl) hopen hleaf htag
  | @step n l g hg hopen hleaf htag hnext _ ih =>
    obtain ⟨m, hm, rfl⟩ := guide_eq_some.mp hg
    cases m with
    | leaf => cases hleaf
    | internode y =>
      have hmem := next_mem_children y ikey
      obtain ⟨hS, k, hk, hkp⟩ := h.child hn hm hmem hnext
      have ih := ih hS
      by_cases hna : n = a
      · subst hna
        obtain rfl : y = x := Node.internode.inj (Option.some.inj (hm.symm.trans hx))
        rw [Forest.moved, if_neg (h.child_ne ha hx hmem hnext)] at ih
        rw [Forest.moved, if_pos rfl]
        exact .step hr.copy hopen rfl htag hnext ih
      · have hmoved : (if n = x.parent then Forest.moved a mem.fresh ∘ (Node.internode y).guide.next
            else (Node.internode y).guide.next) ikey =
            Forest.moved a mem.fresh ((Node.internode y).guide.next ikey) := by
          split
          · rfl
          · rename_i hnp
            have hne : (Node.internode y).guide.next ikey ≠ a := by
              intro he
              rw [he, hx] at hk
              cases hk
              exact hnp hkp.symm
            rw [Forest.moved, if_neg hne]
        have hnext' : Forest.moved a mem.fresh ((Node.internode y).guide.next ikey) ≠ 0 := by
          unfold Forest.moved
          split
          · exact fresh_ne_zero
          · exact hnext
        rw [← hmoved] at ih hnext'
        rw [Forest.moved, if_neg hna]
        exact .step (hr.guide_rest h hna hg) hopen hleaf htag hnext' ih

end Descent

/-! ### The same leaf -/

section Reaches

variable {env : Env} {mem mem' : Mem} {S : Set Addr} {a start root l p : Addr} {x : Internode}
  {t : NodeMemType} {ka : Key} {fuel : ℕ} {isNew : Bool}

/-- **When a pointer still leads to the same leaf** after the migration of an internode: unless the
internode is the root that the pointer leads to, and the way there goes through none of its
children. -/
theorem internodeMigration_reaches_iff (h : mem.Layer S) (ha : a ∈ S)
    (hx : mem.node? a = some (.internode x)) (ht : x.sidleMeta.type ≠ t)
    (hrun : machine.run (internodeMigration env fuel a t isNew) mem = done p mem')
    (hroot : root ∈ S) (hclimb : Climbs mem.guide start root) (hreach : mem.Reaches start ka l) :
    mem'.Reaches start ka l ↔
      (root = a → ∃ c ∈ x.children, Relation.ReflTransGen (Up mem.guide) start c) := by
  have hr := h.ensures_internodeMigration ha hx ht isNew fuel p mem' hrun
  obtain ⟨r, hr', hdesc⟩ := reaches_iff.mp hreach
  obtain rfl := climbs_unique hr' hclimb
  have hdesc' := hr.descends h ha hx hroot hdesc
  rw [reaches_iff]
  constructor
  · rintro ⟨s, hs, -⟩ rfl
    by_contra hno
    push Not at hno
    have htop := (h.top_iff ha hx).mp hclimb.2
    have hup := hr.climb_original h ha hx hclimb hno
    have hend : ¬Climbs mem'.guide r s := hr.not_climbs_original htop
    refine hend ⟨?_, hs.2⟩
    cases Relation.ReflTransGen.total_of_right_unique
        (fun _ _ _ => up_unique : Relator.RightUnique (Up mem'.guide)) hup hs.1 with
    | inl hrs => exact hrs
    | inr hsr => rw [eq_of_climb hsr fun _ => hs.2.not_up]
  · intro hcond
    by_cases hra : r = a
    · subst hra
      obtain ⟨c, hc, hup⟩ := hcond rfl
      rw [Forest.moved, if_pos rfl] at hdesc'
      exact ⟨_, hr.climbs_copy h ha hx hclimb hc hup, hdesc'⟩
    · rw [Forest.moved, if_neg hra] at hdesc'
      exact ⟨r, hr.climbs_of_ne h ha hx hclimb hra, hdesc'⟩

end Reaches

/-! ### The root of a small tree -/

section Example

/-- The tree of two leaves once its root has been promoted. -/
def promotedRoot : Mem :=
  (machine.run (internodeMigration plainEnv 9 24 .local_ true) (longKeyMem .remote)).state?.getD
    (longKeyMem .remote)

theorem run_promotedRoot : machine.run (internodeMigration plainEnv 9 24 .local_ true)
    (longKeyMem .remote) = done 0 promotedRoot := by
  obtain ⟨mem, hmem, hrun⟩ := Outcome.eq_done_of_answer
    (show (machine.run (internodeMigration plainEnv 9 24 .local_ true)
    (longKeyMem .remote)).answer? =
      some 0 by decide +kernel)
  rw [hrun, promotedRoot, hmem]
  rfl

/-- The root of the tree. -/
def smallRoot : Internode := ((longKeyMem .remote).internode? 24).getD (Internode.make 0 .local_ 0)

theorem smallRoot_node : (longKeyMem .remote).node? 24 = some (.internode smallRoot) := rfl

theorem smallRoot_children : smallRoot.children = [8, 16] := rfl

/-- The tree is a layer at rest. -/
theorem longKeyMem_layer : (longKeyMem .remote).Layer {8, 16, 24} where
  null := rfl
  fresh := rfl
  node a ha := by
    obtain rfl | rfl | rfl := ha
    · exact ⟨_, rfl, rfl, by constructor <;> decide⟩
    · exact ⟨_, rfl, rfl, by constructor <;> decide⟩
    · exact ⟨_, rfl, rfl, by constructor <;> decide⟩
  root a x ha hx := by
    obtain rfl | rfl | rfl := ha
    · cases hx
    · cases hx
    · cases hx
      exact iff_of_true (by decide) rfl
  parent a n ha hn hp := by
    obtain rfl | rfl | rfl := ha
    · cases hn
      exact ⟨by simp [Node.parent, longKeyLeaf], by simp [Node.parent, longKeyLeaf], smallRoot, rfl,
        by simp [smallRoot_children]⟩
    · cases hn
      exact ⟨by simp [Node.parent], by simp [Node.parent], smallRoot,
        rfl, by simp [smallRoot_children]⟩
    · cases hn
      exact absurd rfl hp
  child a x c ha hx hc h0 := by
    obtain rfl | rfl | rfl := ha
    · cases hx
    · cases hx
    · obtain rfl : x = smallRoot :=
        Node.internode.inj (Option.some.inj (hx.symm.trans smallRoot_node))
      rw [smallRoot_children] at hc
      simp only [List.mem_cons, List.not_mem_nil, or_false] at hc
      obtain rfl | rfl := hc
      · exact ⟨by simp, _, rfl, rfl⟩
      · exact ⟨by simp, _, rfl, rfl⟩
  place a x i j ha hx hi hj hij _ := by
    obtain rfl | rfl | rfl := ha
    · cases hx
    · cases hx
    · cases hx
      have hi : i ≤ 1 := hi
      have hj : j ≤ 1 := hj
      have hij : (if i = 0 then 8 else 16) = if j = 0 then 8 else 16 := hij
      split at hij <;> split at hij <;> omega

/-- The climb from a leaf of the tree, the old root, to the root. -/
theorem longKeyMem_climbs : Climbs (longKeyMem .remote).guide 8 24 :=
  ⟨.single ⟨_, rfl, ⟨rfl, rfl⟩, rfl, rfl, by decide⟩, _, rfl, ⟨rfl, rfl⟩, rfl⟩

theorem longKeyMem_climbs_root : Climbs (longKeyMem .remote).guide 24 24 :=
  ⟨.refl, _, rfl, ⟨rfl, rfl⟩, rfl⟩

theorem longKeyMem_descends : Descends (longKeyMem .remote).guide (Key.ofStr [98]).ikey 24 16 := by
  refine .step (g := (Node.internode smallRoot).guide) rfl ⟨rfl, rfl⟩ rfl rfl ?_ ?_
  · decide +kernel
  · rw [show (Node.internode smallRoot).guide.next (Key.ofStr [98]).ikey = 16 by decide +kernel]
    exact .leaf rfl ⟨rfl, rfl⟩ rfl rfl

/-- From the pointer to a leaf that was the root before, the same leaf is reached. -/
theorem internodeMigration_reaches_iff_oldRoot : promotedRoot.Reaches 8 (Key.ofStr [98]) 16 ↔
    ((24 : Addr) = 24 →
      ∃ c ∈ smallRoot.children, Relation.ReflTransGen (Up (longKeyMem .remote).guide) 8 c) :=
  internodeMigration_reaches_iff longKeyMem_layer (by simp) smallRoot_node (by decide)
    run_promotedRoot (by simp) longKeyMem_climbs
    (reaches_iff.mpr ⟨24, longKeyMem_climbs, longKeyMem_descends⟩)

/-- From the pointer to the root itself a leaf is reached before the migration, and none after. -/
theorem promotedRoot_lost :
    machine.run (internodeMigration plainEnv 9 24 .local_ true) (longKeyMem .remote) =
        done 0 promotedRoot ∧
      (longKeyMem .remote).Reaches 24 (Key.ofStr [98]) 16 ∧
      ∀ ka l, ¬promotedRoot.Reaches 24 ka l := by
  refine ⟨run_promotedRoot, reaches_iff.mpr ⟨24, longKeyMem_climbs_root, longKeyMem_descends⟩,
    fun ka l hreach => ?_⟩
  have hr := longKeyMem_layer.ensures_internodeMigration (by simp) smallRoot_node
    (by decide : smallRoot.sidleMeta.type ≠ .local_) true 9 0 promotedRoot run_promotedRoot
  obtain ⟨r, hclimb, -⟩ := reaches_iff.mp hreach
  exact hr.not_climbs_original rfl hclimb

end Example

end Sidle.Masstree
