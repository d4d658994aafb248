import Sidle.Masstree.Shape

/-!
# What a migration does to a layer

A layer at rest is a forest in the memory whose nodes are in use and have no work under way.
The migration of one of its nodes leaves the layer with a copy of the node in its place.

## Main definitions

* `AtRest` — a layer at rest.
* `Mem.Holds` — the memory holds a layer.

## Main results

* `holds_leafMigration`, `holds_internodeMigration` — the layer that a migration leaves.
-/

namespace Sidle.Masstree

open Art (Build Fault)
open Prog Machine Word Worker

/-! ### Layers -/

/-- A node at rest: no work on it is under way, it is in use, and it is marked as a root if it
has no parent, which a leaf does not lack. -/
structure RestingNode (e : Forest.Entry Addr Info) : Prop where
  calm : e.data.marks.Calm
  inUse : e.data.retired = false
  root : e.parent = none → e.data.marks.isRoot = true
  leaf : e.data.leaf = true → e.parent ≠ none

/-- A layer at rest. -/
structure AtRest (F : Forest Addr Info) : Prop where
  linked : F.Linked
  node : ∀ ⦃a e⦄, F a = some e → RestingNode e

/-- The memory holds the layer `F`. -/
structure Mem.Holds (mem : Mem) (F : Forest Addr Info) : Prop where
  sub : F.Sub mem.forest
  pos : ∀ ⦃a e⦄, F a = some e → a ≠ 0
  lt : ∀ ⦃a e⦄, F a = some e → a < mem.fresh

section Layers

variable {mem mem' : Mem} {F : Forest Addr Info} {a n n' p : Addr} {e x : Forest.Entry Addr Info}

theorem Mem.Holds.fresh (h : mem.Holds F) : F mem.fresh = none := by
  cases he : F mem.fresh with
  | none => rfl
  | some e => exact absurd (h.lt he) (Nat.lt_irrefl _)

theorem Mem.Holds.fresh_ne (h : mem.Holds F) (ha : F a = some e) : a ≠ mem.fresh :=
  Nat.ne_of_lt (h.lt ha)

theorem fresh_mono (h : mem.allocated ≤ mem'.allocated) : mem.fresh ≤ mem'.fresh :=
  Nat.mul_le_mul_left 8 (Nat.add_le_add_right h 1)

/-- A memory that has the nodes of the layer as before holds it too. -/
theorem Mem.Holds.congr (h : mem.Holds F) (hF : ∀ a e, F a = some e → mem'.forest a = some e)
    (ha : mem.allocated ≤ mem'.allocated) : mem'.Holds F :=
  ⟨fun _ _ h' => hF _ _ h', h.pos, fun _ _ h' => (h.lt h').trans_le (fresh_mono ha)⟩

theorem Mem.Holds.quiet (h : mem.Holds F) (hq : Quiet mem mem') : mem'.Holds F :=
  h.congr (fun a e ha => by rw [hq.forest]; exact h.sub ha) hq.allocated.ge

theorem Mem.Holds.beside (h : mem.Holds F) (hb : Beside a mem mem') (ha : F a = none) :
    mem'.Holds F :=
  h.congr (fun b e hbe => by
    rw [hb.forest b (fun he => by rw [he, ha] at hbe; cases hbe)]
    exact h.sub hbe) hb.allocated.ge

/-- The parent of a node of the layer is a node of the layer. -/
theorem AtRest.parent (h : AtRest F) (ha : F a = some e) (hp : e.parent = some p) :
    ∃ x, F p = some x ∧ a ∈ x.children := h.linked.up ha hp

/-- A node at rest stays so under a new type and a new address. -/
theorem AtRest.replace (h : AtRest F) (hn : F n = some x) (hn' : F n' = none) (t : NodeMemType) :
    AtRest (F.replace n n' { x.data with type := t }) := by
  refine ⟨h.linked.replace hn hn', fun b z hb => ?_⟩
  obtain ⟨a, y, ha, rfl, rfl⟩ := (Forest.replace_eq_some hn hn').mp hb
  have hrest := h.node ha
  have hdata : ∃ t', (if a = n then { x.data with type := t } else y.data) =
      { y.data with type := t' } := by
    split
    · rename_i han
      obtain rfl : x = y := Option.some.inj (hn.symm.trans (han ▸ ha))
      exact ⟨t, rfl⟩
    · exact ⟨y.data.type, rfl⟩
  obtain ⟨t', ht'⟩ := hdata
  rw [ht']
  refine ⟨hrest.calm, hrest.inUse, ?_, ?_⟩
  · simp only [Forest.Entry.moved, Option.map_eq_none_iff]
    exact hrest.root
  · simp only [Forest.Entry.moved, ne_eq, Option.map_eq_none_iff]
    exact hrest.leaf

theorem link_eq_some : link p = some a ↔ p = a ∧ a ≠ 0 := by
  unfold link
  split
  · rename_i h
    simp only [reduceCtorEq, false_iff, not_and, not_not]
    exact fun ha => ha ▸ h
  · rename_i h
    simp only [Option.some.injEq]
    exact ⟨fun ha => ⟨ha, ha ▸ h⟩, fun ha => ha.1⟩

theorem link_eq_none : link p = none ↔ p = 0 := by
  unfold link
  split <;> simp_all

end Layers

/-! ### Positions among the children -/

section Positions

variable {x : Internode} {child new_ : Addr} {posi : ℕ}

theorem mem_children : child ∈ x.children ↔ ∃ i ≤ x.nkeys, x.child i = child := by
  simp only [Internode.children, List.mem_map, List.mem_range, Nat.lt_succ_iff]

theorem upperBoundBy_le {cmp : ℕ → Ordering} {fuel l r : ℕ} (h : l ≤ r) :
    upperBoundBy cmp fuel l r ≤ r := by
  induction fuel generalizing l r with
  | zero => exact h
  | succ fuel ih =>
    rw [upperBoundBy]
    split
    · dsimp only
      split
      · exact (ih (by omega)).trans (by omega)
      · omega
      · exact ih (by omega)
    · exact h

theorem getElem?_children :
    x.children[posi]? = some child ↔ posi ≤ x.nkeys ∧ x.child posi = child := by
  simp only [Internode.children, List.getElem?_map, Option.map_eq_some_iff,
    List.getElem?_eq_some_iff, List.length_range, List.getElem_range, exists_prop, Nat.lt_succ_iff]
  constructor
  · rintro ⟨i, ⟨hi, rfl⟩, hc⟩
    exact ⟨hi, hc⟩
  · rintro ⟨hi, hc⟩
    exact ⟨posi, ⟨hi, rfl⟩, hc⟩

/-- A position that is found is one of the child. -/
theorem childPosition_eq_some {ikey : ℕ} (h : x.childPosition ikey child = some posi) :
    x.children[posi]? = some child := by
  rw [getElem?_children]
  unfold Internode.childPosition at h
  split at h
  · rename_i hc
    cases h
    exact ⟨upperBoundBy_le (Nat.zero_le _), hc⟩
  · have hmem := List.mem_of_find?_eq_some h
    exact ⟨Nat.lt_succ_iff.mp (List.mem_range.mp hmem), by simpa using List.find?_some h⟩

/-- The position of a child is found. -/
theorem exists_childPosition (ikey : ℕ) (h : child ∈ x.children) :
    ∃ posi, x.childPosition ikey child = some posi := by
  unfold Internode.childPosition
  split
  · exact ⟨_, rfl⟩
  · obtain ⟨i, hi⟩ := List.mem_iff_getElem?.mp h
    obtain ⟨hi, hc⟩ := getElem?_children.mp hi
    refine Option.isSome_iff_exists.mp (List.find?_isSome.mpr ⟨i, ?_, by simp [hc]⟩)
    exact List.mem_range.mpr (Nat.lt_succ_iff.mpr hi)

/-- Where there are no two children alike, the replacement of one renames the children. -/
theorem children_update (hnodup : x.children.Nodup) (hposi : x.children[posi]? = some child) :
    Internode.children { x with child := Function.update x.child posi new_ } =
      x.children.map (Forest.moved child new_) := by
  obtain ⟨hle, hchild⟩ := getElem?_children.mp hposi
  simp only [Internode.children, List.map_map]
  refine List.map_congr_left fun i hi => ?_
  simp only [Function.comp_apply, Forest.moved]
  by_cases hip : i = posi
  · subst hip
    simp [hchild]
  · rw [Function.update_of_ne hip, if_neg]
    intro heq
    rw [← hchild] at heq
    have hinj := List.inj_on_of_nodup_map hnodup
    exact hip (hinj hi (List.mem_range.mpr (Nat.lt_succ_iff.mpr hle)) heq)

end Positions

/-! ### On the way -/

/-- The node `n` of the layer, whose entry is `x`, is being replaced by `new_` with the data `d`:
the nodes of `cs` have been told of their new parent, and the old parent has been told of its new
child if `hung` says so. -/
structure Moving (F : Forest Addr Info) (n new_ : Addr) (x : Forest.Entry Addr Info) (d : Info)
    (hung : Bool) (cs : List Addr) (mem : Mem) : Prop where
  rest : ∀ ⦃a e⦄, F a = some e → a ≠ n → mem.forest a = some
    { e with
      parent := if a ∈ cs then some new_ else e.parent
      children :=
        if hung = true ∧ x.parent = some a then e.children.map (Forest.moved n new_)
        else e.children }
  copy : mem.forest new_ = some { x with data := d }
  lt : ∀ ⦃a e⦄, F a = some e → a < mem.fresh
  lt_new : new_ < mem.fresh

/-- What the node that is replaced still says. -/
def SaysStill (n : Addr) (x : Forest.Entry Addr Info) (mem : Mem) : Prop :=
  ∃ y, mem.forest n = some y ∧ y.parent = x.parent ∧ y.children = x.children ∧
    y.data.marks.isRoot = x.data.marks.isRoot

section Moving

variable {env : Env} {mem mem' : Mem} {F : Forest Addr Info} {n new_ p : Addr}
  {x : Forest.Entry Addr Info} {d : Info} {hung : Bool} {cs : List Addr}

theorem Moving.beside (h : Moving F n new_ x d hung cs mem) (hne : new_ ≠ n)
    (hb : Beside n mem mem') : Moving F n new_ x d hung cs mem' where
  rest a _ ha han := (hb.forest a han).trans (h.rest ha han)
  copy := (hb.forest new_ hne).trans h.copy
  lt _ _ ha := (h.lt ha).trans_le (fresh_mono hb.allocated.ge)
  lt_new := h.lt_new.trans_le (fresh_mono hb.allocated.ge)

theorem Moving.quiet (h : Moving F n new_ x d hung cs mem) (hq : Quiet mem mem') :
    Moving F n new_ x d hung cs mem' where
  rest a _ ha han := (congrFun hq.forest a).trans (h.rest ha han)
  copy := (congrFun hq.forest new_).trans h.copy
  lt _ _ ha := (h.lt ha).trans_le (fresh_mono hq.allocated.ge)
  lt_new := h.lt_new.trans_le (fresh_mono hq.allocated.ge)

theorem SaysStill.quiet (h : SaysStill n x mem) (hq : Quiet mem mem') : SaysStill n x mem' := by
  obtain ⟨y, hy, hrest⟩ := h
  exact ⟨y, by rw [hq.forest]; exact hy, hrest⟩

/-- Once all have been told the copy has taken the place of the node. -/
theorem Moving.holds (h : Moving F n new_ x d true x.children mem) (hrest : AtRest F)
    (hF : ∀ ⦃a e⦄, F a = some e → a ≠ 0) (hn : F n = some x) (hnew : F new_ = none)
    (hpos : new_ ≠ 0) : mem.Holds (F.replace n new_ d) := by
  refine ⟨?_, fun b z hb => ?_, fun b z hb => ?_⟩
  · refine Forest.sub_replace hrest.linked hn hnew h.copy fun a y ha han => ?_
    rw [h.rest ha han]
    simp only [true_and]
  · obtain ⟨a, y, ha, rfl, -⟩ := (Forest.replace_eq_some hn hnew).mp hb
    unfold Forest.moved
    split
    · exact hpos
    · exact hF ha
  · obtain ⟨a, y, ha, rfl, -⟩ := (Forest.replace_eq_some hn hnew).mp hb
    unfold Forest.moved
    split
    · exact h.lt_new
    · exact h.lt ha

/-- The parent that is locked is the parent in the layer. -/
theorem ensures_lockedParent_moving {fuel : ℕ} (h : Moving F n new_ x d hung cs mem)
    (hold : SaysStill n x mem) :
    machine.Ensures (lockedParent env.build n fuel) mem fun p mem' =>
      Moving F n new_ x d hung cs mem' ∧ SaysStill n x mem' ∧ x.parent = link p := by
  refine (ensures_lockedParent env.build n fuel mem).imp fun p mem' hp => ?_
  obtain ⟨hq, ⟨m, hm, rfl⟩, -⟩ := hp
  refine ⟨h.quiet hq, hold.quiet hq, ?_⟩
  obtain ⟨y, hy, hparent, -⟩ := hold
  rw [← hparent, eq_entry hm hy]
  cases m <;> rfl

/-- The parent of a node that is there is not null. -/
theorem SaysStill.parent_ne_zero (h : SaysStill n x mem) (hparent : x.parent = some p) : p ≠ 0 := by
  obtain ⟨y, hy, hyp, -⟩ := h
  obtain ⟨m, hm, -⟩ := node?_of_forest hy
  have hlink : link m.parent = some p := by
    rw [← hparent, ← hyp, eq_entry hm hy]
    cases m <;> rfl
  exact (link_eq_some.mp hlink).2

/-- The parent gets the copy in the place of the node. -/
theorem ensures_assignCopy_moving {e : Forest.Entry Addr Info} {posi : ℕ}
    (h : Moving F n new_ x d false [] mem) (hold : SaysStill n x mem) (hrest : AtRest F)
    (hn : F n = some x) (hnew : F new_ = none) (hparent : x.parent = some p) (he : F p = some e)
    (hposi : e.children[posi]? = some n) :
    machine.Ensures (assignCopy p posi new_) mem fun _ mem' =>
      Moving F n new_ x d true [] mem' ∧ SaysStill n x mem' := by
  have hpn : p ≠ n := fun hpn => hrest.linked.irrefl hn (hpn ▸ hparent)
  have hpnew : p ≠ new_ := fun hpn => by rw [hpn, hnew] at he; cases he
  have hnnew : n ≠ new_ := fun hnn => by rw [hnn, hnew] at hn; cases hn
  have hlink : link p = x.parent :=
    (link_eq_some.mpr ⟨rfl, hold.parent_ne_zero hparent⟩).trans hparent.symm
  have hpe : mem.forest p = some e := by simpa using h.rest he hpn
  refine ensures_setParent.bind fun _ mem₁ h₁ => ?_
  refine (ensures_writeInternode
    (g := fun e' => { e' with children := e.children.map (Forest.moved n new_) })
    fun x' r hx' _ => ?_).imp fun _ mem₂ h₂ => ?_
  · have he₁ : mem₁.forest p = some e := by rw [h₁.forest, modify_of_ne hpnew, hpe]
    have hchildren : e.children = x'.children :=
      congrArg Forest.Entry.children (eq_entry (internode?_eq_some.mp hx') he₁)
    have hnodup := hrest.linked.nodup he
    rw [hchildren] at hposi hnodup ⊢
    simp only [Node.entry, children_update hnodup hposi]
  · have hforest (a : Addr) : mem₂.forest a = modify (modify mem.forest new_ fun e' =>
        { e' with parent := link p }) p (fun e' =>
          { e' with children := e.children.map (Forest.moved n new_) }) a := by
      rw [h₂.forest, h₁.forest]
    have halloc : mem.allocated ≤ mem₂.allocated := by rw [h₂.allocated, h₁.allocated]
    refine ⟨⟨fun a y ha han => ?_, ?_, fun a y ha => ?_, ?_⟩, ?_⟩
    · have hanew : a ≠ new_ := fun hane => by rw [hane, hnew] at ha; cases ha
      rw [hforest]
      by_cases hap : a = p
      · subst hap
        obtain rfl : e = y := Option.some.inj (he.symm.trans ha)
        rw [modify_self, modify_of_ne hpnew, hpe]
        simp [hparent]
      · have hxp : x.parent ≠ some a := fun hxa => hap (Option.some.inj (hxa.symm.trans hparent))
        rw [modify_of_ne hap, modify_of_ne hanew, h.rest ha han]
        simp [hxp]
    · rw [hforest, modify_of_ne hpnew.symm, modify_self, h.copy]
      simp [hlink]
    · exact (h.lt ha).trans_le (fresh_mono halloc)
    · exact h.lt_new.trans_le (fresh_mono halloc)
    · obtain ⟨y, hy, hrest'⟩ := hold
      exact ⟨y, by rw [hforest, modify_of_ne hpn.symm, modify_of_ne hnnew, hy], hrest'⟩

/-- One more child is told of its new parent. -/
theorem ensures_setParent_moving {c : Addr} (h : Moving F n new_ x d hung cs mem) (hrest : AtRest F)
    (hn : F n = some x) (hnew : F new_ = none) (hpos : new_ ≠ 0) (hc : c ∈ x.children) :
    machine.Ensures (setParent c new_) mem
      fun _ mem' => Moving F n new_ x d hung (cs ++ [c]) mem' := by
  obtain ⟨y, hy, hyp⟩ := hrest.linked.down hn hc
  have hcn : c ≠ n := fun hcn => hrest.linked.notMem_children hn (hcn ▸ hc)
  have hcnew : new_ ≠ c := fun hcn => by rw [← hcn, hnew] at hy; cases hy
  have hlink : link new_ = some new_ := link_eq_some.mpr ⟨rfl, hpos⟩
  refine ensures_setParent.imp fun _ mem' h' => ⟨fun a e ha han => ?_, ?_, fun a e ha => ?_, ?_⟩
  · rw [h'.forest]
    by_cases hac : a = c
    · subst hac
      rw [modify_self, h.rest ha han]
      simp [hlink]
    · rw [modify_of_ne hac, h.rest ha han]
      simp [hac]
  · rw [h'.forest, modify_of_ne hcnew, h.copy]
  · exact (h.lt ha).trans_le (fresh_mono h'.allocated.ge)
  · exact h.lt_new.trans_le (fresh_mono h'.allocated.ge)

/-- All children are told of their new parent. -/
theorem ensures_setParents_moving {o : Internode} (h : Moving F n new_ x d hung [] mem)
    (hrest : AtRest F) (hn : F n = some x) (hnew : F new_ = none) (hpos : new_ ≠ 0)
    (ho : o.children = x.children) :
    machine.Ensures (forRange 0 (o.nkeys + 1) fun i => setParent (o.child i) new_) mem
      fun _ mem' => Moving F n new_ x d hung x.children mem' := by
  have hlen : x.children.length = o.nkeys + 1 := by
    rw [← ho]
    simp [Internode.children]
  have hloop : machine.Ensures (forRange 0 (o.nkeys + 1) fun i => setParent (o.child i) new_) mem
      fun _ mem' => Moving F n new_ x d hung (x.children.take (0 + (o.nkeys + 1))) mem' := by
    refine ensures_forRange (I := fun i mem => Moving F n new_ x d hung (x.children.take i) mem)
      0 (o.nkeys + 1) (fun i s _ hi hI => ?_) (by simpa using h)
    have hget : x.children[i]? = some (o.child i) := by
      rw [← ho, getElem?_children]
      exact ⟨by omega, rfl⟩
    rw [List.take_add_one, hget]
    exact ensures_setParent_moving hI hrest hn hnew hpos (List.mem_of_getElem? hget)
  have htake : x.children.take (0 + (o.nkeys + 1)) = x.children := by
    rw [Nat.zero_add, ← hlen, List.take_length]
  refine hloop.imp fun _ _ h' => ?_
  rwa [htake] at h'

end Moving

/-! ### The replacements -/

section Replacements

variable {env : Env} {fuel : ℕ} {mem : Mem} {F : Forest Addr Info} {n new_ p : Addr}
  {x : Forest.Entry Addr Info} {d : Info}

/-- The leaf is replaced by its copy, and its parent stays locked. -/
theorem holds_replaceLeaf (h : Moving F n new_ x d false [] mem) (hold : SaysStill n x mem)
    (hrest : AtRest F) (hF : ∀ ⦃a e⦄, F a = some e → a ≠ 0) (hn : F n = some x)
    (hnew : F new_ = none) (hpos : new_ ≠ 0) (hleaf : x.data.leaf = true) (hch : x.children = [])
    (hd : d.marks.Calm) :
    machine.Ensures (replaceLeaf env fuel n new_) mem fun p mem' =>
      x.parent = some p ∧ mem'.Holds (F.replace n new_ d) := by
  have hne : new_ ≠ n := fun he => by rw [← he, hnew] at hn; cases hn
  unfold replaceLeaf
  refine (ensures_lockedParent_moving h hold).bind fun p mem₁ h₁ => ?_
  obtain ⟨h₁, hold₁, hparent⟩ := h₁
  obtain ⟨p', hp'⟩ := Option.ne_none_iff_exists'.mp ((hrest.node hn).leaf hleaf)
  obtain ⟨rfl, hp0⟩ := link_eq_some.mp (hparent.symm.trans hp')
  obtain ⟨e, he, hmem⟩ := hrest.parent hn hp'
  have hpn : p ≠ n := fun hpn => hrest.linked.irrefl hn (hpn ▸ hp')
  refine (keeps_read (R := Eq)).then fun v _ h => ?_
  subst h
  extract_lets jp
  refine ensures_ite (fun hc => absurd hc (by simp [hp0])) fun _ => ?_
  refine ensures_read.bind fun pv mem₂ hpv => ?_
  obtain ⟨rfl, m, hm, rfl⟩ := hpv
  have hdel : m.version.deleted = false := by
    have hforest : mem₂.forest p = some e := by simpa using h₁.rest he hpn
    have hcalm := (hrest.node he).calm.deleted
    rw [eq_entry hm hforest] at hcalm
    cases m <;> exact hcalm
  refine ensures_bind.mpr (ensures_ret.mpr ?_)
  refine ensures_ite (fun hc => absurd hc (by simp [hdel])) fun _ => ?_
  refine (keeps_read (R := Eq)).then fun l _ h => ?_
  subst h
  refine ensures_read.bind fun xi mem₃ hxi => ?_
  obtain ⟨rfl, xi', hxi, rfl⟩ := hxi
  refine (keeps_assert (R := Eq) _ _).then fun _ _ h => ?_
  subst h
  have hxe : mem₃.forest p = some e := by simpa using h₁.rest he hpn
  have hchildren : e.children = xi.children :=
    congrArg Forest.Entry.children (eq_entry (internode?_eq_some.mp hxi) hxe)
  obtain ⟨posi, hposi⟩ := exists_childPosition (l.ikey0 0) (hchildren ▸ hmem)
  rw [hposi]
  refine (ensures_assignCopy_moving h₁ hold₁ hrest hn hnew hp' he
    (hchildren ▸ childPosition_eq_some hposi)).bind fun _ mem₄ h₄ => ?_
  refine (keeps_changeLink n new_ fuel).then fun _ mem₅ h₅ => ?_
  refine (beside_markLocked env.build _).then fun _ mem₆ h₆ => ?_
  refine beside_deallocateLeaf.then fun _ mem₇ h₇ => ?_
  refine (beside_unlockLocked env).then fun _ mem₈ h₈ => ?_
  have hall := (h₄.1.quiet h₅).beside hne (trans_of _ h₆ (trans_of _ h₇ h₈))
  refine (ensures_unlockLocked_of_calm hall.copy hd).bind fun _ mem₉ h₉ => ensures_ret.mpr ⟨hp', ?_⟩
  have hend := hall.quiet h₉
  rw [← hch] at hend
  exact hend.holds hrest hF hn hnew hpos

/-- A copy of a root is made the root that it is. -/
theorem ensures_makeLayerRoot_moving (h : Moving F n new_ x d false [] mem) (hn : F n = some x)
    (hnew : F new_ = none) (hparent : x.parent = none) (hroot : d.marks.isRoot = true) :
    machine.Ensures (makeLayerRoot new_) mem fun _ mem' =>
      Moving F n new_ x d true [] mem' ∧ ∀ b, b ≠ new_ → mem'.forest b = mem.forest b := by
  have hlink : link 0 = none := link_eq_none.mpr rfl
  refine ensures_setParent.bind fun _ mem₁ h₁ => ?_
  refine (ensures_writeVersion (g := fun m => { m with isRoot := true })
    fun m _ => marks_setRoot m.version).imp fun _ mem₂ h₂ => ?_
  have halloc : mem.allocated ≤ mem₂.allocated := by rw [h₂.allocated, h₁.allocated]
  have hother (b : Addr) (hb : b ≠ new_) : mem₂.forest b = mem.forest b := by
    rw [h₂.forest, modify_of_ne hb, h₁.forest, modify_of_ne hb]
  refine ⟨⟨fun a e ha han => ?_, ?_, fun a e ha => ?_, ?_⟩, hother⟩
  · have hanew : a ≠ new_ := fun hane => by rw [hane, hnew] at ha; cases ha
    rw [hother a hanew, h.rest ha han]
    simp [hparent]
  · rw [h₂.forest, modify_self, h₁.forest, modify_self, h.copy]
    obtain ⟨xp, xc, xd⟩ := x
    obtain ⟨dl, dt, dh, ⟨mi, ms, mg, md, mr, ml⟩, dr⟩ := d
    simp only at hparent hroot
    subst hparent hroot
    simp [hlink]
  · exact (h.lt ha).trans_le (fresh_mono halloc)
  · exact h.lt_new.trans_le (fresh_mono halloc)

/-- The internode is replaced by its copy, and its parent stays locked. -/
theorem holds_replaceInternode (h : Moving F n new_ x d false [] mem) (hold : SaysStill n x mem)
    (hrest : AtRest F) (hF : ∀ ⦃a e⦄, F a = some e → a ≠ 0) (hn : F n = some x)
    (hnew : F new_ = none) (hpos : new_ ≠ 0) (hd : d.marks = x.data.marks) :
    machine.Ensures (replaceInternode env fuel n new_) mem fun p mem' =>
      x.parent = link p ∧ mem'.Holds (F.replace n new_ d) := by
  have hne : new_ ≠ n := fun he => by rw [← he, hnew] at hn; cases hn
  unfold replaceInternode
  refine (ensures_lockedParent_moving h hold).bind fun p mem₁ h₁ => ?_
  obtain ⟨h₁, hold₁, hparent⟩ := h₁
  refine ensures_read.bind fun v mem₂ hv => ?_
  obtain ⟨rfl, nd, hnd, rfl⟩ := hv
  extract_lets jp jq
  -- the rest once the parent has its new child
  have hfinish (k : ℕ) (mem₃ : Mem) (h₃ : Moving F n new_ x d true [] mem₃)
      (hold₃ : SaysStill n x mem₃) : machine.Ensures (jp (some k)) mem₃ fun p mem' =>
        x.parent = link p ∧ mem'.Holds (F.replace n new_ d) := by
    refine ensures_read.bind fun o mem₄ ho => ?_
    obtain ⟨rfl, o', ho, rfl⟩ := ho
    have hchildren : o.children = x.children := by
      obtain ⟨y, hy, -, hych, -⟩ := hold₃
      rw [← hych, eq_entry (internode?_eq_some.mp ho) hy]
      rfl
    refine (ensures_setParents_moving h₃ hrest hn hnew hpos hchildren).bind fun _ mem₅ h₅ => ?_
    refine (beside_markLocked env.build _).then fun _ mem₆ h₆ => ?_
    refine beside_retireBlock.then fun _ mem₇ h₇ => ?_
    refine (beside_unlock env.build).then fun _ mem₈ h₈ => ?_
    have hall := h₅.beside hne (trans_of _ h₆ (trans_of _ h₇ h₈))
    have hcalm : d.marks.Calm := hd ▸ (hrest.node hn).calm
    refine (ensures_unlock_of_calm hall.copy hcalm).bind fun _ mem₉ h₉ => ?_
    exact ensures_ret.mpr ⟨hparent, (hall.quiet h₉).holds hrest hF hn hnew hpos⟩
  -- the copy is hung up below the parent, if there is one
  have hhang (mem₃ : Mem) (h₃ : Moving F n new_ x d false [] mem₃) (hold₃ : SaysStill n x mem₃) :
      machine.Ensures (jq false) mem₃ fun p mem' =>
        x.parent = link p ∧ mem'.Holds (F.replace n new_ d) := by
    refine ensures_ite (fun hc => absurd hc (by simp)) fun _ => ?_
    refine ensures_ite (fun hp => ?_) fun hp => ?_
    · have hnone : x.parent = none := hparent.trans (link_eq_none.mpr hp)
      have hroot : d.marks.isRoot = true := hd ▸ (hrest.node hn).root hnone
      refine (ensures_makeLayerRoot_moving h₃ hn hnew hnone hroot).bind fun _ mem₄ h₄ => ?_
      refine ensures_bind.mpr (ensures_ret.mpr (hfinish 0 mem₄ h₄.1 ?_))
      obtain ⟨y, hy, hrest'⟩ := hold₃
      exact ⟨y, (h₄.2 n hne.symm).trans hy, hrest'⟩
    · have hp' : x.parent = some p := hparent.trans (link_eq_some.mpr ⟨rfl, hp⟩)
      obtain ⟨e, he, hmem⟩ := hrest.parent hn hp'
      have hpn : p ≠ n := fun hpn => hrest.linked.irrefl hn (hpn ▸ hp')
      refine (keeps_read (R := Eq)).then fun o _ h => ?_
      subst h
      refine ensures_read.bind fun xi mem₄ hxi => ?_
      obtain ⟨rfl, xi', hxi, rfl⟩ := hxi
      refine (keeps_assert (R := Eq) _ _).then fun _ _ h => ?_
      subst h
      have hxe : mem₄.forest p = some e := by simpa using h₃.rest he hpn
      have hchildren : e.children = xi.children :=
        congrArg Forest.Entry.children (eq_entry (internode?_eq_some.mp hxi) hxe)
      obtain ⟨posi, hposi⟩ := exists_childPosition (o.ikey0 0) (hchildren ▸ hmem)
      rw [hposi]
      refine (ensures_assignCopy_moving h₃ hold₃ hrest hn hnew hp' he
        (hchildren ▸ childPosition_eq_some hposi)).bind fun _ mem₅ h₅ => ?_
      exact ensures_bind.mpr (ensures_ret.mpr (hfinish posi mem₅ h₅.1 h₅.2))
  refine ensures_ite (fun hp => ?_) fun hp => ?_
  · have hroot : nd.version.isRoot = true := by
      have hr := (hrest.node hn).root (hparent.trans (link_eq_none.mpr hp))
      obtain ⟨y, hy, -, -, hyr⟩ := hold₁
      rw [← hyr, eq_entry hnd hy] at hr
      cases nd <;> exact hr
    rw [hroot]
    exact ensures_bind.mpr (ensures_ret.mpr (hhang mem₂ h₁ hold₁))
  · have hp' : x.parent = some p := hparent.trans (link_eq_some.mpr ⟨rfl, hp⟩)
    obtain ⟨e, he, -⟩ := hrest.parent hn hp'
    have hpn : p ≠ n := fun hpn => hrest.linked.irrefl hn (hpn ▸ hp')
    refine ensures_read.bind fun pv mem₃ hpv => ?_
    obtain ⟨rfl, m, hm, rfl⟩ := hpv
    have hdel : m.version.deleted = false := by
      have hforest : mem₃.forest p = some e := by simpa using h₁.rest he hpn
      have hcalm := (hrest.node he).calm.deleted
      rw [eq_entry hm hforest] at hcalm
      cases m <;> exact hcalm
    rw [hdel]
    exact ensures_bind.mpr (ensures_ret.mpr (hhang mem₃ h₁ hold₁))

end Replacements

/-! ### The migrations -/

section Migrations

variable {env : Env} {fuel : ℕ} {mem : Mem} {F : Forest Addr Info} {n : Addr}
  {x : Forest.Entry Addr Info} {t : NodeMemType}

/-- A new block holds the node that it was made for, and the layer is as it was. -/
theorem Mem.Holds.alloc (hF : mem.Holds F) {size : ℕ} {m : Node} : (mem.alloc size m).Holds F := by
  refine hF.congr (fun a e ha => ?_) (Nat.le_succ _)
  rw [forest_alloc, Function.update_of_ne (hF.fresh_ne ha)]
  exact hF.sub ha

theorem fresh_lt_alloc {size : ℕ} {m : Node} : mem.fresh < (mem.alloc size m).fresh :=
  Nat.mul_lt_mul_of_pos_left (Nat.lt_succ_self _) (by decide)

/-- A new node lies beside the layer. -/
theorem ensures_makeLeaf_holds (hF : mem.Holds F) {ksufsize depth accessTime : ℕ} :
    machine.Ensures (makeLeaf env ksufsize depth t accessTime true) mem fun a mem' =>
      a = mem.fresh ∧ a < mem'.fresh ∧ mem'.Holds F ∧
        ∃ y, mem'.forest a = some y ∧ y.data.retired = false := by
  refine ensures_poolAllocate.bind fun a mem₁ h₁ => ?_
  obtain ⟨rfl, rfl⟩ := h₁
  refine still_updateLocalMemoryUsage.then fun _ mem₂ h₂ => ensures_ret.mpr ⟨rfl, ?_, ?_, ?_⟩
  · exact fresh_lt_alloc.trans_le (fresh_mono h₂.allocated.ge)
  · exact hF.alloc.congr (fun a e ha => by rw [h₂.forest]; exact hF.alloc.sub ha) h₂.allocated.ge
  · refine ⟨_, by rw [h₂.forest, forest_alloc, Function.update_self], rfl⟩

theorem ensures_makeInternode_holds (hF : mem.Holds F) {height depth : ℕ} :
    machine.Ensures (makeInternode env height depth t true) mem fun a mem' =>
      a = mem.fresh ∧ a < mem'.fresh ∧ mem'.Holds F ∧
        ∃ y, mem'.forest a = some y ∧ y.data.retired = false := by
  refine ensures_poolAllocate.bind fun a mem₁ h₁ => ?_
  obtain ⟨rfl, rfl⟩ := h₁
  refine still_updateLocalMemoryUsage.then fun _ mem₂ h₂ => ensures_ret.mpr ⟨rfl, ?_, ?_, ?_⟩
  · exact fresh_lt_alloc.trans_le (fresh_mono h₂.allocated.ge)
  · exact hF.alloc.congr (fun a e ha => by rw [h₂.forest]; exact hF.alloc.sub ha) h₂.allocated.ge
  · refine ⟨_, by rw [h₂.forest, forest_alloc, Function.update_self], rfl⟩

/-- The copy of a node of the layer, before any other node is told of it. -/
theorem Moving.start {new_ : Addr} {mem₁ : Mem} {d : Info} (hF : mem.Holds F) (hnew : F new_ = none)
    (hlt : new_ < mem.fresh) (hforest : mem₁.forest =
      modify (modify mem.forest new_ fun _ => { x with data := d }) n fun e =>
        { e with data := { e.data with marks := { e.data.marks with migrating := true } } })
    (hpresent : ∃ y, mem.forest new_ = some y) (halloc : mem₁.allocated = mem.allocated)
    (hn : F n = some x) : Moving F n new_ x d false [] mem₁ ∧ SaysStill n x mem₁ := by
  have hne : n ≠ new_ := fun he => by rw [he, hnew] at hn; cases hn
  refine ⟨⟨fun a e ha han => ?_, ?_, fun a e ha => ?_, ?_⟩, ?_⟩
  · have hanew : a ≠ new_ := fun hane => by rw [hane, hnew] at ha; cases ha
    rw [hforest, modify_of_ne han, modify_of_ne hanew, hF.sub ha]
    simp
  · obtain ⟨y, hy⟩ := hpresent
    rw [hforest, modify_of_ne hne.symm, modify_self, hy]
    rfl
  · exact (hF.lt ha).trans_le (fresh_mono halloc.ge)
  · exact hlt.trans_le (fresh_mono halloc.ge)
  · refine ⟨{ x with data := { x.data with marks := { x.data.marks with migrating := true } } },
      ?_, rfl, rfl, rfl⟩
    rw [hforest, modify_self, modify_of_ne hne, hF.sub hn]
    rfl

/-- A leaf of a layer at rest gives way to a copy of the other type. -/
theorem holds_leafMigration (parent : Addr) (hF : mem.Holds F) (hrest : AtRest F)
    (hn : F n = some x)
    (hleaf : x.data.leaf = true) :
    machine.Ensures (leafMigration env fuel n parent t) mem fun p mem' =>
      (p = 0 ∧ x.data.type = t ∧ mem'.Holds F) ∨
        (p ≠ 0 ∧ x.parent = some p ∧ ∃ new_, F new_ = none ∧
          mem'.Holds (F.replace n new_ { x.data with type := t })) := by
  have hcalm := (hrest.node hn).calm
  refine ensures_ite (fun h0 => absurd h0 (hF.pos hn)) fun _ => ?_
  have hentry {m : Node} {mem₁ : Mem} (h : mem₁.Holds F) (hm : mem₁.node? n = some m) :
      x = m.entry false := by
    have he := eq_entry hm (h.sub hn)
    rwa [(hrest.node hn).inUse] at he
  refine ensures_read.bind fun v mem₁ hv => ?_
  obtain ⟨rfl, m, hm, rfl⟩ := hv
  refine ensures_read.bind fun l mem₂ hl => ?_
  obtain ⟨rfl, l', hl, rfl⟩ := hl
  have hxl := hentry hF (leaf?_eq_some.mp hl)
  obtain rfl : m = .leaf l := Option.some.inj (hm.symm.trans (leaf?_eq_some.mp hl))
  have hdel : l.version.deleted = false := by
    have h := hcalm.deleted
    rw [hxl] at h
    exact h
  refine ensures_ite (fun hc => ?_) fun hc => ?_
  · refine ensures_ret.mpr (Or.inl ⟨rfl, ?_, hF⟩)
    rw [hxl]
    exact (by simpa [Node.version, hdel] using hc : l.metadata.type = t)
  refine ensures_read.bind fun v mem₂ hv => ?_
  obtain ⟨rfl, m, hm', rfl⟩ := hv
  obtain rfl : m = .leaf l := Option.some.inj (hm'.symm.trans hm)
  refine ensures_ite (fun hc => ?_) fun _ => ?_
  · have hmarks : (Node.leaf l).version.marks.Calm := by
      rw [hxl] at hcalm
      exact hcalm
    have hi : (Node.leaf l).version.inserting = false := hmarks.inserting
    have hs : (Node.leaf l).version.splitting = false := hmarks.splitting
    have hg : (Node.leaf l).version.migrating = false := hmarks.migrating
    simp [hi, hs, hg] at hc
  refine (keeps_waitUnchanged n fuel).then fun _ mem₃ h₃ => ?_
  have hF₃ := hF.quiet h₃
  refine (keeps_read (R := Eq)).then fun l₁ _ h => ?_
  subst h
  have hbag : machine.Keeps Eq (externalBag l₁) := keeps_ite keeps_read keeps_ret
  refine hbag.then fun b _ h => ?_
  subst h
  refine (ensures_makeLeaf_holds hF₃).bind fun new_ mem₄ h₄ => ?_
  obtain ⟨rfl, hlt, hF₄, y, hy, hyr⟩ := h₄
  have hnew := hF₃.fresh
  refine (keeps_lock env.build n fuel).then fun _ mem₅ h₅ => ?_
  have hF₅ := hF₄.quiet h₅
  have hy₅ : mem₅.forest mem₃.fresh = some y := by rw [h₅.forest, hy]
  have hlt₅ := hlt.trans_le (fresh_mono h₅.allocated.ge)
  -- the struct is copied, and the copy gets its type
  have hcopy : machine.Ensures (memcpyLeaf mem₃.fresh n) mem₅ fun _ =>
      Became mem₅ (modify mem₅.forest mem₃.fresh fun _ => x) := by
    refine ensures_read.bind fun l₂ mem₆ h₆ => ?_
    obtain ⟨rfl, l₃, hl₃, rfl⟩ := h₆
    refine ensures_writeLeaf fun r b _ hr => ?_
    have hb : b = false := by
      rw [hy₅] at hr
      rw [Option.some.inj hr] at hyr
      exact hyr
    rw [hentry hF₅ (leaf?_eq_some.mp hl₃), hb]
    rfl
  refine hcopy.bind fun _ mem₆ h₆ => ?_
  refine (ensures_writeLeaf (g := fun e => { e with data := { e.data with type := t } })
    fun _ _ _ _ => rfl).bind fun _ mem₇ h₇ => ?_
  refine (ensures_writeVersion (g := fun m => { m with migrating := true })
    fun m _ => marks_markMigration m.version).bind fun _ mem₈ h₈ => ?_
  have hforest : mem₈.forest = modify (modify mem₅.forest mem₃.fresh fun _ =>
      { x with data := { x.data with type := t } }) n fun e =>
        { e with data := { e.data with marks := { e.data.marks with migrating := true } } } := by
    rw [h₈.forest, h₇.forest, h₆.forest]
    simp only [modify, Function.update_self, Function.update_idem, Option.map_map]
    rfl
  have halloc : mem₈.allocated = mem₅.allocated := by
    rw [h₈.allocated, h₇.allocated, h₆.allocated]
  obtain ⟨hmoving, hsays⟩ := Moving.start hF₅ hnew hlt₅ hforest ⟨y, hy₅⟩ halloc hn
  have hch : x.children = [] := by
    rw [hxl]
    rfl
  have hpos : mem₃.fresh ≠ 0 := by simp [Mem.fresh]
  refine (holds_replaceLeaf hmoving hsays hrest hF.pos hn hnew hpos hleaf hch hcalm).imp
    fun p mem' h => Or.inr ⟨?_, h.1, mem₃.fresh, hnew, h.2⟩
  exact hsays.parent_ne_zero h.1

/-- An internode of a layer at rest gives way to a copy of the other type. -/
theorem holds_internodeMigration (hF : mem.Holds F) (hrest : AtRest F) (hn : F n = some x)
    (isNew : Bool) :
    machine.Ensures (internodeMigration env fuel n t isNew) mem fun p mem' =>
      (p = 0 ∧ x.data.type = t ∧ mem'.Holds F) ∨
        (x.parent = link p ∧ ∃ new_, F new_ = none ∧
          mem'.Holds (F.replace n new_ { x.data with type := t })) := by
  have hcalm := (hrest.node hn).calm
  have hentry {m : Node} {mem₁ : Mem} (h : mem₁.Holds F) (hm : mem₁.node? n = some m) :
      x = m.entry false := by
    have he := eq_entry hm (h.sub hn)
    rwa [(hrest.node hn).inUse] at he
  unfold internodeMigration
  extract_lets jp
  have hmain (mem₁ : Mem) (hF₁ : mem₁.Holds F) : machine.Ensures (jp ()) mem₁ fun p mem' =>
      (p = 0 ∧ x.data.type = t ∧ mem'.Holds F) ∨
        (x.parent = link p ∧ ∃ new_, F new_ = none ∧
          mem'.Holds (F.replace n new_ { x.data with type := t })) := by
    refine ensures_read.bind fun v mem₂ hv => ?_
    obtain ⟨rfl, m, hm, rfl⟩ := hv
    refine (keeps_assert (R := Eq) _ _).then fun _ _ h => ?_
    subst h
    refine ensures_read.bind fun o mem₃ ho => ?_
    obtain ⟨rfl, o', ho, rfl⟩ := ho
    have hxo := hentry hF₁ (internode?_eq_some.mp ho)
    obtain rfl : m = .internode o := Option.some.inj (hm.symm.trans (internode?_eq_some.mp ho))
    have hdel : o.version.deleted = false := by
      have h := hcalm.deleted
      rw [hxo] at h
      exact h
    refine ensures_ite (fun hc => ?_) fun _ => ?_
    · refine (ensures_unlock_of_calm (hF₁.sub hn) hcalm).bind fun _ mem₄ h₄ => ?_
      refine ensures_ret.mpr (Or.inl ⟨rfl, ?_, hF₁.quiet h₄⟩)
      rw [hxo]
      exact (by simpa [Node.version, hdel] using hc : o.sidleMeta.type = t)
    refine (keeps_assert (R := Eq) _ _).then fun _ _ h => ?_
    subst h
    refine (ensures_makeInternode_holds hF₁).bind fun new_ mem₄ h₄ => ?_
    obtain ⟨rfl, hlt, hF₄, y, hy, hyr⟩ := h₄
    have hnew := hF₁.fresh
    refine ensures_read.bind fun o₁ mem₅ ho₁ => ?_
    obtain ⟨rfl, o₂, ho₁, rfl⟩ := ho₁
    have hxo₁ := hentry hF₄ (internode?_eq_some.mp ho₁)
    refine (ensures_writeInternode (g := fun _ => x) fun r b _ hr => ?_).bind fun _ mem₆ h₆ => ?_
    · have hb : b = false := by
        rw [hy] at hr
        rw [Option.some.inj hr] at hyr
        exact hyr
      rw [hxo₁, hb]
    refine (ensures_writeInternode (g := fun e => { e with data := { e.data with type := t } })
      fun _ _ _ _ => rfl).bind fun _ mem₇ h₇ => ?_
    refine (ensures_writeVersion (g := fun m => { m with migrating := true })
      fun m _ => marks_markMigration m.version).bind fun _ mem₈ h₈ => ?_
    have hforest : mem₈.forest = modify (modify mem₅.forest mem₃.fresh fun _ =>
        { x with data := { x.data with type := t } }) n fun e =>
          { e with data := { e.data with marks := { e.data.marks with migrating := true } } } := by
      rw [h₈.forest, h₇.forest, h₆.forest]
      simp only [modify, Function.update_self, Function.update_idem, Option.map_map]
      rfl
    have halloc : mem₈.allocated = mem₅.allocated := by
      rw [h₈.allocated, h₇.allocated, h₆.allocated]
    obtain ⟨hmoving, hsays⟩ := Moving.start hF₄ hnew hlt hforest ⟨y, hy⟩ halloc hn
    have hpos : mem₃.fresh ≠ 0 := by simp [Mem.fresh]
    exact (holds_replaceInternode hmoving hsays hrest hF.pos hn hnew hpos rfl).imp
      fun p mem' h => Or.inr ⟨h.1, mem₃.fresh, hnew, h.2⟩
  refine ensures_ite (fun _ => ?_) fun _ => hmain mem hF
  refine (keeps_lock env.build n fuel).then fun _ mem₁ h₁ => ?_
  exact hmain mem₁ (hF.quiet h₁)

end Migrations

end Sidle.Masstree
