import Sidle.Masstree.Hoist

/-!
# The three ways up

In a round of `make_split` the right half of a node goes into the parent if that has room, below a
new root if there is no parent, and else into one of the halves of the parent, which is split for
it.  Here each of them is seen to leave the nodes standing, or one right half to be hung up a level
above.

## Main definitions

* `Halving`, `Halved` — the two halves of a full parent, and a scene where it has been split.
* `Grew` — the places of the leaves, of the left edges and of the layers stay.
* `Hoisted` — what a round has done above the two halves.

## Main results

* `hung_hangNewParent`, `hung_insertChild`, `hoisted_splitParent` — **the three ways**.
-/

namespace Sidle.Masstree

open Art (Build Fault)
open Forest Prog Machine

/-! ### The halves of the parent -/

section Halves

variable {x y : Scene} {G G' M M' : Places} {r : SplitRound} {p q a : Addr} {kp mid sep : ℕ}
  {f g fc : Face} {P Q : Place} {y₀ r₀ : Internode}

theorem belongs_lt {h : ℕ} {child : Addr} {layer : Str} :
    ∀ c a b, Belongs x G child p layer h c a b → a < b := fun _ _ _ hc => hc.lt

theorem belongs_fun {h : ℕ} {child : Addr} {layer : Str} : ∀ c a b a' b',
    Belongs x G child p layer h c a b → Belongs x G child p layer h c a' b' → a = a' ∧ b = b' := by
  intro c a b a' b' hc hc'
  have heq := hc.place.symm.trans hc'.place
  cases heq
  exact ⟨rfl, rfl⟩

theorem height_splitRight : (y₀.splitRight r₀ mid kp sep a).height = r₀.height := by
  unfold Internode.splitRight
  split
  · rfl
  · split
    · rfl
    · rfl

theorem height_splitLeft : (y₀.splitLeft mid kp sep a).height = y₀.height := by
  unfold Internode.splitLeft
  split
  · rfl
  · rfl

/-- The two halves of the full parent `p`, and where its children are. -/
structure Halving (x : Scene) (r : SplitRound) (p : Addr) (mid kp : ℕ) (y₀ r₀ : Internode) : Prop
    where
  keys : (y₀.splitLeft mid kp r.xikey r.child).keys ++ y₀.splitIkey mid kp r.xikey ::
    (y₀.splitRight r₀ mid kp r.xikey r.child).keys = y₀.keys.insertIdx kp r.xikey
  children : (y₀.splitLeft mid kp r.xikey r.child).children ++
    (y₀.splitRight r₀ mid kp r.xikey r.child).children = y₀.children.insertIdx (kp + 1) r.child
  disjoint : ∀ c ∈ (y₀.splitLeft mid kp r.xikey r.child).children,
    c ∉ (y₀.splitRight r₀ mid kp r.xikey r.child).children
  known : ∀ c, c ∈ (y₀.splitLeft mid kp r.xikey r.child).children ∨
    c ∈ (y₀.splitRight r₀ mid kp r.xikey r.child).children →
      c ≠ p ∧ ∃ fc, x.face c = some fc ∧ (c ≠ r.child → fc.parent = p)
  left : kp < mid → r.child ∈ (y₀.splitLeft mid kp r.xikey r.child).children
  right : ¬kp < mid → r.child ∈ (y₀.splitRight r₀ mid kp r.xikey r.child).children
  before : r.n ∈ (y₀.splitLeft mid kp r.xikey r.child).children ∨
    r.n ∈ (y₀.splitRight r₀ mid kp r.xikey r.child).children

theorem Shape.halving (h : Shape x G M)
    (hp : Pending x G M r.n r.child r.xikey r.height) (hf : x.face r.n = some f)
    (hfp : f.parent = p) (hp0 : p ≠ 0) (hg : x.face p = some g) (hn : g.node = .internode y₀)
    (hfull : width ≤ y₀.nkeys) (hmid : 0 < mid) (hmidw : mid ≤ width) :
    Halving x r p mid (y₀.upper r.xikey) y₀ r₀ := by
  obtain ⟨Q, y₀', hQ, hy₀, hheight, hmem, -, hle, hu, hcover⟩ := h.beside hp hf hfp hp0
  obtain rfl := hy₀.unique ⟨g, hg, hn⟩
  have hnkeys : y₀'.nkeys = width := le_antisymm hle hfull
  have huw : y₀'.upper r.xikey ≤ width := hnkeys ▸ hu
  have hchildren : (y₀'.splitLeft mid (y₀'.upper r.xikey) r.xikey r.child).children ++
      (y₀'.splitRight r₀ mid (y₀'.upper r.xikey) r.xikey r.child).children =
        y₀'.children.insertIdx (y₀'.upper r.xikey + 1) r.child :=
    Internode.split_children hnkeys hmid hmidw huw
  have hnodup := hcover.nodup belongs_lt belongs_fun
  rw [← hchildren] at hnodup hcover
  refine ⟨Internode.split_keys hnkeys hmid hmidw huw, hchildren, ?_, ?_, ?_, ?_, ?_⟩
  · exact fun c hc hc' => (List.nodup_append.mp hnodup).2.2 c hc c hc' rfl
  · intro c hc
    obtain ⟨j, hj⟩ := List.mem_iff_getElem?.mp (List.mem_append.mpr hc)
    obtain ⟨a, b, hab, -⟩ := hcover.piece belongs_lt hj
    obtain ⟨fc, hfc, hpar, hlevel⟩ := hab.face
    refine ⟨?_, fc, hfc, hpar⟩
    rintro rfl
    rw [hg] at hfc
    cases hfc
    rw [hn] at hlevel
    exact absurd hlevel (Nat.succ_ne_self _)
  · intro hlt
    refine List.mem_of_getElem? (i := y₀'.upper r.xikey + 1) (getElem?_children.mpr ⟨?_, ?_⟩)
    · rw [Internode.nkeys_splitLeft hmid]
      exact hlt
    · rw [Internode.child_splitLeft hlt, inserted_self]
  · intro hlt
    refine List.mem_of_getElem? (i := y₀'.upper r.xikey - mid) (getElem?_children.mpr ⟨?_, ?_⟩)
    · rw [Internode.nkeys_splitRight]
      omega
    · rw [Internode.child_splitRight (by omega),
        show mid + 1 + (y₀'.upper r.xikey - mid) = y₀'.upper r.xikey + 1 by omega, inserted_self]
  · rw [← List.mem_append, hchildren]
    exact List.subset_insertIdx _ _ _ hmem

variable {yl yr : Internode}

/-- The internode on the right, and its children. -/
theorem face_cutParent_right (hq : q ≠ p)
    (hyr : y₀.splitRight r₀ mid kp r.xikey r.child = yr) (hqc : q ∉ yr.children) :
    (x.cutParent r p q kp mid g y₀ r₀).face q = some ⟨false, false, 0, .internode yr⟩ := by
  subst hyr
  rw [Scene.cutParent, Scene.face_set_of_ne hq, Scene.face_adopt_of_notMem hqc, Scene.face_set_self]

theorem face_cutParent_child (hyr : y₀.splitRight r₀ mid kp r.xikey r.child = yr)
    (ha : a ∈ yr.children) (hap : a ≠ p) (haq : a ≠ q) (hfa : x.face a = some fc) :
    (x.cutParent r p q kp mid g y₀ r₀).face a = some { fc with parent := q } := by
  subst hyr
  rw [Scene.cutParent, Scene.face_set_of_ne hap]
  refine Scene.face_adopt_of_mem ha ?_
  rw [Scene.face_set_of_ne haq, hfa]

theorem face_cutParent_other (hyr : y₀.splitRight r₀ mid kp r.xikey r.child = yr)
    (ha : a ∉ yr.children) (hap : a ≠ p) (haq : a ≠ q) :
    (x.cutParent r p q kp mid g y₀ r₀).face a = x.face a := by
  subst hyr
  rw [Scene.cutParent, Scene.face_set_of_ne hap, Scene.face_adopt_of_notMem ha,
    Scene.face_set_of_ne haq]

theorem leaf?_cutParent (hq : x.face q = none) (hg : x.face p = some g)
    (hn : g.node = .internode y₀) : (x.cutParent r p q kp mid g y₀ r₀).leaf? = x.leaf? := by
  have hpq : p ≠ q := by
    rintro rfl
    rw [hg] at hq
    cases hq
  have hqleaf : x.leaf? q = none := by
    rw [Scene.leaf?, hq]
    rfl
  have hpleaf : x.leaf? p = none := by
    rw [Scene.leaf?_of_face hg, hn]
    rfl
  rw [Scene.cutParent, Scene.leaf?_set, Scene.leaf?_adopt, Scene.leaf?_set]
  have hq' : Function.update x.leaf? q none = x.leaf? := by rw [← hqleaf, Function.update_eq_self]
  have hp' : Function.update x.leaf? p none = x.leaf? := by rw [← hpleaf, Function.update_eq_self]
  exact (congrArg (Function.update · p none) hq').trans hp'

end Halves

/-! ### What a round does above the halves -/

/-- The leaves keep their places, a left edge stays one, and there is no new layer. -/
structure Grew (x : Scene) (G G' : Places) : Prop where
  leaf : ∀ ⦃a l⦄, x.leaf? a = some l → G' a = G a
  edge : ∀ ⦃a layer hi⦄, G a = some ⟨layer, 0, hi⟩ → ∃ hi', G' a = some ⟨layer, 0, hi'⟩
  layer : ∀ ⦃a P⦄, G' a = some P → ∃ b Q, G b = some Q ∧ Q.layer = P.layer

/-- The right half of the round `r` has been hung up in `p`, or in a half of `p` that is to be hung
up next. -/
structure Hoisted (x : Scene) (G : Places) (r : SplitRound) (p : Addr) (next : Option SplitRound)
    (y : Scene) (G' M' : Places) : Prop where
  shape : Shape y G' M'
  leaves : y.leaf? = x.leaf?
  grew : Grew x G G'
  calm : Calm y G' {a | a = r.n ∨ ∃ r', next = some r' ∧ a = r'.n}
  left : ∀ f, x.face r.n = some f → ∃ f', y.face r.n = some f' ∧ f'.parent ≠ 0 ∧ f'.node = f.node ∧
    f'.splitting = f.splitting
  right : ∃ f', y.face r.child = some f' ∧ f'.parent ≠ 0
  place : G' r.child = G r.child
  next_ : ∀ r', next = some r' → r'.n = p ∧ Pending y G' M' r'.n r'.child r'.xikey r'.height ∧
    ∃ f' y', y.face p = some f' ∧ f'.node = .internode y' ∧ f'.splitting = true
  done_ : next = none → M' = G' ∧ (p ≠ 0 → ∀ c, y.face p = some c → c.splitting = false)

section Hoisting

variable {env : Env} {x y z : Scene} {G G' M M' : Places} {r : SplitRound} {a p q : Addr}
  {kp mid splitType fuel : ℕ} {S T : Set Addr} {f g fc : Face} {P Q : Place} {y₀ r₀ : Internode}

theorem Grew.refl : Grew x G G :=
  ⟨fun _ _ _ => rfl, fun _ _ hi h => ⟨hi, h⟩, fun a P h => ⟨a, P, h, rfl⟩⟩

/-- A node is calm if it is new and no root, or if it has been. -/
theorem Calm.rework (h : Calm x G S) (hy : ∀ a P f, a ∉ T → G' a = some P → y.face a = some f →
    f.splitting = false ∧ (f.root = true → P.lo = 0 → P.hi = 2 ^ 64) ∨
      a ∉ S ∧ G a = some P ∧ ∃ c, x.face a = some c ∧ c.root = f.root ∧ c.splitting = f.splitting ∧
        ∀ y₁, f.node = .internode y₁ → ∃ y₂, c.node = .internode y₂) : Calm y G' T := by
  constructor
  · intro a P f y₁ ha hP hf hn
    rcases hy a P f ha hP hf with ⟨hs, -⟩ | ⟨haS, hG, c, hc, -, hs, hnode⟩
    · exact hs
    · obtain ⟨y₂, hy₂⟩ := hnode y₁ hn
      exact hs ▸ h.internode haS hG hc hy₂
  · intro a P f ha hP hf hr hs hlo
    rcases hy a P f ha hP hf with ⟨-, hroot⟩ | ⟨haS, hG, c, hc, hcr, hcs, -⟩
    · exact hroot hr hlo
    · exact h.root haS hG hc (hcr.trans hr) (hcs.trans hs) hlo

/-- **Both halves go below a new root.** -/
theorem hung_hangNewParent (h : Shape x G M) (hp : Pending x G M r.n r.child r.xikey r.height)
    (hcalm : Calm x G {r.n}) (hf : x.face r.n = some f) (hf0 : f.parent = 0) :
    machine.Tracks sceneView (hangNewParent env r 0 kp) x fun _ y =>
      ∃ G' M', Hoisted x G r 0 none y G' M' := by
  obtain ⟨fc, hfc, hlc⟩ := hp.right
  have hnc := hp.ne
  refine (seen_hangNewParent hf hfc hnc).imp fun _ y hy => ?_
  obtain ⟨nn, y₁, hnone, h0, hk, hheight, hkeys, hchildren, rfl⟩ := hy
  have hnn : r.n ≠ nn := by
    intro heq
    rw [← heq, hf] at hnone
    cases hnone
  have hcn : r.child ≠ nn := by
    intro heq
    rw [← heq, hfc] at hnone
    cases hnone
  let y := ((x.set nn ⟨true, false, 0, .internode y₁⟩).set r.child { fc with parent := nn }).set r.n
    { f with parent := nn }
  have hyq : y.face nn = some ⟨true, false, 0, .internode y₁⟩ := by
    rw [Scene.face_set_of_ne hnn.symm, Scene.face_set_of_ne hcn.symm, Scene.face_set_self]
  have hyn : y.face r.n = some { f with parent := nn } := Scene.face_set_self
  have hyc : y.face r.child = some { fc with parent := nn } := by
    rw [Scene.face_set_of_ne hnc.symm, Scene.face_set_self]
  have hother (a : Addr) (haq : a ≠ nn) (han : a ≠ r.n) (hac : a ≠ r.child) :
      y.face a = x.face a := by
    rw [Scene.face_set_of_ne han, Scene.face_set_of_ne hac, Scene.face_set_of_ne haq]
  obtain ⟨layer, hshape⟩ := h.topped (y := y) hp hf hf0 hnone h0 rfl hyq hk hheight hkeys hchildren
    hyn ⟨fc, hfc, hyc⟩ hother
  let G' := Function.update G nn (some ⟨layer, 0, 2 ^ 64⟩)
  have hG {a : Addr} (ha : a ≠ nn) : G' a = G a := Function.update_of_ne ha ..
  have hGq : G' nn = some ⟨layer, 0, 2 ^ 64⟩ := Function.update_self ..
  obtain ⟨layer', lo, hi, hGn, hGc, -⟩ := hp.place
  have hlayer : layer' = layer := by
    have hplace : G' r.n = some ⟨layer', lo, r.xikey⟩ := (hG hnn).trans hGn
    rcases hshape.parent hplace hyn with ⟨hzero, -⟩ | ⟨-, Q, y₂, hQ, hl, -⟩
    · exact absurd hzero h0
    · rw [Function.update_self] at hQ
      cases hQ
      exact hl.symm
  subst hlayer
  refine ⟨G', G', hshape, ?_, ⟨?_, ?_, ?_⟩, ?_, ?_, ⟨_, hyc, h0⟩, hG hcn,
    fun r' hr' => (by cases hr'), fun _ => ⟨rfl, fun h => absurd rfl h⟩⟩
  · have hleaf : x.leaf? nn = none := by
      rw [Scene.leaf?, hnone]
      rfl
    have hface : (x.set nn ⟨true, false, 0, .internode y₁⟩).leaf? = x.leaf? := by
      rw [Scene.leaf?_set]
      change Function.update x.leaf? nn none = _
      rw [← hleaf, Function.update_eq_self]
    have hfc' : (x.set nn ⟨true, false, 0, .internode y₁⟩).face r.child = some fc := by
      rw [Scene.face_set_of_ne hcn, hfc]
    have hf' : ((x.set nn ⟨true, false, 0, .internode y₁⟩).set r.child
        { fc with parent := nn }).face r.n = some f := by
      rw [Scene.face_set_of_ne hnc, Scene.face_set_of_ne hnn, hf]
    rw [Scene.leaf?_set_eq (g := { f with parent := nn }) hf' rfl,
      Scene.leaf?_set_eq (g := { fc with parent := nn }) hfc' rfl, hface]
  · intro a l hl
    refine hG ?_
    rintro rfl
    rw [Scene.leaf?, hnone] at hl
    cases hl
  · intro a layer hi ha
    refine ⟨hi, (hG ?_).trans ha⟩
    rintro rfl
    obtain ⟨f', hf'⟩ := h.face ha
    rw [hnone] at hf'
    cases hf'
  · intro a P ha
    by_cases haq : a = nn
    · rw [haq, hGq] at ha
      cases ha
      exact ⟨r.n, _, hGn, rfl⟩
    · exact ⟨a, P, (hG haq).symm.trans ha, rfl⟩
  · refine hcalm.rework fun a P c ha hP hc => ?_
    have han : a ≠ r.n := fun heq => ha (Or.inl heq)
    by_cases haq : a = nn
    · rw [haq, hyq] at hc
      cases hc
      rw [haq, hGq] at hP
      cases hP
      exact Or.inl ⟨rfl, fun _ _ => rfl⟩
    · refine Or.inr ⟨han, (hG haq).symm.trans hP, ?_⟩
      by_cases hac : a = r.child
      · rw [hac, hyc] at hc
        cases hc
        exact ⟨fc, hac ▸ hfc, rfl, rfl, fun y₁ hy₁ => ⟨y₁, hy₁⟩⟩
      · exact ⟨c, (hother a haq han hac).symm.trans hc, rfl, rfl, fun y₁ hy₁ => ⟨y₁, hy₁⟩⟩
  · intro f' hf'
    rw [hf] at hf'
    cases hf'
    exact ⟨_, hyn, h0, rfl, rfl⟩

/-- **The right half goes beside the left one.** -/
theorem hung_insertChild (h : Shape x G M) (hp : Pending x G M r.n r.child r.xikey r.height)
    (hcalm : Calm x G {r.n}) (hf : x.face r.n = some f) (hfp : f.parent = p) (hp0 : p ≠ 0)
    (hg : x.face p = some g) (hn : g.node = .internode y₀) (hroom : y₀.nkeys < width) :
    machine.Tracks sceneView (insertChild r p (y₀.upper r.xikey)) x fun _ y =>
      ∃ G' M', Hoisted x G r p none y G' M' := by
  obtain ⟨fc, hfc, -⟩ := hp.right
  obtain ⟨Q, y₀', hQ, hy₀, hheight, -⟩ := h.beside hp hf hfp hp0
  obtain rfl := hy₀.unique ⟨g, hg, hn⟩
  obtain ⟨hpn, hpc⟩ := hp.ne_parent hy₀ hheight
  have hsplit : g.splitting = false := hcalm.internode hpn hQ hg hn
  refine (seen_insertChild hg hn hfc hpc).imp fun _ y hy => ?_
  subst hy
  let y := (x.set r.child { fc with parent := p }).set p
    { g with node := .internode (y₀'.withChild (y₀'.upper r.xikey) r.xikey r.child) }
  have hyp : y.face p = some
      { g with node := .internode (y₀'.withChild (y₀'.upper r.xikey) r.xikey r.child) } :=
    Scene.face_set_self
  have hyc : y.face r.child = some { fc with parent := p } := by
    rw [Scene.face_set_of_ne hpc.symm, Scene.face_set_self]
  have hother (a : Addr) (hap : a ≠ p) (hac : a ≠ r.child) : y.face a = x.face a := by
    rw [Scene.face_set_of_ne hap, Scene.face_set_of_ne hac]
  have hshape := h.inserted (y := y) hp hf hfp hp0 hg hn hroom rfl hyp ⟨fc, hfc, hyc⟩ hother
  have hyn : y.face r.n = some f := (hother r.n hpn.symm hp.ne).trans hf
  refine ⟨G, G, hshape, ?_, Grew.refl, ?_, ?_, ⟨_, hyc, hp0⟩, rfl, fun r' hr' => (by cases hr'),
    fun _ => ⟨rfl, fun _ c hc => ?_⟩⟩
  · have hg' : (x.set r.child { fc with parent := p }).face p = some g := by
      rw [Scene.face_set_of_ne hpc, hg]
    rw [Scene.leaf?_set_eq hg' (by rw [hn]; rfl), 
      Scene.leaf?_set_eq (g := { fc with parent := p }) hfc rfl]
  · refine hcalm.rework fun a P c ha hP hc => Or.inr ⟨fun heq => ha (Or.inl heq), hP, ?_⟩
    by_cases hap : a = p
    · rw [hap, hyp] at hc
      cases hc
      exact ⟨g, hap ▸ hg, rfl, rfl, fun _ _ => ⟨y₀', hn⟩⟩
    · by_cases hac : a = r.child
      · rw [hac, hyc] at hc
        cases hc
        exact ⟨fc, hac ▸ hfc, rfl, rfl, fun y₁ hy₁ => ⟨y₁, hy₁⟩⟩
      · exact ⟨c, (hother a hap hac).symm.trans hc, rfl, rfl, fun y₁ hy₁ => ⟨y₁, hy₁⟩⟩
  · intro f' hf'
    rw [hf] at hf'
    cases hf'
    exact ⟨f, hyn, hfp ▸ hp0, rfl, rfl⟩
  · rw [hyp] at hc
    cases hc
    exact hsplit

end Hoisting

/-! ### The split of the parent -/

section Halving

variable {env : Env} {x y z : Scene} {G G' M M' : Places} {r : SplitRound} {a p q : Addr}
  {kp mid splitType fuel : ℕ} {S T : Set Addr} {f g fc : Face} {P Q : Place} {y₀ r₀ : Internode}

/-- What is seen of a scene in which the parent `p` has been split and the new internode is `q`. -/
structure Halved (x : Scene) (p q : Addr) (g : Face) (yl yr : Internode) (y : Scene) : Prop where
  root : y.root = x.root
  leaves : y.leaf? = x.leaf?
  left : y.face p = some { g with splitting := true, node := .internode yl }
  right : y.face q = some ⟨false, false, 0, .internode yr⟩
  below : ∀ c ∈ yl.children, ∀ fc, x.face c = some fc → y.face c = some { fc with parent := p }
  above : ∀ c ∈ yr.children, ∀ fc, x.face c = some fc → y.face c = some { fc with parent := q }
  other : ∀ a, a ≠ p → a ≠ q → a ∉ yl.children → a ∉ yr.children → y.face a = x.face a

/-- **What the split of the parent comes to.** -/
theorem Halved.hoisted {s : ℕ} (hy : Halved x p q g (y₀.splitLeft mid (y₀.upper r.xikey) r.xikey
      r.child) (y₀.splitRight r₀ mid (y₀.upper r.xikey) r.xikey r.child) y)
    (h : Shape x G M) (hp : Pending x G M r.n r.child r.xikey r.height)
    (hcalm : Calm x G {r.n}) (hf : x.face r.n = some f) (hfp : f.parent = p) (hp0 : p ≠ 0)
    (hg : x.face p = some g) (hn : g.node = .internode y₀) (hq : x.face q = none) (hq0 : q ≠ 0)
    (hhalf : Halving x r p mid (y₀.upper r.xikey) y₀ r₀) (hmid : 0 < mid) (hmidw : mid ≤ width)
    (hr₀ : r₀.height = r.height + 1) (hs : s = y₀.splitIkey mid (y₀.upper r.xikey) r.xikey) :
    ∃ G' M', Hoisted x G r p (some ⟨p, q, s, r.height + 1⟩) y G' M' := by
  obtain ⟨Q, y₀', hQ, hy₀, hheight, -⟩ := h.beside hp hf hfp hp0
  obtain rfl := hy₀.unique ⟨g, hg, hn⟩
  obtain ⟨hpn, hpc⟩ := hp.ne_parent hy₀ hheight
  have hpq : p ≠ q := by
    rintro rfl
    rw [hg] at hq
    cases hq
  have hne {c : Addr} (hc : ∃ fc, x.face c = some fc) : c ≠ q := by
    rintro rfl
    obtain ⟨fc, hfc⟩ := hc
    rw [hq] at hfc
    cases hfc
  subst hs
  obtain ⟨hshape, hpending⟩ := h.halved hp hf hfp hp0 hQ hg hn hq hq0 hy.root hhalf.keys
    hhalf.children height_splitLeft (height_splitRight.trans (hr₀.trans hheight.symm))
    (by rw [Internode.nkeys_splitLeft hmid]; exact hmidw)
    (by rw [Internode.nkeys_splitRight]; omega) ⟨_, hy.left, rfl, rfl, rfl⟩ ⟨_, hy.right, rfl⟩
    hy.below hy.above hy.other
  have hG {a : Addr} (hap : a ≠ p) (haq : a ≠ q) : (G.halve p q Q
      (y₀'.splitIkey mid (y₀'.upper r.xikey) r.xikey)) a = G a := by
    rw [Places.halve, Function.update_of_ne hap, Function.update_of_ne haq]
  have hGp : (G.halve p q Q (y₀'.splitIkey mid (y₀'.upper r.xikey) r.xikey)) p =
      some ⟨Q.layer, Q.lo, y₀'.splitIkey mid (y₀'.upper r.xikey) r.xikey⟩ :=
    Function.update_self ..
  have hGq : (G.halve p q Q (y₀'.splitIkey mid (y₀'.upper r.xikey) r.xikey)) q =
      some ⟨Q.layer, y₀'.splitIkey mid (y₀'.upper r.xikey) r.xikey, Q.hi⟩ := by
    rw [Places.halve, Function.update_of_ne hpq.symm, Function.update_self]
  -- of a node that is neither of the halves at most the parent has changed
  have hface {a : Addr} {c : Face} (hap : a ≠ p) (haq : a ≠ q) (hc : y.face a = some c) :
      ∃ d, x.face a = some d ∧ c.node = d.node ∧ c.root = d.root ∧ c.splitting = d.splitting := by
    by_cases hal : a ∈ (y₀'.splitLeft mid (y₀'.upper r.xikey) r.xikey r.child).children
    · obtain ⟨-, d, hd, -⟩ := hhalf.known a (Or.inl hal)
      rw [hy.below a hal d hd] at hc
      cases hc
      exact ⟨d, hd, rfl, rfl, rfl⟩
    · by_cases har : a ∈ (y₀'.splitRight r₀ mid (y₀'.upper r.xikey) r.xikey r.child).children
      · obtain ⟨-, d, hd, -⟩ := hhalf.known a (Or.inr har)
        rw [hy.above a har d hd] at hc
        cases hc
        exact ⟨d, hd, rfl, rfl, rfl⟩
      · exact ⟨c, (hy.other a hap haq hal har).symm.trans hc, rfl, rfl, rfl⟩
  -- a child has one of the halves as its parent
  have hadopted {c : Addr} {d : Face} (hd : x.face c = some d)
      (hc : c ∈ (y₀'.splitLeft mid (y₀'.upper r.xikey) r.xikey r.child).children ∨
        c ∈ (y₀'.splitRight r₀ mid (y₀'.upper r.xikey) r.xikey r.child).children) :
      ∃ b, b ≠ 0 ∧ y.face c = some { d with parent := b } := by
    rcases hc with hc | hc
    · exact ⟨p, hp0, hy.below c hc d hd⟩
    · exact ⟨q, hq0, hy.above c hc d hd⟩
  have hchild : r.child ∈ (y₀'.splitLeft mid (y₀'.upper r.xikey) r.xikey r.child).children ∨
      r.child ∈ (y₀'.splitRight r₀ mid (y₀'.upper r.xikey) r.xikey r.child).children := by
    by_cases hlt : y₀'.upper r.xikey < mid
    · exact Or.inl (hhalf.left hlt)
    · exact Or.inr (hhalf.right hlt)
  obtain ⟨dc, hdc, -⟩ := hp.right
  refine ⟨_, _, hshape, hy.leaves, ⟨?_, ?_, ?_⟩, ?_, ?_, ?_, ?_, ?_, fun hnone => by cases hnone⟩
  · intro a l hl
    refine hG ?_ ?_
    · rintro rfl
      rw [Scene.leaf?_of_face hg, hn] at hl
      cases hl
    · rintro rfl
      rw [Scene.leaf?, hq] at hl
      cases hl
  · intro a layer hi ha
    by_cases hap : a = p
    · subst hap
      rw [hQ] at ha
      cases ha
      exact ⟨_, hGp⟩
    · exact ⟨hi, (hG hap (hne (h.face ha))).trans ha⟩
  · intro a P ha
    by_cases hap : a = p
    · rw [hap, hGp] at ha
      cases ha
      exact ⟨p, Q, hQ, rfl⟩
    · by_cases haq : a = q
      · rw [haq, hGq] at ha
        cases ha
        exact ⟨p, Q, hQ, rfl⟩
      · exact ⟨a, P, (hG hap haq).symm.trans ha, rfl⟩
  · refine hcalm.rework fun a P c ha hP hc => ?_
    have han : a ≠ r.n := fun heq => ha (Or.inl heq)
    have hap : a ≠ p := fun heq => ha (Or.inr ⟨_, rfl, heq⟩)
    by_cases haq : a = q
    · rw [haq, hy.right] at hc
      cases hc
      exact Or.inl ⟨rfl, fun htrue => by cases htrue⟩
    · obtain ⟨d, hd, hnode, hroot, hsplit⟩ := hface hap haq hc
      exact Or.inr ⟨han, (hG hap haq).symm.trans hP, d, hd, hroot.symm, hsplit.symm,
        fun y₁ hy₁ => ⟨y₁, hnode.symm.trans hy₁⟩⟩
  · intro f' hf'
    obtain ⟨b, hb, hyn⟩ := hadopted hf' hhalf.before
    exact ⟨_, hyn, hb, rfl, rfl⟩
  · obtain ⟨b, hb, hyc⟩ := hadopted hdc hchild
    exact ⟨_, hyc, hb⟩
  · exact hG hpc.symm (hne ⟨dc, hdc⟩)
  · intro r' hr'
    cases hr'
    exact ⟨rfl, hpending, _, _, hy.left, rfl, rfl⟩

/-- The child has gone to the right half, if it has gone anywhere. -/
theorem halved_cutParent (hhalf : Halving x r p mid kp y₀ r₀) (hg : x.face p = some g)
    (hn : g.node = .internode y₀) (hq : x.face q = none) (hkp : ¬kp < mid) :
    Halved x p q g (y₀.splitLeft mid kp r.xikey r.child) (y₀.splitRight r₀ mid kp r.xikey r.child)
      (x.cutParent r p q kp mid g y₀ r₀) := by
  have hpq : p ≠ q := by
    rintro rfl
    rw [hg] at hq
    cases hq
  have hne {c : Addr} (hc : c ∈ (y₀.splitLeft mid kp r.xikey r.child).children ∨
      c ∈ (y₀.splitRight r₀ mid kp r.xikey r.child).children) : c ≠ q := by
    rintro rfl
    obtain ⟨-, fc, hfc, -⟩ := hhalf.known _ hc
    rw [hq] at hfc
    cases hfc
  refine ⟨rfl, leaf?_cutParent hq hg hn, ?_, ?_, ?_, ?_, ?_⟩
  · have hleft : y₀.splitLeft mid kp r.xikey r.child = { y₀ with nkeys := mid } := if_neg hkp
    rw [Scene.cutParent, Scene.face_set_self, hleft]
    simp only [if_neg hkp]
  · exact face_cutParent_right hpq.symm rfl fun hmem => hne (Or.inr hmem) rfl
  · intro c hc fc hfc
    obtain ⟨hcp, fc', hfc', hpar⟩ := hhalf.known c (Or.inl hc)
    rw [hfc] at hfc'
    cases hfc'
    have hchild : c ≠ r.child := by
      rintro rfl
      exact hhalf.disjoint _ hc (hhalf.right hkp)
    rw [face_cutParent_other rfl (hhalf.disjoint c hc) hcp (hne (Or.inl hc)), hfc, ← hpar hchild]
  · intro c hc fc hfc
    obtain ⟨hcp, -⟩ := hhalf.known c (Or.inr hc)
    exact face_cutParent_child rfl hc hcp (hne (Or.inr hc)) hfc
  · intro a hap haq _ har
    exact face_cutParent_other rfl har hap haq

/-- The child has gone to the left half. -/
theorem halved_cutParent_insert (hhalf : Halving x r p mid kp y₀ r₀) (hg : x.face p = some g)
    (hn : g.node = .internode y₀) (hq : x.face q = none) (hkp : kp < mid)
    (hc : x.face r.child = some fc) (hy : y = ((x.cutParent r p q kp mid g y₀ r₀).set r.child
      { fc with parent := p }).set p { g with
        splitting := true
        node := .internode (({ y₀ with nkeys := mid - 1 } : Internode).withChild kp r.xikey
          r.child) }) :
    Halved x p q g (y₀.splitLeft mid kp r.xikey r.child) (y₀.splitRight r₀ mid kp r.xikey r.child)
      y := by
  subst hy
  have hpq : p ≠ q := by
    rintro rfl
    rw [hg] at hq
    cases hq
  have hne {c : Addr} (hc : c ∈ (y₀.splitLeft mid kp r.xikey r.child).children ∨
      c ∈ (y₀.splitRight r₀ mid kp r.xikey r.child).children) : c ≠ q := by
    rintro rfl
    obtain ⟨-, fc, hfc, -⟩ := hhalf.known _ hc
    rw [hq] at hfc
    cases hfc
  have hchild := hhalf.left hkp
  have hcp := (hhalf.known _ (Or.inl hchild)).1
  have hcq := hne (Or.inl hchild)
  have hother {a : Addr} (hap : a ≠ p) (hac : a ≠ r.child) :
      (((x.cutParent r p q kp mid g y₀ r₀).set r.child { fc with parent := p }).set p { g with
        splitting := true
        node := .internode (({ y₀ with nkeys := mid - 1 } : Internode).withChild kp r.xikey
          r.child) }).face a = (x.cutParent r p q kp mid g y₀ r₀).face a := by
    rw [Scene.face_set_of_ne hap, Scene.face_set_of_ne hac]
  have hleft : y₀.splitLeft mid kp r.xikey r.child =
      ({ y₀ with nkeys := mid - 1 } : Internode).withChild kp r.xikey r.child := if_pos hkp
  refine ⟨rfl, ?_, ?_, ?_, ?_, ?_, ?_⟩
  · have hcface : (x.cutParent r p q kp mid g y₀ r₀).face r.child = some fc := by
      rw [face_cutParent_other rfl (hhalf.disjoint _ hchild) hcp hcq, hc]
    have hpface : ((x.cutParent r p q kp mid g y₀ r₀).set r.child { fc with parent := p }).face p =
        some { g with
          splitting := true
          node := .internode { y₀ with nkeys := if kp < mid then mid - 1 else mid } } := by
      rw [Scene.face_set_of_ne hcp.symm, Scene.cutParent, Scene.face_set_self]
    refine (Scene.leaf?_set_eq hpface ?_).trans ?_
    · rfl
    rw [Scene.leaf?_set_eq (g := { fc with parent := p }) hcface rfl, leaf?_cutParent hq hg hn]
  · rw [Scene.face_set_self, hleft]
  · rw [hother hpq.symm hcq.symm]
    exact face_cutParent_right hpq.symm rfl fun hmem => hne (Or.inr hmem) rfl
  · intro c hcl d hd
    obtain ⟨hcp', d', hd', hpar⟩ := hhalf.known c (Or.inl hcl)
    rw [hd] at hd'
    cases hd'
    by_cases hcc : c = r.child
    · subst hcc
      rw [hc] at hd
      cases hd
      rw [Scene.face_set_of_ne hcp', Scene.face_set_self]
    · rw [hother hcp' hcc, face_cutParent_other rfl (hhalf.disjoint c hcl) hcp' (hne (Or.inl hcl)),
        hd, ← hpar hcc]
  · intro c hcr d hd
    obtain ⟨hcp', -⟩ := hhalf.known c (Or.inr hcr)
    have hcc : c ≠ r.child := by
      rintro rfl
      exact hhalf.disjoint _ hchild hcr
    rw [hother hcp' hcc]
    exact face_cutParent_child rfl hcr hcp' (hne (Or.inr hcr)) hd
  · intro a hap haq hal har
    have hac : a ≠ r.child := by
      rintro rfl
      exact hal hchild
    rw [hother hap hac]
    exact face_cutParent_other rfl har hap haq

/-- An internode has a parent that is not being split, or none. -/
theorem parent_not_splitting (h : Shape x G M)
    (hp : Pending x G M r.n r.child r.xikey r.height) (hcalm : Calm x G {r.n})
    (hQ : G p = some Q) (hg : x.face p = some g) (hn : g.node = .internode y₀)
    (hheight : y₀.height = r.height + 1) (h0 : g.parent ≠ 0) :
    ∀ c, x.face g.parent = some c → c.splitting = false := by
  intro c hc
  obtain ⟨hpn, hpc⟩ := hp.ne_parent ⟨g, hg, hn⟩ hheight
  have hM : M p = some Q := (hp.other p hpn hpc).trans hQ
  rcases h.parent hM hg with ⟨hzero, -⟩ | ⟨-, Q', y', hQ', -, hy', hmem⟩
  · exact absurd hzero h0
  obtain ⟨d, hd, hdn⟩ := hy'
  rw [hc] at hd
  cases hd
  refine hcalm.internode (fun hgp => ?_) hQ' hc hdn
  -- the parent of `p` is two levels above the node that was split
  obtain ⟨j, hj⟩ := List.mem_iff_getElem?.mp hmem
  obtain ⟨a, b, hab, -⟩ := (h.cover hQ' ⟨c, hc, hdn⟩).2.piece carried_lt hj
  obtain ⟨e, he, -, hlevel⟩ := hab.face
  rw [hg] at he
  cases he
  obtain ⟨fn, hfn, hln⟩ := hp.left
  rw [← Set.mem_singleton_iff.mp hgp, hc] at hfn
  cases hfn
  rw [hn] at hlevel
  rw [hdn] at hln
  change y₀.height + 1 = y'.height at hlevel
  change y'.height = r.height at hln
  omega

/-- **The parent is split, and the halves go where they belong.** -/
theorem hoisted_splitParent {α : Type} {next : Option SplitRound → MtM α} {R : α → Scene → Prop}
    (h : Shape x G M) (hp : Pending x G M r.n r.child r.xikey r.height) (hcalm : Calm x G {r.n})
    (hf : x.face r.n = some f) (hfp : f.parent = p) (hp0 : p ≠ 0) (hg : x.face p = some g)
    (hn : g.node = .internode y₀) (hfull : width ≤ y₀.nkeys)
    (hnext : ∀ res y, (∃ G' M', Hoisted x G r p res y G' M') →
      machine.Tracks sceneView (next res) y R) :
    machine.Tracks sceneView (do
      let (nextChild, kp', xikey') ← splitParent env fuel r p (y₀.upper r.xikey) splitType
      match kp' with
      | some kp' => do
        insertChild r p kp'
        next (some ⟨p, nextChild, xikey', r.height + 1⟩)
      | none => next (some ⟨p, nextChild, xikey', r.height + 1⟩)) x R := by
  obtain ⟨Q, y₀', hQ, hy₀, hheight, -⟩ := h.beside hp hf hfp hp0
  obtain rfl := hy₀.unique ⟨g, hg, hn⟩
  obtain ⟨hpn, hpc⟩ := hp.ne_parent hy₀ hheight
  obtain ⟨mid, hmid⟩ : ∃ mid, mid = if splitType = 2 then width else (width + 1) / 2 := ⟨_, rfl⟩
  have hrange : 0 < mid ∧ mid ≤ width := by
    rw [hmid]
    split
    · decide
    · decide
  have hhalf (r₀ : Internode) : Halving x r p mid (y₀'.upper r.xikey) y₀' r₀ :=
    h.halving hp hf hfp hp0 hg hn hfull hrange.1 hrange.2
  refine (seen_splitParent hg hn (hcalm.internode hpn hQ hg hn)
    (parent_not_splitting h hp hcalm hQ hg hn hheight) hmid
    (fun r₀ hmem => ((hhalf r₀).known p (Or.inr hmem)).1 rfl)
    fun r₀ hlt => (hhalf r₀).right (Nat.lt_asymm hlt)).bind fun res y hy => ?_
  obtain ⟨q, kp', xikey'⟩ := res
  obtain ⟨r₀, hq, hq0, hr₀, hres, rfl⟩ := hy
  obtain ⟨rfl, rfl⟩ := Prod.mk.inj hres
  by_cases hkp : y₀'.upper r.xikey < mid
  · simp only [if_pos hkp]
    obtain ⟨fc, hfc, -⟩ := hp.right
    have hchild := (hhalf r₀).left hkp
    have hcp := ((hhalf r₀).known _ (Or.inl hchild)).1
    have hcq : r.child ≠ q := by
      intro heq
      rw [← heq, hfc] at hq
      cases hq
    have hcface : (x.cutParent r p q (y₀'.upper r.xikey) mid g y₀' r₀).face r.child = some fc := by
      rw [face_cutParent_other rfl ((hhalf r₀).disjoint _ hchild) hcp hcq, hfc]
    have hpface : (x.cutParent r p q (y₀'.upper r.xikey) mid g y₀' r₀).face p = some { g with
        splitting := true
        node := .internode { y₀' with nkeys := mid - 1 } } := by
      rw [Scene.cutParent, Scene.face_set_self]
      simp only [if_pos hkp]
    refine (seen_insertChild hpface rfl hcface hpc).bind fun _ y hy => hnext _ y ?_
    have hhalved := halved_cutParent_insert (hhalf r₀) hg hn hq hkp hfc hy
    exact hhalved.hoisted h hp hcalm hf hfp hp0 hg hn hq hq0 (hhalf r₀) hrange.1 hrange.2 hr₀ rfl
  · simp only [if_neg hkp]
    refine hnext _ _ ?_
    have hhalved := halved_cutParent (q := q) (hhalf r₀) hg hn hq hkp
    exact hhalved.hoisted h hp hcalm hf hfp hp0 hg hn hq hq0 (hhalf r₀) hrange.1 hrange.2 hr₀ rfl

end Halving

end Sidle.Masstree
