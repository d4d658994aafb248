import Sidle.Masstree.Contents
import Sidle.Masstree.Find
import Sidle.Masstree.LeafHalves

/-!
# Room for a key

A key that is not in its leaf gets a slot there.  If the leaf is full it is split, and the tree
above it with it; the key then belongs to one of the halves.

## Main definitions

* `Reserved` — the slot for the key is the next one.
* `Roomy` — what the tree is when there is room.

## Main results

* `seen_makeSplit`, `seen_makeRoom` — **the tree stands, and holds what it held.**
* `ensures_insert` — a key is inserted.
-/

namespace Sidle.Masstree

open Art (Build Fault)
open Forest Prog Machine

/-! ### Room for a key -/

/-- The cursor is at the leaf `l`, at the place `P`, where its key belongs, and the slot that is
handed out next says the key. -/
structure Reserved (x : Scene) (G : Places) (c : Tcursor) (P : Place) (l : Leaf) : Prop where
  place : G c.n = some P
  leaf : x.LeafAt c.n l
  gap : l.Gap c.ka c.kx.i
  size : l.size < width
  range : P.lo ≤ c.ka.ikey ∧ c.ka.ikey < P.hi
  slot : c.kx.p = some l.permutation.back
  entry : l.entry l.permutation.back = .ofStr c.ka.rest 0
  own : ∃ f, x.face c.n = some f ∧ (f.parent = 0 → f.splitting = false)

/-- Room has been made for the key of the cursor `c`, which is not there, in the layer `layer`. -/
structure Roomy (x : Scene) (G : Places) (c : Tcursor) (layer : Str) (c' : Tcursor) (y : Scene)
    (G' : Places) : Prop where
  standing : Standing y G'
  ready : ∃ P l, Reserved y G' c' P l ∧ P.layer = layer
  ka : c'.ka = c.ka
  state : c'.state = c.state
  stored : ∀ key v, Stored y G' key v ↔ Stored x G key v

section Room

variable {env : Env} {x y : Scene} {G G' : Places} {c c' : Tcursor} {P : Place} {l l' r : Leaf}
  {f : Face} {fuel mid splitType k : ℕ} {child : Addr}

/-- The slot that is handed out next is filled. -/
theorem roomy_of_filled (h : Standing x G) (hP : G c.n = some P) (hf : x.face c.n = some f)
    (hown : f.parent = 0 → f.splitting = false) (hl : f.node = .leaf l)
    (hgap : l.Gap c.ka c.kx.i) (hka : P.lo ≤ c.ka.ikey ∧ c.ka.ikey < P.hi)
    (hsize : l.size < width) (hfull : l'.permutation.Full) (hpage : l'.page = l.page)
    (hentry : l'.entry l'.permutation.back = .ofStr c.ka.rest 0) :
    Roomy x G c P.layer { c with kx := { c.kx with p := some l'.permutation.back } }
      (x.set c.n { f with node := .leaf l' }) G := by
  have hleaf : x.leaf? c.n = some l := Scene.leafAt_iff.mp ⟨f, hf, hl⟩
  have hxpage : x.page c.n = some l.page := by
    rw [Scene.page, hleaf]
    rfl
  have hok := h.leaves.ok hP hxpage
  have hlsize : l'.size = l.size := by
    rw [← l'.length_page, ← l.length_page, hpage]
  refine ⟨?_, ⟨P, l', ⟨hP, ⟨_, Scene.face_set_self, rfl⟩, ?_, ?_, hka, rfl, hentry,
    ⟨_, Scene.face_set_self, hown⟩⟩, rfl⟩, rfl, rfl, fun key v => ?_⟩
  · exact h.set_leaf hP hf hl hfull (hpage ▸ hok) fun _ d hmem => ⟨d, hpage ▸ hmem⟩
  · exact ⟨hpage ▸ hgap.sorted, hpage ▸ hgap.le, hpage ▸ hgap.gt, hpage ▸ hgap.lt⟩
  · rw [hlsize]
    exact hsize
  · exact stored_set_same hP hleaf Scene.leaf?_set_leaf hpage

end Room

section Room

variable {env : Env} {x y : Scene} {G G' : Places} {c c' : Tcursor} {P : Place} {l r : Leaf}
  {f fc : Face} {fuel mid splitType sep : ℕ} {child : Addr}

/-- **The leaf has been split**, and the halves have been hung up. -/
theorem roomy_of_parted (h : Standing x G) (hP : G c.n = some P) (hf : x.face c.n = some f)
    (hl : f.node = .leaf l) (hgap : l.Gap c.ka c.kx.i) (hka : P.lo ≤ c.ka.ikey ∧ c.ka.ikey < P.hi)
    (hp : l.Parted r c.ka c.kx.i mid) (hnone : x.face child = none) (hc : fc.node = .leaf r)
    (hsep : sep = l.ikeyAfterInsert c.ka c.kx.i mid) (hsplit : splitType = 0 ↔ c.kx.i < mid)
    (hshape : Shape y G' G') (hcalm : Calm y G' ∅)
    (hgrew : Grew (x.set child fc) (halvesAt G c.n child P sep) G')
    (hleaves : LeavesAfter (x.set child fc) c ⟨c.n, child, sep, 0⟩ splitType c' y) :
    Roomy x G c P.layer c' y G' := by
  have hne : c.n ≠ child := by
    intro heq
    rw [← heq, hf] at hnone
    cases hnone
  have hleaf : x.leaf? c.n = some l := Scene.leafAt_iff.mp ⟨f, hf, hl⟩
  have hxpage : x.page c.n = some l.page := by
    rw [Scene.page, hleaf]
    rfl
  have hfull := h.leaves.full hP ⟨f, hf, hl⟩
  have hok := h.leaves.ok hP hxpage
  have hw : l.size ≤ width := hfull.size
  have hleaf? : (x.set child fc).leaf? = Function.update x.leaf? child (some r) := by
    rw [Scene.leaf?_set, hc]
    rfl
  obtain ⟨l₀, r₀, l', hl₀, hr₀, hy, hshrank⟩ := hleaves.2 rfl
  have hl₀' : x.leaf? c.n = some l₀ := by
    rw [hleaf?, Function.update_of_ne hne] at hl₀
    exact hl₀
  rw [hleaf] at hl₀'
  cases hl₀'
  have hr₀' : some r = some r₀ := by
    rw [hleaf?, Function.update_self] at hr₀
    exact hr₀
  cases hr₀'
  obtain ⟨hpage, hfull', hcursor⟩ := hshrank.waiting hp hgap hfull hsplit
  have hyn : y.leaf? c.n = some l' := by
    rw [hy, Function.update_self]
  have hyc : y.leaf? child = some r := by
    rw [hy, Function.update_of_ne hne.symm, hleaf?, Function.update_self]
  have hGn : G' c.n = some ⟨P.layer, P.lo, sep⟩ := (hgrew.leaf hl₀).trans (halvesAt_left hne)
  have hGc : G' child = some ⟨P.layer, sep, P.hi⟩ := (hgrew.leaf hr₀).trans halvesAt_child
  have hrange : P.lo < sep ∧ sep < P.hi := hsep ▸ hp.sep_range hgap hka hok.range
  have hrfull : r.permutation.Full := by
    rw [hp.permutation]
    exact Permuter.full_moved hp.pos hp.le hgap.le_size hw
  have hsevered : Severed x G c.n child P l.page sep (stays c.kx.i mid) y G' := by
    refine ⟨hP, hxpage, h.shape.place_eq_none hnone, ⟨hGn, ?_⟩, ⟨hGc, ?_⟩, ?_, ?_, ?_, hrange, ?_,
      ?_, ?_⟩
    · rw [Scene.page, hyn, ← hpage]
      rfl
    · rw [Scene.page, hyc, ← hp.page hgap.le_size hw]
      rfl
    · intro a han hac
      have hsame : (x.set child fc).leaf? a = x.leaf? a := by
        rw [hleaf?, Function.update_of_ne hac]
      refine ⟨?_, fun k hk => ?_⟩
      · rw [hy, Function.update_of_ne han, hsame]
      · rw [hgrew.leaf (hsame.trans hk), halvesAt_of_ne han hac]
    · intro a layer hi ha
      by_cases han : a = c.n
      · subst han
        rw [hP] at ha
        cases ha
        exact ⟨sep, hGn⟩
      · have hac : a ≠ child := by
          rintro rfl
          rw [h.shape.place_eq_none hnone] at ha
          cases ha
        exact hgrew.edge ((halvesAt_of_ne han hac).trans ha)
    · intro a P' ha
      obtain ⟨b, Q, hb, hQ⟩ := hgrew.layer ha
      by_cases hbc : b = child
      · rw [hbc, halvesAt_child] at hb
        cases hb
        exact ⟨c.n, P, hP, hQ⟩
      · by_cases hbn : b = c.n
        · rw [hbn, halvesAt_left hne] at hb
          cases hb
          exact ⟨c.n, P, hP, hQ⟩
        · rw [halvesAt_of_ne hbn hbc] at hb
          exact ⟨b, Q, hb, hQ⟩
    · intro e he
      rw [hsep]
      exact hp.ikey_lt hgap he
    · intro e he
      rw [hsep]
      exact hp.le_ikey hgap he
    · rintro a k (rfl | rfl) hk
      · rw [hyn] at hk
        cases hk
        exact hfull'
      · rw [hyc] at hk
        cases hk
        exact hrfull
  have hup {a : Addr} {Q : Place} (ha : G' a = some Q) (hQ : Q.lo ≠ 0 ∨ Q.hi < 2 ^ 64) :
      ∃ d, y.face a = some d ∧ (d.parent = 0 → d.splitting = false) := by
    obtain ⟨d, hd⟩ := hshape.face ha
    refine ⟨d, hd, fun h0 => ?_⟩
    rcases hshape.parent ha hd with ⟨-, -, hlo, hhi⟩ | ⟨hne0, -⟩
    · rcases hQ with hQ | hQ
      · exact absurd hlo hQ
      · exact absurd hhi (Nat.ne_of_lt hQ)
    · exact absurd h0 hne0
  have hready : ∃ P' k, Reserved y G' c' P' k ∧ P'.layer = P.layer := by
    rcases hcursor with ⟨hn, hlt, hwait⟩ | ⟨hn, hge, hwait⟩
    · refine ⟨⟨P.layer, P.lo, sep⟩, l', ⟨hn.symm ▸ hGn, ?_, hwait.ka ▸ hwait.gap, hwait.size, ?_,
        hwait.slot, ?_, ?_⟩, rfl⟩
      · rw [hn]
        exact Scene.leafAt_iff.mpr hyn
      · rw [hwait.ka, hsep]
        exact ⟨hka.1, hp.key_lt hgap hlt⟩
      · rw [hwait.ka]
        exact hwait.entry
      · rw [hn]
        exact hup hGn (Or.inr (hrange.2.trans_le (h.shape.range hP).2))
    · refine ⟨⟨P.layer, sep, P.hi⟩, r, ⟨hn.symm ▸ hGc, ?_, hwait.ka ▸ hwait.gap, hwait.size, ?_,
        hwait.slot, ?_, ?_⟩, rfl⟩
      · rw [hn]
        exact Scene.leafAt_iff.mpr hyc
      · rw [hwait.ka, hsep]
        exact ⟨hgap.le_key hge, hka.2⟩
      · rw [hwait.ka]
        exact hwait.entry
      · rw [hn]
        exact hup hGc (Or.inl (Nat.ne_of_gt (Nat.zero_lt_of_lt hrange.1)))
  have hsame : c'.ka = c.ka ∧ c'.state = c.state := by
    rcases hcursor with ⟨-, -, hwait⟩ | ⟨-, -, hwait⟩
    · exact ⟨hwait.ka, hwait.state⟩
    · exact ⟨hwait.ka, hwait.state⟩
  exact ⟨⟨hshape, hcalm, hsevered.leaves h.leaves⟩, hready, hsame.1, hsame.2,
    fun key v => hsevered.stored_iff⟩

end Room

/-! ### `make_split` and the insertion -/

section Making

variable {env : Env} {x y : Scene} {G G' : Places} {c c' : Tcursor} {P : Place} {l r : Leaf}
  {f : Face} {fuel k : ℕ} {a : Addr} {key : Str} {v : ℕ}

/-- The parent of a node that stands is not being split. -/
theorem Standing.parent_not_splitting (h : Standing x G) (hP : G a = some P)
    (hf : x.face a = some f) (h0 : f.parent ≠ 0) : ∀ c, x.face f.parent = some c →
      c.splitting = false := by
  intro c hc
  rcases h.shape.parent hP hf with ⟨hzero, -⟩ | ⟨-, Q, y₁, hQ, -, ⟨d, hd, hy⟩, -⟩
  · exact absurd hzero h0
  · rw [hc] at hd
    cases hd
    exact h.calm.internode (Set.notMem_empty _) hQ hc hy

/-- A slot that is not in use takes the place of the one that is handed out next. -/
theorem Leaf.page_exchange (hfull : l.permutation.Full) (hsize : l.size < width) :
    Leaf.page { l with permutation := l.permutation.exchange l.size (width - 1) } = l.page := by
  refine Leaf.page_congr rfl fun k hk => ?_
  have hslot := Permuter.slot_exchange (k := k) hfull.length hsize (j := width - 1) (by decide)
    (hk.trans hsize)
  refine congrArg l.entry (hslot.trans ?_)
  have hlast : k ≠ width - 1 := by omega
  rw [if_neg hlast, if_neg (Nat.ne_of_lt hk)]

/-- A leaf whose next slot is the first one, even after an exchange, is full but for that slot. -/
theorem Leaf.nearly_full (hfull : l.permutation.Full)
    (hback : l.size = width ∨ l.permutation.back = 0)
    (h : ¬(l.size < width ∧ (l.permutation.exchange l.size (width - 1)).back ≠ 0)) :
    width - 1 ≤ l.size := by
  have hw : l.size ≤ width := hfull.size
  by_cases hlt : l.size < width
  · have hback' : l.permutation.back = 0 := hback.resolve_left (Nat.ne_of_lt hlt)
    have hzero : (l.permutation.exchange l.size (width - 1)).back = 0 := by
      by_contra hne
      exact h ⟨hlt, hne⟩
    have hslot := Permuter.slot_exchange (k := width - 1) hfull.length hlt (j := width - 1)
      (by decide) (by decide)
    have heq : l.permutation.slot l.size = l.permutation.slot (width - 1) := by
      refine Eq.trans ?_ hback'.symm
      rw [Permuter.back, hslot] at hzero
      split at hzero
      · exact hzero
      · exact absurd rfl ‹_›
    exact (hfull.slot_inj hlt (by decide) heq).ge
  · omega

/-- **`make_split` makes room for the key.** -/
theorem seen_makeSplit (h : Standing x G) (hP : G c.n = some P) (hf : x.face c.n = some f)
    (hown : f.parent = 0 → f.splitting = false) (hl : f.node = .leaf l)
    (hgap : l.Gap c.ka c.kx.i) (hka : P.lo ≤ c.ka.ikey ∧ c.ka.ikey < P.hi)
    (hback : l.size = width ∨ l.permutation.back = 0) :
    machine.Tracks sceneView (makeSplit env fuel c) x
      fun c' y => ∃ G', Roomy x G c P.layer c' y G' := by
  have hfull := h.leaves.full hP ⟨f, hf, hl⟩
  refine (seen_readLeaf (Q := fun l₀ y => y = x ∧ l₀.permutation = l.permutation)
    fun f' l₀ external hf' hl₀ _ _ => ?_).bind fun l₀ y hy => ?_
  · rw [hf] at hf'
    cases hf'
    rw [hl] at hl₀
    cases hl₀
    exact ⟨rfl, rfl⟩
  obtain ⟨rfl, hperm⟩ := hy
  have hsize₀ : l₀.size = l.size := congrArg Permuter.size hperm
  simp only [hsize₀, hperm]
  refine tracks_ite (fun hroom => ?_) fun hroom => ?_
  · let l₁ : Leaf := { l with permutation := l.permutation.exchange l.size (width - 1) }
    have hfull₁ : l₁.permutation.Full :=
      hfull.apply (.exchange l.size (width - 1)) ⟨hroom.1, by decide⟩
    refine (seen_writeLeaf (f := fun l => { l with permutation := l₁.permutation })
      (g := fun l => { l with permutation := l₁.permutation })
      (Q := fun _ z => z = y.set c.n { f with node := .leaf l₁ })
      (fun _ => rfl) (fun _ => rfl) (fun _ => rfl) (fun _ => rfl) (fun _ _ => rfl)
      fun d m hd hm => ?_).bind fun _ z hz => ?_
    · rw [hf] at hd
      cases hd
      rw [hl] at hm
      cases hm
      rfl
    subst hz
    refine (seen_assign Scene.face_set_self rfl).bind fun _ z hz => ?_
    obtain ⟨l', rfl, hfilled⟩ := hz
    have hpage : l'.page = l.page := (hfilled.page_of_back hfull₁ hroom.1).trans
      (Leaf.page_exchange hfull hroom.1)
    have hback₁ : l₁.permutation.back = l'.permutation.back := by rw [hfilled.permutation]
    rw [Scene.set_set]
    refine tracks_ret ⟨G, ?_⟩
    change Roomy y G c P.layer
      { c with kx := { c.kx with p := some l₁.permutation.back } } _ G
    rw [hback₁]
    refine roomy_of_filled (f := f) h hP hf hown hl hgap hka hroom.1
      (hfilled.permutation ▸ hfull₁) hpage ?_
    rw [← hback₁]
    exact hfilled.self
  · have hsize := Leaf.nearly_full hfull hback hroom
    refine (seen_splitLeaf hf hl (fun h0 => h.parent_not_splitting hP hf h0) hsize
      hgap.le_size).bind fun q z hz => ?_
    obtain ⟨child, mid, r, h0, hnone, rfl, hp, rfl⟩ := hz
    have hleaf : y.page c.n = some l.page := Scene.page_eq_some.mpr ⟨l, ⟨f, hf, hl⟩, rfl⟩
    obtain ⟨hlo, hhi⟩ := hp.sep_range hgap hka (h.leaves.ok hP hleaf).range
    have hrising := rising_of_parted (c := ⟨f.root, f.splitting, 0, .leaf r⟩) (r := r) h.shape
      h.calm hf hl hP h0 hnone hlo hhi rfl
    refine (rises_splitRounds hrising).imp fun c' w hw => ?_
    obtain ⟨G', hshape, hcalm, hgrew, hleaves⟩ := hw
    refine ⟨G', roomy_of_parted h hP hf hl hgap hka hp hnone rfl rfl ?_ hshape hcalm hgrew hleaves⟩
    split
    · rename_i hlt
      exact iff_of_true rfl hlt
    · rename_i hge
      refine iff_of_false ?_ hge
      split
      · exact two_ne_zero
      · exact one_ne_zero

/-- **`find_insert` makes room for the key.** -/
theorem seen_makeRoom (h : Standing x G) (hP : G c.n = some P) (hf : x.face c.n = some f)
    (hown : f.parent = 0 → f.splitting = false) (hl : f.node = .leaf l)
    (hgap : l.Gap c.ka c.kx.i) (hka : P.lo ≤ c.ka.ikey ∧ c.ka.ikey < P.hi) :
    machine.Tracks sceneView (makeRoom env fuel c) x
      fun c' y => ∃ G', Roomy x G c P.layer c' y G' := by
  have hfull := h.leaves.full hP ⟨f, hf, hl⟩
  refine (seen_readLeaf (Q := fun l₀ y => y = x ∧ l₀.permutation = l.permutation)
    fun f' l₀ external hf' hl₀ _ _ => ?_).bind fun l₀ y hy => ?_
  · rw [hf] at hf'
    cases hf'
    rw [hl] at hl₀
    cases hl₀
    exact ⟨rfl, rfl⟩
  obtain ⟨rfl, hperm⟩ := hy
  have hsize₀ : l₀.size = l.size := congrArg Permuter.size hperm
  extract_lets p src jp
  have hp : p = l.permutation.back := congrArg Permuter.back hperm
  have hjp (u : PUnit) : machine.Tracks sceneView (jp u) y fun c' z =>
      ∃ G', Roomy y G c P.layer c' z G' := by
    refine tracks_ite (fun hroom => ?_) fun hroom => ?_
    · rw [hsize₀] at hroom
      rw [hp]
      refine (seen_assign hf hl).bind fun _ z hz => tracks_ret ⟨G, ?_⟩
      obtain ⟨l', rfl, hfilled⟩ := hz
      have hback : l.permutation.back = l'.permutation.back := by rw [hfilled.permutation]
      have hpage := hfilled.page_of_back hfull hroom.1
      rw [hback] at hfilled ⊢
      exact roomy_of_filled h hP hf hown hl hgap hka hroom.1 (hfilled.permutation ▸ hfull) hpage
        hfilled.self
    · refine seen_makeSplit h hP hf hown hl hgap hka ?_
      rw [hsize₀, hp] at hroom
      have hw : l.size ≤ width := hfull.size
      by_contra hnot
      exact hroom ⟨by omega, Or.inl fun hb => hnot (Or.inr hb)⟩
  have hmode : machine.Blind sceneView
      (writeLeaf c.n fun l => { l with modstate := .insert }) :=
    unseen_writeLeaf (fun _ => rfl) (fun _ => rfl) (fun _ => rfl) (fun _ => rfl) fun _ _ => rfl
  refine tracks_ite (fun _ => ?_) fun _ => hjp ()
  exact (unseen_assert _ _).then fun _ => unseen_markInsert.then fun _ => hmode.then fun _ => hjp ()

/-- The lock of a leaf that has a parent, or that is not being split, is given back. -/
theorem Standing.unlock_leaf (h : Standing x G) (hP : G a = some P) (hf : x.face a = some f)
    (hl : f.node = .leaf l) (hown : f.parent = 0 → f.splitting = false) :
    Standing (x.set a f.unlock) G ∧
      ∀ key v, Stored (x.set a f.unlock) G key v ↔ Stored x G key v := by
  have hleaf : x.leaf? a = some l := Scene.leafAt_iff.mp ⟨f, hf, hl⟩
  have hpage : x.page a = some l.page := Scene.page_eq_some.mpr ⟨l, ⟨f, hf, hl⟩, rfl⟩
  have hy : (x.set a f.unlock).leaf? = Function.update x.leaf? a (some l) := by
    rw [Scene.leaf?_set]
    change Function.update x.leaf? a f.node.leaf? = _
    rw [hl]
    rfl
  have halike : f.Alike f.unlock := by
    refine ⟨rfl, fun h0 => ?_, rfl, fun _ => Iff.rfl⟩
    have hs : f.splitting = false := hown h0
    change (f.root && !f.splitting) = f.root
    rw [hs, Bool.not_false, Bool.and_true]
  refine ⟨⟨h.shape.set hf halike, ?_, h.leaves.set hP hleaf hy (h.leaves.full hP ⟨f, hf, hl⟩)
    (h.leaves.ok hP hpage) fun _ d hmem => ⟨d, hmem⟩⟩, fun key v => ?_⟩
  · refine (h.calm.mono (Set.empty_subset _)).set (fun y hy => rfl) fun Q hQ hr _ hlo => ?_
    change (f.root && !f.splitting) = true at hr
    rw [Bool.and_eq_true, Bool.not_eq_true'] at hr
    exact h.calm.root (Set.notMem_empty a) hQ hf hr.1 hr.2 hlo
  · exact stored_set_same hP hleaf hy rfl

/-- The value is written, and the entry inserted. -/
theorem seen_finish (h : Standing x G) (hr : Reserved x G c P l) (hstate : c.state = 2)
    (hkey : P.layer ≠ [] → c.ka.rest ≠ []) :
    machine.Tracks sceneView (do
      writeLeaf c.n fun l => { l with lv := Function.update l.lv (c.kx.p.getD 0) k }
      finishPut env c) x fun _ y => Standing y G ∧ ∀ key v, Stored y G key v ↔
        Stored x G key v ∨ key = P.layer ++ c.ka.rest ∧ v = k := by
  obtain ⟨f, hf, hl⟩ := hr.leaf
  obtain ⟨f', hf', hown⟩ := hr.own
  rw [hf] at hf'
  cases hf'
  have hfull := h.leaves.full hr.place hr.leaf
  have hleaf : x.leaf? c.n = some l := Scene.leafAt_iff.mp hr.leaf
  have hpage : x.page c.n = some l.page := Scene.page_eq_some.mpr ⟨l, hr.leaf, rfl⟩
  have hok := h.leaves.ok hr.place hpage
  let l₁ : Leaf := { l with lv := Function.update l.lv l.permutation.back k }
  let l₂ : Leaf := { l₁ with permutation := l₁.permutation.insertFromBack c.kx.i }
  have hentry : l₁.entry l.permutation.back = .ofStr c.ka.rest k := by
    refine Leaf.entry_setValue.trans ?_
    rw [hr.entry]
    rfl
  have hpage₁ : l₁.page = l.page :=
    Leaf.page_setValue_of_notMem hfull (hfull.back_notMem_used hr.size)
  have hi : c.kx.i ≤ l₁.size := hr.gap.le_size
  have hpage₂ : l₂.page = l.page.insertIdx c.kx.i (.ofStr c.ka.rest k) := by
    refine (Leaf.page_insertFromBack (l := l₁) hfull hr.size hi).trans ?_
    rw [hpage₁]
    exact congrArg _ hentry
  have hmem {e : Entry} : e ∈ l₂.page ↔ e ∈ l.page ∨ e = .ofStr c.ka.rest k := by
    rw [hpage₂, List.mem_insertIdx hr.gap.le]
    exact or_comm
  have hfull₂ : l₂.permutation.Full :=
    hfull.apply (.insertFromBack c.kx.i) ⟨Nat.lt_of_le_of_lt hi hr.size, hr.size⟩
  have hok₂ : PageOk G P l₂.page := by
    refine ⟨?_, fun e he => ?_, fun e he => ?_⟩
    · rw [hpage₂]
      exact hr.gap.sorted.insert hr.gap.le hr.gap.gt hr.gap.lt
    · rcases hmem.mp he with he | rfl
      · exact hok.range e he
      · exact hr.range
    · rcases hmem.mp he with he | rfl
      · exact hok.entry e he
      · exact Or.inl ⟨c.ka.rest, k, rfl, hkey⟩
  have hstand := h.set_leaf hr.place hf hl hfull₂ hok₂ fun _ d he => ⟨d, hmem.mpr (Or.inl he)⟩
  refine (seen_writeLeaf (f := fun l => { l with lv := Function.update l.lv (c.kx.p.getD 0) k })
    (g := fun l => { l with lv := Function.update l.lv (c.kx.p.getD 0) k })
    (Q := fun _ z => z = x.set c.n { f with node := .leaf l₁ })
    (fun _ => rfl) (fun _ => rfl) (fun _ => rfl) (fun _ => rfl) (fun _ _ => rfl)
    fun d m hd hm => ?_).bind fun _ z hz => ?_
  · rw [hf] at hd
    cases hd
    rw [hl] at hm
    cases hm
    rw [hr.slot]
    rfl
  subst hz
  have hinsert : machine.Tracks sceneView (finishInsert env c)
      (x.set c.n { f with node := .leaf l₁ })
      fun _ z => z = x.set c.n { f with node := .leaf l₂ } := by
    refine unseen_read.then fun l₀ => (unseen_assert _ _).then fun _ => ?_
    refine seen_writeLeaf
      (f := fun l => { l with permutation := l.permutation.insertFromBack c.kx.i })
      (g := fun l => { l with permutation := l.permutation.insertFromBack c.kx.i })
      (fun _ => rfl) (fun _ => rfl) (fun _ => rfl) (fun _ => rfl) (fun _ _ => rfl)
      fun d m hd hm => ?_
    rw [Scene.face_set_self] at hd
    cases hd
    cases hm
    exact Scene.set_set
  have hdone : machine.Tracks sceneView (do finishInsert env c; unlock env.build c.n)
      (x.set c.n { f with node := .leaf l₁ }) fun _ y => Standing y G ∧ ∀ key v,
        Stored y G key v ↔ Stored x G key v ∨ key = P.layer ++ c.ka.rest ∧ v = k := by
    refine hinsert.bind fun _ z hz => ?_
    subst hz
    refine seen_unlock fun d hd => ?_
    rw [Scene.face_set_self] at hd
    cases hd
    obtain ⟨hunlocked, hstored⟩ := hstand.unlock_leaf hr.place Scene.face_set_self rfl hown
    refine ⟨hunlocked, fun key v => ?_⟩
    rw [hstored, stored_set_iff (N := fun s w => s = c.ka.rest ∧ w = k) hr.place hleaf
      Scene.leaf?_set_leaf fun s w => ?_]
    · refine or_congr_right ⟨?_, ?_⟩
      · rintro ⟨s, ⟨rfl, rfl⟩, rfl⟩
        exact ⟨rfl, rfl⟩
      · rintro ⟨rfl, rfl⟩
        exact ⟨c.ka.rest, ⟨rfl, rfl⟩, rfl⟩
    · rw [hmem]
      refine or_congr_right ⟨fun heq => Entry.ofStr_inj heq, ?_⟩
      rintro ⟨rfl, rfl⟩
      rfl
  unfold finishPut
  rw [if_pos hstate]
  exact hdone

/-- **A key that is not there is inserted**, with its value and nothing else. -/
theorem ensures_insert {mem : Mem} {value : ℕ} (h : Standing mem.scene G) (htidy : mem.Tidy)
    (hP : G c.n = some P) (hf : mem.scene.face c.n = some f)
    (hown : f.parent = 0 → f.splitting = false) (hl : f.node = .leaf l) (hgap : l.Gap c.ka c.kx.i)
    (hka : P.lo ≤ c.ka.ikey ∧ c.ka.ikey < P.hi) (hkey : P.layer ≠ [] → c.ka.rest ≠ [])
    (hstate : c.state = 2) : machine.Ensures (do
        let c ← makeRoom env fuel c
        writeLeaf c.n fun l => { l with lv := Function.update l.lv (c.kx.p.getD 0) value }
        finishPut env c) mem fun _ mem' => mem'.Tidy ∧ ∃ G', Standing mem'.scene G' ∧
      ∀ key v, Stored mem'.scene G' key v ↔
        Stored mem.scene G key v ∨ key = P.layer ++ c.ka.rest ∧ v = value := by
  have hroom : machine.Tracks sceneView (makeRoom env fuel c) mem.scene _ :=
    seen_makeRoom h hP hf hown hl hgap hka
  have hall := hroom.bind (h := fun c => do
      writeLeaf c.n fun l => { l with lv := Function.update l.lv (c.kx.p.getD 0) value }
      finishPut env c) (Q := fun _ y => ∃ G', Standing y G' ∧ ∀ key v, Stored y G' key v ↔
        Stored mem.scene G key v ∨ key = P.layer ++ c.ka.rest ∧ v = value) fun c' y hy => ?_
  · exact hall mem htidy rfl
  · obtain ⟨G', hG'⟩ := hy
    obtain ⟨P', l', hready, hlayer⟩ := hG'.ready
    refine (seen_finish (k := value) hG'.standing hready (hG'.state.trans hstate) ?_).imp
      fun _ z hz => ⟨G', hz.1, fun key v => ?_⟩
    · rw [hlayer, hG'.ka]
      exact hkey
    · rw [hz.2, hG'.stored, hlayer, hG'.ka]

theorem ensures_insert_memOfA : machine.Ensures (do
      let c ← makeRoom ⟨.release, fun _ _ => .normal⟩ 3 ⟨8, Key.ofStr [66], ⟨1, none⟩, 8, 2⟩
      writeLeaf c.n fun l => { l with lv := Function.update l.lv (c.kx.p.getD 0) 5 }
      finishPut ⟨.release, fun _ _ => .normal⟩ c) memOfA fun _ mem' => mem'.Tidy ∧
    ∃ G', Standing mem'.scene G' ∧ ∀ key v, Stored mem'.scene G' key v ↔
      Stored memOfA.scene placesOfA key v ∨ key = [] ++ [66] ∧ v = 5 := by
  have hgap : (leafOfA.bare (memOfA.externalBag leafOfA)).Gap (Key.ofStr [66]) 1 := by
    have hpage : (leafOfA.bare (memOfA.externalBag leafOfA)).page = [.ofStr [65] 7] := rfl
    refine ⟨?_, ?_, ?_, ?_⟩
    · have hmem : memOfA.scene.page 8 = some [.ofStr [65] 7] := rfl
      rw [hpage]
      exact (standing_memOfA.leaves.ok rfl hmem).sorted
    · rw [hpage]
      decide
    · rw [hpage]
      decide
    · rw [hpage]
      decide
  have hplace : placesOfA 8 = some ⟨[], 0, 2 ^ 64⟩ := rfl
  have hface : memOfA.scene.face 8 =
      some ⟨true, false, 0, .leaf (leafOfA.bare (memOfA.externalBag leafOfA))⟩ := rfl
  have hrange : 0 ≤ (Key.ofStr [66]).ikey ∧ (Key.ofStr [66]).ikey < 2 ^ 64 := by decide
  exact ensures_insert (c := ⟨8, Key.ofStr [66], ⟨1, none⟩, 8, 2⟩) standing_memOfA tidy_memOfA
    hplace hface (fun _ => rfl) rfl hgap hrange (fun h => absurd rfl h) rfl

end Making

end Sidle.Masstree
