import Sidle.Masstree.Twig

/-!
# New layers

`make_new_layer` makes a leaf for each slice that the two keys share, and one for both of them where
they part.

## Main definitions

* `Rungs` — the leaves made so far.
* `Forked` — where two keys part.
* `Sprouted` — the leaves for the shared slices.
* `newLayerPermuter` — the order in the last leaf, with the slot for the key waiting.

## Main results

* `seen_makeTwig` — the loop over the shared slices.
* `seen_fillNewLayer` — the leaf where the two keys part.
* `seen_makeNewLayer` — **there is room for the key**, and the tree holds what it held.
-/

namespace Sidle.Masstree

open Art (Build Fault)
open Forest Prog Machine

section Keys

variable {oka ka : Key} {w : ℕ}

/-- Two keys that do not differ in a slice, but differ, go beyond it. -/
theorem Key.long_of_compareKey (h : oka.compareKey ka = .eq) (hne : oka.rest ≠ ka.rest) :
    makeComparable oka.rest = makeComparable ka.rest ∧ ikeySize < oka.rest.length ∧
      ikeySize < ka.rest.length := by
  obtain ⟨hikey, hlong | ⟨hshort, hlen⟩⟩ := Key.compare_eq_eq.mp h
  · exact ⟨hikey, hlong⟩
  · exact absurd (eq_of_makeComparable hikey hlen hshort) hne

/-- What is below the other key is where the other key is above it. -/
theorem Key.compareEntry_of_lt (h : oka.compareKey ka = .lt) :
    ka.compareEntry (.ofStr oka.rest w) = .gt := by
  refine Key.compare_eq_gt.mpr ((Key.compare_eq_lt.mp h).imp_right fun hlen => ?_)
  obtain ⟨hikey, hshort, hlt⟩ := hlen
  have hsame : (Entry.ofStr oka.rest w).keylenx = oka.length := Entry.keylenx_ofStr_of_short hshort
  rw [hsame]
  exact ⟨hikey, by omega⟩

theorem Key.compareEntry_of_gt (h : oka.compareKey ka = .gt) :
    ka.compareEntry (.ofStr oka.rest w) = .lt := by
  refine Key.compare_eq_lt.mpr ((Key.compare_eq_gt.mp h).imp_right fun hlen => ?_)
  obtain ⟨hikey, ⟨holong, hshort⟩ | ⟨hoshort, hlt⟩⟩ := hlen
  · have hsame : (Entry.ofStr oka.rest w).keylenx = ksufKeylenx :=
      Entry.keylenx_ofStr_of_long holong
    rw [hsame]
    simp only [ikeySize, ksufKeylenx] at *
    exact ⟨hikey, hshort, by omega⟩
  · have hsame : (Entry.ofStr oka.rest w).keylenx = oka.length :=
      Entry.keylenx_ofStr_of_short hoshort
    rw [hsame]
    exact ⟨hikey, by omega, hlt⟩

end Keys

section Rungs

variable {env : Env} {x y z : Scene} {u : Str} {as : List Addr} {a n nl : Addr} {last : Option Addr}
  {f : Face} {fuel ksufsize : ℕ} {oka ka : Key}

theorem seen_makeRoot : machine.Tracks sceneView (makeRoot env ksufsize a) x fun b y =>
    b ≠ 0 ∧ x.face b = none ∧ ∃ k, k.permutation = Permuter.makeEmpty ∧
      y = x.set b ⟨true, false, 0, .leaf k⟩ := by
  unfold makeRoot
  extract_lets jp
  have hjp (t : NodeMemType) : machine.Tracks sceneView (jp t) x fun b y =>
      b ≠ 0 ∧ x.face b = none ∧ ∃ k, k.permutation = Permuter.makeEmpty ∧
        y = x.set b ⟨true, false, 0, .leaf k⟩ := by
    refine seen_makeLeaf.bind fun b y hy => ?_
    obtain ⟨h0, hnone, rfl⟩ := hy
    refine (seen_writeLeaf
      (f := fun l => { l with next := 0, prev := 0, ikey0 := Function.update l.ikey0 0 0 })
      (g := fun l => { l with next := 0, prev := 0, ikey0 := Function.update l.ikey0 0 0 })
      (Q := fun _ z => ∃ k, k.permutation = Permuter.makeEmpty ∧
        z = x.set b ⟨false, false, 0, .leaf k⟩)
      (fun _ => rfl) (fun _ => rfl) (fun _ => rfl) (fun _ => rfl) (fun _ _ => rfl)
      fun c l hc hl => ?_).bind fun _ z hz => ?_
    · rw [Scene.face_set_self] at hc
      cases hc
      cases hl
      exact ⟨_, rfl, Scene.set_set⟩
    obtain ⟨k, hk, rfl⟩ := hz
    refine (seen_makeLayerRoot (Q := fun _ z => z = x.set b ⟨true, false, 0, .leaf k⟩)
      fun c hc => ?_).bind fun _ z hz => ?_
    · rw [Scene.face_set_self] at hc
      cases hc
      exact Scene.set_set
    subst hz
    exact tracks_ret ⟨h0, hnone, k, hk, rfl⟩
  refine tracks_ite (fun _ => hjp _) fun _ => unseen_read.then fun l => ?_
  exact tracks_ite (fun _ => unseen_decideNewNodePosition.then fun t => hjp t) fun _ => hjp _

/-- Each of the leaves `as` leads to the next one, and the last of them to `last`. -/
def Rungs (y : Scene) (u : Str) (as : List Addr) (last : Option Addr) : Prop :=
  ∀ i a, as[i]? = some a → ∃ l, y.face a = some ⟨true, false, 0, .leaf l⟩ ∧
    l.permutation = Permuter.makeSorted 1 ∧
      ∃ v, l.entry 0 = .layer (makeComparable (u.drop (ikeySize * i))) v ∧
        ∀ b, (as ++ last.toList)[i + 1]? = some b → v = b

theorem Rungs.congr (h : Rungs y u as last) (hz : ∀ a ∈ as, z.face a = y.face a) :
    Rungs z u as last := by
  intro i a ha
  obtain ⟨l, hl, hrest⟩ := h i a ha
  exact ⟨l, (hz a (List.mem_of_getElem? ha)).trans hl, hrest⟩

/-- The last leaf is made to lead to another one. -/
theorem seen_link (h : Rungs y u as none) (hnodup : as.Nodup) (hne : as ≠ []) (nl : Addr) :
    machine.Tracks sceneView (writeLeaf (as.getLastD n) fun l =>
      { l with lv := Function.update l.lv 0 nl }) y fun _ z => z.root = y.root ∧
        Rungs z u as (some nl) ∧ ∀ a, a ∉ as → z.face a = y.face a := by
  have hpos : 0 < as.length := List.length_pos_iff.mpr hne
  have hend : as.length - 1 < as.length := Nat.sub_lt hpos Nat.one_pos
  have htail : as[as.length - 1]? = some (as.getLastD n) := by
    rw [List.getLastD_eq_getLast?, List.getLast?_eq_getElem?, List.getElem?_eq_getElem hend]
    rfl
  obtain ⟨k, hk, hperm, v, hentry, -⟩ := h _ _ htail
  have hmem := List.mem_of_getElem? htail
  refine seen_writeLeaf (f := fun l => { l with lv := Function.update l.lv 0 nl })
    (g := fun l => { l with lv := Function.update l.lv 0 nl })
    (fun _ => rfl) (fun _ => rfl) (fun _ => rfl) (fun _ => rfl) (fun _ _ => rfl) fun c l hc hl => ?_
  rw [hk] at hc
  cases hc
  cases hl
  refine ⟨rfl, fun i a ha => ?_, fun a ha => ?_⟩
  · obtain ⟨hi, hai⟩ := List.getElem?_eq_some_iff.mp ha
    by_cases hlast : i = as.length - 1
    · subst hlast
      rw [htail] at ha
      cases ha
      refine ⟨_, Scene.face_set_self, hperm, nl, ?_, fun b hb => ?_⟩
      · refine Leaf.entry_setValue.trans ?_
        rw [hentry]
        rfl
      · rw [Nat.sub_add_cancel hpos, List.getElem?_append_right (Nat.le_refl _), Nat.sub_self] at hb
        exact Option.some.inj hb
    · have hat : a ≠ as.getLastD n := by
        intro heq
        have heq' : as[i]? = as[as.length - 1]? := by rw [ha, htail, heq]
        exact hlast ((List.getElem?_inj hi hnodup).mp heq')
      obtain ⟨l', hl', hperm', v', hentry', hnext⟩ := h i a ha
      refine ⟨l', (Scene.face_set_of_ne hat).trans hl', hperm', v', hentry', fun b hb => ?_⟩
      refine hnext b ?_
      have hi1 : i + 1 < as.length := by omega
      rw [List.getElem?_append_left hi1] at hb ⊢
      exact hb
  · refine Scene.face_set_of_ne ?_
    rintro rfl
    exact ha hmem

/-- Two keys that share `m` slices and differ after them. -/
structure Forked (u z : Str) (m : ℕ) (oka ka : Key) : Prop where
  left : oka.rest = u.drop (ikeySize * m)
  right : ka.rest = z.drop (ikeySize * m)
  take : u.take (ikeySize * m) = z.take (ikeySize * m)
  olong : ikeySize * m < u.length
  long : ikeySize * m < z.length

theorem Forked.step {z : Str} {m : ℕ} (h : Forked u z m oka ka) (hne : u ≠ z)
    (heq : oka.compareKey ka = .eq) : Forked u z (m + 1) oka.shift ka.shift ∧
      ikeySize < oka.rest.length := by
  have hrest : oka.rest ≠ ka.rest := by
    rw [h.left, h.right]
    intro hdrop
    refine hne ?_
    rw [← List.take_append_drop (ikeySize * m) u, h.take, hdrop, List.take_append_drop]
  obtain ⟨hikey, holong, hlong⟩ := Key.long_of_compareKey heq hrest
  have htake := take_eq_of_makeComparable hikey holong.le hlong.le
  have holong' := holong
  rw [h.left, h.right] at htake
  rw [h.left, List.length_drop] at holong'
  rw [h.right, List.length_drop] at hlong
  refine ⟨⟨?_, ?_, ?_, ?_, ?_⟩, holong⟩
  · change oka.rest.drop ikeySize = _
    rw [h.left, List.drop_drop, Nat.mul_succ]
  · change ka.rest.drop ikeySize = _
    rw [h.right, List.drop_drop, Nat.mul_succ]
  · rw [Nat.mul_succ, List.take_add, List.take_add, h.take]
    exact congrArg _ htake
  · rw [Nat.mul_succ]
    omega
  · rw [Nat.mul_succ]
    omega

/-- The leaves `as` are new, and nothing else is. -/
structure Sprouted (x : Scene) (u : Str) (as : List Addr) (y : Scene) : Prop where
  nodup : as.Nodup
  fresh : ∀ a ∈ as, x.face a = none ∧ a ≠ 0
  root : y.root = x.root
  other : ∀ a, a ∉ as → y.face a = x.face a
  rungs : Rungs y u as none

/-- **The twig grows** as long as the keys agree. -/
theorem seen_makeTwig {z : Str} (hn : x.face n = some f) (hne : u ≠ z) (h : Sprouted x u as y)
    (hfork : Forked u z as.length oka ka) :
    machine.Tracks sceneView (makeTwig env n fuel (as.headD n) (as.getLastD n) oka ka) y
      fun q w => ∃ bs, Sprouted x u bs w ∧ q.1 = bs.headD n ∧ q.2.1 = bs.getLastD n ∧
        Forked u z bs.length q.2.2.1 q.2.2.2 ∧ q.2.2.1.compareKey q.2.2.2 ≠ .eq := by
  induction fuel generalizing as oka ka y with
  | zero => exact tracks_diverge
  | succ fuel ih =>
    have hnas : n ∉ as := by
      intro hmem
      rw [(h.fresh n hmem).1] at hn
      cases hn
    have hhead : as.headD n ≠ n ↔ as ≠ [] := by
      cases as with
      | nil => exact iff_of_false (fun h => h rfl) fun h => h rfl
      | cons b bs =>
        exact iff_of_true (fun heq => hnas (heq ▸ List.mem_cons_self)) (List.cons_ne_nil _ _)
    refine tracks_ite (fun heq => ?_) fun hdiff => tracks_ret ⟨as, h, rfl, rfl, hfork, hdiff⟩
    obtain ⟨hfork', holong⟩ := hfork.step hne heq
    refine seen_makeRoot.bind fun nl w hw => ?_
    obtain ⟨h0, hnone, k, -, rfl⟩ := hw
    have hnl : nl ∉ as := by
      intro hmem
      obtain ⟨i, hi⟩ := List.mem_iff_getElem?.mp hmem
      obtain ⟨l, hl, -⟩ := h.rungs i nl hi
      rw [hnone] at hl
      cases hl
    have hxnone : x.face nl = none := (h.other nl hnl).symm.trans hnone
    refine (seen_assignInitializeForLayer Scene.face_set_self rfl).bind fun _ w hw => ?_
    subst hw
    rw [Scene.set_set]
    let k₁ : Leaf := k.put 0 (.layer oka.ikey (k.lv 0))
    let k₂ : Leaf := { k₁ with permutation := Permuter.makeSorted 1 }
    have hrungs : Rungs (y.set nl ⟨true, false, 0, .leaf k₁⟩) u as none :=
      h.rungs.congr fun a ha => Scene.face_set_of_ne fun heq => hnl (heq ▸ ha)
    extract_lets jp
    have hjp (r : PUnit) (w : Scene) (hroot : w.root = y.root) (hw : Rungs w u as (some nl))
        (hface : ∀ a, a ∉ as → w.face a = (y.set nl ⟨true, false, 0, .leaf k₁⟩).face a) :
        machine.Tracks sceneView (jp r) w fun q w => ∃ bs, Sprouted x u bs w ∧ q.1 = bs.headD n ∧
          q.2.1 = bs.getLastD n ∧ Forked u z bs.length q.2.2.1 q.2.2.2 ∧
            q.2.2.1.compareKey q.2.2.2 ≠ .eq := by
      have hwnl : w.face nl = some ⟨true, false, 0, .leaf k₁⟩ :=
        (hface nl hnl).trans Scene.face_set_self
      refine (seen_writeLeaf (f := fun l => { l with permutation := Permuter.makeSorted 1 })
        (g := fun l => { l with permutation := Permuter.makeSorted 1 })
        (Q := fun _ v => v = w.set nl ⟨true, false, 0, .leaf k₂⟩)
        (fun _ => rfl) (fun _ => rfl) (fun _ => rfl) (fun _ => rfl) (fun _ _ => rfl)
        fun c l hc hl => ?_).bind fun _ v hv => ?_
      · rw [hwnl] at hc
        cases hc
        cases hl
        rfl
      subst hv
      have hgrown : Sprouted x u (as ++ [nl]) (w.set nl ⟨true, false, 0, .leaf k₂⟩) := by
        refine ⟨?_, fun a ha => ?_, hroot.trans h.root, fun a ha => ?_, fun i a ha => ?_⟩
        · exact List.nodup_append.mpr ⟨h.nodup, List.nodup_singleton nl, fun a ha b hb heq =>
            hnl (List.mem_singleton.mp hb ▸ heq ▸ ha)⟩
        · rcases List.mem_append.mp ha with ha | ha
          · exact h.fresh a ha
          · rw [List.mem_singleton.mp ha]
            exact ⟨hxnone, h0⟩
        · rw [List.mem_append, not_or, List.mem_singleton] at ha
          rw [Scene.face_set_of_ne ha.2, hface a ha.1, Scene.face_set_of_ne ha.2, h.other a ha.1]
        · by_cases hi : i < as.length
          · rw [List.getElem?_append_left hi] at ha
            obtain ⟨l, hl, hperm, v, hentry, hnext⟩ := hw i a ha
            have hane : a ≠ nl := fun heq => hnl (heq ▸ List.mem_of_getElem? ha)
            refine ⟨l, (Scene.face_set_of_ne hane).trans hl, hperm, v, hentry, fun b hb => ?_⟩
            rw [Option.toList_none, List.append_nil] at hb
            exact hnext b hb
          · rw [List.getElem?_append_right (Nat.le_of_not_lt hi)] at ha
            have hi0 : i - as.length = 0 := by
              by_contra hpos
              rw [List.getElem?_eq_none (by simp only [List.length_singleton]; omega)] at ha
              cases ha
            rw [hi0] at ha
            obtain rfl : nl = a := Option.some.inj ha
            have hilen : i = as.length := by omega
            refine ⟨k₂, Scene.face_set_self, rfl, k.lv 0, ?_, fun b hb => ?_⟩
            · have hput : k.Filled 0 (.layer oka.ikey (k.lv 0)) true k₁ :=
                Leaf.filled_put (show layerKeylenx ≠ ksufKeylenx by decide) rfl
              refine hput.self.trans ?_
              rw [hilen, ← hfork.left]
              rfl
            · rw [Option.toList_none, List.append_nil, List.getElem?_eq_none
                (by simp only [List.length_append, List.length_singleton]; omega)] at hb
              cases hb
      have hnext := ih hgrown (by rw [List.length_append]; exact hfork')
      rw [List.getLastD_concat] at hnext
      have hheadD : (as ++ [nl]).headD n = if as.headD n ≠ n then as.headD n else nl := by
        cases as with
        | nil => exact (if_neg fun h => h rfl).symm
        | cons b bs => exact (if_pos (hhead.mpr (List.cons_ne_nil _ _))).symm
      rw [hheadD] at hnext
      exact hnext
    refine tracks_ite (fun hC => ?_) fun hC => hjp () _ rfl ?_ fun _ _ => rfl
    · refine (seen_link (n := n) hrungs h.nodup (hhead.mp hC) nl).bind fun r w hw => ?_
      exact hjp r w hw.1 hw.2.1 hw.2.2
    · have hnil : as = [] := not_not.mp fun hne => hC (hhead.mpr hne)
      subst hnil
      intro i a ha
      cases ha

end Rungs

section NewLayers

variable {env : Env} {x y : Scene} {G : Places} {c : Tcursor} {P : Place} {l l' : Leaf} {f : Face}
  {t u z : Str} {w k fuel : ℕ} {e : Entry} {oka ka : Key}

theorem Leaf.page_set (hfull : l.permutation.Full) (hk : k < l.size)
    (hperm : l'.permutation = l.permutation) (hself : l'.entry (l.permutation.slot k) = e)
    (hother : ∀ q, q ≠ l.permutation.slot k → l'.entry q = l.entry q) :
    l'.page = l.page.set k e := by
  have hsize : l'.size = l.size := congrArg Permuter.size hperm
  have hw : l.size ≤ width := hfull.size
  apply List.ext_getElem?
  intro i
  rw [Leaf.getElem?_page, List.getElem?_set, Leaf.getElem?_page, Leaf.length_page, hsize, hperm]
  by_cases hik : k = i
  · subst hik
    rw [if_pos hk, if_pos rfl, if_pos hk, hself]
  · rw [if_neg hik]
    split
    · rename_i hi
      refine congrArg some (hother _ fun heq => hik ?_)
      exact hfull.slot_inj (hk.trans_le hw) (hi.trans_le hw) heq.symm
    · rfl

/-- The permutation of the last leaf of a twig: one slot is in use, and the other is handed out
next. -/
def newLayerPermuter (kcmp : Ordering) : Permuter :=
  if kcmp = .lt then Permuter.makeSorted 1 else (Permuter.makeSorted 2).removeToBack 0

theorem newLayerPermuter_spec {kcmp : Ordering} (h : kcmp ≠ .eq) :
    (newLayerPermuter kcmp).Full ∧ (newLayerPermuter kcmp).size = 1 ∧
      (newLayerPermuter kcmp).slot 0 = (if kcmp = .gt then 1 else 0) ∧
        (newLayerPermuter kcmp).back = if kcmp = .lt then 1 else 0 := by
  have hfull : (newLayerPermuter kcmp).Full := by
    unfold newLayerPermuter
    split
    · exact Permuter.full_makeSorted (by decide)
    · exact (Permuter.full_makeSorted (by decide)).apply (.removeToBack 0) (by decide)
  cases kcmp with
  | lt => exact ⟨hfull, by decide⟩
  | eq => exact absurd rfl h
  | gt => exact ⟨hfull, by decide⟩

theorem Leaf.page_of_size_one (h : l.size = 1) : l.page = [l.entry (l.permutation.slot 0)] := by
  rw [Leaf.page, h]
  rfl

/-- The last leaf of a twig. -/
theorem seen_fillNewLayer {nl : Addr} {k₀ : Leaf} {g : Face} (hcmp : oka.compareKey ka ≠ .eq)
    (hg : y.face c.n = some g) (hl : g.node = .leaf l) (hne : c.n ≠ nl) {p : ℕ}
    {Q : Tcursor → Scene → Prop} {rest : MtM Tcursor}
    (hrest : ∀ k, k.permutation = newLayerPermuter (oka.compareKey ka) →
      k.entry (if oka.compareKey ka = .gt then 1 else 0) = .ofStr oka.rest (l.lv p) →
        k.entry (if oka.compareKey ka = .lt then 1 else 0) = .ofStr ka.rest 0 →
          machine.Tracks sceneView rest (y.set nl ⟨true, false, 0, .leaf k⟩) Q) :
    machine.Tracks sceneView (do
      assign env.build nl 0 (if oka.compareKey ka = .lt then oka else ka) true
      assign env.build nl 1 (if oka.compareKey ka = .lt then ka else oka) true
      let l ← readLeaf c.n
      writeLeaf nl fun r =>
        { r with lv := Function.update r.lv (if oka.compareKey ka = .gt then 1 else 0) (l.lv p) }
      let _ ← lock env.build fuel nl
      writeLeaf nl fun r =>
        { r with
          permutation :=
            if oka.compareKey ka = .lt then Permuter.makeSorted 1
            else (Permuter.makeSorted 2).removeToBack 0 }
      rest) (y.set nl ⟨true, false, 0, .leaf k₀⟩) Q := by
  refine (seen_assign Scene.face_set_self rfl).bind fun _ w hw => ?_
  obtain ⟨k₁, rfl, h₁⟩ := hw
  rw [Scene.set_set]
  refine (seen_assign Scene.face_set_self rfl).bind fun _ w hw => ?_
  obtain ⟨k₂, rfl, h₂⟩ := hw
  rw [Scene.set_set]
  have hzero : k₂.entry 0 = .ofStr (if oka.compareKey ka = .lt then oka else ka).rest 0 :=
    (h₂.other 0 (by decide) (show 0 < 1 by decide)).trans h₁.self
  have hone := h₂.self
  let i := if oka.compareKey ka = .gt then 1 else 0
  let j := if oka.compareKey ka = .lt then 1 else 0
  have hij : i ≠ j ∧ k₂.entry i = .ofStr oka.rest 0 ∧ k₂.entry j = .ofStr ka.rest 0 := by
    cases hcase : oka.compareKey ka with
    | lt =>
      simp only [i, j, hcase, if_true, reduceCtorEq, if_false] at hzero hone ⊢
      exact ⟨by decide, hzero, hone⟩
    | eq => exact absurd hcase hcmp
    | gt =>
      simp only [i, j, hcase, if_true, reduceCtorEq, if_false] at hzero hone ⊢
      exact ⟨by decide, hone, hzero⟩
  refine (seen_readLeaf (Q := fun l₀ w => w = y.set nl ⟨true, false, 0, .leaf k₂⟩ ∧
    l₀.lv = l.lv) fun d l₀ _ hd hl₀ _ _ => ?_).bind fun l₀ w hw => ?_
  · rw [Scene.face_set_of_ne hne, hg] at hd
    cases hd
    rw [hl] at hl₀
    cases hl₀
    exact ⟨rfl, rfl⟩
  obtain ⟨rfl, hlv⟩ := hw
  rw [hlv]
  let k₃ : Leaf := { k₂ with lv := Function.update k₂.lv i (l.lv p) }
  refine (seen_writeLeaf (f := fun r => { r with lv := Function.update r.lv i (l.lv p) })
    (g := fun r => { r with lv := Function.update r.lv i (l.lv p) })
    (Q := fun _ w => w = y.set nl ⟨true, false, 0, .leaf k₃⟩)
    (fun _ => rfl) (fun _ => rfl) (fun _ => rfl) (fun _ => rfl) (fun _ _ => rfl)
    fun d r hd hr => ?_).bind fun _ w hw => ?_
  · rw [Scene.face_set_self] at hd
    cases hd
    cases hr
    exact Scene.set_set
  subst hw
  refine unseen_lock.then fun _ => ?_
  let k₄ : Leaf := { k₃ with permutation := newLayerPermuter (oka.compareKey ka) }
  refine (seen_writeLeaf
    (f := fun r => { r with permutation := newLayerPermuter (oka.compareKey ka) })
    (g := fun r => { r with permutation := newLayerPermuter (oka.compareKey ka) })
    (Q := fun _ w => w = y.set nl ⟨true, false, 0, .leaf k₄⟩)
    (fun _ => rfl) (fun _ => rfl) (fun _ => rfl) (fun _ => rfl) (fun _ _ => rfl)
    fun d r hd hr => ?_).bind fun _ w hw => ?_
  · rw [Scene.face_set_self] at hd
    cases hd
    cases hr
    exact Scene.set_set
  subst hw
  refine hrest k₄ rfl ?_ ?_
  · have hself : k₃.entry i = { k₂.entry i with lv := l.lv p } := Leaf.entry_setValue
    rw [hij.2.1] at hself
    exact hself
  · have hother : k₃.entry j = k₂.entry j := by
      simp only [k₃, Leaf.entry, Function.update_of_ne hij.1.symm]
    exact hother.trans hij.2.2

end NewLayers

section NewLayers

variable {env : Env} {x y w : Scene} {G : Places} {c c' : Tcursor} {P : Place} {l l' : Leaf}
  {f : Face} {t u z : Str} {v₀ k fuel : ℕ} {e : Entry} {oka ka : Key} {bs : List Addr} {nl : Addr}

/-- The twig is complete with its last leaf. -/
theorem twig_append {k : Leaf} (hnodup : (bs ++ [nl]).Nodup)
    (hlong : ikeySize * bs.length < u.length)
    (hrungs : Rungs y u bs (some nl)) (hnl : y.face nl = some ⟨true, false, 0, .leaf k⟩)
    (hfull : k.permutation.Full)
    (hpage : k.page = [.ofStr (u.drop (ikeySize * bs.length)) v₀]) : Twig y (bs ++ [nl]) u v₀ := by
  have hlen : (bs ++ [nl]).length = bs.length + 1 := List.length_append
  refine ⟨hnodup, by rw [hlen, Nat.add_sub_cancel]; exact hlong, fun i b hb => ?_⟩
  by_cases hi : i < bs.length
  · rw [List.getElem?_append_left hi] at hb
    obtain ⟨m, hm, hperm, v, hentry, hnext⟩ := hrungs i b hb
    have hpage' : m.page = [m.entry 0] := by
      rw [Leaf.page_of_size_one (by rw [Leaf.size, hperm]; rfl), hperm]
      rfl
    refine ⟨m, hm, ?_, fun d hd => ?_, fun hend => ?_⟩
    · rw [hperm]
      exact Permuter.full_makeSorted (by decide)
    · rw [hpage', hentry, hnext d hd]
    · rw [hlen] at hend
      omega
  · rw [List.getElem?_append_right (Nat.le_of_not_lt hi)] at hb
    have hi0 : i - bs.length = 0 := by
      by_contra hpos
      rw [List.getElem?_eq_none (by simp only [List.length_singleton]; omega)] at hb
      cases hb
    rw [hi0] at hb
    obtain rfl : nl = b := Option.some.inj hb
    have hilen : i = bs.length := by omega
    subst hilen
    refine ⟨k, hnl, hfull, fun d hd => ?_, fun _ => hpage⟩
    rw [List.getElem?_eq_none (by rw [hlen])] at hd
    cases hd

/-- The entry makes way for one that leads to `head`. -/
theorem Leaf.page_hook (hfull : l.permutation.Full) (hk : l.page[k]? = some (.ofStr t v₀))
    (head : Addr) (hl' : l' = { l with
      lv := Function.update l.lv (l.permutation.slot k) head
      keylenx := Function.update l.keylenx (l.permutation.slot k) layerKeylenx }) :
    l'.page = l.page.set k (.layer (makeComparable t) head) := by
  obtain ⟨hlt, hentry⟩ := Leaf.getElem?_page_eq_some.mp hk
  subst hl'
  refine Leaf.page_set hfull hlt rfl ?_ fun q hq => ?_
  · have hikey : l.ikey0 (l.permutation.slot k) = makeComparable t := congrArg Entry.ikey hentry
    simp only [Leaf.entry, Function.update_self, hikey]
    rfl
  · simp only [Leaf.entry, Function.update_of_ne hq]

/-- The key goes before or behind the only entry. -/
theorem Leaf.gap_newLayer (hcmp : oka.compareKey ka ≠ .eq) (hsorted : PageSorted l.page)
    (hpage : l.page = [.ofStr oka.rest v₀]) :
    l.Gap ka (if oka.compareKey ka = .lt then 1 else 0) := by
  cases hcase : oka.compareKey ka with
  | lt =>
    refine ⟨hsorted, by rw [hpage]; exact Nat.le_refl 1, fun e he => ?_, fun e he => ?_⟩
    · rw [hpage] at he
      rw [List.mem_singleton.mp he]
      exact Key.compareEntry_of_lt hcase
    · rw [hpage] at he
      cases he
  | eq => exact absurd hcase hcmp
  | gt =>
    refine ⟨hsorted, Nat.zero_le _, fun e he => ?_, fun e he => ?_⟩
    · cases he
    · rw [hpage] at he
      rw [List.mem_singleton.mp he]
      exact Key.compareEntry_of_gt hcase

/-- **A new layer** takes the entry in the way, and has room for the key. -/
theorem seen_makeNewLayer (h : Standing x G) (hP : G c.n = some P) (hf : x.face c.n = some f)
    (hown : f.parent = 0 → f.splitting = false) (hl : f.node = .leaf l)
    (hk : l.page[k]? = some (.ofStr t v₀)) (hp : c.kx.p = some (l.permutation.slot k))
    (htlong : ikeySize < t.length) (hlong : ikeySize < c.ka.rest.length)
    (hikey : makeComparable t = c.ka.ikey) (hne : t ≠ c.ka.rest) :
    machine.Tracks sceneView (makeNewLayer env fuel c) x fun c' y => ∃ G' P' l', Standing y G' ∧
      Reserved y G' c' P' l' ∧ c'.state = c.state ∧
        P'.layer ++ c'.ka.rest = P.layer ++ c.ka.rest ∧ c'.ka.rest ≠ [] ∧
          ∀ key v, Stored y G' key v ↔ Stored x G key v := by
  have hfull := h.leaves.full hP ⟨f, hf, hl⟩
  have htake : t.take ikeySize = c.ka.rest.take ikeySize :=
    take_eq_of_makeComparable hikey htlong.le hlong.le
  have huz : t.drop ikeySize ≠ c.ka.rest.drop ikeySize := by
    intro hdrop
    refine hne ?_
    rw [← List.take_append_drop ikeySize t, htake, hdrop, List.take_append_drop]
  obtain ⟨hlt, hentry⟩ := Leaf.getElem?_page_eq_some.mp hk
  have hfork : Forked (t.drop ikeySize) (c.ka.rest.drop ikeySize) ([] : List Addr).length
      (Key.ofStr (t.drop ikeySize)) c.ka.shift := by
    refine ⟨rfl, rfl, rfl, ?_, ?_⟩
    · rw [List.length_drop]
      exact Nat.sub_pos_of_lt htlong
    · rw [List.length_drop]
      exact Nat.sub_pos_of_lt hlong
  have hgrown : Sprouted x (t.drop ikeySize) [] x :=
    ⟨List.nodup_nil, fun a ha => (List.not_mem_nil ha).elim, rfl, fun _ _ => rfl,
      fun i a ha => by cases ha⟩
  unfold makeNewLayer
  extract_lets p
  have hpk : p = l.permutation.slot k := by
    change c.kx.p.getD 0 = _
    rw [hp]
    rfl
  clear_value p
  subst hpk
  refine seen_readLeafBag fun f' l₀ bag hf' hl₀ => ?_
  rw [hf] at hf'
  cases hf'
  rw [hl] at hl₀
  cases hl₀
  have hksuf : l₀.ksufAt bag ((l₀.bare bag).permutation.slot k) = t.drop ikeySize := by
    have hsuffix := congrArg Entry.suffix hentry
    have hkeylen := congrArg Entry.keylenx hentry
    rw [Entry.keylenx_ofStr_of_long htlong] at hkeylen
    have hif : (l₀.bare bag).keylenx ((l₀.bare bag).permutation.slot k) = ksufKeylenx := hkeylen
    simp only [Leaf.entry, if_pos hif] at hsuffix
    exact hsuffix
  rw [hksuf]
  refine (seen_makeTwig hf huz hgrown hfork).bind fun q y hy => ?_
  obtain ⟨head, tail, oka, ka⟩ := q
  obtain ⟨bs, hgrown, hhead, htail, hfork, hcmp⟩ := hy
  change head = bs.headD c.n at hhead
  change tail = bs.getLastD c.n at htail
  change Forked _ _ bs.length oka ka at hfork
  change oka.compareKey ka ≠ .eq at hcmp
  have hnbs : c.n ∉ bs := by
    intro hmem
    rw [(hgrown.fresh c.n hmem).1] at hf
    cases hf
  have hhead' : head ≠ c.n ↔ bs ≠ [] := by
    rw [hhead]
    cases bs with
    | nil => exact iff_of_false (fun h => h rfl) fun h => h rfl
    | cons b bs =>
      exact iff_of_true (fun heq => hnbs (heq ▸ List.mem_cons_self)) (List.cons_ne_nil _ _)
  have htail' : tail ≠ c.n ↔ bs ≠ [] := by
    rw [htail]
    by_cases hnil : bs = []
    · subst hnil
      exact iff_of_false (fun h => h rfl) fun h => h rfl
    · refine iff_of_true (fun heq => hnbs ?_) hnil
      rw [List.getLastD_eq_getLast?, List.getLast?_eq_some_getLast hnil, Option.getD_some] at heq
      exact heq ▸ List.getLast_mem hnil
  have hyf : y.face c.n = some f := (hgrown.other c.n hnbs).trans hf
  refine seen_makeRoot.bind fun nl w hw => ?_
  obtain ⟨h0, hnone, k₀, -, rfl⟩ := hw
  have hnl : nl ∉ bs := by
    intro hmem
    obtain ⟨i, hi⟩ := List.mem_iff_getElem?.mp hmem
    obtain ⟨m, hm, -⟩ := hgrown.rungs i nl hi
    rw [hnone] at hm
    cases hm
  have hxnone : x.face nl = none := (hgrown.other nl hnl).symm.trans hnone
  have hnnl : c.n ≠ nl := by
    intro heq
    rw [← heq, hf] at hxnone
    cases hxnone
  refine seen_fillNewLayer hcmp hyf hl hnnl fun k₁ hperm ho hn => ?_
  refine unseen_markInsert.then fun _ => ?_
  obtain ⟨hkfull, hksize, hkslot, hkback⟩ := newLayerPermuter_spec hcmp
  rw [← hperm] at hkfull hksize hkslot hkback
  have hvalue : (l₀.bare bag).lv ((l₀.bare bag).permutation.slot k) = v₀ := congrArg Entry.lv hentry
  rw [hvalue] at ho
  have hkpage : k₁.page = [.ofStr oka.rest v₀] := by
    rw [Leaf.page_of_size_one hksize, hkslot, ho]
  extract_lets i jp
  have hjp (r : PUnit) (w : Scene) (hroot : w.root = y.root)
      (hw : Rungs w (t.drop ikeySize) bs (some nl))
      (hface : ∀ a, a ∉ bs → w.face a = (y.set nl ⟨true, false, 0, .leaf k₁⟩).face a) :
      machine.Tracks sceneView (jp r) w fun c' y => ∃ G' P' l', Standing y G' ∧
        Reserved y G' c' P' l' ∧ c'.state = c.state ∧
          P'.layer ++ c'.ka.rest = P.layer ++ c.ka.rest ∧ c'.ka.rest ≠ [] ∧
            ∀ key v, Stored y G' key v ↔ Stored x G key v := by
    have hwn : w.face c.n = some f :=
      (hface c.n hnbs).trans ((Scene.face_set_of_ne hnnl).trans hyf)
    have hwnl : w.face nl = some ⟨true, false, 0, .leaf k₁⟩ :=
      (hface nl hnl).trans Scene.face_set_self
    let top := if head ≠ c.n then head else nl
    let l₁ : Leaf := { l₀.bare bag with
      lv := Function.update (l₀.bare bag).lv ((l₀.bare bag).permutation.slot k) top }
    let l₂ : Leaf := { l₁ with
      keylenx := Function.update l₁.keylenx ((l₀.bare bag).permutation.slot k) layerKeylenx }
    refine (seen_writeLeaf
      (f := fun l => { l with
        lv := Function.update l.lv ((l₀.bare bag).permutation.slot k) top })
      (g := fun l => { l with
        lv := Function.update l.lv ((l₀.bare bag).permutation.slot k) top })
      (Q := fun _ v => v = w.set c.n { f with node := .leaf l₁ })
      (fun _ => rfl) (fun _ => rfl) (fun _ => rfl) (fun _ => rfl) (fun _ _ => rfl)
      fun d m hd hm => ?_).bind fun _ v hv => ?_
    · rw [hwn] at hd
      cases hd
      rw [hl] at hm
      cases hm
      rfl
    subst hv
    refine (seen_writeLeaf
      (f := fun l => { l with
        keylenx := Function.update l.keylenx ((l₀.bare bag).permutation.slot k) layerKeylenx })
      (g := fun l => { l with
        keylenx := Function.update l.keylenx ((l₀.bare bag).permutation.slot k) layerKeylenx })
      (Q := fun _ v => v = w.set c.n { f with node := .leaf l₂ })
      (fun _ => rfl) (fun _ => rfl) (fun _ => rfl) (fun _ => rfl) (fun _ _ => rfl)
      fun d m hd hm => ?_).bind fun _ v hv => ?_
    · rw [Scene.face_set_self] at hd
      cases hd
      cases hm
      exact Scene.set_set
    subst hv
    let y₁ := w.set c.n { f with node := .leaf l₂ }
    have hnodup : (bs ++ [nl]).Nodup :=
      List.nodup_append.mpr ⟨hgrown.nodup, List.nodup_singleton nl, fun a ha b hb heq =>
        hnl (List.mem_singleton.mp hb ▸ heq ▸ ha)⟩
    have hy₁nl : y₁.face nl = some ⟨true, false, 0, .leaf k₁⟩ :=
      (Scene.face_set_of_ne hnnl.symm).trans hwnl
    have hlast : (bs ++ [nl])[bs.length]? = some nl := by
      rw [List.getElem?_append_right (Nat.le_refl _), Nat.sub_self]
      rfl
    have hooked : Hooked x G c.n P f (l₀.bare bag) k t v₀ (bs ++ [nl]) y₁ l₂ := by
      refine ⟨hP, hf, hl, hk, htlong, ?_, fun b hb => ?_, hroot.trans hgrown.root,
        fun a ha han => ?_, Scene.face_set_self, hfull, top, ?_, Leaf.page_hook hfull hk top rfl⟩
      · refine twig_append hnodup hfork.olong
          (hw.congr fun a ha => Scene.face_set_of_ne fun heq => hnbs (heq ▸ ha)) hy₁nl hkfull ?_
        rw [hkpage, hfork.left]
      · rcases List.mem_append.mp hb with hb | hb
        · exact hgrown.fresh b hb
        · rw [List.mem_singleton.mp hb]
          exact ⟨hxnone, h0⟩
      · rw [List.mem_append, not_or, List.mem_singleton] at ha
        rw [Scene.face_set_of_ne han, hface a ha.1, Scene.face_set_of_ne ha.2, hgrown.other a ha.1]
      · simp only [top]
        split
        · rename_i hne
          obtain ⟨b, ds, hbs⟩ := List.exists_cons_of_ne_nil (hhead'.mp hne)
          rw [hhead, hbs]
          rfl
        · rename_i hnot
          have hnil : bs = [] := not_not.mp fun hne => hnot (hhead'.mpr hne)
          rw [hnil]
          rfl
    have hplace := hooked.place_of_getElem? (G := G) hlast
    have hnplace : hookedPlaces G P t (bs ++ [nl]) c.n = some P :=
      (hookedPlaces_of_notMem (hooked.notMem h hP)).trans hP
    have hstand := hooked.standing h
    obtain ⟨hunlocked, hstored⟩ := hstand.unlock_leaf hnplace Scene.face_set_self rfl hown
    refine (seen_unlock (Q := fun _ v => v = y₁.set c.n (Face.unlock { f with node := .leaf l₂ }))
      fun d hd => ?_).bind fun _ v hv => tracks_ret ?_
    · rw [Scene.face_set_self] at hd
      cases hd
      rfl
    subst hv
    have hleaf : (y₁.set c.n (Face.unlock { f with node := .leaf l₂ })).face nl =
        some ⟨true, false, 0, .leaf k₁⟩ := (Scene.face_set_of_ne hnnl.symm).trans hy₁nl
    have hpage : (y₁.set c.n (Face.unlock { f with node := .leaf l₂ })).page nl =
        some k₁.page := Scene.page_eq_some.mpr ⟨k₁, ⟨_, hleaf, rfl⟩, rfl⟩
    have hsorted := (hunlocked.leaves.ok hplace hpage).sorted
    refine ⟨_, _, k₁, hunlocked, ⟨hplace, ⟨_, hleaf, rfl⟩, ?_, ?_, ⟨Nat.zero_le _, ?_⟩, ?_, ?_,
      ⟨_, hleaf, fun _ => rfl⟩⟩, rfl, ?_, ?_, fun key v => ?_⟩
    · exact Leaf.gap_newLayer hcmp hsorted hkpage
    · exact hksize.trans_lt (by decide)
    · exact makeComparable_lt ka.rest
    · exact congrArg some hkback.symm
    · rw [hkback]
      exact hn
    · have hslice : slice (makeComparable t) = c.ka.rest.take ikeySize :=
        (slice_makeComparable_of_le htlong.le).trans htake
      change P.layer ++ slice (makeComparable t) ++ (t.drop ikeySize).take (ikeySize * bs.length) ++
        ka.rest = _
      rw [hfork.right, hfork.take, hslice, List.append_assoc, List.append_assoc,
        List.take_append_drop, List.take_append_drop]
    · rw [hfork.right]
      intro hnil
      exact absurd hfork.long (Nat.not_lt.mpr (List.drop_eq_nil_iff.mp hnil))
    · rw [hstored, hooked.stored_iff h]
  refine tracks_ite (fun hC => ?_) fun hC => hjp () _ rfl ?_ fun _ _ => rfl
  · have hrungs : Rungs (y.set nl ⟨true, false, 0, .leaf k₁⟩) (t.drop ikeySize) bs none :=
      hgrown.rungs.congr fun a ha => Scene.face_set_of_ne fun heq => hnl (heq ▸ ha)
    rw [htail]
    refine (seen_link (n := c.n) hrungs hgrown.nodup (htail'.mp hC) nl).bind fun r w hw => ?_
    exact hjp r w hw.1 hw.2.1 hw.2.2
  · have hnil : bs = [] := not_not.mp fun hne => hC (htail'.mpr hne)
    subst hnil
    intro i a ha
    cases ha

end NewLayers

end Sidle.Masstree
