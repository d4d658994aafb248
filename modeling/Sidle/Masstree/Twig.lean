import Sidle.Masstree.MakeRoom

/-!
# A twig of new layers

Two keys that agree for several slices are put apart by a chain of leaves, each the only leaf of its
layer, that is hung below the leaf the two met in.

## Main definitions

* `Twig` — a chain of leaves for a key.
* `placesOfTwig`, `hookedPlaces` — where they stand.
* `Hooked` — a twig has been hung below a leaf.

## Main results

* `Hooked.standing` — **the tree with the twig stands.**
* `Hooked.stored_iff` — **it holds what it held.**
-/

namespace Sidle.Masstree

open Art (Build Fault)
open Forest Prog Machine

/-! ### New layers -/

/-- The leaves `bs` hang below each other, one for each slice of `u`; the last of them holds what is
left of it, with the value `w`. -/
structure Twig (y : Scene) (bs : List Addr) (u : Str) (w : ℕ) : Prop where
  nodup : bs.Nodup
  long : ikeySize * (bs.length - 1) < u.length
  face : ∀ i b, bs[i]? = some b → ∃ l, y.face b = some ⟨true, false, 0, .leaf l⟩ ∧
    l.permutation.Full ∧ (∀ d, bs[i + 1]? = some d →
      l.page = [.layer (makeComparable (u.drop (ikeySize * i))) d]) ∧
      (i + 1 = bs.length → l.page = [.ofStr (u.drop (ikeySize * i)) w])

/-- Where the leaves of a twig stand. -/
def placesOfTwig (G : Places) (bs : List Addr) (base u : Str) : Places := fun a =>
  if a ∈ bs then some ⟨base ++ u.take (ikeySize * bs.idxOf a), 0, 2 ^ 64⟩ else G a

section Twigs

variable {x y : Scene} {G : Places} {bs : List Addr} {base u t key : Str} {w v i k : ℕ}
  {n a b : Addr} {f : Face} {l l' : Leaf} {P Q : Place} {e : Entry}

theorem placesOfTwig_of_mem (h : bs.Nodup) (hb : bs[i]? = some b) :
    placesOfTwig G bs base u b = some ⟨base ++ u.take (ikeySize * i), 0, 2 ^ 64⟩ := by
  obtain ⟨hi, rfl⟩ := List.getElem?_eq_some_iff.mp hb
  rw [placesOfTwig, if_pos (List.getElem_mem hi), h.idxOf_getElem i hi]

/-- There is no layer yet below a slice that a key goes beyond. -/
theorem Standing.not_prefix (h : Standing x G) (hP : G n = some P) (hl : x.leaf? n = some l)
    (ht : .ofStr t w ∈ l.page) (hlong : ikeySize < t.length) (hQ : G a = some Q) :
    ¬(P.layer ++ slice (makeComparable t)) <+: Q.layer := by
  intro hpre
  have hxpage : x.page n = some l.page := by
    rw [Scene.page, hl]
    rfl
  have hok := h.leaves.ok hP hxpage
  induction hsize : Q.layer.length using Nat.strong_induction_on generalizing a Q with
  | _ size ih =>
    have hne : Q.layer ≠ [] := by
      intro hnil
      rw [hnil, List.prefix_nil, List.append_eq_nil_iff] at hpre
      have hslice := length_slice (makeComparable t)
      rw [hpre.2] at hslice
      cases hslice
    obtain ⟨b, R, es, ikey, c, hR, hes, hmem, hlayer⟩ := h.leaves.linked hQ hne
    have hlen := length_slice ikey
    have hlen' := length_slice (makeComparable t)
    have hRlen : R.layer.length < size := by
      rw [← hsize, hlayer, List.length_append, hlen]
      simp [ikeySize]
    obtain ⟨m, hm⟩ := h.shape.layer hR
    obtain ⟨m', hm'⟩ := h.shape.layer hP
    have hle := hpre.length_le
    rw [hlayer, List.length_append, List.length_append, hlen, hlen'] at hle
    by_cases heq : R.layer.length = P.layer.length
    · have hboth : P.layer ++ slice (makeComparable t) = R.layer ++ slice ikey := by
        rw [hlayer] at hpre
        refine hpre.eq_of_length ?_
        rw [List.length_append, List.length_append, hlen, hlen', heq]
      obtain ⟨hsame, hslice⟩ := List.append_inj hboth heq.symm
      have hokR := h.leaves.ok hR hes
      have hikey : ikey = makeComparable t := by
        have hlt : ikey < 2 ^ 64 := (hokR.range _ hmem).2.trans_le (h.shape.range hR).2
        rw [← makeComparable_slice hlt [], ← hslice, makeComparable_slice (makeComparable_lt t)]
      obtain ⟨hlo, hhi⟩ := hok.range _ ht
      obtain ⟨hlo', hhi'⟩ := hokR.range _ hmem
      have hik : (Entry.ofStr t w).ikey = ikey := hikey.symm
      have hikR : (Entry.layer ikey c).ikey = ikey := rfl
      rw [hik] at hlo hhi
      rw [hikR] at hlo' hhi'
      have hbn : b = n := h.leaves.disjoint hR hP hes hxpage hsame.symm (by omega) (by omega)
      subst hbn
      rw [hxpage] at hes
      cases hes
      rw [hikey] at hmem
      exact hok.sorted.layer_notMem ht hlong hmem
    · have hlonger : (P.layer ++ slice (makeComparable t)).length ≤ R.layer.length := by
        rw [List.length_append, hlen', hm, hm']
        rw [hm, hm'] at hle heq
        simp only [ikeySize] at *
        omega
      refine ih R.layer.length hRlen hR ?_ rfl
      rw [hlayer] at hpre
      exact List.prefix_of_prefix_length_le hpre (List.prefix_append ..) hlonger

end Twigs

/-- The twig `bs` has been hung below the leaf `n`, in place of the entry for `t` at `k`. -/
structure Hooked (x : Scene) (G : Places) (n : Addr) (P : Place) (f : Face) (l : Leaf) (k : ℕ)
    (t : Str) (w : ℕ) (bs : List Addr) (y : Scene) (l' : Leaf) : Prop where
  place : G n = some P
  face : x.face n = some f
  leaf : f.node = .leaf l
  entry : l.page[k]? = some (.ofStr t w)
  long : ikeySize < t.length
  twig : Twig y bs (t.drop ikeySize) w
  fresh : ∀ b ∈ bs, x.face b = none ∧ b ≠ 0
  root : y.root = x.root
  other : ∀ a, a ∉ bs → a ≠ n → y.face a = x.face a
  self : y.face n = some { f with node := .leaf l' }
  full : l'.permutation.Full
  page : ∃ head, bs[0]? = some head ∧ l'.page = l.page.set k (.layer (makeComparable t) head)

section Hooking

variable {x y : Scene} {G : Places} {bs : List Addr} {t key : Str} {w v i j k : ℕ}
  {n a b : Addr} {f : Face} {l l' : Leaf} {P Q : Place} {e : Entry} {es : Page}

/-- Where the nodes stand with the twig. -/
def hookedPlaces (G : Places) (P : Place) (t : Str) (bs : List Addr) : Places :=
  placesOfTwig G bs (P.layer ++ slice (makeComparable t)) (t.drop ikeySize)

theorem Hooked.unplaced (h : Hooked x G n P f l k t w bs y l') (hx : Standing x G) (hb : b ∈ bs) :
    G b = none := hx.shape.place_eq_none (h.fresh b hb).1

theorem Hooked.notMem (h : Hooked x G n P f l k t w bs y l') (hx : Standing x G)
    (ha : G a = some Q) : a ∉ bs := by
  intro hb
  rw [h.unplaced hx hb] at ha
  cases ha

theorem Hooked.place_of_getElem? (h : Hooked x G n P f l k t w bs y l') (hb : bs[i]? = some b) :
    hookedPlaces G P t bs b = some
      ⟨P.layer ++ slice (makeComparable t) ++ (t.drop ikeySize).take (ikeySize * i), 0, 2 ^ 64⟩ :=
  placesOfTwig_of_mem h.twig.nodup hb

theorem hookedPlaces_of_notMem (ha : a ∉ bs) : hookedPlaces G P t bs a = G a := if_neg ha

/-- A place with the twig is one of before, or one of the twig. -/
theorem Hooked.place_cases (h : Hooked x G n P f l k t w bs y l')
    (ha : hookedPlaces G P t bs a = some Q) : (a ∉ bs ∧ G a = some Q) ∨ ∃ i, bs[i]? = some a ∧
      Q = ⟨P.layer ++ slice (makeComparable t) ++ (t.drop ikeySize).take (ikeySize * i), 0,
        2 ^ 64⟩ := by
  by_cases hm : a ∈ bs
  · obtain ⟨i, hi⟩ := List.mem_iff_getElem?.mp hm
    rw [h.place_of_getElem? hi] at ha
    exact Or.inr ⟨i, hi, (Option.some.inj ha).symm⟩
  · exact Or.inl ⟨hm, (hookedPlaces_of_notMem hm).symm.trans ha⟩

theorem Hooked.lt_length (h : Hooked x G n P f l k t w bs y l') (hi : i < bs.length) :
    ikeySize * i < (t.drop ikeySize).length := by
  refine Nat.lt_of_le_of_lt (Nat.mul_le_mul_left ikeySize ?_) h.twig.long
  omega

theorem Hooked.length_take (h : Hooked x G n P f l k t w bs y l') (hi : i < bs.length) :
    ((t.drop ikeySize).take (ikeySize * i)).length = ikeySize * i := by
  rw [List.length_take]
  exact Nat.min_eq_left (h.lt_length hi).le

theorem Hooked.shape_calm (h : Hooked x G n P f l k t w bs y l') (hx : Standing x G) :
    Shape y (hookedPlaces G P t bs) (hookedPlaces G P t bs) ∧ Calm y (hookedPlaces G P t bs) ∅ := by
  let x' := x.set n { f with node := .leaf l' }
  have hshape : Shape x' G G := hx.shape.set h.face (alike_leaf h.leaf)
  have hcalm : Calm x' G ∅ := by
    refine (hx.calm.mono (Set.empty_subset _)).set (fun y hy => ?_) fun Q hQ hr hs hlo => ?_
    · cases hy
    · exact hx.calm.root (Set.notMem_empty n) hQ h.face hr hs hlo
  have hsame {a : Addr} (ha : a ∉ bs) : y.face a = x'.face a := by
    by_cases han : a = n
    · rw [han, h.self, Scene.face_set_self]
    · rw [h.other a ha han, Scene.face_set_of_ne han]
  have htwig {a : Addr} (ha : a ∈ bs) : ∃ k, y.face a = some ⟨true, false, 0, .leaf k⟩ := by
    obtain ⟨i, hi⟩ := List.mem_iff_getElem?.mp ha
    obtain ⟨k, hk, -⟩ := h.twig.face i a hi
    exact ⟨k, hk⟩
  constructor
  · refine hshape.rework (R := fun a => a ∈ bs) h.root ?_ ?_ ?_ ?_ ?_ ?_ ?_ ?_ ?_
    · intro a ha
      exact hookedPlaces_of_notMem ha
    · intro a c ha hc
      exact ⟨c, (hsame ha).trans hc, rfl⟩
    · intro a c ha hc
      exact ⟨c, (hsame ha).symm.trans hc, rfl⟩
    · intro a Q ha hQ
      obtain ⟨i, hi⟩ := List.mem_iff_getElem?.mp ha
      obtain ⟨hlt, -⟩ := List.getElem?_eq_some_iff.mp hi
      rw [h.place_of_getElem? hi] at hQ
      cases hQ
      obtain ⟨k, hk⟩ := htwig ha
      refine ⟨⟨_, hk⟩, Nat.two_pow_pos 64, le_rfl, ?_⟩
      rw [List.length_append, List.length_append, length_slice, h.length_take hlt]
      exact dvd_add (dvd_add (hx.shape.layer h.place) (dvd_refl _)) (dvd_mul_right ..)
    · intro a Q layer m c lo hi _ _ hc
      have hcb := h.notMem hx hc.place
      obtain ⟨d, hd, hrest⟩ := hc.face
      exact ⟨hc.lt, (hookedPlaces_of_notMem hcb).trans hc.place, d, (hsame hcb).trans hd, hrest⟩
    · rintro a Q y₁ ha - ⟨d, hd, hy⟩
      obtain ⟨k, hk⟩ := htwig ha
      rw [hk] at hd
      cases hd
      cases hy
    · intro a Q d hQ hd
      rcases h.place_cases hQ with ⟨ha, hG⟩ | ⟨i, hi, rfl⟩
      · rw [hsame ha] at hd
        refine (hshape.parent hG hd).imp_right fun hup => ?_
        obtain ⟨h0, R, y₁, hR, hlayer, ⟨c, hc, hn⟩, hmem⟩ := hup
        have hpb := h.notMem hx hR
        exact ⟨h0, R, y₁, (hookedPlaces_of_notMem hpb).trans hR, hlayer,
          ⟨c, (hsame hpb).trans hc, hn⟩, hmem⟩
      · obtain ⟨k, hk⟩ := htwig (List.mem_of_getElem? hi)
        rw [hk] at hd
        cases hd
        exact Or.inl ⟨rfl, rfl, rfl, rfl⟩
    · intro h0
      exact (h.fresh 0 h0).2 rfl
    · obtain ⟨hi, hroot⟩ := hx.shape.root
      exact ⟨hi, (hookedPlaces_of_notMem (h.notMem hx hroot)).trans hroot⟩
  · constructor
    · intro a Q c y₁ _ hQ hc hn
      rcases h.place_cases hQ with ⟨ha, hG⟩ | ⟨i, hi, -⟩
      · rw [hsame ha] at hc
        exact hcalm.internode (Set.notMem_empty a) hG hc hn
      · obtain ⟨k, hk⟩ := htwig (List.mem_of_getElem? hi)
        rw [hk] at hc
        cases hc
        rfl
    · intro a Q c _ hQ hc hr hs hlo
      rcases h.place_cases hQ with ⟨ha, hG⟩ | ⟨i, hi, rfl⟩
      · rw [hsame ha] at hc
        exact hcalm.root (Set.notMem_empty a) hG hc hr hs hlo
      · rfl

/-- The pages with the twig. -/
theorem Hooked.page_cases (h : Hooked x G n P f l k t w bs y l')
    (ha : hookedPlaces G P t bs a = some Q) (hes : y.page a = some es) :
    (a ∉ bs ∧ a ≠ n ∧ G a = some Q ∧ x.page a = some es) ∨
      (a = n ∧ Q = P ∧ es = l'.page) ∨
        ∃ i, bs[i]? = some a ∧
          Q = ⟨P.layer ++ slice (makeComparable t) ++ (t.drop ikeySize).take (ikeySize * i), 0,
            2 ^ 64⟩ ∧
          ((∃ d, bs[i + 1]? = some d ∧
            es = [.layer (makeComparable ((t.drop ikeySize).drop (ikeySize * i))) d]) ∨
            i + 1 = bs.length ∧ es = [.ofStr ((t.drop ikeySize).drop (ikeySize * i)) w]) := by
  rcases h.place_cases ha with ⟨hab, hG⟩ | ⟨i, hi, rfl⟩
  · by_cases han : a = n
    · subst han
      rw [h.place] at hG
      cases hG
      obtain ⟨m, ⟨d, hd, hm⟩, rfl⟩ := Scene.page_eq_some.mp hes
      rw [h.self] at hd
      cases hd
      cases hm
      exact Or.inr (Or.inl ⟨rfl, rfl, rfl⟩)
    · refine Or.inl ⟨hab, han, hG, ?_⟩
      rw [← hes, Scene.page, Scene.page, Scene.leaf?, Scene.leaf?, h.other a hab han]
  · obtain ⟨hlt, -⟩ := List.getElem?_eq_some_iff.mp hi
    obtain ⟨m, hm, -, hmore, hlast⟩ := h.twig.face i a hi
    obtain ⟨m', ⟨d, hd, hm'⟩, rfl⟩ := Scene.page_eq_some.mp hes
    rw [hm] at hd
    cases hd
    cases hm'
    refine Or.inr (Or.inr ⟨i, hi, rfl, ?_⟩)
    by_cases hend : i + 1 = bs.length
    · exact Or.inr ⟨hend, hlast hend⟩
    · have hnext : i + 1 < bs.length := by omega
      exact Or.inl ⟨bs[i + 1], List.getElem?_eq_getElem hnext,
        hmore _ (List.getElem?_eq_getElem hnext)⟩

end Hooking

section Hooking

variable {x y : Scene} {G : Places} {bs : List Addr} {t key : Str} {w v i j k : ℕ}
  {n a b : Addr} {f : Face} {l l' : Leaf} {P Q : Place} {e : Entry} {es : Page}

theorem Hooked.ok_old (h : Hooked x G n P f l k t w bs y l') (hx : Standing x G) :
    x.leaf? n = some l ∧ x.page n = some l.page ∧ PageOk G P l.page ∧
      .ofStr t w ∈ l.page := by
  have hleaf : x.LeafAt n l := ⟨f, h.face, h.leaf⟩
  have hpage : x.page n = some l.page := Scene.page_eq_some.mpr ⟨l, hleaf, rfl⟩
  exact ⟨Scene.leafAt_iff.mp hleaf, hpage, hx.leaves.ok h.place hpage, List.mem_of_getElem? h.entry⟩

/-- What is in the page of the leaf that the twig hangs from. -/
theorem Hooked.mem_page (h : Hooked x G n P f l k t w bs y l') (he : e ∈ l'.page) :
    (e ∈ l.page) ∨ ∃ head, bs[0]? = some head ∧ e = .layer (makeComparable t) head := by
  obtain ⟨head, hhead, hpage⟩ := h.page
  rw [hpage] at he
  rcases List.mem_or_eq_of_mem_set he with he | rfl
  · exact Or.inl he
  · exact Or.inr ⟨head, hhead, rfl⟩

/-- What was in it is there still, but for the entry that has made way. -/
theorem Hooked.mem_page_of_mem (h : Hooked x G n P f l k t w bs y l') (he : e ∈ l.page)
    (hne : e ≠ .ofStr t w) : e ∈ l'.page := by
  obtain ⟨head, -, hpage⟩ := h.page
  obtain ⟨i, hi⟩ := List.mem_iff_getElem?.mp he
  have hik : k ≠ i := by
    rintro rfl
    rw [h.entry] at hi
    exact hne (Option.some.inj hi).symm
  rw [hpage]
  refine List.mem_of_getElem? (i := i) ?_
  rw [List.getElem?_set_ne hik, hi]

theorem Hooked.layer_mem_page (h : Hooked x G n P f l k t w bs y l') :
    ∃ head, bs[0]? = some head ∧ .layer (makeComparable t) head ∈ l'.page := by
  obtain ⟨head, hhead, hpage⟩ := h.page
  obtain ⟨hk, -⟩ := List.getElem?_eq_some_iff.mp h.entry
  refine ⟨head, hhead, ?_⟩
  rw [hpage]
  exact List.mem_of_getElem? (i := k) (by rw [List.getElem?_set_self hk])

/-- A page of before is a page still, but for the entry that has made way. -/
theorem Hooked.exists_page (h : Hooked x G n P f l k t w bs y l') (hx : Standing x G)
    (ha : G a = some Q) (hes : x.page a = some es) (he : e ∈ es)
    (hne : a = n → e ≠ .ofStr t w) : ∃ es', hookedPlaces G P t bs a = some Q ∧
      y.page a = some es' ∧ e ∈ es' := by
  have hab := h.notMem hx ha
  have hplace : hookedPlaces G P t bs a = some Q := (hookedPlaces_of_notMem hab).trans ha
  by_cases han : a = n
  · subst han
    obtain ⟨-, hpage, -⟩ := h.ok_old hx
    rw [hpage] at hes
    cases hes
    exact ⟨l'.page, hplace, Scene.page_eq_some.mpr ⟨l', ⟨_, h.self, rfl⟩, rfl⟩,
      h.mem_page_of_mem he (hne rfl)⟩
  · refine ⟨es, hplace, ?_, he⟩
    rw [← hes, Scene.page, Scene.page, Scene.leaf?, Scene.leaf?, h.other a hab han]

/-- The bytes of the slice that leads from one leaf of the twig to the next. -/
theorem Hooked.take_succ (h : Hooked x G n P f l k t w bs y l') (hi : i + 1 < bs.length) :
    (t.drop ikeySize).take (ikeySize * i) ++
        slice (makeComparable ((t.drop ikeySize).drop (ikeySize * i))) =
      (t.drop ikeySize).take (ikeySize * (i + 1)) := by
  have hlt := h.lt_length hi
  have hlong : ikeySize ≤ ((t.drop ikeySize).drop (ikeySize * i)).length := by
    rw [List.length_drop]
    simp only [ikeySize] at *
    omega
  rw [slice_makeComparable_of_le hlong, Nat.mul_succ, List.take_add]
  rfl

theorem Hooked.pageOk (h : Hooked x G n P f l k t w bs y l') (hx : Standing x G)
    (ha : hookedPlaces G P t bs a = some Q) (hes : y.page a = some es) :
    PageOk (hookedPlaces G P t bs) Q es := by
  have hkeep {R : Place} {es : Page} (hok : PageOk G R es) : ∀ e ∈ es,
      (∃ s v, e = .ofStr s v ∧ (R.layer ≠ [] → s ≠ [])) ∨ ∃ ikey a hi, e = .layer ikey a ∧
        hookedPlaces G P t bs a = some ⟨R.layer ++ slice ikey, 0, hi⟩ := by
    intro e he
    refine (hok.entry e he).imp_right fun hlayer => ?_
    obtain ⟨ikey, b, hi, heq, hb⟩ := hlayer
    exact ⟨ikey, b, hi, heq, (hookedPlaces_of_notMem (h.notMem hx hb)).trans hb⟩
  rcases h.page_cases ha hes with ⟨-, -, hG, hpage⟩ | ⟨rfl, rfl, rfl⟩ | ⟨i, hi, rfl, hcase⟩
  · have hok := hx.leaves.ok hG hpage
    exact ⟨hok.sorted, hok.range, hkeep hok⟩
  · obtain ⟨-, -, hok, hmem⟩ := h.ok_old hx
    obtain ⟨head, hhead, hpage⟩ := h.page
    refine ⟨?_, fun e he => ?_, fun e he => ?_⟩
    · rw [hpage]
      refine hok.sorted.set h.entry rfl ?_ (fun hshort => ?_) Entry.known_layer
      · rw [Entry.keylenx_ofStr_of_long h.long]
        exact show ksufKeylenx ≤ layerKeylenx by decide
      · rw [Entry.keylenx_ofStr_of_long h.long] at hshort
        exact absurd hshort (by decide)
    · rcases h.mem_page he with he | ⟨d, -, rfl⟩
      · exact hok.range e he
      · have hrange := hok.range _ hmem
        exact hrange
    · rcases h.mem_page he with he | ⟨d, hd, rfl⟩
      · exact hkeep hok e he
      · refine Or.inr ⟨makeComparable t, d, 2 ^ 64, rfl, ?_⟩
        rw [h.place_of_getElem? hd, Nat.mul_zero, List.take_zero, List.append_nil]
  · obtain ⟨hlt, -⟩ := List.getElem?_eq_some_iff.mp hi
    have hmade (s : Str) : 0 ≤ makeComparable s ∧ makeComparable s < 2 ^ 64 :=
      ⟨Nat.zero_le _, makeComparable_lt s⟩
    rcases hcase with ⟨d, hd, rfl⟩ | ⟨-, rfl⟩
    · obtain ⟨hlt', -⟩ := List.getElem?_eq_some_iff.mp hd
      refine ⟨⟨List.pairwise_singleton .., fun e he => ?_⟩, fun e he => ?_, fun e he => ?_⟩
      · rw [List.mem_singleton.mp he]
        exact Entry.known_layer
      · rw [List.mem_singleton.mp he]
        exact hmade _
      · rw [List.mem_singleton.mp he]
        refine Or.inr ⟨_, d, 2 ^ 64, rfl, ?_⟩
        rw [h.place_of_getElem? hd, ← h.take_succ hlt', List.append_assoc _ _ (slice _)]
    · refine ⟨⟨List.pairwise_singleton .., fun e he => ?_⟩, fun e he => ?_, fun e he => ?_⟩
      · rw [List.mem_singleton.mp he]
        exact Entry.known_ofStr
      · rw [List.mem_singleton.mp he]
        exact hmade _
      · rw [List.mem_singleton.mp he]
        refine Or.inl ⟨_, w, rfl, fun _ hnil => ?_⟩
        have hlen := congrArg List.length hnil
        have hlt' := h.lt_length hlt
        rw [List.length_drop] at hlen
        simp only [List.length_nil] at hlen
        omega

/-- **The leaves with the twig.** -/
theorem Hooked.leaves (h : Hooked x G n P f l k t w bs y l') (hx : Standing x G) :
    Leaves y (hookedPlaces G P t bs) := by
  obtain ⟨hleaf, hxpage, hok, hmem⟩ := h.ok_old hx
  have hnone {a : Addr} {Q : Place} (ha : G a = some Q) (s : Str) :
      Q.layer ≠ P.layer ++ slice (makeComparable t) ++ s := by
    intro heq
    refine hx.not_prefix h.place hleaf hmem h.long ha ?_
    rw [heq]
    exact List.prefix_append ..
  refine ⟨?_, fun a Q es => h.pageOk hx, ?_, ?_⟩
  · rintro a Q m ha ⟨d, hd, hm⟩
    rcases h.place_cases ha with ⟨hab, hG⟩ | ⟨i, hi, -⟩
    · by_cases han : a = n
      · subst han
        rw [h.self] at hd
        cases hd
        cases hm
        exact h.full
      · rw [h.other a hab han] at hd
        exact hx.leaves.full hG ⟨d, hd, hm⟩
    · obtain ⟨m', hm', hfull, -⟩ := h.twig.face i a hi
      rw [hm'] at hd
      cases hd
      cases hm
      exact hfull
  · intro a b Q R es es' ha hb hes hes' hlayer hlt hlt'
    have hold {a : Addr} {Q : Place} {es : Page} (hcase : (a ∉ bs ∧ a ≠ n ∧ G a = some Q ∧
        x.page a = some es) ∨ (a = n ∧ Q = P ∧ es = l'.page)) :
        G a = some Q ∧ ∃ es₀, x.page a = some es₀ := by
      rcases hcase with ⟨-, -, hG, hpage⟩ | ⟨rfl, rfl, -⟩
      · exact ⟨hG, es, hpage⟩
      · exact ⟨h.place, _, hxpage⟩
    rcases or_assoc.mpr (h.page_cases ha hes) with hca | ⟨i, hi, rfl, -⟩
    · obtain ⟨hGa, es₀, hes₀⟩ := hold hca
      rcases or_assoc.mpr (h.page_cases hb hes') with hcb | ⟨j, hj, rfl, -⟩
      · obtain ⟨hGb, es₁, hes₁⟩ := hold hcb
        exact hx.leaves.disjoint hGa hGb hes₀ hes₁ hlayer hlt hlt'
      · exact absurd hlayer (hnone hGa _)
    · rcases or_assoc.mpr (h.page_cases hb hes') with hcb | ⟨j, hj, rfl, -⟩
      · exact absurd hlayer.symm (hnone (hold hcb).1 _)
      · have htake := congrArg List.length (List.append_cancel_left hlayer)
        obtain ⟨hi', rfl⟩ := List.getElem?_eq_some_iff.mp hi
        obtain ⟨hj', rfl⟩ := List.getElem?_eq_some_iff.mp hj
        rw [h.length_take hi', h.length_take hj'] at htake
        have hij : i = j := Nat.eq_of_mul_eq_mul_left (by decide) htake
        subst hij
        rfl
  · intro a Q ha hQ
    rcases h.place_cases ha with ⟨hab, hG⟩ | ⟨i, hi, rfl⟩
    · obtain ⟨b, R, es, ikey, c, hb, hes, hc, hlayer⟩ := hx.leaves.linked hG hQ
      obtain ⟨es', hb', hes', hc'⟩ := h.exists_page hx hb hes hc
        fun _ => Entry.ofStr_ne_layer.symm
      exact ⟨b, R, es', ikey, c, hb', hes', hc', hlayer⟩
    · cases i with
      | zero =>
        obtain ⟨head, -, hhead⟩ := h.layer_mem_page
        refine ⟨n, P, l'.page, makeComparable t, head, ?_, ?_, hhead, ?_⟩
        · exact (hookedPlaces_of_notMem (h.notMem hx h.place)).trans h.place
        · exact Scene.page_eq_some.mpr ⟨l', ⟨_, h.self, rfl⟩, rfl⟩
        · rw [Nat.mul_zero, List.take_zero, List.append_nil]
      | succ i =>
        obtain ⟨hlt, -⟩ := List.getElem?_eq_some_iff.mp hi
        have hi' : i < bs.length := Nat.lt_of_succ_lt hlt
        have hprev : bs[i]? = some bs[i] := List.getElem?_eq_getElem hi'
        obtain ⟨m, hm, -, hmore, -⟩ := h.twig.face i _ hprev
        refine ⟨_, _, m.page, makeComparable ((t.drop ikeySize).drop (ikeySize * i)), a,
          h.place_of_getElem? hprev, Scene.page_eq_some.mpr ⟨m, ⟨_, hm, rfl⟩, rfl⟩, ?_, ?_⟩
        · rw [hmore a hi]
          exact List.mem_singleton_self _
        · rw [← h.take_succ hlt, List.append_assoc _ _ (slice _)]

/-- **The tree stands with the twig, and holds what it held.** -/
theorem Hooked.standing (h : Hooked x G n P f l k t w bs y l') (hx : Standing x G) :
    Standing y (hookedPlaces G P t bs) := by
  obtain ⟨hshape, hcalm⟩ := h.shape_calm hx
  exact ⟨hshape, hcalm, h.leaves hx⟩

theorem Hooked.stored_iff (h : Hooked x G n P f l k t w bs y l') (hx : Standing x G) :
    Stored y (hookedPlaces G P t bs) key v ↔ Stored x G key v := by
  obtain ⟨-, hxpage, -, hmem⟩ := h.ok_old hx
  obtain ⟨head, hhead, -⟩ := h.page
  have hpos : 0 < bs.length := (List.getElem?_eq_some_iff.mp hhead).1
  have hslice : slice (makeComparable t) = t.take ikeySize := slice_makeComparable_of_le h.long.le
  -- what the last leaf of the twig holds is the entry that has made way
  have hwhole (i : ℕ) : P.layer ++ slice (makeComparable t) ++
      (t.drop ikeySize).take (ikeySize * i) ++ (t.drop ikeySize).drop (ikeySize * i) =
        P.layer ++ t := by
    rw [List.append_assoc, List.take_append_drop, hslice, List.append_assoc,
      List.take_append_drop]
  constructor
  · rintro ⟨a, Q, es, s, ha, hes, hs, hkey⟩
    rcases h.page_cases ha hes with ⟨-, -, hG, hpage⟩ | ⟨rfl, rfl, rfl⟩ | ⟨i, hi, rfl, hcase⟩
    · exact ⟨a, Q, es, s, hG, hpage, hs, hkey⟩
    · rcases h.mem_page hs with hs | ⟨d, -, heq⟩
      · exact ⟨a, Q, l.page, s, h.place, hxpage, hs, hkey⟩
      · exact absurd heq Entry.ofStr_ne_layer
    · rcases hcase with ⟨d, -, rfl⟩ | ⟨-, rfl⟩
      · exact absurd (List.mem_singleton.mp hs) Entry.ofStr_ne_layer
      · obtain ⟨rfl, rfl⟩ := Entry.ofStr_inj (List.mem_singleton.mp hs)
        rw [hwhole] at hkey
        exact ⟨n, P, l.page, t, h.place, hxpage, hmem, hkey⟩
  · rintro ⟨a, Q, es, s, ha, hes, hs, hkey⟩
    by_cases hthis : a = n ∧ Entry.ofStr s v = .ofStr t w
    · obtain ⟨rfl, heq⟩ := hthis
      obtain ⟨rfl, rfl⟩ := Entry.ofStr_inj heq
      rw [h.place] at ha
      cases ha
      have hend : bs.length - 1 < bs.length := Nat.sub_lt hpos Nat.one_pos
      have hlast : bs[bs.length - 1]? = some bs[bs.length - 1] := List.getElem?_eq_getElem hend
      obtain ⟨m, hm, -, -, hpage⟩ := h.twig.face _ _ hlast
      refine ⟨_, _, m.page, _, h.place_of_getElem? hlast,
        Scene.page_eq_some.mpr ⟨m, ⟨_, hm, rfl⟩, rfl⟩, ?_, (hwhole (bs.length - 1)).trans hkey⟩
      rw [hpage (Nat.sub_add_cancel hpos)]
      exact List.mem_singleton_self _
    · obtain ⟨es', ha', hes', hs'⟩ := h.exists_page hx ha hes hs fun han heq => hthis ⟨han, heq⟩
      exact ⟨a, Q, es', s, ha', hes', hs', hkey⟩

end Hooking

end Sidle.Masstree
