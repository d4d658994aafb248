import Sidle.Masstree.LeafSplit
import Sidle.Masstree.Rise

/-!
# The halves of a leaf

A leaf that has been split waits to be hung up, its range shared at the separator.  What stays is
below that, what moves is not, and the cursor goes to where its key belongs.

## Main definitions

* `halvesAt` — where the halves stand.
* `Leaf.Gap` — where a key goes that is not there.
* `Waiting` — the slot for the key is the next one.

## Main results

* `rising_of_parted` — a split leaf is one whose right half is to be hung up.
* `Leaf.Parted.ikey_lt`, `Leaf.Parted.le_ikey` — **the separator separates.**
* `Shrank.waiting` — the two pages, and the cursor.
-/

namespace Sidle.Masstree

open Art (Build Fault)
open Forest Prog Machine

/-! ### The two leaves -/

/-- The range of the leaf `n`, which stands at `P`, is shared with the leaf `child` from `sep`
on. -/
def halvesAt (G : Places) (n child : Addr) (P : Place) (sep : ℕ) : Places :=
  Function.update (Function.update G n (some ⟨P.layer, P.lo, sep⟩)) child
    (some ⟨P.layer, sep, P.hi⟩)

section Halves

variable {env : Env} {x y : Scene} {G G' M : Places} {a n child : Addr} {f c : Face} {l r : Leaf}
  {sep kxi mid fuel : ℕ} {cursor : Tcursor} {P : Place}

theorem halvesAt_child : halvesAt G n child P sep child = some ⟨P.layer, sep, P.hi⟩ :=
  Function.update_self ..

theorem halvesAt_left (h : n ≠ child) :
    halvesAt G n child P sep n = some ⟨P.layer, P.lo, sep⟩ :=
  (Function.update_of_ne h ..).trans (Function.update_self ..)

theorem halvesAt_of_ne (hn : a ≠ n) (hc : a ≠ child) : halvesAt G n child P sep a = G a :=
  (Function.update_of_ne hc ..).trans (Function.update_of_ne hn ..)

/-- There is nothing yet at a free address. -/
theorem Shape.place_eq_none (h : Shape x G M) (hnone : x.face child = none) : G child = none := by
  cases hG : G child with
  | none => rfl
  | some P =>
    obtain ⟨f, hf⟩ := h.face hG
    rw [hnone] at hf
    cases hf

/-- **A leaf that has been split waits to be hung up.** -/
theorem Shape.parted (h : Shape x G G) (hf : x.face n = some f) (hl : f.node = .leaf l)
    (hP : G n = some P) (h0 : child ≠ 0) (hnone : x.face child = none) (hlo : P.lo < sep)
    (hhi : sep < P.hi) (hc : c.node = .leaf r) :
    Shape (x.set child c) (halvesAt G n child P sep) G := by
  have hGc := h.place_eq_none hnone
  have hne : n ≠ child := by
    rintro rfl
    rw [hf] at hnone
    cases hnone
  have hlayer := h.layer hP
  have hrange := h.range hP
  have hkeep {b : Addr} {d : Face} (hd : x.face b = some d) : (x.set child c).face b = some d := by
    refine (Scene.face_set_of_ne ?_).trans hd
    rintro rfl
    rw [hnone] at hd
    cases hd
  have hinternode {b : Addr} {y₁ : Internode} (hy : x.InternodeAt b y₁) : b ≠ n ∧ b ≠ child := by
    obtain ⟨d, hd, hy⟩ := hy
    constructor
    · rintro rfl
      rw [hf] at hd
      cases hd
      rw [hl] at hy
      cases hy
    · rintro rfl
      rw [hnone] at hd
      cases hd
  refine h.rework (R := fun b => b = n ∨ b = child) rfl ?_ ?_ ?_ ?_ ?_ ?_ ?_ ?_ ?_
  · intro b hb
    exact halvesAt_of_ne (fun h => hb (Or.inl h)) fun h => hb (Or.inr h)
  · intro b d _ hd
    exact ⟨d, hkeep hd, rfl⟩
  · intro b d hb hd
    rw [Scene.face_set_of_ne fun h => hb (Or.inr h)] at hd
    exact ⟨d, hd, rfl⟩
  · rintro b Q (rfl | rfl) hQ
    · rw [halvesAt_left hne] at hQ
      cases hQ
      exact ⟨⟨f, hkeep hf⟩, hlo, hhi.le.trans hrange.2, hlayer⟩
    · rw [halvesAt_child] at hQ
      cases hQ
      exact ⟨⟨c, Scene.face_set_self⟩, hhi, hrange.2, hlayer⟩
  · intro b Q layer k d lo hi _ _ hd
    obtain ⟨fd, hfd, hpar⟩ := hd.face
    exact ⟨hd.lt, hd.place, fd, hkeep hfd, hpar⟩
  · rintro b Q y₁ (rfl | rfl) hQ ⟨d, hd, hy⟩
    · rw [hkeep hf] at hd
      cases hd
      rw [hl] at hy
      cases hy
    · rw [Scene.face_set_self] at hd
      cases hd
      rw [hc] at hy
      cases hy
  · intro b Q d hQ hd
    have hbc : b ≠ child := by
      rintro rfl
      rw [hGc] at hQ
      cases hQ
    rw [Scene.face_set_of_ne hbc] at hd
    refine (h.parent hQ hd).imp_right fun hup => ?_
    obtain ⟨hup0, Q', y₁, hQ', hlayers, hy, hmem⟩ := hup
    obtain ⟨hpn, hpc⟩ := hinternode hy
    obtain ⟨fp, hfp, hnp⟩ := hy
    exact ⟨hup0, Q', y₁, (halvesAt_of_ne hpn hpc).trans hQ', hlayers, ⟨fp, hkeep hfp, hnp⟩, hmem⟩
  · rintro (rfl | rfl)
    · rw [h.null] at hP
      cases hP
    · exact h0 rfl
  · obtain ⟨hi, hroot⟩ := h.root
    by_cases hrn : x.root = n
    · rw [hrn, hP] at hroot
      cases hroot
      exact ⟨sep, by rw [hrn, halvesAt_left hne]⟩
    · refine ⟨hi, (halvesAt_of_ne hrn ?_).trans hroot⟩
      intro hrc
      rw [hrc, hGc] at hroot
      cases hroot

theorem rising_of_parted (h : Shape x G G) (hcalm : Calm x G ∅) (hf : x.face cursor.n = some f)
    (hl : f.node = .leaf l) (hP : G cursor.n = some P) (h0 : child ≠ 0)
    (hnone : x.face child = none) (hlo : P.lo < sep) (hhi : sep < P.hi) (hc : c.node = .leaf r) :
    Rising (x.set child c) cursor ⟨cursor.n, child, sep, 0⟩
      (halvesAt G cursor.n child P sep) G := by
  have hne : cursor.n ≠ child := by
    intro heq
    rw [← heq, hf] at hnone
    cases hnone
  have hfn : (x.set child c).face cursor.n = some f := (Scene.face_set_of_ne hne).trans hf
  refine ⟨h.parted hf hl hP h0 hnone hlo hhi hc, ⟨?_, h.place_eq_none hnone, ?_, ?_, ?_⟩, ?_,
    ⟨l, ?_⟩, Or.inl rfl⟩
  · exact ⟨P.layer, P.lo, P.hi, halvesAt_left hne, halvesAt_child, hP⟩
  · intro b hbn hbc
    exact (halvesAt_of_ne hbn hbc).symm
  · exact ⟨f, hfn, by rw [hl]; rfl⟩
  · exact ⟨c, Scene.face_set_self, by rw [hc]; rfl⟩
  · constructor
    · intro b Q d y₁ hb hQ hd hy
      by_cases hbc : b = child
      · subst hbc
        rw [Scene.face_set_self] at hd
        cases hd
        rw [hc] at hy
        cases hy
      · rw [Scene.face_set_of_ne hbc] at hd
        rw [halvesAt_of_ne hb hbc] at hQ
        exact hcalm.internode (Set.notMem_empty b) hQ hd hy
    · intro b Q d hb hQ hd hr hs hlo'
      by_cases hbc : b = child
      · subst hbc
        rw [halvesAt_child] at hQ
        cases hQ
        exact absurd hlo' (Nat.ne_of_gt (Nat.zero_lt_of_lt hlo))
      · rw [Scene.face_set_of_ne hbc] at hd
        rw [halvesAt_of_ne hb hbc] at hQ
        exact hcalm.root (Set.notMem_empty b) hQ hd hr hs hlo'
  · rw [Scene.leaf?, hfn, Option.bind_some, hl]
    rfl

end Halves

/-! ### The separator -/

section Bounds

variable {l r : Leaf} {ka : Key} {kxi mid i j k lo hi : ℕ} {e : Entry}

/-- How many entries stay when the leaf is split. -/
def stays (kxi mid : ℕ) : ℕ := if mid ≤ kxi then mid else mid - 1

/-- The key goes to `kxi` in the page of the leaf. -/
structure Leaf.Gap (l : Leaf) (ka : Key) (kxi : ℕ) : Prop where
  sorted : PageSorted l.page
  le : kxi ≤ l.page.length
  gt : ∀ e ∈ l.page.take kxi, ka.compareEntry e = .gt
  lt : ∀ e ∈ l.page.drop kxi, ka.compareEntry e = .lt

theorem Leaf.Gap.le_size (h : l.Gap ka kxi) : kxi ≤ l.size := l.length_page ▸ h.le

theorem Leaf.Gap.mono (h : l.Gap ka kxi) (hij : i ≤ j) (hj : j ≤ l.size) :
    l.ikeyAfterInsert ka kxi i ≤ l.ikeyAfterInsert ka kxi j := by
  rcases Nat.eq_or_lt_of_le hij with rfl | hlt
  · exact le_rfl
  · have hsorted := h.sorted.insert (v := 0) h.le h.gt h.lt
    have hi := Leaf.getElem?_joined ka h.le_size (hij.trans hj)
    have hj' := Leaf.getElem?_joined ka h.le_size hj
    obtain ⟨hil, hi⟩ := List.getElem?_eq_some_iff.mp hi
    obtain ⟨hjl, hj'⟩ := List.getElem?_eq_some_iff.mp hj'
    have hbefore := List.pairwise_iff_getElem.mp hsorted.before i j hil hjl hlt
    rw [hi, hj'] at hbefore
    rw [← Leaf.ikey_joined, ← Leaf.ikey_joined]
    exact hbefore.ikey_le

theorem Leaf.ikeyAfterInsert_self : l.ikeyAfterInsert ka kxi kxi = ka.ikey := by
  rw [Leaf.ikeyAfterInsert, if_neg (Nat.lt_irrefl kxi), if_pos rfl]

theorem Leaf.ikeyAfterInsert_mem (h : l.Gap ka kxi) (hi : i ≤ l.size) :
    l.ikeyAfterInsert ka kxi i = ka.ikey ∨ ∃ e ∈ l.page, l.ikeyAfterInsert ka kxi i = e.ikey := by
  have hmem := List.mem_of_getElem? (Leaf.getElem?_joined ka h.le_size hi)
  rw [← Leaf.ikey_joined]
  rcases List.eq_or_mem_of_mem_insertIdx hmem with heq | hmem
  · rw [heq]
    exact Or.inl rfl
  · exact Or.inr ⟨_, hmem, rfl⟩

theorem Leaf.Parted.pred_lt (hp : l.Parted r ka kxi mid) (h : l.Gap ka kxi) :
    l.ikeyAfterInsert ka kxi (mid - 1) < l.ikeyAfterInsert ka kxi mid :=
  lt_of_le_of_ne (h.mono (Nat.sub_le mid 1) hp.le) hp.ne

/-- The separator lies in the range of the leaf. -/
theorem Leaf.Parted.sep_range (hp : l.Parted r ka kxi mid) (h : l.Gap ka kxi)
    (hka : lo ≤ ka.ikey ∧ ka.ikey < hi) (hrange : ∀ e ∈ l.page, lo ≤ e.ikey ∧ e.ikey < hi) :
    lo < l.ikeyAfterInsert ka kxi mid ∧ l.ikeyAfterInsert ka kxi mid < hi := by
  have hall (i : ℕ) (hi' : i ≤ l.size) :
      lo ≤ l.ikeyAfterInsert ka kxi i ∧ l.ikeyAfterInsert ka kxi i < hi := by
    rcases Leaf.ikeyAfterInsert_mem h hi' with heq | ⟨e, he, heq⟩
    · rw [heq]
      exact hka
    · rw [heq]
      exact hrange e he
  have hle : mid - 1 ≤ l.size := (Nat.sub_le mid 1).trans hp.le
  exact ⟨(hall _ hle).1.trans_lt (hp.pred_lt h), (hall _ hp.le).2⟩

/-- The place of an entry when the key has been inserted. -/
theorem Leaf.ikey_page (ka : Key) (kxi : ℕ) (he : l.page[k]? = some e) :
    k < l.size ∧ e.ikey = l.ikeyAfterInsert ka kxi (if k < kxi then k else k + 1) := by
  obtain ⟨hk, rfl⟩ := Leaf.getElem?_page_eq_some.mp he
  refine ⟨hk, ?_⟩
  unfold Leaf.ikeyAfterInsert
  by_cases hlt : k < kxi
  · rw [if_pos hlt, if_pos hlt]
    rfl
  · rw [if_neg hlt, if_neg (by omega), if_neg (by omega)]
    rfl

/-- **What stays is below the separator.** -/
theorem Leaf.Parted.ikey_lt (hp : l.Parted r ka kxi mid) (h : l.Gap ka kxi)
    (he : e ∈ l.page.take (stays kxi mid)) : e.ikey < l.ikeyAfterInsert ka kxi mid := by
  obtain ⟨k, hk⟩ := List.mem_iff_getElem?.mp he
  rw [List.getElem?_take] at hk
  split at hk
  · rename_i hlt
    obtain ⟨hsize, heq⟩ := Leaf.ikey_page ka kxi hk
    have hpos := hp.pos
    have hle := hp.le
    rw [heq]
    refine lt_of_le_of_lt (h.mono ?_ (by omega)) (hp.pred_lt h)
    unfold stays at hlt
    split
    · split at hlt
      · omega
      · omega
    · split at hlt
      · omega
      · omega
  · cases hk

/-- **What moves is not.** -/
theorem Leaf.Parted.le_ikey (hp : l.Parted r ka kxi mid) (h : l.Gap ka kxi)
    (he : e ∈ l.page.drop (stays kxi mid)) : l.ikeyAfterInsert ka kxi mid ≤ e.ikey := by
  obtain ⟨k, hk⟩ := List.mem_iff_getElem?.mp he
  rw [List.getElem?_drop] at hk
  obtain ⟨hsize, heq⟩ := Leaf.ikey_page ka kxi hk
  rw [heq]
  have hpos := hp.pos
  refine h.mono ?_ ?_
  · unfold stays
    split
    · split
      · omega
      · omega
    · split
      · omega
      · omega
  · split
    · omega
    · omega

theorem Leaf.Parted.key_lt (hp : l.Parted r ka kxi mid) (h : l.Gap ka kxi) (hlt : kxi < mid) :
    ka.ikey < l.ikeyAfterInsert ka kxi mid := by
  refine lt_of_le_of_lt ?_ (hp.pred_lt h)
  have hle := hp.le
  have hmono := h.mono (i := kxi) (j := mid - 1) (by omega) (by omega)
  rwa [Leaf.ikeyAfterInsert_self] at hmono

theorem Leaf.Gap.le_key (h : l.Gap ka kxi) (hle : mid ≤ kxi) :
    l.ikeyAfterInsert ka kxi mid ≤ ka.ikey := by
  have hmono := h.mono hle h.le_size
  rwa [Leaf.ikeyAfterInsert_self] at hmono

/-! ### The two pages -/

variable {child : Addr} {c c' : Tcursor} {l' : Leaf} {splitType : ℕ}

theorem Leaf.Parted.page (hp : l.Parted r ka kxi mid) (hkxi : kxi ≤ l.size)
    (hsize : l.size ≤ width) : r.page = l.page.drop (stays kxi mid) := by
  have hpage := Leaf.page_moved (l := r) (f := fun k => l.entry (l.permutation.slot k))
    (e := .ofStr ka.rest 0) hp.pos hp.le hkxi hsize hp.permutation hp.entry
  exact hpage

theorem Leaf.Parted.size (hp : l.Parted r ka kxi mid) :
    l.size - r.size = stays kxi mid := by
  have hpos := hp.pos
  have hle := hp.le
  have hrsize : r.size = if mid ≤ kxi then l.size - mid else l.size + 1 - mid := by
    rw [Leaf.size, hp.permutation]
    exact Permuter.size_moved hp.le
  rw [hrsize]
  unfold stays
  split
  · omega
  · omega

theorem Leaf.shrunk_eq_self (hfull : l.permutation.Full) (hk : k ≤ l.size) (hw : ¬k < width) :
    k = l.size ∧ l.permutation.shrunk k = l.permutation := by
  have hle : l.size ≤ width := hfull.size
  have hkl : k = l.size := by omega
  refine ⟨hkl, ?_⟩
  have hnot : ¬l.permutation.size ≠ width := by
    change ¬l.size ≠ width
    omega
  unfold Permuter.shrunk
  rw [if_neg hnot, hkl]
  rfl

theorem Leaf.page_shrunk_of_le (hfull : l.permutation.Full) (hk : k ≤ l.size) :
    Leaf.page { l with permutation := l.permutation.shrunk k } = l.page.take k := by
  by_cases hlt : k < width
  · exact Leaf.page_shrunk hfull hlt hk
  · obtain ⟨hkl, hsame⟩ := Leaf.shrunk_eq_self hfull hk hlt
    rw [hsame, hkl, ← l.length_page, List.take_length]

end Bounds

/-! ### Where the cursor goes -/

section Cursor

variable {c c' : Tcursor} {l l' r : Leaf} {mid splitType k kxi : ℕ} {child : Addr} {ka : Key}

theorem Leaf.full_shrunk (hfull : l.permutation.Full) (hk : k ≤ l.size) :
    (l.permutation.shrunk k).Full := by
  by_cases hlt : k < width
  · exact hfull.shrunk hlt
  · rw [(Leaf.shrunk_eq_self hfull hk hlt).2]
    exact hfull

theorem Leaf.Gap.left (h : l.Gap ka kxi) (hpage : l'.page = l.page.take k) (hk : kxi ≤ k) :
    l'.Gap ka kxi := by
  refine ⟨?_, ?_, fun e he => h.gt e ?_, fun e he => h.lt e ?_⟩
  · rw [hpage]
    exact h.sorted.of_sublist (List.take_sublist ..)
  · rw [hpage, List.length_take]
    exact Nat.le_min.mpr ⟨hk, h.le⟩
  · rw [hpage, List.take_take, Nat.min_eq_left hk] at he
    exact he
  · rw [hpage, List.drop_take] at he
    exact List.mem_of_mem_take he

theorem Leaf.Gap.right (h : l.Gap ka kxi) (hpage : r.page = l.page.drop k) (hk : k ≤ kxi) :
    r.Gap ka (kxi - k) := by
  refine ⟨?_, ?_, fun e he => h.gt e ?_, fun e he => h.lt e ?_⟩
  · rw [hpage]
    exact h.sorted.of_sublist (List.drop_sublist ..)
  · rw [hpage, List.length_drop]
    exact Nat.sub_le_sub_right h.le k
  · rw [hpage, List.take_drop, Nat.add_sub_cancel' hk] at he
    exact List.mem_of_mem_drop he
  · rw [hpage, List.drop_drop, Nat.add_sub_cancel' hk] at he
    exact he

/-- The slot that is handed out next in the leaf `l`, to which the cursor has come, says the key. -/
structure Waiting (c c' : Tcursor) (l : Leaf) : Prop where
  ka : c'.ka = c.ka
  state : c'.state = c.state
  gap : l.Gap c.ka c'.kx.i
  size : l.size < width
  slot : c'.kx.p = some l.permutation.back
  entry : l.entry l.permutation.back = .ofStr c.ka.rest 0

/-- What is left of the leaf, and where the cursor has gone. -/
theorem Shrank.waiting (h : Shrank c child l r splitType c' l')
    (hp : l.Parted r c.ka c.kx.i mid) (hgap : l.Gap c.ka c.kx.i) (hfull : l.permutation.Full)
    (hsplit : splitType = 0 ↔ c.kx.i < mid) : l'.page = l.page.take (stays c.kx.i mid) ∧
      l'.permutation.Full ∧ (c'.n = c.n ∧ c.kx.i < mid ∧ Waiting c c' l' ∨
        c'.n = child ∧ mid ≤ c.kx.i ∧ Waiting c c' r) := by
  have hpos := hp.pos
  have hle := hp.le
  have hsize : l.size - r.size = stays c.kx.i mid := hp.size
  have hw : l.size ≤ width := hfull.size
  have hstays : stays c.kx.i mid ≤ l.size := by
    rw [← hsize]
    exact Nat.sub_le l.size r.size
  have hpage := Leaf.page_shrunk_of_le hfull hstays
  have hshrunk := Leaf.full_shrunk hfull hstays
  cases h with
  | here hfilled =>
    rw [hsize] at hfilled
    have hlt : c.kx.i < mid := hsplit.mp rfl
    have hstay : stays c.kx.i mid = mid - 1 := if_neg (Nat.not_le.mpr hlt)
    have hlw : stays c.kx.i mid < width := by omega
    have hback := hfilled.page_of_back hshrunk (Permuter.size_shrunk.trans_lt hlw)
    have hpage' := hback.trans hpage
    refine ⟨hpage', hfilled.permutation ▸ hshrunk, Or.inl ⟨rfl, hlt, rfl, rfl, ?_, ?_, ?_, ?_⟩⟩
    · exact hgap.left hpage' (by omega)
    · rw [Leaf.size, hfilled.permutation]
      exact Permuter.size_shrunk.trans_lt hlw
    · rw [hfilled.permutation, hsize]
    · rw [hfilled.permutation]
      exact hfilled.self
  | there hne =>
    rw [hsize]
    have hge : mid ≤ c.kx.i := Nat.le_of_not_lt fun hlt => hne (hsplit.mpr hlt)
    have hstay : stays c.kx.i mid = mid := if_pos hge
    have hback := Permuter.back_moved hpos hle hgap.le_size hw hge
    refine ⟨hpage, hshrunk, Or.inr ⟨rfl, hge, rfl, rfl, ?_, ?_, ?_, ?_⟩⟩
    · exact hgap.right (hp.page hgap.le_size hw) (hstay.trans_le hge)
    · omega
    · rw [hp.permutation, hback, hstay]
    · have hkxi := hgap.le_size
      rw [hp.permutation, hback, hp.entry _ (by omega), Nat.add_sub_cancel' hge]
      exact inserted_self

end Cursor

end Sidle.Masstree
