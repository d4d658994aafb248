import Sidle.Masstree.Hoist

/-!
# What the leaves hold

What becomes of the contents of a tree when a leaf hands its last entries to another one, and when a
leaf gets another page.

## Main definitions

* `Severed` — a leaf has handed its last entries on.

## Main results

* `Severed.leaves`, `Severed.stored_iff` — **nothing is lost in a split.**
* `Standing.set_leaf`, `stored_set_iff` — the tree with another page.
-/

namespace Sidle.Masstree

open Forest

/-! ### What the leaves hold -/

/-- The leaf `n`, which held the page `es` at the place `P`, has handed its last entries to the leaf
`child`, and the tree has grown above the two. -/
structure Severed (x : Scene) (G : Places) (n child : Addr) (P : Place) (es : Page) (sep k : ℕ)
    (y : Scene) (G' : Places) : Prop where
  place : G n = some P
  page : x.page n = some es
  unplaced : G child = none
  left : G' n = some ⟨P.layer, P.lo, sep⟩ ∧ y.page n = some (es.take k)
  right : G' child = some ⟨P.layer, sep, P.hi⟩ ∧ y.page child = some (es.drop k)
  other : ∀ a, a ≠ n → a ≠ child → y.leaf? a = x.leaf? a ∧ (∀ l, x.leaf? a = some l → G' a = G a)
  edge : ∀ a layer hi, G a = some ⟨layer, 0, hi⟩ → ∃ hi', G' a = some ⟨layer, 0, hi'⟩
  layer : ∀ a P', G' a = some P' → ∃ b Q, G b = some Q ∧ Q.layer = P'.layer
  sep_range : P.lo < sep ∧ sep < P.hi
  lt : ∀ e ∈ es.take k, e.ikey < sep
  le : ∀ e ∈ es.drop k, sep ≤ e.ikey
  full : ∀ a l, a = n ∨ a = child → y.leaf? a = some l → l.permutation.Full

section Severing

variable {x y : Scene} {G G' : Places} {n child a b : Addr} {P P' : Place} {es es' : Page}
  {sep k v : ℕ} {key : Str} {e : Entry}

/-- The leaf that an entry has come from. -/
def origin (n child a : Addr) : Addr := if a = child then n else a

theorem Severed.ne (h : Severed x G n child P es sep k y G') : n ≠ child := by
  rintro rfl
  have hplace := h.place
  rw [h.unplaced] at hplace
  cases hplace

theorem Scene.page_eq_of_leaf? (h : y.leaf? a = x.leaf? a) : y.page a = x.page a := by
  rw [Scene.page, Scene.page, h]

/-- Every entry comes from a leaf of the same layer. -/
theorem Severed.exists_origin (h : Severed x G n child P es sep k y G') (ha : G' a = some P')
    (hes : y.page a = some es') : ∃ Q es₀, G (origin n child a) = some Q ∧
      x.page (origin n child a) = some es₀ ∧ Q.layer = P'.layer ∧ Q.lo ≤ P'.lo ∧ P'.hi ≤ Q.hi ∧
        es'.Sublist es₀ ∧ ((∀ e ∈ es₀, Q.lo ≤ e.ikey ∧ e.ikey < Q.hi) →
          ∀ e ∈ es', P'.lo ≤ e.ikey ∧ e.ikey < P'.hi) := by
  have hlo := h.sep_range.1.le
  have hhi := h.sep_range.2.le
  unfold origin
  by_cases hc : a = child
  · subst hc
    rw [if_pos rfl]
    rw [h.right.1] at ha
    rw [h.right.2] at hes
    cases ha
    cases hes
    exact ⟨P, es, h.place, h.page, rfl, hlo, le_rfl, List.drop_sublist k es,
      fun hall e he => ⟨h.le e he, (hall e (List.mem_of_mem_drop he)).2⟩⟩
  · rw [if_neg hc]
    by_cases hn : a = n
    · subst hn
      rw [h.left.1] at ha
      rw [h.left.2] at hes
      cases ha
      cases hes
      exact ⟨P, es, h.place, h.page, rfl, le_rfl, hhi, List.take_sublist k es,
        fun hall e he => ⟨(hall e (List.mem_of_mem_take he)).1, h.lt e he⟩⟩
    · obtain ⟨hleaf, hplace⟩ := h.other a hn hc
      rw [Scene.page_eq_of_leaf? hleaf] at hes
      obtain ⟨l, hl, -⟩ := Option.map_eq_some_iff.mp hes
      rw [hplace l hl] at ha
      exact ⟨P', es', ha, hes, rfl, le_rfl, le_rfl, List.Sublist.refl es', id⟩

/-- Every entry is still there. -/
theorem Severed.exists_page (h : Severed x G n child P es sep k y G') (ha : G a = some P')
    (hes : x.page a = some es') (he : e ∈ es') : ∃ b Q es₁, G' b = some Q ∧
      y.page b = some es₁ ∧ e ∈ es₁ ∧ Q.layer = P'.layer := by
  by_cases hn : a = n
  · subst hn
    rw [h.place] at ha
    rw [h.page] at hes
    cases ha
    cases hes
    rw [← List.take_append_drop k es] at he
    rcases List.mem_append.mp he with he | he
    · exact ⟨a, _, _, h.left.1, h.left.2, he, rfl⟩
    · exact ⟨child, _, _, h.right.1, h.right.2, he, rfl⟩
  · have hc : a ≠ child := by
      rintro rfl
      rw [h.unplaced] at ha
      cases ha
    obtain ⟨hleaf, hplace⟩ := h.other a hn hc
    obtain ⟨l, hl, -⟩ := Option.map_eq_some_iff.mp hes
    exact ⟨a, P', es', (hplace l hl).trans ha, (Scene.page_eq_of_leaf? hleaf).trans hes, he, rfl⟩

/-- **The leaves hold what they should.** -/
theorem Severed.leaves (h : Severed x G n child P es sep k y G') (hx : Leaves x G) :
    Leaves y G' := by
  refine ⟨?_, ?_, ?_, ?_⟩
  · intro a Q l ha hl
    rw [Scene.leafAt_iff] at hl
    by_cases hnc : a = n ∨ a = child
    · exact h.full a l hnc hl
    · have hn : a ≠ n := fun heq => hnc (Or.inl heq)
      obtain ⟨hleaf, hplace⟩ := h.other a hn fun heq => hnc (Or.inr heq)
      rw [hleaf] at hl
      exact hx.full ((hplace l hl).symm.trans ha) (Scene.leafAt_iff.mpr hl)
  · intro a Q es' ha hes
    obtain ⟨Q₀, es₀, hQ₀, hes₀, hlayer, -, -, hsub, hrange⟩ := h.exists_origin ha hes
    have hok := hx.ok hQ₀ hes₀
    refine ⟨hok.sorted.of_sublist hsub, hrange hok.range, fun e he => ?_⟩
    rcases hok.entry e (hsub.subset he) with hkey | ⟨ikey, b, hi, heq, hb⟩
    · rw [← hlayer]
      exact Or.inl hkey
    · obtain ⟨hi', hb'⟩ := h.edge b _ hi hb
      rw [hlayer] at hb'
      exact Or.inr ⟨ikey, b, hi', heq, hb'⟩
  · intro a b Q R es₁ es₂ ha hb hes₁ hes₂ hlayer hlt hlt'
    obtain ⟨Q₀, es₁', hQ₀, hes₁', hl₁, hlo₁, hhi₁, -⟩ := h.exists_origin ha hes₁
    obtain ⟨R₀, es₂', hR₀, hes₂', hl₂, hlo₂, hhi₂, -⟩ := h.exists_origin hb hes₂
    have hsame := hx.disjoint hQ₀ hR₀ hes₁' hes₂' (hl₁.trans (hlayer.trans hl₂.symm)) (by omega)
      (by omega)
    unfold origin at hsame
    by_cases hac : a = child
    · by_cases hbc : b = child
      · exact hac.trans hbc.symm
      · rw [if_pos hac, if_neg hbc] at hsame
        subst hac hsame
        rw [h.right.1] at ha
        rw [h.left.1] at hb
        cases ha
        cases hb
        exact absurd hlt (Nat.lt_irrefl sep)
    · by_cases hbc : b = child
      · rw [if_neg hac, if_pos hbc] at hsame
        subst hbc hsame
        rw [h.left.1] at ha
        rw [h.right.1] at hb
        cases ha
        cases hb
        exact absurd hlt' (Nat.lt_irrefl sep)
      · rwa [if_neg hac, if_neg hbc] at hsame
  · intro a Q ha hQ
    obtain ⟨b, R, hb, hlayer⟩ := h.layer a Q ha
    obtain ⟨d, S, es', ikey, c, hd, hes', hmem, heq⟩ := hx.linked hb (hlayer ▸ hQ)
    obtain ⟨d', S', es₁, hd', hes₁, hmem', hlayer'⟩ := h.exists_page hd hes' hmem
    exact ⟨d', S', es₁, ikey, c, hd', hes₁, hmem', by rw [← hlayer, heq, hlayer']⟩

/-- **Nothing is lost, and nothing is added.** -/
theorem Severed.stored_iff (h : Severed x G n child P es sep k y G') :
    Stored y G' key v ↔ Stored x G key v := by
  constructor
  · rintro ⟨a, Q, es', s, ha, hes, hmem, hkey⟩
    obtain ⟨Q₀, es₀, hQ₀, hes₀, hlayer, -, -, hsub, -⟩ := h.exists_origin ha hes
    exact ⟨_, Q₀, es₀, s, hQ₀, hes₀, hsub.subset hmem, by rw [hlayer, hkey]⟩
  · rintro ⟨a, Q, es', s, ha, hes, hmem, hkey⟩
    obtain ⟨b, R, es₁, hb, hes₁, hmem', hlayer⟩ := h.exists_page ha hes hmem
    exact ⟨b, R, es₁, s, hb, hes₁, hmem', by rw [hlayer, hkey]⟩

end Severing

/-! ### Another page -/

section Pages

variable {x y : Scene} {G : Places} {n a b : Addr} {P : Place} {l l' : Leaf} {f : Face} {key : Str}
  {v : ℕ}

theorem Scene.page_of_leaf? (h : y.leaf? = Function.update x.leaf? n (some l')) :
    y.page n = some l'.page := by
  rw [Scene.page, h, Function.update_self]
  rfl

theorem Scene.page_of_ne (h : y.leaf? = Function.update x.leaf? n (some l')) (ha : a ≠ n) :
    y.page a = x.page a := by
  rw [Scene.page, h, Function.update_of_ne ha]
  rfl

/-- A leaf gets another page, which leads to the same layers at least. -/
theorem Leaves.set (h : Leaves x G) (hP : G n = some P) (hl : x.leaf? n = some l)
    (hy : y.leaf? = Function.update x.leaf? n (some l')) (hfull : l'.permutation.Full)
    (hok : PageOk G P l'.page)
    (hkeep : ∀ ikey c, .layer ikey c ∈ l.page → ∃ d, .layer ikey d ∈ l'.page) : Leaves y G := by
  have hback {a : Addr} {es : Page} (hes : y.page a = some es) : ∃ es₀, x.page a = some es₀ := by
    by_cases han : a = n
    · subst han
      exact ⟨l.page, by rw [Scene.page, hl]; rfl⟩
    · rw [Scene.page_of_ne hy han] at hes
      exact ⟨es, hes⟩
  refine ⟨?_, ?_, ?_, ?_⟩
  · intro a Q k ha hk
    rw [Scene.leafAt_iff, hy] at hk
    by_cases han : a = n
    · subst han
      rw [Function.update_self] at hk
      cases hk
      exact hfull
    · rw [Function.update_of_ne han] at hk
      exact h.full ha (Scene.leafAt_iff.mpr hk)
  · intro a Q es ha hes
    by_cases han : a = n
    · subst han
      rw [Scene.page_of_leaf? hy] at hes
      rw [hP] at ha
      cases hes
      cases ha
      exact hok
    · rw [Scene.page_of_ne hy han] at hes
      exact h.ok ha hes
  · intro a b Q R es es' ha hb hes hes'
    obtain ⟨es₀, hes₀⟩ := hback hes
    obtain ⟨es₁, hes₁⟩ := hback hes'
    exact h.disjoint ha hb hes₀ hes₁
  · intro a Q ha hQ
    obtain ⟨b, R, es, ikey, c, hb, hes, hmem, hlayer⟩ := h.linked ha hQ
    by_cases hbn : b = n
    · subst hbn
      rw [Scene.page, hl] at hes
      cases hes
      obtain ⟨d, hd⟩ := hkeep ikey c hmem
      exact ⟨b, R, _, ikey, d, hb, Scene.page_of_leaf? hy, hd, hlayer⟩
    · exact ⟨b, R, es, ikey, c, hb, (Scene.page_of_ne hy hbn).trans hes, hmem, hlayer⟩

theorem stored_set_iff {N : Str → ℕ → Prop} (hP : G n = some P) (hl : x.leaf? n = some l)
    (hy : y.leaf? = Function.update x.leaf? n (some l'))
    (hmem : ∀ s v, Entry.ofStr s v ∈ l'.page ↔ Entry.ofStr s v ∈ l.page ∨ N s v) :
    Stored y G key v ↔ Stored x G key v ∨ ∃ s, N s v ∧ P.layer ++ s = key := by
  have hpage : x.page n = some l.page := by
    rw [Scene.page, hl]
    rfl
  constructor
  · rintro ⟨a, Q, es, s, ha, hes, hs, hkey⟩
    by_cases han : a = n
    · subst han
      rw [Scene.page_of_leaf? hy] at hes
      rw [hP] at ha
      cases hes
      cases ha
      rcases (hmem s v).mp hs with hs | hs
      · exact Or.inl ⟨a, P, l.page, s, hP, hpage, hs, hkey⟩
      · exact Or.inr ⟨s, hs, hkey⟩
    · rw [Scene.page_of_ne hy han] at hes
      exact Or.inl ⟨a, Q, es, s, ha, hes, hs, hkey⟩
  · rintro (⟨a, Q, es, s, ha, hes, hs, hkey⟩ | ⟨s, hs, hkey⟩)
    · by_cases han : a = n
      · subst han
        rw [hpage] at hes
        rw [hP] at ha
        cases hes
        cases ha
        exact ⟨a, P, _, s, hP, Scene.page_of_leaf? hy, (hmem s v).mpr (Or.inl hs), hkey⟩
      · exact ⟨a, Q, es, s, ha, (Scene.page_of_ne hy han).trans hes, hs, hkey⟩
    · exact ⟨n, P, _, s, hP, Scene.page_of_leaf? hy, (hmem s v).mpr (Or.inr hs), hkey⟩

theorem Scene.leaf?_set_leaf : (x.set n { f with node := .leaf l' }).leaf? =
    Function.update x.leaf? n (some l') := Scene.leaf?_set

/-- The leaf has another slot waiting at most. -/
theorem stored_set_same (hP : G n = some P) (hl : x.leaf? n = some l)
    (hy : y.leaf? = Function.update x.leaf? n (some l')) (hpage : l'.page = l.page) :
    Stored y G key v ↔ Stored x G key v := by
  rw [stored_set_iff (N := fun _ _ => False) hP hl hy fun s w => by rw [hpage, or_false]]
  simp

/-- **The tree stands with another page** in a leaf. -/
theorem Standing.set_leaf (h : Standing x G) (hP : G n = some P) (hf : x.face n = some f)
    (hl : f.node = .leaf l) (hfull : l'.permutation.Full) (hok : PageOk G P l'.page)
    (hkeep : ∀ ikey c, .layer ikey c ∈ l.page → ∃ d, .layer ikey d ∈ l'.page) :
    Standing (x.set n { f with node := .leaf l' }) G := by
  have hleaf : x.leaf? n = some l := Scene.leafAt_iff.mp ⟨f, hf, hl⟩
  refine ⟨h.shape.set hf (alike_leaf hl), ?_,
    h.leaves.set hP hleaf Scene.leaf?_set_leaf hfull hok hkeep⟩
  refine (h.calm.mono (Set.empty_subset _)).set (fun y hy => ?_) fun Q hQ hr hs hlo => ?_
  · cases hy
  · exact h.calm.root (Set.notMem_empty n) hQ hf hr hs hlo

end Pages

end Sidle.Masstree
