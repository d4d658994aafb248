import Sidle.Masstree.Page
import Sidle.Masstree.Scene

/-!
# Where the nodes stand

Every node of the tree stands somewhere: in the layer that some slices lead to, and there it is
responsible for the slices from one bound to another.  An internode hands its range down to its
children, piece by piece; a leaf holds the entries whose slices lie in its range, and an entry that
leads to a layer says by its place which one.

While a node is being split, its right half is not hung up yet: its parent still takes the left
half to be responsible for what both are.  So there are two assignments of places, of what a node
is responsible for, and of what its parent takes it to be.

## Main definitions

* `Place`, `Places` — where nodes stand.
* `Shape`, `Calm`, `Leaves`, `Standing` — the tree stands at these places.
* `Stored` — the entries of the tree.

## Main results

* `Standing.stored_cases` — a stored key is in the leaf that is responsible for it, or in a layer
  below.
* `Standing.stored_unique` — a key has one value.
-/

namespace Sidle.Masstree

open Forest

/-! ### Places -/

/-- The layer that the slices `layer` lead to, and the range from `lo` to `hi`. -/
structure Place where
  layer : Str
  lo : ℕ
  hi : ℕ

/-- Where nodes stand. -/
abbrev Places : Type := Addr → Option Place

/-- There is a leaf at `a`. -/
def Scene.LeafAt (x : Scene) (a : Addr) (l : Leaf) : Prop :=
  ∃ f, x.face a = some f ∧ f.node = .leaf l

/-- There is an internode at `a`. -/
def Scene.InternodeAt (x : Scene) (a : Addr) (y : Internode) : Prop :=
  ∃ f, x.face a = some f ∧ f.node = .internode y

/-- The leaf that the node is. -/
def Node.leaf? : Node → Option Leaf
  | leaf l => some l
  | internode _ => none

/-- The leaf at `a`. -/
def Scene.leaf? (x : Scene) (a : Addr) : Option Leaf := (x.face a).bind fun f => f.node.leaf?

/-- The page at `a`. -/
def Scene.page (x : Scene) (a : Addr) : Option Page := (x.leaf? a).map Leaf.page

/-- The height of a node, a leaf being at the bottom. -/
def Node.level : Node → ℕ
  | leaf _ => 0
  | internode y => y.height

/-- The child `c` of the internode `a`, of the height `h`, is responsible for a piece of its
range. -/
structure Carried (x : Scene) (M : Places) (a : Addr) (layer : Str) (h : ℕ) (c : Addr) (lo hi : ℕ) :
    Prop where
  lt : lo < hi
  place : M c = some ⟨layer, lo, hi⟩
  face : ∃ f, x.face c = some f ∧ f.parent = a ∧ f.node.level + 1 = h

/-- **The nodes of the tree stand at the places `G`**, and their parents take them to stand at the
places `M`. -/
structure Shape (x : Scene) (G M : Places) : Prop where
  null : G 0 = none
  face : ∀ ⦃a P⦄, G a = some P → ∃ f, x.face a = some f
  range : ∀ ⦃a P⦄, G a = some P → P.lo < P.hi ∧ P.hi ≤ 2 ^ 64
  layer : ∀ ⦃a P⦄, G a = some P → ikeySize ∣ P.layer.length
  cover : ∀ ⦃a P y⦄, G a = some P → x.InternodeAt a y → y.nkeys ≤ width ∧
    Cover (Carried x M a P.layer y.height) P.lo y.keys P.hi y.children
  parent : ∀ ⦃a P f⦄, M a = some P → x.face a = some f →
    (f.parent = 0 ∧ f.root = true ∧ P.lo = 0 ∧ P.hi = 2 ^ 64) ∨
      f.parent ≠ 0 ∧ ∃ Q y, G f.parent = some Q ∧ Q.layer = P.layer ∧ x.InternodeAt f.parent y ∧
        a ∈ y.children
  root : ∃ hi, G x.root = some ⟨[], 0, hi⟩

/-- But for the nodes of `S` no internode is being split, and one at the left edge of its layer that
is marked as the root is. -/
structure Calm (x : Scene) (G : Places) (S : Set Addr) : Prop where
  internode : ∀ ⦃a P f y⦄, a ∉ S → G a = some P → x.face a = some f → f.node = .internode y →
    f.splitting = false
  root : ∀ ⦃a P f⦄, a ∉ S → G a = some P → x.face a = some f → f.root = true →
    f.splitting = false → P.lo = 0 → P.hi = 2 ^ 64

/-- The page is that of a leaf at the place `P`. -/
structure PageOk (G : Places) (P : Place) (es : Page) : Prop where
  sorted : PageSorted es
  range : ∀ e ∈ es, P.lo ≤ e.ikey ∧ e.ikey < P.hi
  entry : ∀ e ∈ es, (∃ s v, e = .ofStr s v ∧ (P.layer ≠ [] → s ≠ [])) ∨
    ∃ ikey a hi, e = .layer ikey a ∧ G a = some ⟨P.layer ++ slice ikey, 0, hi⟩

/-- The leaves hold what leaves at these places hold, every slice has one leaf in its layer, and
there is an entry for every layer. -/
structure Leaves (x : Scene) (G : Places) : Prop where
  full : ∀ ⦃a P l⦄, G a = some P → x.LeafAt a l → l.permutation.Full
  ok : ∀ ⦃a P es⦄, G a = some P → x.page a = some es → PageOk G P es
  disjoint : ∀ ⦃a b P Q es es'⦄, G a = some P → G b = some Q → x.page a = some es →
    x.page b = some es' → P.layer = Q.layer → P.lo < Q.hi → Q.lo < P.hi → a = b
  linked : ∀ ⦃a P⦄, G a = some P → P.layer ≠ [] → ∃ b Q es ikey c, G b = some Q ∧
    x.page b = some es ∧ .layer ikey c ∈ es ∧ P.layer = Q.layer ++ slice ikey

/-- **The tree stands at the places `G`.** -/
structure Standing (x : Scene) (G : Places) : Prop where
  shape : Shape x G G
  calm : Calm x G ∅
  leaves : Leaves x G

/-- An entry for the key `key` has the value `v`. -/
def Stored (x : Scene) (G : Places) (key : Str) (v : ℕ) : Prop :=
  ∃ a P es s, G a = some P ∧ x.page a = some es ∧ .ofStr s v ∈ es ∧ P.layer ++ s = key

section Entries

variable {x : Scene} {G M : Places} {a b : Addr} {P Q : Place} {l l' : Leaf} {es : Page}
  {key rest : Str} {v v' i : ℕ}

theorem Scene.leafAt_iff : x.LeafAt a l ↔ x.leaf? a = some l := by
  constructor
  · rintro ⟨f, hf, hn⟩
    rw [Scene.leaf?, hf, Option.bind_some, hn]
    rfl
  · intro h
    obtain ⟨f, hf, hleaf⟩ := Option.bind_eq_some_iff.mp h
    cases hn : f.node with
    | leaf l' =>
      rw [hn] at hleaf
      exact ⟨f, hf, hn.trans (congrArg Node.leaf (Option.some.inj hleaf))⟩
    | internode y =>
      rw [hn] at hleaf
      cases hleaf

theorem Scene.page_eq_some : x.page a = some es ↔ ∃ l, x.LeafAt a l ∧ l.page = es := by
  simp only [Scene.leafAt_iff]
  exact Option.map_eq_some_iff

theorem leafAt_scene {mem : Mem} : mem.scene.LeafAt a l ↔
    ∃ l', mem.node? a = some (.leaf l') ∧ l'.bare (mem.externalBag l') = l := by
  constructor
  · rintro ⟨f, hf, hn⟩
    obtain ⟨m, hm, rfl⟩ := face_scene_eq_some.mp hf
    cases m with
    | leaf l' => exact ⟨l', hm, Node.leaf.inj hn⟩
    | internode y => cases hn
  · rintro ⟨l', hm, rfl⟩
    exact ⟨_, face_scene hm, rfl⟩

theorem internodeAt_scene {mem : Mem} {y : Internode} : mem.scene.InternodeAt a y ↔
    ∃ y', mem.node? a = some (.internode y') ∧ y'.bare = y := by
  constructor
  · rintro ⟨f, hf, hn⟩
    obtain ⟨m, hm, rfl⟩ := face_scene_eq_some.mp hf
    cases m with
    | leaf l' => cases hn
    | internode y' => exact ⟨y', hm, Node.internode.inj hn⟩
  · rintro ⟨y', hm, rfl⟩
    exact ⟨_, face_scene hm, rfl⟩

theorem Scene.LeafAt.page (h : x.LeafAt a l) : x.page a = some l.page :=
  Scene.page_eq_some.mpr ⟨l, h, rfl⟩

theorem Scene.LeafAt.unique (h : x.LeafAt a l) (h' : x.LeafAt a l') : l = l' := by
  obtain ⟨f, hf, hn⟩ := h
  obtain ⟨f', hf', hn'⟩ := h'
  rw [hf] at hf'
  cases hf'
  rw [hn] at hn'
  exact Node.leaf.inj hn'

/-- Every entry is for a key or for a layer. -/
theorem PageOk.meant (h : PageOk G P es) : ∀ e ∈ es, e.Meant := by
  intro e he
  rcases h.entry e he with ⟨s, v, rfl, -⟩ | ⟨ikey, a, hi, rfl, -⟩
  · exact Or.inl ⟨s, v, rfl⟩
  · exact Or.inr ⟨ikey, a, rfl⟩

theorem PageOk.ne_nil (h : PageOk G P es) {s : Str} (hs : .ofStr s v ∈ es) (hP : P.layer ≠ []) :
    s ≠ [] := by
  rcases h.entry _ hs with ⟨t, w, ht, hne⟩ | ⟨ikey, a, hi, ha, -⟩
  · rw [(Entry.ofStr_inj ht).1]
    exact hne hP
  · exact absurd ha Entry.ofStr_ne_layer

theorem PageOk.layer_place (h : PageOk G P es) {ikey : ℕ} (hb : .layer ikey b ∈ es) :
    ∃ hi, G b = some ⟨P.layer ++ slice ikey, 0, hi⟩ := by
  rcases h.entry _ hb with ⟨t, w, ht, -⟩ | ⟨ikey', a, hi, ha, hplace⟩
  · exact absurd ht.symm Entry.ofStr_ne_layer
  · cases ha
    exact ⟨hi, hplace⟩

/-! ### Layers -/

/-- The way to a layer leads through an entry of every layer above. -/
theorem Standing.exists_link (h : Standing x G) {w : Str} (ha : G a = some P)
    {layer : Str} (hw : P.layer = layer ++ w) (hlayer : ikeySize ∣ layer.length) (hne : w ≠ []) :
    ∃ b Q es ikey c, G b = some Q ∧ Q.layer = layer ∧ x.page b = some es ∧ .layer ikey c ∈ es ∧
      slice ikey = w.take ikeySize := by
  induction hn : w.length using Nat.strong_induction_on generalizing w a P with
  | _ n ih =>
    subst hn
    obtain ⟨b, Q, es, ikey, c, hb, hes, hc, hP⟩ := h.leaves.linked ha (by
      rw [hw]
      exact List.append_ne_nil_of_right_ne_nil _ hne)
    have hdvd : ikeySize ∣ w.length := by
      have hall := h.shape.layer ha
      rw [hw, List.length_append] at hall
      exact (Nat.dvd_add_right hlayer).mp hall
    have hpos : 0 < w.length := List.length_pos_of_ne_nil hne
    have hle : ikeySize ≤ w.length := Nat.le_of_dvd hpos hdvd
    -- the entry is for the last slice of the way
    have hlen : Q.layer.length = layer.length + (w.length - ikeySize) := by
      have hlength := congrArg List.length (hw.symm.trans hP)
      simp only [List.length_append, length_slice] at hlength
      omega
    have hsplit : layer ++ w.take (w.length - ikeySize) ++ w.drop (w.length - ikeySize) =
        Q.layer ++ slice ikey := by
      rw [List.append_assoc, List.take_append_drop, ← hw, hP]
    obtain ⟨hQ, hslice⟩ := List.append_inj hsplit (by
      rw [List.length_append, List.length_take, hlen]
      omega)
    by_cases hlast : w.length = ikeySize
    · rw [hlast, Nat.sub_self, List.take_zero, List.append_nil] at hQ
      rw [hlast, Nat.sub_self, List.drop_zero] at hslice
      refine ⟨b, Q, es, ikey, c, hb, hQ.symm, hes, hc, ?_⟩
      rw [← hslice, ← hlast, List.take_length]
    · have htake : (w.take (w.length - ikeySize)).length = w.length - ikeySize := by
        rw [List.length_take]
        omega
      obtain ⟨c, hcw⟩ := hdvd
      have hmore : ikeySize ≤ w.length - ikeySize := by
        simp only [ikeySize] at *
        omega
      have hne' : w.take (w.length - ikeySize) ≠ [] := by
        intro hnil
        rw [hnil, List.length_nil] at htake
        simp only [ikeySize] at *
        omega
      have hshort : (w.take (w.length - ikeySize)).length < w.length := by
        rw [htake]
        simp only [ikeySize] at *
        omega
      obtain ⟨b', Q', es', ikey', c', hb', hQ', hes', hc', hslice'⟩ :=
        ih _ hshort hb hQ.symm hne' rfl
      refine ⟨b', Q', es', ikey', c', hb', hQ', hes', hc', ?_⟩
      rw [hslice', List.take_take, min_eq_left hmore]

/-- If a layer lies below another on the way of `rest`, the leaf that is responsible for `rest`
there has the entry that leads to it. -/
theorem Standing.layer_mem (h : Standing x G) {w : Str} (ha : G a = some P)
    (hes : x.page a = some es) (hlo : P.lo ≤ makeComparable rest) (hhi : makeComparable rest < P.hi)
    (hb : G b = some Q) (hw : Q.layer = P.layer ++ w) (hne : w ≠ [])
    (hrest : w.take ikeySize = rest.take ikeySize) (hlen : ikeySize ≤ rest.length) :
    ∃ c, .layer (makeComparable rest) c ∈ es := by
  have hPlen := h.shape.layer ha
  obtain ⟨b', R, es', ikey, c, hb', hR, hes', hc, hslice⟩ := h.exists_link hb hw hPlen hne
  have hrange := (h.leaves.ok hb' hes').range _ hc
  have hlt : ikey < 2 ^ 64 := hrange.2.trans_le (h.shape.range hb').2
  have hikey : ikey = makeComparable rest := by
    rw [← makeComparable_slice hlt [], List.append_nil, hslice, hrest]
    refine makeComparable_eq_of_take ?_ hlen ?_
    · rw [List.length_take]
      exact le_min (Nat.le_refl _) hlen
    · rw [List.take_take]
      rfl
  rw [hikey] at hc hrange
  obtain rfl := h.leaves.disjoint ha hb' hes hes' hR.symm (hlo.trans_lt hrange.2)
    (Nat.lt_of_le_of_lt hrange.1 hhi)
  rw [hes] at hes'
  cases hes'
  exact ⟨c, hc⟩

/-- **A stored key** is in the leaf that is responsible for what is left of it, or in a layer that
this leaf leads to. -/
theorem Standing.stored_cases (h : Standing x G) (ha : G a = some P) (hes : x.page a = some es)
    (hlo : P.lo ≤ makeComparable rest) (hhi : makeComparable rest < P.hi)
    (hrest : P.layer ≠ [] → rest ≠ []) (hstored : Stored x G (P.layer ++ rest) v) :
    .ofStr rest v ∈ es ∨
      ikeySize < rest.length ∧ ∃ c, .layer (makeComparable rest) c ∈ es := by
  obtain ⟨b, Q, es', s, hb, hes', hs, heq⟩ := hstored
  have hok' := h.leaves.ok hb hes'
  have hPlen := h.shape.layer ha
  have hQlen := h.shape.layer hb
  have hrange := hok'.range _ hs
  rcases Nat.lt_trichotomy Q.layer.length P.layer.length with hlt | hlt | hlt
  · -- the way to the leaf leads through the slice of an entry that ends the key
    exfalso
    obtain ⟨w, hw, hsw⟩ : ∃ w, P.layer = Q.layer ++ w ∧ s = w ++ rest := by
      rcases List.append_eq_append_iff.mp heq with ⟨w, hw, hs⟩ | ⟨w, hw, hs⟩
      · exact ⟨w, hw, hs⟩
      · rw [hw, List.length_append] at hlt
        omega
    have hwne : w ≠ [] := by
      rintro rfl
      rw [hw, List.append_nil] at hlt
      exact Nat.lt_irrefl _ hlt
    have hwlen : ikeySize ≤ w.length := by
      rw [hw, List.length_append] at hPlen
      exact Nat.le_of_dvd (List.length_pos_of_ne_nil hwne) ((Nat.dvd_add_right hQlen).mp hPlen)
    have hrestne := hrest (by
      rw [hw]
      exact List.append_ne_nil_of_right_ne_nil _ hwne)
    have hslong : ikeySize < s.length := by
      rw [hsw, List.length_append]
      have := List.length_pos_of_ne_nil hrestne
      omega
    have htake : w.take ikeySize = s.take ikeySize := by
      rw [hsw, List.take_append_of_le_length hwlen]
    obtain ⟨c, hc⟩ := h.layer_mem hb hes' hrange.1 hrange.2 ha hw hwne htake hslong.le
    exact hok'.sorted.layer_notMem hs hslong hc
  · -- the same layer
    obtain ⟨hlayer, rfl⟩ := List.append_inj heq hlt
    obtain rfl := h.leaves.disjoint ha hb hes hes' hlayer.symm (hlo.trans_lt hrange.2)
      (Nat.lt_of_le_of_lt hrange.1 hhi)
    rw [hes] at hes'
    cases hes'
    exact Or.inl hs
  · -- a layer below
    obtain ⟨w, hw, hrw⟩ : ∃ w, Q.layer = P.layer ++ w ∧ rest = w ++ s := by
      rcases List.append_eq_append_iff.mp heq with ⟨w, hw, hs⟩ | ⟨w, hw, hs⟩
      · rw [hw, List.length_append] at hlt
        omega
      · exact ⟨w, hw, hs⟩
    have hwne : w ≠ [] := by
      rintro rfl
      rw [hw, List.append_nil] at hlt
      exact Nat.lt_irrefl _ hlt
    have hwlen : ikeySize ≤ w.length := by
      rw [hw, List.length_append] at hQlen
      exact Nat.le_of_dvd (List.length_pos_of_ne_nil hwne) ((Nat.dvd_add_right hPlen).mp hQlen)
    have hsne : s ≠ [] := by
      apply hok'.ne_nil hs
      rw [hw]
      exact List.append_ne_nil_of_right_ne_nil _ hwne
    have hlong : ikeySize < rest.length := by
      rw [hrw, List.length_append]
      have := List.length_pos_of_ne_nil hsne
      omega
    have htake : w.take ikeySize = rest.take ikeySize := by
      rw [hrw, List.take_append_of_le_length hwlen]
    exact Or.inr ⟨hlong, h.layer_mem ha hes hlo hhi hb hw hwne htake hlong.le⟩

/-- **A key has one value.** -/
theorem Standing.stored_unique (h : Standing x G) (hv : Stored x G key v)
    (hv' : Stored x G key v') : v = v' := by
  obtain ⟨a, P, es, s, ha, hes, hs, rfl⟩ := hv
  have hok := h.leaves.ok ha hes
  have hrange := hok.range _ hs
  rcases h.stored_cases ha hes hrange.1 hrange.2 (hok.ne_nil hs) hv' with hs' | ⟨hlong, c, hc⟩
  · exact hok.sorted.eq_of_ofStr hs hs'
  · exact absurd hc (hok.sorted.layer_notMem hs hlong)

end Entries

end Sidle.Masstree
