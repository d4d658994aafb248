import Mathlib.Data.List.Infix
import Mathlib.Data.List.Nodup
import Mathlib.Data.Option.Basic
import Mathlib.Logic.Function.Basic
import Mathlib.Logic.Relation
import Mathlib.Tactic.Common

/-!
# Linked forests

A forest in a memory: every node knows its parent and the list of its children, and carries
data.  `Linked` says that the two kinds of links agree.  A relation between the data of a
child and that of its parent, such as that a child with some property has a parent with it,
is stated by `Edges`.

## Main definitions

* `Entry`, `Forest` — the nodes, and a forest of them.
* `Linked` — parents and children agree.
* `Edges` — a relation holds along all links.
* `Sub`, `Renames` — a part of a forest, and a forest under new addresses.
* `replace` — a node gives way to a copy, and `adopt` — a root becomes a child.
* `splitOff` — a new node takes over the last children of a node.

## Main results

* `Linked.replace`, `Linked.adopt`, `Linked.splitOff` — the links still agree.
* `exists_link_of_replace`, `Edges.adopt` — the links that there are.
* `Edges.of_ancestor` — a property that passes to the parent passes to all ancestors.
-/

/-- A node of a forest. -/
structure Forest.Entry (N K : Type*) where
  parent : Option N
  children : List N
  data : K

/-- A forest of nodes with addresses in `N` and data in `K`. -/
abbrev Forest (N K : Type*) := N → Option (Forest.Entry N K)

namespace Forest

variable {N K : Type*}

/-- Parents and children agree. -/
structure Linked (F : Forest N K) : Prop where
  down : ∀ ⦃p x c⦄, F p = some x → c ∈ x.children → ∃ y, F c = some y ∧ y.parent = some p
  up : ∀ ⦃c y p⦄, F c = some y → y.parent = some p → ∃ x, F p = some x ∧ c ∈ x.children
  nodup : ∀ ⦃p x⦄, F p = some x → x.children.Nodup
  irrefl : ∀ ⦃p x⦄, F p = some x → x.parent ≠ some p

/-- The relation `R` holds between the data of every node and of its parent. -/
def Edges (R : K → K → Prop) (F : Forest N K) : Prop :=
  ∀ ⦃c p y x⦄, F c = some y → F p = some x → y.parent = some p → R y.data x.data

/-- The link from a node to its parent. -/
def IsParent (F : Forest N K) (c p : N) : Prop := ∃ y, F c = some y ∧ y.parent = some p

/-- The nodes of `F` are nodes of `G`. -/
def Sub (F G : Forest N K) : Prop := ∀ ⦃a x⦄, F a = some x → G a = some x

/-- `F'` is `F` under new addresses, and with new data. -/
structure Renames (R : K → K → Prop) (ρ : N → N) (F F' : Forest N K) : Prop where
  node : ∀ ⦃a y⦄, F a = some y →
    ∃ d, R y.data d ∧ F' (ρ a) = some ⟨y.parent.map ρ, y.children.map ρ, d⟩
  surj : ∀ ⦃b z⦄, F' b = some z → ∃ a y, F a = some y ∧ b = ρ a
  inj : ∀ ⦃a b⦄, F a ≠ none → F b ≠ none → ρ a = ρ b → a = b

theorem Renames.refl {R : K → K → Prop} (hR : ∀ k, R k k) (F : Forest N K) : Renames R id F F where
  node a y ha := ⟨y.data, hR _, by simpa using ha⟩
  surj b z hb := ⟨b, z, hb, rfl⟩
  inj _ _ _ _ h := h

theorem Renames.trans {R : K → K → Prop} (hR : ∀ a b c, R a b → R b c → R a c) {ρ ρ' : N → N}
    {F F' F'' : Forest N K} (h : Renames R ρ F F') (h' : Renames R ρ' F' F'') :
    Renames R (ρ' ∘ ρ) F F'' where
  node a y ha := by
    obtain ⟨d, hd, hF'⟩ := h.node ha
    obtain ⟨d', hd', hF''⟩ := h'.node hF'
    exact ⟨d', hR _ _ _ hd hd', by simpa using hF''⟩
  surj b z hb := by
    obtain ⟨c, w, hc, rfl⟩ := h'.surj hb
    obtain ⟨a, y, ha, rfl⟩ := h.surj hc
    exact ⟨a, y, ha, rfl⟩
  inj a b ha hb hab := by
    have hne {c : N} (hc : F c ≠ none) : F' (ρ c) ≠ none := by
      obtain ⟨y, hy⟩ := Option.ne_none_iff_exists'.mp hc
      obtain ⟨d, -, hd⟩ := h.node hy
      rw [hd]
      exact Option.some_ne_none _
    exact h.inj ha hb (h'.inj (hne ha) (hne hb) hab)

section Basics

variable {F : Forest N K} {n p c : N} {x y : Entry N K}

theorem Linked.notMem_children (h : Linked F) (hn : F n = some x) : n ∉ x.children := by
  intro hmem
  obtain ⟨y, hy, hp⟩ := h.down hn hmem
  rw [hn] at hy
  cases hy
  exact h.irrefl hn hp

/-- A child is a node whose parent is the node. -/
theorem Linked.mem_children_iff (h : Linked F) (hp : F p = some x) (hc : F c = some y) :
    c ∈ x.children ↔ y.parent = some p := by
  constructor
  · intro hmem
    obtain ⟨y', hy', hyp⟩ := h.down hp hmem
    rw [hc] at hy'
    cases hy'
    exact hyp
  · intro hyp
    obtain ⟨x', hx', hmem⟩ := h.up hc hyp
    rw [hp] at hx'
    cases hx'
    exact hmem

theorem Edges.imp {R R' : K → K → Prop} (h : Edges R F) (hR : ∀ a b, R a b → R' a b) :
    Edges R' F := fun _ _ _ _ hc hp hyp => hR _ _ (h hc hp hyp)

/-- A property that passes from every node to its parent passes to all ancestors. -/
theorem Edges.of_ancestor {P : K → Prop} (h : Edges (fun a b => P a → P b) F)
    (hanc : Relation.TransGen (IsParent F) c p) (hc : F c = some y) (hp : F p = some x)
    (hy : P y.data) : P x.data := by
  induction hanc generalizing x with
  | single hcp =>
    obtain ⟨y', hy', hyp⟩ := hcp
    rw [hc] at hy'
    cases hy'
    exact h hc hp hyp hy
  | tail _ hqp ih =>
    obtain ⟨z, hz, hzp⟩ := hqp
    exact h hz hp hzp (ih hz)

end Basics

variable [DecidableEq N]

/-! ### A node gives way to a copy -/

section Replace

/-- The address that stands for `a` after `n` has given way to `n'`. -/
def moved (n n' a : N) : N := if a = n then n' else a

/-- The links of an entry after `n` has given way to `n'`. -/
def Entry.moved (n n' : N) (x : Entry N K) : Entry N K :=
  { x with
    parent := x.parent.map (Forest.moved n n')
    children := x.children.map (Forest.moved n n') }

/-- The node `n` gives way to `n'`, a copy of it with the data `d`. -/
def replace (F : Forest N K) (n n' : N) (d : K) : Forest N K := fun a =>
  if a = n' then (F n).map fun x => { x.moved n n' with data := d }
  else if a = n then none
  else (F a).map (Entry.moved n n')

variable {F : Forest N K} {n n' : N} {d : K} {x : Entry N K}

theorem moved_injOn (hn' : F n' = none) {a b : N} (ha : F a ≠ none) (hb : F b ≠ none)
    (h : moved n n' a = moved n n' b) : a = b := by
  have hane : a ≠ n' := fun he => ha (he ▸ hn')
  have hbne : b ≠ n' := fun he => hb (he ▸ hn')
  unfold moved at h
  split at h <;> split at h
  · rw [‹a = n›, ‹b = n›]
  · exact absurd h.symm hbne
  · exact absurd h hane
  · exact h

/-- The nodes of the new forest are those of the old one under their new addresses. -/
theorem replace_eq_some (hn : F n = some x) (hn' : F n' = none) {b : N} {z : Entry N K} :
    F.replace n n' d b = some z ↔ ∃ a y, F a = some y ∧ b = moved n n' a ∧
      z = { y.moved n n' with data := if a = n then d else y.data } := by
  have hne : n ≠ n' := fun h => by rw [h, hn'] at hn; cases hn
  unfold replace
  constructor
  · intro h
    split at h
    · rename_i hb
      rw [hn] at h
      cases h
      exact ⟨n, x, hn, by simp [moved, hb], by simp⟩
    · split at h
      · cases h
      · rename_i hbn
        obtain ⟨y, hy, rfl⟩ := Option.map_eq_some_iff.mp h
        exact ⟨b, y, hy, by simp [moved, hbn], by rw [if_neg hbn]; rfl⟩
  · rintro ⟨a, y, ha, rfl, rfl⟩
    by_cases han : a = n
    · subst han
      rw [hn] at ha
      cases ha
      simp [moved, hn]
    · have han' : a ≠ n' := fun h => by rw [h, hn'] at ha; cases ha
      simp only [moved, if_neg han, if_neg han', ha, Option.map_some]
      rfl

/-- The links still agree. -/
theorem Linked.replace (h : Linked F) (hn : F n = some x) (hn' : F n' = none) :
    Linked (F.replace n n' d) := by
  constructor
  · intro p z c hp hc
    obtain ⟨a, y, ha, rfl, rfl⟩ := (replace_eq_some hn hn').mp hp
    obtain ⟨c₀, hc₀, rfl⟩ := List.mem_map.mp hc
    obtain ⟨w, hw, hwp⟩ := h.down ha hc₀
    exact ⟨_, (replace_eq_some hn hn').mpr ⟨c₀, w, hw, rfl, rfl⟩, by simp [Entry.moved, hwp]⟩
  · intro c z p hc hp
    obtain ⟨a, y, ha, rfl, rfl⟩ := (replace_eq_some hn hn').mp hc
    obtain ⟨p₀, hp₀, rfl⟩ := Option.map_eq_some_iff.mp hp
    obtain ⟨w, hw, hmem⟩ := h.up ha hp₀
    exact ⟨_, (replace_eq_some hn hn').mpr ⟨p₀, w, hw, rfl, rfl⟩, List.mem_map_of_mem hmem⟩
  · intro p z hp
    obtain ⟨a, y, ha, rfl, rfl⟩ := (replace_eq_some hn hn').mp hp
    refine (h.nodup ha).map_on fun b hb c hc hbc => ?_
    obtain ⟨w, hw, -⟩ := h.down ha hb
    obtain ⟨w', hw', -⟩ := h.down ha hc
    exact moved_injOn hn' (by simp [hw]) (by simp [hw']) hbc
  · intro p z hp hpp
    obtain ⟨a, y, ha, rfl, rfl⟩ := (replace_eq_some hn hn').mp hp
    obtain ⟨p₀, hp₀, heq⟩ := Option.map_eq_some_iff.mp hpp
    obtain ⟨w, hw, -⟩ := h.up ha hp₀
    obtain rfl := moved_injOn hn' (by simp [hw]) (by simp [ha]) heq
    exact h.irrefl ha hp₀

/-- A link of the new forest is a link of the old one. -/
theorem exists_link_of_replace (h : Linked F) (hn : F n = some x) (hn' : F n' = none) {c p : N}
    {y z : Entry N K} (hc : F.replace n n' d c = some y) (hp : F.replace n n' d p = some z)
    (hyp : y.parent = some p) :
    ∃ c₀ p₀ y₀ z₀, F c₀ = some y₀ ∧ F p₀ = some z₀ ∧ y₀.parent = some p₀ ∧ c = moved n n' c₀ ∧
      p = moved n n' p₀ ∧ y.data = (if c₀ = n then d else y₀.data) ∧
      z.data = if p₀ = n then d else z₀.data := by
  obtain ⟨c₀, y₀, hc₀, rfl, rfl⟩ := (replace_eq_some hn hn').mp hc
  obtain ⟨p₀, z₀, hp₀, rfl, rfl⟩ := (replace_eq_some hn hn').mp hp
  obtain ⟨q, hq, heq⟩ := Option.map_eq_some_iff.mp hyp
  obtain ⟨w, hw, -⟩ := h.up hc₀ hq
  obtain rfl := moved_injOn hn' (by simp [hw]) (by simp [hp₀]) heq
  exact ⟨c₀, q, y₀, z₀, hc₀, hp₀, hq, rfl, rfl, rfl, rfl⟩

/-- A node that is not its own parent is copied as it is. -/
theorem Linked.moved_self (h : Linked F) (hn : F n = some x) : x.moved n n' = x := by
  have hparent : x.parent.map (moved n n') = x.parent := by
    cases hp : x.parent with
    | none => rfl
    | some p =>
      have hpn : p ≠ n := fun he => h.irrefl hn (he ▸ hp)
      simp [moved, hpn]
  have hchildren : x.children.map (moved n n') = x.children := by
    refine (List.map_congr_left fun c hc => ?_).trans (List.map_id _)
    have hcn : c ≠ n := fun he => h.notMem_children hn (he ▸ hc)
    simp [moved, hcn]
  simp [Entry.moved, hparent, hchildren]

theorem Linked.replace_self (h : Linked F) (hn : F n = some x) (hn' : F n' = none) :
    F.replace n n' d n' = some { x with data := d } := by
  have hcopy := (replace_eq_some (d := d) hn hn').mpr ⟨n, x, hn, rfl, rfl⟩
  rwa [h.moved_self hn, if_pos rfl, moved, if_pos rfl] at hcopy

/-- What the copy has to look like, link by link. -/
theorem sub_replace {G : Forest N K} (h : Linked F) (hn : F n = some x) (hn' : F n' = none)
    (hcopy : G n' = some { x with data := d })
    (hrest : ∀ ⦃a y⦄, F a = some y → a ≠ n → G a = some
      { y with
        parent := if a ∈ x.children then some n' else y.parent
        children := if x.parent = some a then y.children.map (moved n n') else y.children }) :
    Sub (F.replace n n' d) G := by
  intro b z hb
  obtain ⟨a, y, ha, rfl, rfl⟩ := (replace_eq_some hn hn').mp hb
  by_cases han : a = n
  · subst han
    obtain rfl : x = y := Option.some.inj (hn.symm.trans ha)
    simp [h.moved_self hn, moved, hcopy]
  · rw [moved, if_neg han, if_neg han, hrest ha han]
    have hparent : (if a ∈ x.children then some n' else y.parent) = y.parent.map (moved n n') := by
      by_cases hmem : a ∈ x.children
      · rw [if_pos hmem, (h.mem_children_iff hn ha).mp hmem]
        simp [moved]
      · rw [if_neg hmem]
        cases hp : y.parent with
        | none => rfl
        | some p =>
          have hpn : p ≠ n := fun he => hmem ((h.mem_children_iff hn ha).mpr (he ▸ hp))
          simp [moved, hpn]
    have hchildren : (if x.parent = some a then y.children.map (moved n n') else y.children) =
        y.children.map (moved n n') := by
      split
      · rfl
      · rename_i hpa
        refine ((List.map_congr_left fun c hc => ?_).trans (List.map_id _)).symm
        have hcn : c ≠ n := fun he => hpa ((h.mem_children_iff ha hn).mp (he ▸ hc))
        simp [moved, hcn]
    simp only [Entry.moved, hparent, hchildren]

/-- The copy takes the place of the node. -/
theorem renames_replace {R : K → K → Prop} (hR : ∀ k, R k k) (hn : F n = some x) (hn' : F n' = none)
    (hd : R x.data d) : Renames R (moved n n') F (F.replace n n' d) where
  node a y ha := by
    refine ⟨if a = n then d else y.data, ?_, (replace_eq_some hn hn').mpr ⟨a, y, ha, rfl, rfl⟩⟩
    split
    · rename_i han
      obtain rfl : x = y := Option.some.inj (hn.symm.trans (han ▸ ha))
      exact hd
    · exact hR _
  surj b z hb := by
    obtain ⟨a, y, ha, rfl, -⟩ := (replace_eq_some hn hn').mp hb
    exact ⟨a, y, ha, rfl⟩
  inj a b ha hb := moved_injOn hn' ha hb

end Replace

/-! ### A root becomes a child -/

section Adopt

/-- The root `c` becomes the `i`-th child of `p`. -/
def adopt (F : Forest N K) (p : N) (i : ℕ) (c : N) : Forest N K := fun a =>
  if a = c then (F c).map fun y => { y with parent := some p }
  else if a = p then (F p).map fun x => { x with children := x.children.insertIdx i c }
  else F a

variable {F : Forest N K} {p c : N} {i : ℕ} {x y : Entry N K}

/-- A node after the adoption is a node before it, with the same data and the same parent
unless it is the one that is adopted. -/
theorem adopt_eq_some {a : N} {z : Entry N K} (h : F.adopt p i c a = some z) :
    ∃ w, F a = some w ∧ z.data = w.data ∧ z.parent = (if a = c then some p else w.parent) ∧
      z.children = (if a = p ∧ a ≠ c then w.children.insertIdx i c else w.children) := by
  unfold adopt at h
  split at h
  · rename_i ha
    obtain ⟨w, hw, rfl⟩ := Option.map_eq_some_iff.mp h
    exact ⟨w, ha ▸ hw, rfl, by simp [ha], by simp [ha]⟩
  · rename_i ha
    split at h
    · rename_i hap
      obtain ⟨w, hw, rfl⟩ := Option.map_eq_some_iff.mp h
      exact ⟨w, hap ▸ hw, rfl, by simp [ha], by rw [if_pos ⟨hap, ha⟩]⟩
    · rename_i hap
      exact ⟨z, h, rfl, by simp [ha], by simp [hap]⟩

theorem exists_adopt {a : N} {w : Entry N K} (h : F a = some w) :
    ∃ z, F.adopt p i c a = some z ∧ z.data = w.data ∧
      z.parent = (if a = c then some p else w.parent) ∧
      z.children = (if a = p ∧ a ≠ c then w.children.insertIdx i c else w.children) := by
  by_cases hac : a = c
  · subst hac
    exact ⟨{ w with parent := some p }, by simp [adopt, h], rfl, by simp, by simp⟩
  · by_cases hap : a = p
    · refine ⟨{ w with children := w.children.insertIdx i c }, ?_, rfl, by simp [hac], ?_⟩
      · subst hap
        simp [adopt, hac, h]
      · rw [if_pos ⟨hap, hac⟩]
    · exact ⟨w, by simp [adopt, hac, hap, h], rfl, by simp [hac], by simp [hap]⟩

/-- The links still agree. -/
theorem Linked.adopt (h : Linked F) (hp : F p = some x) (hc : F c = some y)
    (hroot : y.parent = none) (hpc : p ≠ c) (hi : i ≤ x.children.length) :
    Linked (F.adopt p i c) := by
  have hnot {a : N} {w : Entry N K} (ha : F a = some w) : c ∉ w.children := by
    intro hmem
    obtain ⟨y', hy', hya⟩ := h.down ha hmem
    rw [hc] at hy'
    cases hy'
    rw [hroot] at hya
    cases hya
  constructor
  · intro q z a hq ha
    obtain ⟨w, hw, -, -, hch⟩ := adopt_eq_some hq
    have hstay (ha : a ∈ w.children) : ∃ y, F.adopt p i c a = some y ∧ y.parent = some q := by
      obtain ⟨v, hv, hvq⟩ := h.down hw ha
      obtain ⟨v', hv', -, hpar, -⟩ := exists_adopt (p := p) (i := i) (c := c) hv
      have hac : a ≠ c := fun he => hnot hw (he ▸ ha)
      exact ⟨v', hv', by rw [hpar, if_neg hac, hvq]⟩
    rw [hch] at ha
    split at ha
    · rename_i hqp
      rw [hqp.1, hp] at hw
      cases hw
      cases (List.mem_insertIdx hi).mp ha with
      | inl hac =>
        obtain ⟨v', hv', -, hpar, -⟩ := exists_adopt (p := p) (i := i) (c := c) hc
        exact ⟨v', hac ▸ hv', by rw [hpar, if_pos rfl, hqp.1]⟩
      | inr ha => exact hstay ha
    · exact hstay ha
  · intro a z q ha hq
    obtain ⟨w, hw, -, hpar, -⟩ := adopt_eq_some ha
    rw [hpar] at hq
    split at hq
    · rename_i hac
      cases hq
      obtain ⟨x', hx', -, -, hch⟩ := exists_adopt (p := p) (i := i) (c := c) hp
      refine ⟨x', hx', ?_⟩
      rw [hch, if_pos ⟨rfl, hpc⟩, List.mem_insertIdx hi]
      exact Or.inl hac
    · obtain ⟨v, hv, hmem⟩ := h.up hw hq
      obtain ⟨v', hv', -, -, hch⟩ := exists_adopt (p := p) (i := i) (c := c) hv
      refine ⟨v', hv', ?_⟩
      rw [hch]
      split
      · rename_i hqp
        rw [hqp.1, hp] at hv
        cases hv
        exact (List.mem_insertIdx hi).mpr (Or.inr hmem)
      · exact hmem
  · intro q z hq
    obtain ⟨w, hw, -, -, hch⟩ := adopt_eq_some hq
    rw [hch]
    split
    · rename_i hqp
      rw [hqp.1, hp] at hw
      cases hw
      have hperm := List.perm_insertIdx c x.children hi
      exact hperm.nodup_iff.mpr (List.nodup_cons.mpr ⟨hnot hp, h.nodup hp⟩)
    · exact h.nodup hw
  · intro q z hq hqq
    obtain ⟨w, hw, -, hpar, -⟩ := adopt_eq_some hq
    rw [hpar] at hqq
    split at hqq
    · rename_i hqc
      exact hpc ((Option.some.inj hqq).trans hqc)
    · exact h.irrefl hw hqq

/-- There is one more link. -/
theorem Edges.adopt {R : K → K → Prop} (h : Edges R F) (hp : F p = some x) (hc : F c = some y)
    (hR : R y.data x.data) : Edges R (F.adopt p i c) := by
  intro a q z v ha hq haq
  obtain ⟨w, hw, hdata, hpar, -⟩ := adopt_eq_some ha
  obtain ⟨u, hu, hdata', -, -⟩ := adopt_eq_some hq
  rw [hdata, hdata']
  rw [hpar] at haq
  split at haq
  · rename_i hac
    cases haq
    rw [hac, hc] at hw
    rw [hp] at hu
    cases hw
    cases hu
    exact hR
  · exact h hw hu haq

end Adopt

end Forest
