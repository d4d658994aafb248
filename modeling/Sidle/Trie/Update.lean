import Sidle.Trie.Basic

/-!
# Updates of a trie

The four ways in which an insertion changes a path-compressed trie, as maps between
tries: the first word, a new leaf below an existing node, a new node in the middle of an
edge, and a node that gives way to a copy of itself under a new name.  Each comes with
the words it stores.

## Main definitions

* `Trie.ofLeaf`, `Trie.addLeaf`, `Trie.split`, `Trie.rename` — the updates.

## Main results

* `Trie.stored_ofLeaf`, `stored_addLeaf`, `stored_split`, `stored_rename`.
-/

variable {ν β : Type} {L : ℕ}

deriving instance DecidableEq for Place

namespace Trie

/-- The trie of one word. -/
def ofLeaf (ν : Type) (k : List β) (hk : k.length = L) : Trie ν β L where
  root := some (.leaf k)
  live _ := False
  label _ := []
  edge _ _ := none
  root_node := by simp
  root_leaf := by rintro _ ⟨⟩; exact hk
  edge_node := by simp
  edge_leaf := by simp
  edge_word := by simp
  label_length := by simp
  label_inj := by simp
  incoming := by simp

theorem branching_ofLeaf {k : List β} (hk : k.length = L) : (ofLeaf ν k hk).Branching :=
  fun _ hn => hn.elim

theorem stored_ofLeaf {k : List β} (hk : k.length = L) (k' : List β) :
    (ofLeaf ν k hk).Stored k' ↔ k' = k := by
  constructor
  · rintro ⟨q | ⟨n, b⟩, hq, h⟩
    · simpa [ofLeaf, eq_comm] using h
    · exact hq.elim
  · rintro rfl
    exact ⟨.root, trivial, rfl⟩

/-! ### When a trie can be updated -/

/-- What it takes to put a new node `ν` labelled `l` at the place `q`, which leads to `r`,
such that `r` goes on with `b'` below it and a new leaf `k` with `b`. -/
structure CanSplit (t : Trie ν β L) (q : Place ν β) (r : Ref ν β) (new_ : ν) (l : List β)
    (b' b : β) (k : List β) : Prop where
  place : t.IsPlace q
  get : t.get q = some r
  fresh : ¬ t.live new_
  path : t.path q <+: l
  old_word : l ++ [b'] <+: r.word t.label
  new_word : l ++ [b] <+: k
  ne : b ≠ b'
  length : k.length = L

section

variable {t : Trie ν β L} {q : Place ν β} {r : Ref ν β} {new_ : ν} {l : List β} {b' b : β}
  {k : List β}

namespace CanSplit

variable (hc : CanSplit t q r new_ l b' b k)

include hc

theorem ne_of_live {m : ν} (hm : t.live m) : m ≠ new_ := fun h => hc.fresh (h ▸ hm)

/-- No node has the label of the new node. -/
theorem label_ne {m : ν} (hm : t.live m) : t.label m ≠ l := by
  rintro rfl
  obtain ⟨c, hget, hcm⟩ := place_covers hc.place hm hc.path
  obtain rfl : r = .node c := by simpa [hc.get] using hget
  exact absurd hcm.length_le (Nat.not_le.mpr hc.old_word.length_lt_of_append_singleton)

theorem live_of_ref : ∀ c, r = .node c → t.live c := by
  rintro c rfl
  exact live_of_place hc.place hc.get

end CanSplit

end

/-- What it takes to let the node `n` at the place `q` give way to `new_`. -/
structure CanRename (t : Trie ν β L) (q : Place ν β) (n new_ : ν) : Prop where
  place : t.IsPlace q
  get : t.get q = some (.node n)
  fresh : ¬ t.live new_

section

variable {t : Trie ν β L} {q : Place ν β} {n new_ : ν}

namespace CanRename

variable (hc : CanRename t q n new_)

include hc

theorem live : t.live n := live_of_place hc.place hc.get

theorem ne_of_live {m : ν} (hm : t.live m) : m ≠ new_ := fun h => hc.fresh (h ▸ hm)

/-- No edge of `n` leads to `n`. -/
theorem edge_ne {b : β} : t.edge n b ≠ some (.node n) := fun h =>
  absurd (length_lt_of_edge hc.live h) (Nat.lt_irrefl _)

/-- Only the place `q` leads to `n`. -/
theorem get_ne {p : Place ν β} (hp : t.IsPlace p) (hpq : p ≠ q) : t.get p ≠ some (.node n) :=
  fun h => hpq (place_unique hp hc.place h hc.get)

theorem place_edge_ne {b : β} : Place.edge n b ≠ q := by
  rintro rfl
  exact hc.edge_ne hc.get

end CanRename

end

/-! ### Redirecting a place -/

variable [DecidableEq ν] [DecidableEq β] (t : Trie ν β L)

/-- The references after the place `q` has been redirected to `r`. -/
def getSet (q : Place ν β) (r : Ref ν β) (p : Place ν β) : Option (Ref ν β) :=
  if p = q then some r else t.get p

@[simp] theorem getSet_self (q : Place ν β) (r : Ref ν β) : t.getSet q r q = some r := if_pos rfl

theorem getSet_of_ne {q p : Place ν β} (r : Ref ν β) (h : p ≠ q) : t.getSet q r p = t.get p :=
  if_neg h

variable {t}

/-- What a redirected reference may be. -/
theorem getSet_eq_some {q p : Place ν β} {r r' : Ref ν β} (h : t.getSet q r p = some r') :
    p = q ∧ r' = r ∨ p ≠ q ∧ t.get p = some r' := by
  unfold getSet at h
  split at h
  · exact Or.inl ⟨‹_›, by simpa [eq_comm] using h⟩
  · exact Or.inr ⟨‹_›, h⟩

theorem getSet_ne_none {q p : Place ν β} (r : Ref ν β) (h : t.get p ≠ none) :
    t.getSet q r p ≠ none := by
  unfold getSet
  split
  · simp
  · exact h

/-! ### A new leaf -/

section AddLeaf

variable (t) (n : ν) (b : β) (k : List β)

/-- The trie with a new leaf at the edge `(n, b)`. -/
def addLeaf (hn : t.live n) (hb : t.edge n b = none) (hw : t.label n ++ [b] <+: k)
    (hk : k.length = L) : Trie ν β L where
  root := t.root
  live := t.live
  label := t.label
  edge m c := t.getSet (.edge n b) (.leaf k) (.edge m c)
  root_node := t.root_node
  root_leaf := t.root_leaf
  edge_node m c d hm h := by
    rcases getSet_eq_some h with ⟨-, hd⟩ | ⟨-, h⟩
    · simp at hd
    · exact t.edge_node m c d hm h
  edge_leaf m c k' hm h := by
    rcases getSet_eq_some h with ⟨-, hd⟩ | ⟨-, h⟩
    · obtain rfl : k' = k := by simpa using hd
      exact hk
    · exact t.edge_leaf m c k' hm h
  edge_word m c r hm h := by
    rcases getSet_eq_some h with ⟨hp, rfl⟩ | ⟨-, h⟩
    · obtain ⟨rfl, rfl⟩ : m = n ∧ c = b := by simpa using hp
      exact hw
    · exact t.edge_word m c r hm h
  label_length := t.label_length
  label_inj := t.label_inj
  incoming c hc := by
    rcases t.incoming c hc with h | ⟨m, d, hm, h⟩
    · exact Or.inl h
    · refine Or.inr ⟨m, d, hm, ?_⟩
      rw [getSet_of_ne]
      · exact h
      · rintro ⟨rfl, rfl⟩
        simp [h] at hb

variable {t n b k} in
theorem Branching.addLeaf (ht : t.Branching) (hn : t.live n) (hb : t.edge n b = none)
    (hw : t.label n ++ [b] <+: k) (hk : k.length = L) :
    (t.addLeaf n b k hn hb hw hk).Branching := by
  intro m hm
  obtain ⟨c, d, hcd, hc, hd⟩ := ht m hm
  exact ⟨c, d, hcd, getSet_ne_none (p := .edge m c) _ hc, getSet_ne_none (p := .edge m d) _ hd⟩

theorem stored_addLeaf (hn : t.live n) (hb : t.edge n b = none) (hw : t.label n ++ [b] <+: k)
    (hk : k.length = L) (k' : List β) :
    (t.addLeaf n b k hn hb hw hk).Stored k' ↔ t.Stored k' ∨ k' = k := by
  constructor
  · rintro ⟨q | ⟨m, c⟩, hq, h⟩
    · exact Or.inl ⟨.root, trivial, h⟩
    · rcases getSet_eq_some h with ⟨-, hd⟩ | ⟨-, h⟩
      · exact Or.inr (by simpa using hd)
      · exact Or.inl ⟨.edge m c, hq, h⟩
  · rintro (⟨q | ⟨m, c⟩, hq, h⟩ | rfl)
    · exact ⟨.root, trivial, h⟩
    · refine ⟨.edge m c, hq, ?_⟩
      rw [get_edge]
      refine (getSet_of_ne t _ ?_).trans h
      rintro ⟨rfl, rfl⟩
      simp [hb] at h
    · exact ⟨.edge n b, hn, getSet_self t _ _⟩

end AddLeaf

/-! ### A new node in the middle of an edge -/

section Split

variable {q : Place ν β} {r : Ref ν β} {new_ : ν} {l : List β} {b' b : β} {k : List β}

/-- The edges after a split. -/
def splitEdge (t : Trie ν β L) (q : Place ν β) (r : Ref ν β) (new_ : ν) (b' b : β) (k : List β)
    (m : ν) (c : β) : Option (Ref ν β) :=
  if m = new_ then if c = b then some (.leaf k) else if c = b' then some r else none
  else t.getSet q (.node new_) (.edge m c)

theorem splitEdge_eq_some {m : ν} {c : β} {s : Ref ν β}
    (h : splitEdge t q r new_ b' b k m c = some s) :
    (m = new_ ∧ (c = b ∧ s = .leaf k ∨ c = b' ∧ s = r)) ∨
      (m ≠ new_ ∧ (Place.edge m c = q ∧ s = .node new_ ∨
        Place.edge m c ≠ q ∧ t.edge m c = some s)) := by
  unfold splitEdge at h
  split at h
  · refine Or.inl ⟨‹_›, ?_⟩
    split at h
    · exact Or.inl ⟨‹_›, by simpa [eq_comm] using h⟩
    · split at h
      · exact Or.inr ⟨‹_›, by simpa [eq_comm] using h⟩
      · simp at h
  · exact Or.inr ⟨‹_›, getSet_eq_some h⟩

/-- A split edge leads to what it led to, below the new node. -/
theorem splitEdge_old (hc : CanSplit t q r new_ l b' b k) :
    splitEdge t q r new_ b' b k new_ b' = some r := by
  simp [splitEdge, hc.ne.symm]

theorem splitEdge_new (t : Trie ν β L) : splitEdge t q r new_ b' b k new_ b = some (.leaf k) := by
  simp [splitEdge]

theorem splitEdge_of_ne {m : ν} {c : β} (hm : m ≠ new_) :
    splitEdge t q r new_ b' b k m c = t.getSet q (.node new_) (.edge m c) := if_neg hm

omit [DecidableEq β] in
theorem CanSplit.word_update (hc : CanSplit t q r new_ l b' b k) (l' : List β) :
    r.word (Function.update t.label new_ l') = r.word t.label := by
  cases r with
  | node c => exact Function.update_of_ne (hc.ne_of_live (hc.live_of_ref c rfl)) _ _
  | leaf k => rfl

/-- The trie with a new node in the middle of the edge at `q`. -/
def split (t : Trie ν β L) (q : Place ν β) (r : Ref ν β) (new_ : ν) (l : List β) (b' b : β)
    (k : List β) (hc : CanSplit t q r new_ l b' b k) : Trie ν β L where
  root := t.getSet q (.node new_) .root
  live m := m = new_ ∨ t.live m
  label := Function.update t.label new_ l
  edge := splitEdge t q r new_ b' b k
  root_node n h := by
    rcases getSet_eq_some h with ⟨-, hn⟩ | ⟨-, h⟩
    · exact Or.inl (by simpa using hn)
    · exact Or.inr (t.root_node n h)
  root_leaf k' h := by
    rcases getSet_eq_some h with ⟨-, hn⟩ | ⟨-, h⟩
    · simp at hn
    · exact t.root_leaf k' h
  edge_node m c d hm h := by
    rcases splitEdge_eq_some h with ⟨-, ⟨-, hd⟩ | ⟨-, hd⟩⟩ | ⟨hne, ⟨-, hd⟩ | ⟨-, h⟩⟩
    · simp at hd
    · exact Or.inr (hc.live_of_ref d hd.symm)
    · exact Or.inl (by simpa using hd)
    · exact Or.inr (t.edge_node m c d (hm.resolve_left hne) h)
  edge_leaf m c k' hm h := by
    rcases splitEdge_eq_some h with ⟨-, ⟨-, hd⟩ | ⟨-, hd⟩⟩ | ⟨hne, ⟨-, hd⟩ | ⟨-, h⟩⟩
    · obtain rfl : k' = k := by simpa using hd
      exact hc.length
    · subst hd
      exact length_of_stored ⟨q, hc.place, hc.get⟩
    · simp at hd
    · exact t.edge_leaf m c k' (hm.resolve_left hne) h
  edge_word m c s hm h := by
    rcases splitEdge_eq_some h with ⟨rfl, ⟨rfl, rfl⟩ | ⟨rfl, rfl⟩⟩ | ⟨hne, ⟨rfl, rfl⟩ | ⟨-, h⟩⟩
    · simpa using hc.new_word
    · rw [hc.word_update, Function.update_self]
      exact hc.old_word
    · rw [Ref.word_node, Function.update_self, Function.update_of_ne hne]
      exact hc.path
    · have hm' := hm.resolve_left hne
      have hw := t.edge_word m c s hm' h
      rw [Function.update_of_ne hne]
      cases s with
      | node d =>
        rwa [Ref.word_node, Function.update_of_ne (hc.ne_of_live (t.edge_node m c d hm' h))]
      | leaf k' => exact hw
  label_length m hm := by
    by_cases hne : m = new_
    · rw [hne, Function.update_self, ← hc.length]
      exact hc.new_word.length_lt_of_append_singleton
    · rw [Function.update_of_ne hne]
      exact t.label_length m (hm.resolve_left hne)
  label_inj m m' hm hm' h := by
    by_cases hne : m = new_ <;> by_cases hne' : m' = new_
    · rw [hne, hne']
    · rw [hne, Function.update_self, Function.update_of_ne hne'] at h
      exact absurd h.symm (hc.label_ne (hm'.resolve_left hne'))
    · rw [hne', Function.update_self, Function.update_of_ne hne] at h
      exact absurd h (hc.label_ne (hm.resolve_left hne))
    · rw [Function.update_of_ne hne, Function.update_of_ne hne'] at h
      exact t.label_inj m m' (hm.resolve_left hne) (hm'.resolve_left hne') h
  incoming c hcl := by
    rcases hcl with rfl | hcl
    · -- the new node is at `q`
      rcases hq : q with _ | ⟨n, d⟩
      · exact Or.inl (getSet_self t _ _)
      · have hn : t.live n := by simpa [hq] using hc.place
        refine Or.inr ⟨n, d, Or.inr hn, ?_⟩
        rw [splitEdge_of_ne (hc.ne_of_live hn), getSet_self]
    · -- a node at `q` is below the new node, every other one where it was
      obtain ⟨p, hp, hpc⟩ : ∃ p, t.IsPlace p ∧ t.get p = some (.node c) := by
        rcases t.incoming c hcl with h | ⟨n, d, hn, h⟩
        · exact ⟨.root, trivial, h⟩
        · exact ⟨.edge n d, hn, h⟩
      by_cases hpq : p = q
      · subst hpq
        obtain rfl : r = .node c := by simpa [hc.get] using hpc
        exact Or.inr ⟨new_, b', Or.inl rfl, splitEdge_old hc⟩
      · rcases p with _ | ⟨n, d⟩
        · exact Or.inl ((getSet_of_ne t _ hpq).trans hpc)
        · refine Or.inr ⟨n, d, Or.inr hp, ?_⟩
          rw [splitEdge_of_ne (hc.ne_of_live hp)]
          exact (getSet_of_ne t _ hpq).trans hpc

theorem Branching.split (ht : t.Branching) (hc : CanSplit t q r new_ l b' b k) :
    (t.split q r new_ l b' b k hc).Branching := by
  intro m hm
  by_cases hne : m = new_
  · subst hne
    exact ⟨b, b', hc.ne, fun h => by simp [Trie.split, splitEdge_new] at h,
      fun h => by simp [Trie.split, splitEdge_old hc] at h⟩
  · obtain ⟨c, d, hcd, hec, hed⟩ := ht m (hm.resolve_left hne)
    refine ⟨c, d, hcd, ?_, ?_⟩ <;> simp only [Trie.split, splitEdge_of_ne hne]
    · exact getSet_ne_none (p := .edge m c) _ hec
    · exact getSet_ne_none (p := .edge m d) _ hed

/-- The places of a split trie that lead to a node. -/
theorem split_get_node (hc : CanSplit t q r new_ l b' b k) {p : Place ν β} {x : ν}
    (hp : (t.split q r new_ l b' b k hc).IsPlace p)
    (h : (t.split q r new_ l b' b k hc).get p = some (.node x)) :
    (p = q ∧ x = new_) ∨ (p = .edge new_ b' ∧ r = .node x) ∨
      (t.IsPlace p ∧ t.get p = some (.node x) ∧ r ≠ .node x) := by
  have old {p : Place ν β} (hp : t.IsPlace p) (hpq : p ≠ q) (h : t.get p = some (.node x)) :
      r ≠ .node x :=
    fun hr => hpq (place_unique hp hc.place h (hr ▸ hc.get))
  rcases p with _ | ⟨m, c⟩
  · rcases getSet_eq_some h with ⟨hq, hx⟩ | ⟨hq, hx⟩
    · exact Or.inl ⟨hq, by simpa using hx⟩
    · exact Or.inr (Or.inr ⟨trivial, hx, old (isPlace_root t) hq hx⟩)
  · rcases splitEdge_eq_some h with ⟨rfl, ⟨-, hd⟩ | ⟨rfl, hr⟩⟩ | ⟨hne, ⟨hq, hx⟩ | ⟨hq, hx⟩⟩
    · simp at hd
    · exact Or.inr (Or.inl ⟨rfl, hr.symm⟩)
    · exact Or.inl ⟨hq, by simpa using hx⟩
    · have hm : t.live m := hp.resolve_left hne
      exact Or.inr (Or.inr ⟨hm, hx, old (p := .edge m c) hm hq hx⟩)

/-- The path to a place does not change. -/
theorem split_path (hc : CanSplit t q r new_ l b' b k) {p : Place ν β} (hp : t.IsPlace p) :
    (t.split q r new_ l b' b k hc).path p = t.path p := by
  rcases p with _ | ⟨m, c⟩
  · rfl
  · simp only [path_edge, split]
    rw [Function.update_of_ne (hc.ne_of_live hp)]

theorem split_label_new (hc : CanSplit t q r new_ l b' b k) :
    (t.split q r new_ l b' b k hc).label new_ = l := Function.update_self ..

theorem split_label_of_live (hc : CanSplit t q r new_ l b' b k) {m : ν} (hm : t.live m) :
    (t.split q r new_ l b' b k hc).label m = t.label m :=
      Function.update_of_ne (hc.ne_of_live hm) ..

theorem split_edge_of_live (hc : CanSplit t q r new_ l b' b k) {m : ν} (hm : t.live m) (c : β) :
    (t.split q r new_ l b' b k hc).edge m c = t.getSet q (.node new_) (.edge m c) :=
  splitEdge_of_ne (hc.ne_of_live hm)

theorem stored_split (hc : CanSplit t q r new_ l b' b k) (k' : List β) :
    (t.split q r new_ l b' b k hc).Stored k' ↔ t.Stored k' ∨ k' = k := by
  constructor
  · rintro ⟨p | ⟨m, c⟩, hp, h⟩
    · rcases getSet_eq_some h with ⟨-, hd⟩ | ⟨-, h⟩
      · simp at hd
      · exact Or.inl ⟨.root, trivial, h⟩
    · rcases splitEdge_eq_some h with ⟨-, ⟨-, hd⟩ | ⟨-, rfl⟩⟩ | ⟨hne, ⟨-, hd⟩ | ⟨-, h⟩⟩
      · exact Or.inr (by simpa using hd)
      · exact Or.inl ⟨q, hc.place, hc.get⟩
      · simp at hd
      · exact Or.inl ⟨.edge m c, hp.resolve_left hne, h⟩
  · rintro (⟨p, hp, h⟩ | rfl)
    · by_cases hpq : p = q
      · subst hpq
        obtain rfl : r = .leaf k' := by simpa [hc.get] using h
        exact ⟨.edge new_ b', Or.inl rfl, splitEdge_old hc⟩
      · rcases p with _ | ⟨m, c⟩
        · exact ⟨.root, trivial, (getSet_of_ne t _ hpq).trans h⟩
        · refine ⟨.edge m c, Or.inr hp, ?_⟩
          rw [get_edge]
          refine (splitEdge_of_ne (hc.ne_of_live hp)).trans ?_
          exact (getSet_of_ne t _ hpq).trans h
    · exact ⟨.edge new_ b, Or.inl rfl, splitEdge_new t⟩

end Split

/-! ### A copy of a node -/

section Rename

variable {q : Place ν β} {n new_ : ν}

/-- The edges after a node has been replaced by its copy. -/
def renameEdge (t : Trie ν β L) (q : Place ν β) (n new_ m : ν) (c : β) : Option (Ref ν β) :=
  if m = new_ then t.edge n c else t.getSet q (.node new_) (.edge m c)

theorem renameEdge_self (t : Trie ν β L) (c : β) : renameEdge t q n new_ new_ c = t.edge n c :=
  if_pos rfl

theorem renameEdge_of_ne {m : ν} {c : β} (hm : m ≠ new_) :
    renameEdge t q n new_ m c = t.getSet q (.node new_) (.edge m c) := if_neg hm

/-- An edge of a node other than the copy either is the redirected one or is as before. -/
theorem renameEdge_eq_some {m : ν} {c : β} {s : Ref ν β} (h : renameEdge t q n new_ m c = some s) :
    (m = new_ ∧ t.edge n c = some s) ∨
      (m ≠ new_ ∧ (Place.edge m c = q ∧ s = .node new_ ∨
        Place.edge m c ≠ q ∧ t.edge m c = some s)) := by
  unfold renameEdge at h
  split at h
  · exact Or.inl ⟨‹_›, h⟩
  · exact Or.inr ⟨‹_›, getSet_eq_some h⟩

/-- The trie in which `n` has given way to its copy `new_`. -/
def rename (t : Trie ν β L) (q : Place ν β) (n new_ : ν) (hc : CanRename t q n new_) :
    Trie ν β L where
  root := t.getSet q (.node new_) .root
  live m := m = new_ ∨ (t.live m ∧ m ≠ n)
  label := Function.update t.label new_ (t.label n)
  edge := renameEdge t q n new_
  root_node m h := by
    rcases getSet_eq_some h with ⟨-, hm⟩ | ⟨hq, h⟩
    · exact Or.inl (by simpa using hm)
    · refine Or.inr ⟨t.root_node m h, ?_⟩
      rintro rfl
      exact hc.get_ne (isPlace_root t) hq h
  root_leaf k h := by
    rcases getSet_eq_some h with ⟨-, hm⟩ | ⟨-, h⟩
    · simp at hm
    · exact t.root_leaf k h
  edge_node m c d hm h := by
    rcases renameEdge_eq_some h with ⟨-, hs⟩ | ⟨hne, ⟨-, hd⟩ | ⟨hq, hs⟩⟩
    · refine Or.inr ⟨t.edge_node n c d hc.live hs, ?_⟩
      rintro rfl
      exact hc.edge_ne hs
    · exact Or.inl (by simpa using hd)
    · have hm' := (hm.resolve_left hne).1
      refine Or.inr ⟨t.edge_node m c d hm' hs, ?_⟩
      rintro rfl
      exact hc.get_ne (p := .edge m c) hm' hq hs
  edge_leaf m c k hm h := by
    rcases renameEdge_eq_some h with ⟨-, h⟩ | ⟨hne, ⟨-, hd⟩ | ⟨-, h⟩⟩
    · exact t.edge_leaf n c k hc.live h
    · simp at hd
    · exact t.edge_leaf m c k (hm.resolve_left hne).1 h
  edge_word m c s hm h := by
    have word {m : ν} {c : β} (hm : t.live m) (h : t.edge m c = some s) :
        s.word (Function.update t.label new_ (t.label n)) = s.word t.label := by
      cases s with
      | node d => exact Function.update_of_ne (hc.ne_of_live (t.edge_node m c d hm h)) _ _
      | leaf k => rfl
    rcases renameEdge_eq_some h with ⟨rfl, hs⟩ | ⟨hne, ⟨hq, rfl⟩ | ⟨-, hs⟩⟩
    · rw [word hc.live hs, Function.update_self]
      exact t.edge_word n c s hc.live hs
    · subst hq
      rw [Ref.word_node, Function.update_self, Function.update_of_ne hne]
      exact t.edge_word m c _ hc.place hc.get
    · have hm' := (hm.resolve_left hne).1
      rw [word hm' hs, Function.update_of_ne hne]
      exact t.edge_word m c s hm' hs
  label_length m hm := by
    by_cases hne : m = new_
    · rw [hne, Function.update_self]
      exact t.label_length n hc.live
    · rw [Function.update_of_ne hne]
      exact t.label_length m (hm.resolve_left hne).1
  label_inj m m' hm hm' h := by
    by_cases hne : m = new_ <;> by_cases hne' : m' = new_
    · rw [hne, hne']
    · rw [hne, Function.update_self, Function.update_of_ne hne'] at h
      have hl := hm'.resolve_left hne'
      exact absurd (t.label_inj n m' hc.live hl.1 h).symm hl.2
    · rw [hne', Function.update_self, Function.update_of_ne hne] at h
      have hl := hm.resolve_left hne
      exact absurd (t.label_inj m n hl.1 hc.live h) hl.2
    · rw [Function.update_of_ne hne, Function.update_of_ne hne'] at h
      exact t.label_inj m m' (hm.resolve_left hne).1 (hm'.resolve_left hne').1 h
  incoming c hcl := by
    rcases hcl with rfl | ⟨hcl, hcn⟩
    · rcases hq : q with _ | ⟨m, d⟩
      · exact Or.inl (getSet_self t _ _)
      · have hm : t.live m := by simpa [hq] using hc.place
        have hmn : m ≠ n := by
          rintro rfl
          exact hc.place_edge_ne hq.symm
        refine Or.inr ⟨m, d, Or.inr ⟨hm, hmn⟩, ?_⟩
        rw [renameEdge_of_ne (hc.ne_of_live hm), getSet_self]
    · have hq {p : Place ν β} (hp : t.get p = some (.node c)) : p ≠ q := by
        rintro rfl
        exact hcn (by simpa [hc.get, eq_comm] using hp)
      rcases t.incoming c hcl with h | ⟨m, d, hm, h⟩
      · exact Or.inl ((getSet_of_ne t _ (hq (p := .root) h)).trans h)
      · by_cases hmn : m = n
        · exact Or.inr ⟨new_, d, Or.inl rfl, by rw [renameEdge_self, ← hmn, h]⟩
        · refine Or.inr ⟨m, d, Or.inr ⟨hm, hmn⟩, ?_⟩
          rw [renameEdge_of_ne (hc.ne_of_live hm)]
          exact (getSet_of_ne t _ (hq (p := .edge m d) h)).trans h

theorem Branching.rename (ht : t.Branching) (hc : CanRename t q n new_) :
    (t.rename q n new_ hc).Branching := by
  intro m hm
  by_cases hne : m = new_
  · subst hne
    obtain ⟨c, d, hcd, hec, hed⟩ := ht n hc.live
    exact ⟨c, d, hcd, by simpa only [Trie.rename, renameEdge_self],
      by simpa only [Trie.rename, renameEdge_self]⟩
  · obtain ⟨c, d, hcd, hec, hed⟩ := ht m (hm.resolve_left hne).1
    refine ⟨c, d, hcd, ?_, ?_⟩ <;> simp only [Trie.rename, renameEdge_of_ne hne]
    · exact getSet_ne_none (p := .edge m c) _ hec
    · exact getSet_ne_none (p := .edge m d) _ hed

/-- The places that lead to a node after a copy has taken over. -/
theorem rename_get_node (hc : CanRename t q n new_) {p : Place ν β} {x : ν}
    (hp : (t.rename q n new_ hc).IsPlace p)
    (h : (t.rename q n new_ hc).get p = some (.node x)) :
    (p = q ∧ x = new_) ∨ (∃ c, p = .edge new_ c ∧ t.edge n c = some (.node x)) ∨
      (t.IsPlace p ∧ t.get p = some (.node x) ∧ ∀ c, p ≠ .edge n c) := by
  rcases p with _ | ⟨m, c⟩
  · rcases getSet_eq_some h with ⟨hq, hx⟩ | ⟨-, hx⟩
    · exact Or.inl ⟨hq, by simpa using hx⟩
    · exact Or.inr (Or.inr ⟨trivial, hx, by simp⟩)
  · rcases renameEdge_eq_some h with ⟨rfl, hx⟩ | ⟨hne, ⟨hq, hx⟩ | ⟨-, hx⟩⟩
    · exact Or.inr (Or.inl ⟨c, rfl, hx⟩)
    · exact Or.inl ⟨hq, by simpa using hx⟩
    · obtain ⟨hm, hmn⟩ := hp.resolve_left hne
      exact Or.inr (Or.inr ⟨hm, hx, by simp [hmn]⟩)

theorem rename_path (hc : CanRename t q n new_) {p : Place ν β} (hp : t.IsPlace p) :
    (t.rename q n new_ hc).path p = t.path p := by
  rcases p with _ | ⟨m, c⟩
  · rfl
  · simp only [path_edge, rename]
    rw [Function.update_of_ne (hc.ne_of_live hp)]

theorem rename_label_new (hc : CanRename t q n new_) :
    (t.rename q n new_ hc).label new_ = t.label n := Function.update_self ..

theorem rename_label_of_live (hc : CanRename t q n new_) {m : ν} (hm : t.live m) :
    (t.rename q n new_ hc).label m = t.label m := Function.update_of_ne (hc.ne_of_live hm) ..

theorem rename_edge_new (hc : CanRename t q n new_) (c : β) :
    (t.rename q n new_ hc).edge new_ c = t.edge n c := renameEdge_self t c

theorem rename_edge_of_live (hc : CanRename t q n new_) {m : ν} (hm : t.live m) (c : β) :
    (t.rename q n new_ hc).edge m c = t.getSet q (.node new_) (.edge m c) :=
  renameEdge_of_ne (hc.ne_of_live hm)

theorem stored_rename (hc : CanRename t q n new_) (k : List β) :
    (t.rename q n new_ hc).Stored k ↔ t.Stored k := by
  constructor
  · rintro ⟨p | ⟨m, c⟩, hp, h⟩
    · rcases getSet_eq_some h with ⟨-, hd⟩ | ⟨-, h⟩
      · simp at hd
      · exact ⟨.root, trivial, h⟩
    · rcases renameEdge_eq_some h with ⟨-, h⟩ | ⟨hne, ⟨-, hd⟩ | ⟨-, h⟩⟩
      · exact ⟨.edge n c, hc.live, h⟩
      · simp at hd
      · exact ⟨.edge m c, (hp.resolve_left hne).1, h⟩
  · rintro ⟨p, hp, h⟩
    have hpq : p ≠ q := by
      rintro rfl
      simp [hc.get] at h
    rcases p with _ | ⟨m, c⟩
    · exact ⟨.root, trivial, (getSet_of_ne t _ hpq).trans h⟩
    · by_cases hmn : m = n
      · refine ⟨.edge new_ c, Or.inl rfl, ?_⟩
        rw [get_edge]
        exact (renameEdge_self t c).trans (hmn ▸ h)
      · refine ⟨.edge m c, Or.inr ⟨hp, hmn⟩, ?_⟩
        rw [get_edge]
        refine (renameEdge_of_ne (hc.ne_of_live hp)).trans ?_
        exact (getSet_of_ne t _ hpq).trans h

end Rename

end Trie
