import Mathlib.Data.List.Infix
import Mathlib.Logic.Function.Basic
import Mathlib.Data.Nat.Notation

/-!
# Path-compressed tries with named nodes

A set of words of one fixed length `L` is stored by a rooted tree whose inner nodes have
names: the *label* of a node is the word from the root to the node, its compressed
prefix included, and an edge `(n, b)` leads to a node or a leaf whose word extends
`label n ++ [b]`.  A `Trie` carries the laws of such a tree as fields, so an ill-formed
trie cannot be built, and the updates of `Sidle.Trie.Update` are maps between tries.

Everything rests on one fact, `Trie.edge_covers`: if the label of a node extends
`label n ++ [b]` then the edge `(n, b)` exists and leads towards that node.  It makes the
position of a word in the trie unique.

## Main definitions

* `Ref`, `Place` — what an edge leads to, and the places that hold such a reference.
* `Trie` — path-compressed tries.
* `Trie.Stored` — the words of a trie.

## Main results

* `Trie.edge_covers`, `Trie.place_covers` — edges lead towards every longer label.
* `Trie.stored_of_place` — where a stored word is found.
-/

variable {ν β : Type} {L : ℕ}

/-- What an edge leads to: a node, or a leaf that holds a word. -/
inductive Ref (ν β : Type)
  | node (n : ν)
  | leaf (k : List β)

/-- The places of a trie that hold a reference. -/
inductive Place (ν β : Type)
  | root
  | edge (n : ν) (b : β)

namespace Ref

/-- The word a reference stands for. -/
def word (label : ν → List β) : Ref ν β → List β
  | node n => label n
  | leaf k => k

@[simp] theorem word_node (label : ν → List β) (n : ν) :
    (node n : Ref ν β).word label = label n := rfl

@[simp] theorem word_leaf (label : ν → List β) (k : List β) :
    (leaf k : Ref ν β).word label = k := rfl

end Ref

/-! ### Words -/

theorem List.IsPrefix.append_singleton_inj {l m : List β} {b c : β} (hb : l ++ [b] <+: m)
    (hc : l ++ [c] <+: m) : b = c := by
  have h : l ++ [b] = l ++ [c] :=
    (List.prefix_of_prefix_length_le hb hc (by simp)).eq_of_length (by simp)
  simpa using h

theorem List.IsPrefix.left_of_append_singleton {l m : List β} {b : β} (h : l ++ [b] <+: m) :
    l <+: m :=
  (List.prefix_append l [b]).trans h

theorem List.IsPrefix.length_lt_of_append_singleton {l m : List β} {b : β} (h : l ++ [b] <+: m) :
    l.length < m.length := by
  have := h.length_le
  rw [List.length_append, List.length_singleton] at this
  omega

/-- Of two prefixes of one word the shorter one, with its next letter, is a prefix of the
longer one. -/
theorem List.IsPrefix.append_singleton_prefix {l l' m : List β} {b : β} (h : l ++ [b] <+: m)
    (h' : l' <+: m) (hlt : l.length < l'.length) : l ++ [b] <+: l' := by
  refine List.prefix_of_prefix_length_le h h' ?_
  rw [List.length_append, List.length_singleton]
  omega

/-- A word agrees with its prefix. -/
theorem List.IsPrefix.getElem?_eq {l m : List β} (h : l <+: m) {i : ℕ} (hi : i < l.length) :
    m[i]? = l[i]? := by
  rw [List.prefix_iff_getElem?.mp h i hi, List.getElem?_eq_getElem hi]

/-- A proper prefix is followed by a letter. -/
theorem List.IsPrefix.exists_append_singleton {l m : List β} (h : l <+: m)
    (hlt : l.length < m.length) : ∃ b, l ++ [b] <+: m := by
  obtain ⟨s, rfl⟩ := h
  cases s with
  | nil => simp at hlt
  | cons b s => exact ⟨b, s, by simp⟩

/-- `l ++ [b]` is a prefix exactly when `l` is one and is followed by `b`. -/
theorem List.append_singleton_prefix_iff {l m : List β} {b : β} :
    l ++ [b] <+: m ↔ l <+: m ∧ m[l.length]? = some b := by
  constructor
  · intro h
    refine ⟨h.left_of_append_singleton, ?_⟩
    obtain ⟨s, rfl⟩ := h
    simp
  · rintro ⟨⟨s, rfl⟩, h⟩
    cases s with
    | nil => simp at h
    | cons c s =>
      obtain rfl : c = b := by simpa using h
      exact ⟨s, by simp⟩

/-! ### Tries -/

/-- A path-compressed trie over words of length `L`. -/
structure Trie (ν β : Type) (L : ℕ) where
  /-- What the root pointer leads to. -/
  root : Option (Ref ν β)
  /-- The nodes of the tree. -/
  live : ν → Prop
  /-- The word from the root to a node, with the prefix of the node. -/
  label : ν → List β
  /-- The edges. -/
  edge : ν → β → Option (Ref ν β)
  root_node : ∀ n, root = some (.node n) → live n
  root_leaf : ∀ k, root = some (.leaf k) → k.length = L
  edge_node : ∀ n b c, live n → edge n b = some (.node c) → live c
  edge_leaf : ∀ n b k, live n → edge n b = some (.leaf k) → k.length = L
  edge_word : ∀ n b r, live n → edge n b = some r → label n ++ [b] <+: r.word label
  label_length : ∀ n, live n → (label n).length < L
  label_inj : ∀ n m, live n → live m → label n = label m → n = m
  incoming : ∀ c, live c →
    root = some (.node c) ∨ ∃ n b, live n ∧ edge n b = some (.node c)

namespace Trie

/-- The trie without words. -/
def empty (ν β : Type) (L : ℕ) : Trie ν β L where
  root := none
  live _ := False
  label _ := []
  edge _ _ := none
  root_node := by simp
  root_leaf := by simp
  edge_node := by simp
  edge_leaf := by simp
  edge_word := by simp
  label_length := by simp
  label_inj := by simp
  incoming := by simp

variable (t : Trie ν β L)

/-- The reference at a place. -/
def get : Place ν β → Option (Ref ν β)
  | .root => t.root
  | .edge n b => t.edge n b

/-- The word from the root to a place. -/
def path : Place ν β → List β
  | .root => []
  | .edge n b => t.label n ++ [b]

/-- A place of the tree. -/
def IsPlace : Place ν β → Prop
  | .root => True
  | .edge n _ => t.live n

/-- The words of a trie. -/
def Stored (k : List β) : Prop := ∃ q, t.IsPlace q ∧ t.get q = some (.leaf k)

/-- Every node has at least two edges. -/
def Branching : Prop := ∀ n, t.live n → ∃ b c, b ≠ c ∧ t.edge n b ≠ none ∧ t.edge n c ≠ none

@[simp] theorem get_root : t.get .root = t.root := rfl
@[simp] theorem get_edge (n : ν) (b : β) : t.get (.edge n b) = t.edge n b := rfl
@[simp] theorem path_root : t.path .root = [] := rfl
@[simp] theorem path_edge (n : ν) (b : β) : t.path (.edge n b) = t.label n ++ [b] := rfl
@[simp] theorem isPlace_root : t.IsPlace .root := trivial
@[simp] theorem isPlace_edge (n : ν) (b : β) : t.IsPlace (.edge n b) = t.live n := rfl

variable {t}

theorem branching_empty : (Trie.empty ν β L).Branching := fun _ hn => hn.elim

theorem not_stored_empty (k : List β) : ¬ (Trie.empty ν β L).Stored k := by
  rintro ⟨q | ⟨n, b⟩, hq, h⟩
  · simp [empty] at h
  · exact hq

/-! ### Climbing to the root -/

/-- The label of a parent is shorter. -/
theorem length_lt_of_edge {n c : ν} {b : β} (hn : t.live n) (h : t.edge n b = some (.node c)) :
    (t.label n).length < (t.label c).length :=
  (t.edge_word n b _ hn h).length_lt_of_append_singleton

/-- A tree with a node has a node for its root, and the label of the root is a prefix of
every label. -/
theorem exists_root_node {m : ν} (hm : t.live m) :
    ∃ r, t.root = some (.node r) ∧ t.label r <+: t.label m := by
  induction hd : (t.label m).length using Nat.strong_induction_on generalizing m with
  | _ d ih =>
    rcases t.incoming m hm with hr | ⟨n, b, hn, hnb⟩
    · exact ⟨m, hr, List.prefix_refl _⟩
    · obtain ⟨r, hr, hp⟩ := ih _ (hd ▸ length_lt_of_edge hn hnb) hn rfl
      exact ⟨r, hr, hp.trans (t.edge_word n b _ hn hnb).left_of_append_singleton⟩

/-! ### Edges lead towards longer labels -/

/-- If the label of the node `m` extends `label n ++ [b]`, the edge `(n, b)` leads to a
node on the way to `m`. -/
theorem edge_covers {n m : ν} {b : β} (hn : t.live n) (hm : t.live m)
    (h : t.label n ++ [b] <+: t.label m) :
    ∃ c, t.edge n b = some (.node c) ∧ t.label c <+: t.label m := by
  induction hd : (t.label m).length using Nat.strong_induction_on generalizing n m b with
  | _ d ih =>
    have hlen := h.length_lt_of_append_singleton
    rcases t.incoming m hm with hr | ⟨m', b', hm', hedge⟩
    · -- the label of the root is no longer than that of `n`
      obtain ⟨r, hr', hp⟩ := exists_root_node hn
      obtain rfl : r = m := by simpa [hr] using hr'.symm
      exact absurd hp.length_le (by omega)
    · have hm'm : t.label m' ++ [b'] <+: t.label m := t.edge_word m' b' _ hm' hedge
      have hlt : (t.label m').length < d := hd ▸ length_lt_of_edge hm' hedge
      rcases Nat.lt_trichotomy (t.label n).length (t.label m').length with hc | hc | hc
      · -- `n` is above the parent of `m`
        have hp : t.label n ++ [b] <+: t.label m' :=
          h.append_singleton_prefix hm'm.left_of_append_singleton hc
        obtain ⟨c, hc, hcm⟩ := ih _ hlt hn hm' hp rfl
        exact ⟨c, hc, hcm.trans hm'm.left_of_append_singleton⟩
      · -- `n` is the parent of `m`
        have heq : t.label n = t.label m' :=
          (List.prefix_of_prefix_length_le h.left_of_append_singleton
            hm'm.left_of_append_singleton (Nat.le_of_eq hc)).eq_of_length hc
        obtain rfl := t.label_inj n m' hn hm' heq
        obtain rfl := h.append_singleton_inj hm'm
        exact ⟨m, hedge, List.prefix_refl _⟩
      · -- `n` is below `m`, which is the child of `m'` on the way to `n`
        have hp : t.label m' ++ [b'] <+: t.label n :=
          hm'm.append_singleton_prefix h.left_of_append_singleton hc
        obtain ⟨c, hc', hcn⟩ := ih _ (by omega) hm' hn hp rfl
        obtain rfl : m = c := by simpa [hedge] using hc'
        exact absurd hcn.length_le (by omega)

/-- If the label of a node extends the path to a place, the place leads towards it. -/
theorem place_covers {q : Place ν β} {m : ν} (hq : t.IsPlace q) (hm : t.live m)
    (h : t.path q <+: t.label m) : ∃ c, t.get q = some (.node c) ∧ t.label c <+: t.label m := by
  cases q with
  | root => exact exists_root_node hm
  | edge n b => exact edge_covers hq hm h

/-- A node is reached through one place only. -/
theorem place_unique {q q' : Place ν β} {c : ν} (hq : t.IsPlace q) (hq' : t.IsPlace q')
    (h : t.get q = some (.node c)) (h' : t.get q' = some (.node c)) : q = q' := by
  -- a node below itself is too long
  have below {n : ν} {b : β} (hn : t.live n) (hnb : t.edge n b = some (.node c)) (hc : t.live c)
      {p : Place ν β} (hp : t.IsPlace p) (hpc : t.get p = some (.node c))
      (hle : t.path p <+: t.label n) : False := by
    obtain ⟨d, hd, hdn⟩ := place_covers hp hn hle
    obtain rfl : c = d := by simpa [hpc] using hd
    exact absurd hdn.length_le (Nat.not_le.mpr (length_lt_of_edge hn hnb))
  have live {p : Place ν β} (hp : t.IsPlace p) (hpc : t.get p = some (.node c)) : t.live c := by
    cases p with
    | root => exact t.root_node c hpc
    | edge n b => exact t.edge_node n b c hp hpc
  have hc := live hq h
  rcases q with _ | ⟨n, b⟩ <;> rcases q' with _ | ⟨n', b'⟩
  · rfl
  · exact (below hq' h' hc hq h (List.nil_prefix)).elim
  · exact (below hq h hc hq' h' (List.nil_prefix)).elim
  · have hw := t.edge_word n b _ hq h
    have hw' := t.edge_word n' b' _ hq' h'
    rcases Nat.lt_trichotomy (t.label n).length (t.label n').length with hlt | heq | hlt
    · exact (below hq' h' hc hq h
        (hw.append_singleton_prefix hw'.left_of_append_singleton hlt)).elim
    · have hl : t.label n = t.label n' :=
        (List.prefix_of_prefix_length_le hw.left_of_append_singleton
          hw'.left_of_append_singleton (Nat.le_of_eq heq)).eq_of_length heq
      obtain rfl := t.label_inj n n' hq hq' hl
      obtain rfl := hw.append_singleton_inj hw'
      rfl
    · exact (below hq h hc hq' h'
        (hw'.append_singleton_prefix hw.left_of_append_singleton hlt)).elim

/-! ### Where a stored word is found -/

/-- A stored word whose path comes to a place is at that place or below it. -/
theorem stored_of_place {q : Place ν β} {k : List β} (hq : t.IsPlace q) (hk : t.Stored k)
    (h : t.path q <+: k) :
    t.get q = some (.leaf k) ∨ ∃ c, t.get q = some (.node c) ∧ t.label c <+: k := by
  obtain ⟨p, hp, hpk⟩ := hk
  rcases q with _ | ⟨n, b⟩ <;> rcases p with _ | ⟨m, c⟩
  · exact Or.inl hpk
  · obtain ⟨r, hr, hrm⟩ := exists_root_node hp
    exact Or.inr ⟨r, hr, hrm.trans (t.edge_word m c _ hp hpk).left_of_append_singleton⟩
  · obtain ⟨r, hr, -⟩ := exists_root_node hq
    rw [get_root] at hpk
    simp [hpk] at hr
  · have hm : t.label m ++ [c] <+: k := t.edge_word m c _ hp hpk
    rcases Nat.lt_trichotomy (t.label n).length (t.label m).length with hlt | heq | hlt
    · have hp' : t.label n ++ [b] <+: t.label m :=
        List.IsPrefix.append_singleton_prefix h hm.left_of_append_singleton hlt
      obtain ⟨d, hd, hdm⟩ := edge_covers hq hp hp'
      exact Or.inr ⟨d, hd, hdm.trans hm.left_of_append_singleton⟩
    · have hl : t.label n = t.label m :=
        (List.prefix_of_prefix_length_le (List.IsPrefix.left_of_append_singleton h)
          hm.left_of_append_singleton (Nat.le_of_eq heq)).eq_of_length heq
      obtain rfl := t.label_inj n m hq hp hl
      obtain rfl := List.IsPrefix.append_singleton_inj h hm
      exact Or.inl hpk
    · have hp' : t.label m ++ [c] <+: t.label n :=
        hm.append_singleton_prefix (List.IsPrefix.left_of_append_singleton h) hlt
      obtain ⟨d, hd, -⟩ := edge_covers hp hq hp'
      rw [get_edge] at hpk
      simp [hpk] at hd

/-- The path to a place is a prefix of what it leads to. -/
theorem path_prefix_word {q : Place ν β} {r : Ref ν β} (hq : t.IsPlace q)
    (h : t.get q = some r) : t.path q <+: r.word t.label := by
  cases q with
  | root => exact List.nil_prefix
  | edge n b => exact t.edge_word n b r hq h

/-- A word is found at one place only. -/
theorem leaf_place_unique {q q' : Place ν β} {k : List β} (hq : t.IsPlace q) (hq' : t.IsPlace q')
    (h : t.get q = some (.leaf k)) (h' : t.get q' = some (.leaf k)) : q = q' := by
  -- no label extends the path to a leaf
  have above {p : Place ν β} {m : ν} (hp : t.IsPlace p) (hpk : t.get p = some (.leaf k))
      (hm : t.live m) : ¬ t.path p <+: t.label m := fun hle => by
    obtain ⟨c, hc, -⟩ := place_covers hp hm hle
    simp [hpk] at hc
  have hw := path_prefix_word hq h
  have hw' := path_prefix_word hq' h'
  rcases q with _ | ⟨n, b⟩ <;> rcases q' with _ | ⟨m, c⟩
  · rfl
  · exact absurd List.nil_prefix (above (p := .root) hq h hq')
  · exact absurd List.nil_prefix (above (p := .root) hq' h' hq)
  · rcases Nat.lt_trichotomy (t.label n).length (t.label m).length with hlt | heq | hlt
    · exact absurd (List.IsPrefix.append_singleton_prefix hw
        (List.IsPrefix.left_of_append_singleton hw') hlt) (above hq h hq')
    · have hl : t.label n = t.label m :=
        (List.prefix_of_prefix_length_le (List.IsPrefix.left_of_append_singleton hw)
          (List.IsPrefix.left_of_append_singleton hw') (Nat.le_of_eq heq)).eq_of_length heq
      obtain rfl := t.label_inj n m hq hq' hl
      obtain rfl := List.IsPrefix.append_singleton_inj hw hw'
      rfl
    · exact absurd (List.IsPrefix.append_singleton_prefix hw'
        (List.IsPrefix.left_of_append_singleton hw) hlt) (above hq' h' hq)

/-- A trie without a root stores nothing. -/
theorem not_stored_of_root (hroot : t.root = none) (k : List β) : ¬ t.Stored k := by
  intro hst
  rcases stored_of_place (q := .root) trivial hst List.nil_prefix with h | ⟨c, hc, -⟩
  · simp [hroot] at h
  · simp [hroot] at hc

theorem length_of_stored {k : List β} (h : t.Stored k) : k.length = L := by
  obtain ⟨q | ⟨n, b⟩, hq, h⟩ := h
  · exact t.root_leaf k h
  · exact t.edge_leaf n b k hq h

theorem live_of_place {q : Place ν β} {c : ν} (hq : t.IsPlace q)
    (h : t.get q = some (.node c)) : t.live c := by
  cases q with
  | root => exact t.root_node c h
  | edge n b => exact t.edge_node n b c hq h

end Trie
