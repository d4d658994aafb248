import Mathlib.Data.List.Basic
import Mathlib.Order.Lattice

/-!
# Separators and the ranges between them

An inner node of a search tree has `n` separators and `n + 1` children.  The separators cut the
range of the node into pieces, and each child is responsible for one.  What it means to be
responsible for the keys from `a` to `b` is a relation `P c a b` here, and a cover is a node all
of whose children meet it.

## Main definitions

* `Cover P lo ks hi cs` — the children `cs` cover the range from `lo` to `hi`, cut at `ks`.
* `Turn ks k u` — the place of `k` among the separators.

## Main results

* `Cover.route` — the child at the place of a key is responsible for it.
* `Cover.insert` — **a child beside another one**, which gives it a part of its range.
* `cover_append` — **a cover cut in two** at a separator.
-/

namespace Forest

variable {α β : Type*} {P Q : β → α → α → Prop} {lo hi m s k : α} {ks ks' : List α} {c d : β}
  {cs : List β} {i j u v : ℕ}

/-- The children `cs` cover the range from `lo` to `hi`, cut at the separators `ks`. -/
inductive Cover (P : β → α → α → Prop) : α → List α → α → List β → Prop
  | last {lo hi : α} {c : β} (hc : P c lo hi) : Cover P lo [] hi [c]
  | cons {lo s hi : α} {ks : List α} {c : β} {cs : List β} (hc : P c lo s)
      (h : Cover P s ks hi cs) : Cover P lo (s :: ks) hi (c :: cs)

theorem Cover.length (h : Cover P lo ks hi cs) : cs.length = ks.length + 1 := by
  induction h with
  | last => rfl
  | cons _ _ ih => rw [List.length_cons, ih, List.length_cons]

theorem Cover.imp (h : Cover P lo ks hi cs)
    (hPQ : ∀ (j : ℕ) c a b, cs[j]? = some c → P c a b → Q c a b) : Cover Q lo ks hi cs := by
  induction h with
  | last hc => exact .last (hPQ 0 _ _ _ rfl hc)
  | cons hc _ ih =>
    refine .cons (hPQ 0 _ _ _ rfl hc) (ih ?_)
    intro j c a b hj
    exact hPQ (j + 1) c a b hj

/-- Two covers that meet at the separator `s`. -/
theorem cover_append : Cover P lo (ks ++ s :: ks') hi cs ↔
    ∃ cl cr, cs = cl ++ cr ∧ Cover P lo ks s cl ∧ Cover P s ks' hi cr := by
  induction ks generalizing lo cs with
  | nil =>
    constructor
    · intro h
      cases h with
      | cons hc h => exact ⟨[_], _, rfl, .last hc, h⟩
    · rintro ⟨cl, cr, rfl, hl, hr⟩
      cases hl with
      | last hc => exact .cons hc hr
  | cons k ks ih =>
    constructor
    · intro h
      cases h with
      | cons hc h =>
        obtain ⟨cl, cr, rfl, hl, hr⟩ := ih.mp h
        exact ⟨_ :: cl, cr, rfl, .cons hc hl, hr⟩
    · rintro ⟨cl, cr, rfl, hl, hr⟩
      cases hl with
      | cons hc hl => exact .cons hc (ih.mpr ⟨_, cr, rfl, hl, hr⟩)

/-- **A child beside another one.**  The child at `i` gives the part from `m` on of its range to
the new child `d`. -/
theorem Cover.insert (h : Cover P lo ks hi cs) (hle : i ≤ ks.length)
    (hsplit : ∀ c a b, cs[i]? = some c → P c a b → Q c a m ∧ Q d m b)
    (hkeep : ∀ (j : ℕ) c a b, j ≠ i → cs[j]? = some c → P c a b → Q c a b) :
    Cover Q lo (ks.insertIdx i m) hi (cs.insertIdx (i + 1) d) := by
  induction h generalizing i with
  | last hc =>
    obtain rfl : i = 0 := Nat.le_zero.mp hle
    obtain ⟨hleft, hright⟩ := hsplit _ _ _ rfl hc
    exact .cons hleft (.last hright)
  | cons hc h ih =>
    cases i with
    | zero =>
      obtain ⟨hleft, hright⟩ := hsplit _ _ _ rfl hc
      refine .cons hleft (.cons hright (h.imp fun j c a b hj => ?_))
      exact hkeep (j + 1) c a b (Nat.succ_ne_zero j) hj
    | succ i =>
      refine .cons (hkeep 0 _ _ _ (Nat.succ_ne_zero i).symm rfl hc)
        (ih (Nat.le_of_succ_le_succ hle) ?_ ?_)
      · intro c a b hj
        exact hsplit c a b hj
      · intro j c a b hne hj
        exact hkeep (j + 1) c a b (fun h => hne (Nat.succ.inj h)) hj

/-! ### Places among the separators -/

section Order

variable [LinearOrder α]

/-- The separators before `u` are at most `k`, the others are larger. -/
def Turn (ks : List α) (k : α) (u : ℕ) : Prop :=
  u ≤ ks.length ∧ ∀ j s, ks[j]? = some s → (s ≤ k ↔ j < u)

theorem Turn.unique (hu : Turn ks k u) (hv : Turn ks k v) : u = v := by
  obtain ⟨hu, hu'⟩ := hu
  obtain ⟨hv, hv'⟩ := hv
  rcases Nat.lt_trichotomy u v with h | h | h
  · have hs : u < ks.length := Nat.lt_of_lt_of_le h hv
    have hle := (hv' u _ (List.getElem?_eq_getElem hs)).mpr h
    exact absurd ((hu' u _ (List.getElem?_eq_getElem hs)).mp hle) (Nat.lt_irrefl u)
  · exact h
  · have hs : v < ks.length := Nat.lt_of_lt_of_le h hu
    have hle := (hu' v _ (List.getElem?_eq_getElem hs)).mpr h
    exact absurd ((hv' v _ (List.getElem?_eq_getElem hs)).mp hle) (Nat.lt_irrefl v)

/-- The child at the place of a key is responsible for it. -/
theorem Cover.route (h : Cover P lo ks hi cs) (hu : Turn ks k u) (hlo : lo ≤ k) (hhi : k < hi) :
    ∃ c a b, cs[u]? = some c ∧ P c a b ∧ a ≤ k ∧ k < b := by
  obtain ⟨hle, hturn⟩ := hu
  induction h generalizing u with
  | last hc =>
    obtain rfl : u = 0 := Nat.le_zero.mp hle
    exact ⟨_, _, _, rfl, hc, hlo, hhi⟩
  | @cons lo s _ _ _ _ hc h ih =>
    have hs := hturn 0 s rfl
    cases u with
    | zero => exact ⟨_, _, _, rfl, hc, hlo, not_le.mp fun hle => Nat.lt_irrefl 0 (hs.mp hle)⟩
    | succ u =>
      refine ih (hs.mpr (Nat.succ_pos u)) hhi (Nat.le_of_succ_le_succ hle) ?_
      intro j s' hj
      rw [hturn (j + 1) s' hj, Nat.succ_lt_succ_iff]

/-- The separators lie within the range. -/
theorem Cover.separators (h : Cover P lo ks hi cs) (hP : ∀ c a b, P c a b → a < b) :
    lo < hi ∧ ∀ s ∈ ks, lo < s ∧ s < hi := by
  induction h with
  | last hc => exact ⟨hP _ _ _ hc, fun s hs => absurd hs List.not_mem_nil⟩
  | cons hc _ ih =>
    have hlt := hP _ _ _ hc
    obtain ⟨hhi, hks⟩ := ih
    refine ⟨hlt.trans hhi, ?_⟩
    intro s hs
    rcases List.mem_cons.mp hs with rfl | hs
    · exact ⟨hlt, hhi⟩
    · exact ⟨hlt.trans (hks s hs).1, (hks s hs).2⟩

/-- The range of a child lies within the range of the node and between two separators. -/
theorem Cover.piece (h : Cover P lo ks hi cs) (hP : ∀ c a b, P c a b → a < b)
    (hj : cs[j]? = some c) : ∃ a b, P c a b ∧ lo ≤ a ∧ b ≤ hi ∧ (0 < j → lo < a) ∧
      ∀ (i : ℕ) s, ks[i]? = some s → (i < j → s ≤ a) ∧ (j ≤ i → b ≤ s) := by
  induction h generalizing j with
  | last hc =>
    cases j with
    | zero =>
      cases hj
      exact ⟨_, _, hc, le_rfl, le_rfl, fun h => absurd h (Nat.lt_irrefl 0), fun _ _ h => by cases h⟩
    | succ j => cases hj
  | cons hc h ih =>
    have hlt := hP _ _ _ hc
    cases j with
    | zero =>
      cases hj
      obtain ⟨hhi, hks⟩ := h.separators hP
      refine ⟨_, _, hc, le_rfl, hhi.le, fun h => absurd h (Nat.lt_irrefl 0), ?_⟩
      rintro (_ | i) s hs
      · cases hs
        exact ⟨fun h => absurd h (Nat.lt_irrefl 0), fun _ => le_rfl⟩
      · refine ⟨fun h => absurd h (Nat.not_lt_zero _), fun _ => ?_⟩
        exact (hks s (List.mem_of_getElem? hs)).1.le
    | succ j =>
      obtain ⟨a, b, hab, hlo, hhi, -, hks⟩ := ih hj
      refine ⟨a, b, hab, hlt.le.trans hlo, hhi, fun _ => hlt.trans_le hlo, ?_⟩
      rintro (_ | i) s hs
      · cases hs
        exact ⟨fun _ => hlo, fun h => absurd h (Nat.not_succ_le_zero j)⟩
      · obtain ⟨h₁, h₂⟩ := hks i s hs
        exact ⟨fun h => h₁ (Nat.lt_of_succ_lt_succ h), fun h => h₂ (Nat.le_of_succ_le_succ h)⟩

/-- The separators ascend. -/
theorem Cover.ascending (h : Cover P lo ks hi cs) (hP : ∀ c a b, P c a b → a < b) (hij : i < j)
    (hi' : ks[i]? = some s) (hj : ks[j]? = some m) : s < m := by
  have hjlen : j < cs.length := by
    rw [h.length]
    exact Nat.lt_succ_of_lt (List.getElem?_eq_some_iff.mp hj).1
  obtain ⟨a, b, hab, -, -, -, hks⟩ := h.piece hP (List.getElem?_eq_getElem hjlen)
  exact ((hks i s hi').1 hij).trans_lt ((hP _ _ _ hab).trans_le ((hks j m hj).2 (Nat.le_refl j)))

/-- The keys that a child is responsible for turn to it. -/
theorem Cover.turn (h : Cover P lo ks hi cs) (hP : ∀ c a b, P c a b → a < b)
    (hfun : ∀ c a b a' b', P c a b → P c a' b' → a = a' ∧ b = b') (hj : cs[j]? = some c)
    {a b : α} (hc : P c a b) (ha : a ≤ k) (hb : k < b) : Turn ks k j := by
  have hlen : j < ks.length + 1 := h.length ▸ (List.getElem?_eq_some_iff.mp hj).1
  obtain ⟨a', b', hc', -, -, -, hks⟩ := h.piece hP hj
  obtain ⟨rfl, rfl⟩ := hfun _ _ _ _ _ hc hc'
  refine ⟨Nat.le_of_lt_succ hlen, fun i s hi => ⟨fun hs => ?_, fun hij => ?_⟩⟩
  · by_contra hij
    exact absurd (((hks i s hi).2 (Nat.le_of_not_lt hij)).trans hs) (not_le.mpr hb)
  · exact ((hks i s hi).1 hij).trans ha

/-- No child is there twice. -/
theorem Cover.nodup (h : Cover P lo ks hi cs) (hP : ∀ c a b, P c a b → a < b)
    (hfun : ∀ c a b a' b', P c a b → P c a' b' → a = a' ∧ b = b') : cs.Nodup := by
  induction h with
  | last _ => exact List.nodup_cons.mpr ⟨List.not_mem_nil, List.nodup_nil⟩
  | cons hc h ih =>
    refine List.nodup_cons.mpr ⟨fun hmem => ?_, ih⟩
    obtain ⟨j, hj⟩ := List.mem_iff_getElem?.mp hmem
    obtain ⟨a, b, hab, hle, -⟩ := h.piece hP hj
    obtain ⟨rfl, -⟩ := hfun _ _ _ _ _ hc hab
    exact absurd hle (not_le.mpr (hP _ _ _ hc))

end Order

end Forest
