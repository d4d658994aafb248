import Mathlib.Logic.Relation
import Mathlib.Data.List.Chain
import Mathlib.Tactic.Common

/-!
# Doubly linked lists with marked pointers

The nodes of a doubly linked list with lock-free operations: a node has a pointer to its
successor, whose lowest bit marks it as locked, and a pointer to its predecessor.

## Main definitions

* `Links N` — the pointers of the nodes `N`.
* `Links.IsList` — the pointers make a given list of nodes.
* `Links.Consistent` — forward and backward pointers agree on what a head leads to.

## Main results

* `Links.IsList.consistent` — the pointers of a list are consistent.
* `Links.IsList.splice` — replacing the second of two neighbours by two nodes.
-/

/-- The pointers of the nodes `N`: a successor with its mark, and a predecessor. -/
structure Links (N : Type*) where
  next : N → Option (N × Bool)
  prev : N → Option N

namespace Links

variable {N : Type*} {m m' : Links N} {l : List N} {x y : N}

/-- The unmarked successor pointer of `x` leads to `y`. -/
def Next (m : Links N) (x y : N) : Prop := m.next x = some (y, false)

/-- `x` and `y` are neighbours. -/
def Joined (m : Links N) (x y : N) : Prop := m.Next x y ∧ m.prev y = some x

/-- The pointers make the list `l`. -/
structure IsList (m : Links N) (l : List N) : Prop where
  nodup : l.Nodup
  chain : l.IsChain m.Joined
  head : ∀ x ∈ l.head?, m.prev x = none
  last : ∀ x ∈ l.getLast?, m.next x = none

/-- Forward and backward pointers agree on the nodes that `head` leads to. -/
def Consistent (m : Links N) (head : N) : Prop :=
  ∀ x y, Relation.ReflTransGen m.Next head x → Relation.ReflTransGen m.Next head y →
    (m.Next x y ↔ m.prev y = some x)

/-- The first node of a chain leads to all its nodes. -/
theorem reaches_of_chain {h : N} (hl : (h :: l).IsChain m.Next) (hx : x ∈ h :: l) :
    Relation.ReflTransGen m.Next h x := by
  induction l generalizing h with
  | nil =>
    rw [List.mem_singleton.mp hx]
  | cons k l ih =>
    rw [List.isChain_cons_cons] at hl
    cases List.mem_cons.mp hx with
    | inl heq => rw [heq]
    | inr hmem => exact (ih hl.2 hmem).head hl.1

/-- A node of a list that is not its last has a successor in it. -/
theorem exists_next_of_chain (hl : l.IsChain m.Joined) (hx : x ∈ l) :
    l.getLast? = some x ∨ ∃ y ∈ l, m.Joined x y := by
  induction l with
  | nil => cases hx
  | cons h l ih =>
    cases l with
    | nil =>
      rw [List.mem_singleton.mp hx]
      exact Or.inl rfl
    | cons k l =>
      rw [List.isChain_cons_cons] at hl
      cases List.mem_cons.mp hx with
      | inl heq =>
        subst heq
        exact Or.inr ⟨k, List.mem_cons_of_mem _ List.mem_cons_self, hl.1⟩
      | inr hmem =>
        refine (ih hl.2 hmem).imp (fun hlast => ?_)
          fun ⟨y, hy, hj⟩ => ⟨y, List.mem_cons_of_mem _ hy, hj⟩
        rw [List.getLast?_cons_cons]
        exact hlast

/-- A node of a list that is not its first has a predecessor in it. -/
theorem exists_prev_of_chain (hl : l.IsChain m.Joined) (hx : x ∈ l) :
    l.head? = some x ∨ ∃ y ∈ l, m.Joined y x := by
  induction l with
  | nil => cases hx
  | cons h l ih =>
    cases List.mem_cons.mp hx with
    | inl heq =>
      subst heq
      exact Or.inl rfl
    | inr hmem =>
      right
      cases l with
      | nil => cases hmem
      | cons k l =>
        rw [List.isChain_cons_cons] at hl
        cases ih hl.2 hmem with
        | inl hhead =>
          cases hhead
          exact ⟨h, List.mem_cons_self, hl.1⟩
        | inr hprev =>
          obtain ⟨y, hy, hj⟩ := hprev
          exact ⟨y, List.mem_cons_of_mem _ hy, hj⟩

/-- A chain only depends on the successors of all its nodes but the last, and on the
predecessors of all but the first. -/
theorem chain_congr (hl : l.IsChain m.Joined) (hnext : ∀ x ∈ l.dropLast, m'.next x = m.next x)
    (hprev : ∀ x ∈ l.tail, m'.prev x = m.prev x) : l.IsChain m'.Joined := by
  induction l with
  | nil => exact .nil
  | cons h l ih =>
    cases l with
    | nil => exact .singleton h
    | cons k l =>
      rw [List.isChain_cons_cons] at hl ⊢
      constructor
      · constructor
        · exact (hnext h List.mem_cons_self).trans hl.1.1
        · exact (hprev k List.mem_cons_self).trans hl.1.2
      · apply ih hl.2
        · intro x hx
          exact hnext x (List.mem_cons_of_mem h hx)
        · intro x hx
          exact hprev x (List.mem_cons_of_mem k hx)

namespace IsList

theorem next_mem (hl : m.IsList l) (hx : x ∈ l) (hy : m.Next x y) : y ∈ l ∧ m.prev y = some x := by
  cases exists_next_of_chain hl.chain hx with
  | inl hlast =>
    have hnone := hl.last x hlast
    rw [Next, hnone] at hy
    cases hy
  | inr hnext =>
    obtain ⟨z, hz, hj⟩ := hnext
    have heq := hy.symm.trans hj.1
    cases heq
    exact ⟨hz, hj.2⟩

/-- A head leads to the nodes of its list only. -/
theorem mem_of_reaches {h : N} (hl : m.IsList l) (hh : h ∈ l)
    (hx : Relation.ReflTransGen m.Next h x) : x ∈ l := by
  induction hx with
  | refl => exact hh
  | tail _ hstep ih => exact (hl.next_mem ih hstep).1

/-- **The pointers of a list are consistent.** -/
theorem consistent {h : N} (hl : m.IsList l) (hh : h ∈ l) : m.Consistent h := by
  intro x y hx hy
  constructor
  · intro hnext
    exact (hl.next_mem (hl.mem_of_reaches hh hx) hnext).2
  · intro hprev
    cases exists_prev_of_chain hl.chain (hl.mem_of_reaches hh hy) with
    | inl hhead =>
      have hnone := hl.head y hhead
      rw [hnone] at hprev
      cases hprev
    | inr hjoined =>
      obtain ⟨z, -, hj⟩ := hjoined
      have heq := hprev.symm.trans hj.2
      cases heq
      exact hj.1

/-- **Replacing the second of two neighbours** by two nodes: the list `l, a, n, l'` becomes
`l, a, r, nn, l'`. -/
theorem splice {l' : List N} {a n r nn : N} (hl : m.IsList (l ++ a :: n :: l'))
    (hnodup : (l ++ a :: r :: nn :: l').Nodup)
    (hnext : ∀ x ∈ l ++ l', m'.next x = m.next x) (hnn : m'.next nn = m.next n)
    (hprev : ∀ x ∈ l ++ a :: l'.tail, m'.prev x = m.prev x) (ha : m'.Joined a r)
    (hr : m'.Joined r nn) (hb : ∀ b ∈ l'.head?, m'.prev b = some nn) :
    m'.IsList (l ++ a :: r :: nn :: l') := by
  obtain ⟨hleft, -, hright⟩ := List.isChain_append_cons_cons.mp hl.chain
  constructor
  · exact hnodup
  · rw [List.isChain_append_cons_cons, List.isChain_cons_cons]
    refine ⟨?_, ha, hr, ?_⟩
    · apply chain_congr hleft
      · intro x hx
        rw [List.dropLast_concat] at hx
        exact hnext x (List.mem_append_left _ hx)
      · intro x hx
        apply hprev x
        have hmem := List.mem_of_mem_tail hx
        rw [List.mem_append, List.mem_singleton] at hmem
        rw [List.mem_append, List.mem_cons]
        exact hmem.imp_right Or.inl
    · cases l' with
      | nil => exact .singleton nn
      | cons b l' =>
        rw [List.isChain_cons_cons] at hright ⊢
        refine ⟨⟨hnn.trans hright.1.1, hb b rfl⟩, ?_⟩
        apply chain_congr hright.2
        · intro x hx
          exact hnext x (List.mem_append_right _ (List.dropLast_subset _ hx))
        · intro x hx
          exact hprev x (List.mem_append_right _ (List.mem_cons_of_mem a hx))
  · intro x hx
    have hhead : x ∈ (l ++ a :: n :: l').head? := by
      cases l <;> exact hx
    rw [hprev x, hl.head x hhead]
    cases l with
    | nil =>
      cases hx
      exact List.mem_cons_self
    | cons h l =>
      cases hx
      exact List.mem_cons_self
  · intro x hx
    cases l' with
    | nil =>
      have hlast : x = nn := by simpa using hx.symm
      subst hlast
      rw [hnn]
      exact hl.last n (by simp)
    | cons b l' =>
      have hx' : x ∈ (b :: l').getLast? := by simpa using hx
      rw [hnext x (List.mem_append_right _ (List.mem_of_getLast? hx'))]
      apply hl.last x
      simpa using hx'

end IsList

end Links
