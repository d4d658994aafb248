import Sidle.Prog.Links
import Sidle.Prog.Trace
import Mathlib.Data.Nat.Notation
import Mathlib.Logic.Function.Basic

/-!
# Changing a link beside a split

The leaves of a Masstree layer form a doubly linked list, `btree_leaflink.hh`.  A
migration puts a new leaf in the place of an old one with `change_link`, while another
thread may split the left neighbour and put a new leaf to its right with `link_split`.
Both are given as program counters over the pointers, one atomic access a step.

## Main definitions

* `stepChange`, `stepSplit` — the two functions, `step` — their interleaving.
* `Overtakes` — the split writes the predecessor of the new leaf before `change_link`
  does.
* `Shared` — the pointers between the two leaves, for every pair of program counters.

## Main results

* `inv_step` — what one step of either thread does to them.
* `links_consistent_iff` — when the list is consistent in the end.
* `stale_prev` — an interleaving that leaves a stale predecessor.
-/

namespace Sidle.Masstree

open Trace

variable {N : Type*} [DecidableEq N]

/-! ### The functions -/

/-- A store to `x->next_.ptr`. -/
def storeNext (m : Links N) (x : N) (next : Option (N × Bool)) : Links N :=
  { m with next := Function.update m.next x next }

/-- A store to `x->prev_`. -/
def storePrev (m : Links N) (x y : N) : Links N :=
  { m with prev := Function.update m.prev x (some y) }

/-- Where `change_link(n, nn)` stands, with what its local variables hold. -/
inductive ChangePc (N : Type*)
  /-- The load in `lock_next(n)`. -/
  | lockLoad
  /-- The compare-and-swap in `lock_next(n)`. -/
  | lockCas (next : N)
  /-- Before `nn->next_.ptr = next`. -/
  | setNext (next : Option N)
  /-- Before `next->prev_ = nn`. -/
  | setNextPrev (next : Option N)
  /-- The load of `n->prev_`. -/
  | loadPrev
  /-- The compare-and-swap of `prev->next_.ptr`. -/
  | casPrev (prev : N)
  /-- Before `prev->next_.ptr = nn`. -/
  | setPrevNext (prev : N)
  /-- Before `nn->prev_ = prev`. -/
  | setPrev (prev : N)
  | done
  deriving DecidableEq

/-- Where `link_split(a, r)` stands, with what its local variables hold. -/
inductive SplitPc (N : Type*)
  /-- Before `nr->prev_ = n`. -/
  | setPrev
  /-- The load in `lock_next(n)`. -/
  | lockLoad
  /-- The compare-and-swap in `lock_next(n)`. -/
  | lockCas (next : N)
  /-- Before `nr->next_.ptr = next`. -/
  | setNext (next : Option N)
  /-- Before `next->prev_ = nr`. -/
  | setNextPrev (next : Option N)
  /-- Before `n->next_.ptr = nr`. -/
  | publish
  | done
  deriving DecidableEq

/-- The pointers and the two program counters. -/
structure LinkState (N : Type*) where
  links : Links N
  change : ChangePc N
  split : SplitPc N

/-- One step of `change_link(n, nn)`. -/
def stepChange (n nn : N) (s : LinkState N) : Option (LinkState N) :=
  match s.change with
  | .lockLoad =>
    some
      { s with
        change :=
          match s.links.next n with
          | none => .setNext none
          | some (next, marked) => if marked then .lockLoad else .lockCas next }
  | .lockCas next =>
    some (if s.links.next n = some (next, false) then
      { s with links := storeNext s.links n (some (next, true)), change := .setNext (some next) }
    else { s with change := .lockLoad })
  | .setNext next =>
    some
      { s with
        links := storeNext s.links nn (next.map fun x => (x, false))
        change := .setNextPrev next }
  | .setNextPrev next =>
    some
      { s with
        links := match next with
          | none => s.links
          | some x => storePrev s.links x nn
        change := .loadPrev }
  | .loadPrev =>
    some
      { s with
        change := match s.links.prev n with
          | none => .done
          | some prev => .casPrev prev }
  | .casPrev prev =>
    some (if s.links.next prev = some (n, false) then
      { s with links := storeNext s.links prev (some (n, true)), change := .setPrevNext prev }
    else { s with change := .loadPrev })
  | .setPrevNext prev =>
    some { s with links := storeNext s.links prev (some (nn, false)), change := .setPrev prev }
  | .setPrev prev => some { s with links := storePrev s.links nn prev, change := .done }
  | .done => none

/-- One step of `link_split(a, r)`. -/
def stepSplit (a r : N) (s : LinkState N) : Option (LinkState N) :=
  match s.split with
  | .setPrev => some { s with links := storePrev s.links r a, split := .lockLoad }
  | .lockLoad =>
    some
      { s with
        split :=
          match s.links.next a with
          | none => .setNext none
          | some (next, marked) => if marked then .lockLoad else .lockCas next }
  | .lockCas next =>
    some (if s.links.next a = some (next, false) then
      { s with links := storeNext s.links a (some (next, true)), split := .setNext (some next) }
    else { s with split := .lockLoad })
  | .setNext next =>
    some
      { s with
        links := storeNext s.links r (next.map fun x => (x, false))
        split := .setNextPrev next }
  | .setNextPrev next =>
    some
      { s with
        links := match next with
          | none => s.links
          | some x => storePrev s.links x r
        split := .publish }
  | .publish => some { s with links := storeNext s.links a (some (r, false)), split := .done }
  | .done => none

/-- The two threads. -/
inductive LinkThread
  | change
  | split
  deriving DecidableEq, Repr

/-- One step of either thread. -/
def stepLink (a n r nn : N) (s : LinkState N) : LinkThread → Option (LinkState N)
  | .change => stepChange n nn s
  | .split => stepSplit a r s

/-- Both functions are about to start. -/
def LinkState.start (m : Links N) : LinkState N := ⟨m, .lockLoad, .setPrev⟩

/-- Both functions have finished. -/
def LinkState.Finished (s : LinkState N) : Prop := s.change = .done ∧ s.split = .done

instance : DecidablePred (LinkState.Finished (N := N)) :=
  fun _ => inferInstanceAs (Decidable (_ ∧ _))

/-- `link_split` writes `nn->prev_`, and `change_link` is about to write it after that. -/
def Overtakes (nn : N) (s : LinkState N) (e : LinkThread) (_ : LinkState N) : Prop :=
  e = .split ∧ s.split = .setNextPrev (some nn) ∧ ∃ prev, s.change = .setPrev prev

/-! ### The pointers -/

section Invariant

variable (a n r nn : N) (m₀ : Links N)

/-- Where the two functions start: `n` is the right neighbour of `a`, and `r` and `nn` are
new. -/
structure Neighbours : Prop where
  next_a : m₀.next a = some (n, false)
  prev_n : m₀.prev n = some a
  next_n : m₀.next n = none ∨ ∃ b, m₀.next n = some (b, false)
  a_n : a ≠ n
  a_r : a ≠ r
  a_nn : a ≠ nn
  n_r : n ≠ r
  n_nn : n ≠ nn
  r_nn : r ≠ nn
  behind : ∀ b, m₀.next n = some (b, false) → b ≠ a ∧ b ≠ n ∧ b ≠ r ∧ b ≠ nn

/-- `change_link` has not locked the successor pointer of the left neighbour. -/
def ChangePc.Early : ChangePc N → Prop
  | .casPrev prev => prev = a
  | .setPrevNext _ => False
  | .setPrev _ => False
  | .done => False
  | _ => True

/-- `link_split` has not locked the successor pointer of its leaf. -/
def SplitPc.Early : SplitPc N → Prop
  | .setPrev => True
  | .lockLoad => True
  | .lockCas next => next = n
  | _ => False

/-- The split has put `r` behind `a`, or is about to do so. -/
def Late (m : Links N) (split : SplitPc N) : Prop :=
  (split = .publish ∧ m.next a ≠ some (n, false)) ∨ (split = .done ∧ m.next a = some (r, false))

/-- The pointers that only `change_link` writes. -/
def OwnChange (m : Links N) : ChangePc N → Prop
  | .lockLoad => m.next n = m₀.next n
  | .lockCas _ => m.next n = m₀.next n
  | .setNext next => next.map (fun x => (x, false)) = m₀.next n
  | .setNextPrev next => next.map (fun x => (x, false)) = m₀.next n ∧ m.next nn = m₀.next n
  | _ => m.next nn = m₀.next n ∧ ∀ b, m₀.next n = some (b, false) → m.prev b = some nn

/-- The pointers that neither function writes. -/
structure Untouched (m : Links N) : Prop where
  next : ∀ x, x ≠ a → x ≠ n → x ≠ r → x ≠ nn → m.next x = m₀.next x
  prev : ∀ x, x ≠ n → x ≠ r → x ≠ nn → m₀.next n ≠ some (x, false) → m.prev x = m₀.prev x

/-- The pointers that both functions write, from the first lock on the successor pointer of
`a` to the end.  The flag tells whether the split has overtaken the last store of
`change_link`. -/
inductive Shared (m : Links N) : Bool → ChangePc N → SplitPc N → Prop
  /-- Neither function has locked the pointer. -/
  | neither {c s} (hc : c.Early a) (hs : s.Early n) (ha : m.next a = some (n, false))
    (hn : m.prev n = some a) : Shared m false c s
  /-- The split has locked it first. -/
  | splitLocked {c} (hc : c.Early a) (ha : m.next a = some (n, true)) (hn : m.prev n = some a) :
    Shared m false c (.setNext (some n))
  | splitLinked {c} (hc : c.Early a) (ha : m.next a = some (n, true))
    (hr : m.next r = some (n, false)) (hn : m.prev n = some a) :
    Shared m false c (.setNextPrev (some n))
  | splitFirst {c s} (hc : c.Early a ∨ c = .casPrev r) (hs : Late a n r m s)
    (hr : m.next r = some (n, false)) (hn : m.prev n = some r) : Shared m false c s
  /-- The change comes behind the split. -/
  | behindLocked {s} (hs : Late a n r m s) : Shared m false (.setPrevNext r) s
  | behindLinked {s} (hs : Late a n r m s) (hr : m.next r = some (nn, false)) :
    Shared m false (.setPrev r) s
  /-- The change has locked the pointer first. -/
  | changeLocked {s} (hs : s.Early n) (ha : m.next a = some (n, true)) :
    Shared m false (.setPrevNext a) s
  | changeFirst {c s} (hc : c = .setPrev a ∨ c = .done) (hs : s.Early n ∨ s = .lockCas nn)
    (ha : m.next a = some (nn, false)) : Shared m false c s
  /-- The split comes behind the change. -/
  | beforeLocked {c} (hc : c = .setPrev a ∨ c = .done) (ha : m.next a = some (nn, true)) :
    Shared m false c (.setNext (some nn))
  | beforeLinked {c} (hc : c = .setPrev a ∨ c = .done) (ha : m.next a = some (nn, true))
    (hr : m.next r = some (nn, false)) : Shared m false c (.setNextPrev (some nn))
  /-- Both have come to an end, in either order. -/
  | inOrder {s} (hs : Late a n r m s) (hr : m.next r = some (nn, false))
    (hnn : m.prev nn = some r) : Shared m false .done s
  /-- The split has written `nn->prev_` too early. -/
  | overtaken {s} (hs : Late a n r m s) (hr : m.next r = some (nn, false)) :
    Shared m true (.setPrev a) s
  | stale {s} (hs : Late a n r m s) (hr : m.next r = some (nn, false))
    (hnn : m.prev nn = some a) : Shared m true .done s

/-- The pointers while the two functions run. -/
structure LinkInv (passed : Bool) (s : LinkState N) : Prop where
  shared : Shared a n r nn s.links passed s.change s.split
  ownChange : OwnChange n nn m₀ s.links s.change
  ownSplit : s.split = .setPrev ∨ s.links.prev r = some a
  untouched : Untouched a n r nn m₀ s.links

end Invariant

section Steps

variable {a n r nn : N} {m₀ m m' : Links N} {passed : Bool} {c c' : ChangePc N} {sp : SplitPc N}

omit [DecidableEq N] in
theorem Late.congr (h : Late a n r m sp) (ha : m'.next a = m.next a) : Late a n r m' sp := by
  unfold Late at *
  rw [ha]
  exact h

omit [DecidableEq N] in
/-- What is shared does not depend on other pointers. -/
theorem Shared.congr (h : Shared a n r nn m passed c sp) (ha : m'.next a = m.next a)
    (hr : m'.next r = m.next r) (hn : m'.prev n = m.prev n) (hnn : m'.prev nn = m.prev nn) :
    Shared a n r nn m' passed c sp := by
  cases h with
  | neither hc hs h1 h2 => exact .neither hc hs (ha.trans h1) (hn.trans h2)
  | splitLocked hc h1 h2 => exact .splitLocked hc (ha.trans h1) (hn.trans h2)
  | splitLinked hc h1 h2 h3 => exact .splitLinked hc (ha.trans h1) (hr.trans h2) (hn.trans h3)
  | splitFirst hc hs h1 h2 => exact .splitFirst hc (hs.congr ha) (hr.trans h1) (hn.trans h2)
  | behindLocked hs => exact .behindLocked (hs.congr ha)
  | behindLinked hs h1 => exact .behindLinked (hs.congr ha) (hr.trans h1)
  | changeLocked hs h1 => exact .changeLocked hs (ha.trans h1)
  | changeFirst hc hs h1 => exact .changeFirst hc hs (ha.trans h1)
  | beforeLocked hc h1 => exact .beforeLocked hc (ha.trans h1)
  | beforeLinked hc h1 h2 => exact .beforeLinked hc (ha.trans h1) (hr.trans h2)
  | inOrder hs h1 h2 => exact .inOrder (hs.congr ha) (hr.trans h1) (hnn.trans h2)
  | overtaken hs h1 => exact .overtaken (hs.congr ha) (hr.trans h1)
  | stale hs h1 h2 => exact .stale (hs.congr ha) (hr.trans h1) (hnn.trans h2)

omit [DecidableEq N] in
/-- As long as it has not locked the pointer of `a`, it does not matter where `change_link`
stands. -/
theorem Shared.early (h : Shared a n r nn m passed c sp) (hc : c.Early a) (hc' : c'.Early a) :
    Shared a n r nn m passed c' sp := by
  cases h with
  | neither _ hs h1 h2 => exact .neither hc' hs h1 h2
  | splitLocked _ h1 h2 => exact .splitLocked hc' h1 h2
  | splitLinked _ h1 h2 h3 => exact .splitLinked hc' h1 h2 h3
  | splitFirst _ hs h1 h2 => exact .splitFirst (Or.inl hc') hs h1 h2
  | behindLocked => exact hc.elim
  | behindLinked => exact hc.elim
  | changeLocked => exact hc.elim
  | changeFirst hd => rcases hd with rfl | rfl <;> exact hc.elim
  | beforeLocked hd => rcases hd with rfl | rfl <;> exact hc.elim
  | beforeLinked hd => rcases hd with rfl | rfl <;> exact hc.elim
  | inOrder => exact hc.elim
  | overtaken => exact hc.elim
  | stale => exact hc.elim

@[simp] theorem storeNext_next_self (m : Links N) (x : N) (next : Option (N × Bool)) :
    (storeNext m x next).next x = next := Function.update_self ..

theorem storeNext_next_of_ne (m : Links N) {x y : N} (next : Option (N × Bool)) (h : y ≠ x) :
    (storeNext m x next).next y = m.next y := Function.update_of_ne h ..

@[simp] theorem storeNext_prev (m : Links N) (x : N) (next : Option (N × Bool)) :
    (storeNext m x next).prev = m.prev := rfl

@[simp] theorem storePrev_prev_self (m : Links N) (x y : N) :
    (storePrev m x y).prev x = some y := Function.update_self ..

theorem storePrev_prev_of_ne (m : Links N) {x z : N} (y : N) (h : z ≠ x) :
    (storePrev m x y).prev z = m.prev z := Function.update_of_ne h ..

@[simp] theorem storePrev_next (m : Links N) (x y : N) : (storePrev m x y).next = m.next := rfl

theorem Untouched.storeNext (h : Untouched a n r nn m₀ m) {x : N} {next : Option (N × Bool)}
    (hx : x = a ∨ x = n ∨ x = r ∨ x = nn) : Untouched a n r nn m₀ (storeNext m x next) := by
  constructor
  · intro y ha hn hr hnn
    have hne : y ≠ x := by
      rcases hx with rfl | rfl | rfl | rfl
      · exact ha
      · exact hn
      · exact hr
      · exact hnn
    rw [storeNext_next_of_ne _ _ hne]
    exact h.next y ha hn hr hnn
  · exact h.prev

theorem Untouched.storePrev (h : Untouched a n r nn m₀ m) {x y : N}
    (hx : x = n ∨ x = r ∨ x = nn ∨ m₀.next n = some (x, false)) :
    Untouched a n r nn m₀ (storePrev m x y) := by
  constructor
  · exact h.next
  · intro z hn hr hnn hb
    have hne : z ≠ x := by
      rcases hx with rfl | rfl | rfl | hx
      · exact hn
      · exact hr
      · exact hnn
      · rintro rfl
        exact hb hx
    rw [storePrev_prev_of_ne _ _ hne]
    exact h.prev z hn hr hnn hb

/-- A store to the successor pointer of `n` or `nn` does not concern what is shared. -/
theorem Shared.storeNext (h : Shared a n r nn m passed c sp) {x : N} {next : Option (N × Bool)}
    (ha : a ≠ x) (hr : r ≠ x) : Shared a n r nn (storeNext m x next) passed c sp :=
  h.congr (storeNext_next_of_ne _ _ ha) (storeNext_next_of_ne _ _ hr) rfl rfl

/-- A store to another predecessor pointer does not concern what is shared. -/
theorem Shared.storePrev (h : Shared a n r nn m passed c sp) {x y : N} (hn : n ≠ x) (hnn : nn ≠ x) :
    Shared a n r nn (storePrev m x y) passed c sp :=
  h.congr rfl rfl (storePrev_prev_of_ne _ _ hn) (storePrev_prev_of_ne _ _ hnn)

/-- One step of `change_link`. -/
theorem inv_stepChange (hs₀ : Neighbours a n r nn m₀) {s t : LinkState N}
    (h : LinkInv a n r nn m₀ passed s) (hstep : stepChange n nn s = some t) :
    LinkInv a n r nn m₀ passed t := by
  obtain ⟨links, c, sp⟩ := s
  obtain ⟨hsh, hown, hsp, hun⟩ := h
  simp only at hsh hown hsp hun
  cases c with
  | lockLoad =>
    change links.next n = m₀.next n at hown
    simp only [stepChange, hown] at hstep
    rcases hs₀.next_n with hnone | ⟨b, hb⟩
    · rw [hnone] at hstep
      cases hstep
      exact ⟨hsh.early trivial trivial, hnone.symm, hsp, hun⟩
    · rw [hb] at hstep
      cases hstep
      exact ⟨hsh.early trivial trivial, hown, hsp, hun⟩
  | lockCas next =>
    change links.next n = m₀.next n at hown
    simp only [stepChange] at hstep
    split at hstep
    · rename_i hnext
      cases hstep
      refine ⟨(hsh.storeNext hs₀.a_n hs₀.n_r.symm).early trivial trivial, ?_, hsp,
        hun.storeNext (Or.inr (Or.inl rfl))⟩
      exact hnext.symm.trans hown
    · cases hstep
      exact ⟨hsh.early trivial trivial, hown, hsp, hun⟩
  | setNext next =>
    cases hstep
    refine ⟨(hsh.storeNext hs₀.a_nn hs₀.r_nn).early trivial trivial, ⟨hown, ?_⟩, hsp,
      hun.storeNext (Or.inr (Or.inr (Or.inr rfl)))⟩
    rw [storeNext_next_self]
    exact hown
  | setNextPrev next =>
    obtain ⟨hnext, hnn⟩ := hown
    simp only [stepChange] at hstep
    cases next with
    | none =>
      cases hstep
      refine ⟨hsh.early trivial trivial, ⟨hnn, ?_⟩, hsp, hun⟩
      intro b hb
      rw [hb] at hnext
      cases hnext
    | some b =>
      cases hstep
      obtain ⟨hba, hbn, hbr, hbnn⟩ := hs₀.behind b hnext.symm
      refine ⟨(hsh.storePrev hbn.symm hbnn.symm).early trivial trivial, ⟨hnn, ?_⟩, ?_,
        hun.storePrev (Or.inr (Or.inr (Or.inr hnext.symm)))⟩
      · intro b' hb'
        rw [← hnext] at hb'
        cases hb'
        exact storePrev_prev_self links b nn
      · exact hsp.imp_right fun hr => (storePrev_prev_of_ne links nn hbr.symm).trans hr
  | loadPrev =>
    simp only [stepChange] at hstep
    cases hsh with
    | neither hc hs ha hn =>
      rw [hn] at hstep
      cases hstep
      exact ⟨.neither rfl hs ha hn, hown, hsp, hun⟩
    | splitLocked hc ha hn =>
      rw [hn] at hstep
      cases hstep
      exact ⟨.splitLocked rfl ha hn, hown, hsp, hun⟩
    | splitLinked hc ha hr hn =>
      rw [hn] at hstep
      cases hstep
      exact ⟨.splitLinked rfl ha hr hn, hown, hsp, hun⟩
    | splitFirst hc hs hr hn =>
      -- the split has already put `r` between `a` and `n`
      rw [hn] at hstep
      cases hstep
      exact ⟨.splitFirst (Or.inr rfl) hs hr hn, hown, hsp, hun⟩
    | changeFirst hc => rcases hc with hc | hc <;> cases hc
    | beforeLocked hc => rcases hc with hc | hc <;> cases hc
    | beforeLinked hc => rcases hc with hc | hc <;> cases hc
  | casPrev prev =>
    simp only [stepChange] at hstep
    cases hsh with
    | neither hc hs ha hn =>
      cases hc
      rw [if_pos ha] at hstep
      cases hstep
      refine ⟨.changeLocked hs ?_, ?_, hsp, hun.storeNext (Or.inl rfl)⟩
      · exact storeNext_next_self links _ _
      · exact ⟨(storeNext_next_of_ne _ _ hs₀.a_nn.symm).trans hown.1, hown.2⟩
    | splitLocked hc ha hn =>
      cases hc
      rw [if_neg (by rw [ha]; simp)] at hstep
      cases hstep
      exact ⟨.splitLocked trivial ha hn, hown, hsp, hun⟩
    | splitLinked hc ha hr hn =>
      cases hc
      rw [if_neg (by rw [ha]; simp)] at hstep
      cases hstep
      exact ⟨.splitLinked trivial ha hr hn, hown, hsp, hun⟩
    | splitFirst hc hs hr hn =>
      cases hc with
      | inl hc =>
        -- the predecessor was read before the split wrote it
        cases hc
        have hne : links.next a ≠ some (n, false) := by
          rcases hs with ⟨-, hs⟩ | ⟨-, hs⟩
          · exact hs
          · rw [hs]
            intro heq
            exact hs₀.n_r (Prod.mk.inj (Option.some.inj heq)).1.symm
        rw [if_neg hne] at hstep
        cases hstep
        exact ⟨.splitFirst (Or.inl trivial) hs hr hn, hown, hsp, hun⟩
      | inr hc =>
        cases hc
        rw [if_pos hr] at hstep
        cases hstep
        refine ⟨.behindLocked (hs.congr ?_), ?_, hsp, hun.storeNext (Or.inr (Or.inr (Or.inl rfl)))⟩
        · exact storeNext_next_of_ne _ _ hs₀.a_r
        · exact ⟨(storeNext_next_of_ne _ _ hs₀.r_nn.symm).trans hown.1, hown.2⟩
    | changeFirst hc => rcases hc with hc | hc <;> cases hc
    | beforeLocked hc => rcases hc with hc | hc <;> cases hc
    | beforeLinked hc => rcases hc with hc | hc <;> cases hc
  | setPrevNext prev =>
    cases hstep
    cases hsh with
    | neither hc => exact hc.elim
    | splitLocked hc => exact hc.elim
    | splitLinked hc => exact hc.elim
    | splitFirst hc =>
      cases hc with
      | inl hc => exact hc.elim
      | inr hc => cases hc
    | behindLocked hs =>
      refine ⟨.behindLinked (hs.congr ?_) (storeNext_next_self _ _ _), ?_, hsp,
        hun.storeNext (Or.inr (Or.inr (Or.inl rfl)))⟩
      · exact storeNext_next_of_ne _ _ hs₀.a_r
      · exact ⟨(storeNext_next_of_ne _ _ hs₀.r_nn.symm).trans hown.1, hown.2⟩
    | changeLocked hs ha =>
      refine ⟨.changeFirst (Or.inl rfl) (Or.inl hs) (storeNext_next_self _ _ _), ?_, hsp,
        hun.storeNext (Or.inl rfl)⟩
      exact ⟨(storeNext_next_of_ne _ _ hs₀.a_nn.symm).trans hown.1, hown.2⟩
    | changeFirst hc => rcases hc with hc | hc <;> cases hc
    | beforeLocked hc => rcases hc with hc | hc <;> cases hc
    | beforeLinked hc => rcases hc with hc | hc <;> cases hc
  | setPrev prev =>
    cases hstep
    have hown' : OwnChange n nn m₀ (Masstree.storePrev links nn prev) .done := by
      refine ⟨hown.1, fun b hb => ?_⟩
      rw [storePrev_prev_of_ne _ _ (hs₀.behind b hb).2.2.2]
      exact hown.2 b hb
    have hsp' : sp = .setPrev ∨ (Masstree.storePrev links nn prev).prev r = some a :=
      hsp.imp_right fun hr => (storePrev_prev_of_ne _ _ hs₀.r_nn).trans hr
    refine ⟨?_, hown', hsp', hun.storePrev (Or.inr (Or.inr (Or.inl rfl)))⟩
    cases hsh with
    | neither hc => exact hc.elim
    | splitLocked hc => exact hc.elim
    | splitLinked hc => exact hc.elim
    | splitFirst hc =>
      cases hc with
      | inl hc => exact hc.elim
      | inr hc => cases hc
    | behindLinked hs hr => exact .inOrder (hs.congr rfl) hr (storePrev_prev_self _ _ _)
    | changeFirst hc hs ha => exact .changeFirst (Or.inr rfl) hs ha
    | beforeLocked hc ha => exact .beforeLocked (Or.inr rfl) ha
    | beforeLinked hc ha hr => exact .beforeLinked (Or.inr rfl) ha hr
    | overtaken hs hr => exact .stale (hs.congr rfl) hr (storePrev_prev_self _ _ _)
  | done => cases hstep

omit [DecidableEq N] in
theorem OwnChange.congr (h : OwnChange n nn m₀ m c) (hn : m'.next n = m.next n)
    (hnn : m'.next nn = m.next nn) (hb : ∀ b, m₀.next n = some (b, false) → m'.prev b = m.prev b) :
    OwnChange n nn m₀ m' c := by
  have hlate (h' : m.next nn = m₀.next n ∧ ∀ b, m₀.next n = some (b, false) → m.prev b = some nn) :
      m'.next nn = m₀.next n ∧ ∀ b, m₀.next n = some (b, false) → m'.prev b = some nn :=
    ⟨hnn.trans h'.1, fun b hb' => (hb b hb').trans (h'.2 b hb')⟩
  cases c with
  | lockLoad => exact hn.trans h
  | lockCas next => exact hn.trans h
  | setNext next => exact h
  | setNextPrev next => exact ⟨h.1, hnn.trans h.2⟩
  | loadPrev => exact hlate h
  | casPrev prev => exact hlate h
  | setPrevNext prev => exact hlate h
  | setPrev prev => exact hlate h
  | done => exact hlate h

/-- A store of the split to the successor pointer of `a` or `r`. -/
theorem OwnChange.storeNext (h : OwnChange n nn m₀ m c) {x : N} {next : Option (N × Bool)}
    (hn : n ≠ x) (hnn : nn ≠ x) : OwnChange n nn m₀ (storeNext m x next) c :=
  h.congr (storeNext_next_of_ne _ _ hn) (storeNext_next_of_ne _ _ hnn) fun _ _ => rfl

/-- A store of the split to a predecessor pointer. -/
theorem OwnChange.storePrev (h : OwnChange n nn m₀ m c) {x y : N}
    (hx : ∀ b, m₀.next n = some (b, false) → b ≠ x) : OwnChange n nn m₀ (storePrev m x y) c :=
  h.congr rfl rfl fun b hb => storePrev_prev_of_ne _ _ (hx b hb)

omit [DecidableEq N] in
/-- Before its end the split has not put `r` behind `a`. -/
private theorem Late.elim {P : Prop} (h : Late a n r m sp) (hp : sp ≠ .publish)
    (hd : sp ≠ .done) : P := by
  rcases h with ⟨h, -⟩ | ⟨h, -⟩
  · exact absurd h hp
  · exact absurd h hd

/-- One step of `link_split`, and when it overtakes the last store of `change_link`. -/
theorem inv_stepSplit (hs₀ : Neighbours a n r nn m₀) {s t : LinkState N}
    (h : LinkInv a n r nn m₀ passed s) (hstep : stepSplit a r s = some t) :
    ∃ passed', LinkInv a n r nn m₀ passed' t ∧
      (passed' = true ↔ passed = true ∨ Overtakes nn s .split t) := by
  -- all but one kind of step
  have hkeep (ht : LinkInv a n r nn m₀ passed t) (hno : s.split ≠ .setNextPrev (some nn)) :
      ∃ passed', LinkInv a n r nn m₀ passed' t ∧
        (passed' = true ↔ passed = true ∨ Overtakes nn s .split t) :=
    ⟨passed, ht, ⟨Or.inl, fun hor => hor.resolve_right fun hov => hno hov.2.1⟩⟩
  obtain ⟨links, c, sp⟩ := s
  obtain ⟨hsh, hown, hsp, hun⟩ := h
  simp only at hsh hown hsp hun hkeep
  cases sp with
  | setPrev =>
    cases hstep
    refine hkeep ⟨?_, hown.storePrev fun b hb => (hs₀.behind b hb).2.2.1,
      Or.inr (storePrev_prev_self _ _ _), hun.storePrev (Or.inr (Or.inl rfl))⟩ nofun
    refine Shared.storePrev ?_ hs₀.n_r hs₀.r_nn.symm
    cases hsh with
    | neither hc hs ha hn => exact .neither hc trivial ha hn
    | changeLocked hs ha => exact .changeLocked trivial ha
    | changeFirst hc hs ha => exact .changeFirst hc (Or.inl trivial) ha
    | splitFirst hc hs => exact hs.elim nofun nofun
    | behindLocked hs => exact hs.elim nofun nofun
    | behindLinked hs => exact hs.elim nofun nofun
    | inOrder hs => exact hs.elim nofun nofun
    | overtaken hs => exact hs.elim nofun nofun
    | stale hs => exact hs.elim nofun nofun
  | lockLoad =>
    have hsp' := hsp.resolve_left nofun
    simp only [stepSplit] at hstep
    cases hsh with
    | neither hc hs ha hn =>
      rw [ha] at hstep
      cases hstep
      exact hkeep ⟨.neither hc rfl ha hn, hown, Or.inr hsp', hun⟩ nofun
    | changeLocked hs ha =>
      rw [ha] at hstep
      cases hstep
      exact hkeep ⟨.changeLocked trivial ha, hown, Or.inr hsp', hun⟩ nofun
    | changeFirst hc hs ha =>
      rw [ha] at hstep
      cases hstep
      exact hkeep ⟨.changeFirst hc (Or.inr rfl) ha, hown, Or.inr hsp', hun⟩ nofun
    | splitFirst hc hs => exact hs.elim nofun nofun
    | behindLocked hs => exact hs.elim nofun nofun
    | behindLinked hs => exact hs.elim nofun nofun
    | inOrder hs => exact hs.elim nofun nofun
    | overtaken hs => exact hs.elim nofun nofun
    | stale hs => exact hs.elim nofun nofun
  | lockCas next =>
    have hsp' := hsp.resolve_left nofun
    simp only [stepSplit] at hstep
    cases hsh with
    | neither hc hs ha hn =>
      cases hs
      rw [if_pos ha] at hstep
      cases hstep
      refine hkeep ⟨.splitLocked hc (storeNext_next_self _ _ _) hn,
        hown.storeNext hs₀.a_n.symm hs₀.a_nn.symm, Or.inr hsp', hun.storeNext (Or.inl rfl)⟩ nofun
    | changeLocked hs ha =>
      cases hs
      rw [if_neg (by rw [ha]; simp)] at hstep
      cases hstep
      exact hkeep ⟨.changeLocked trivial ha, hown, Or.inr hsp', hun⟩ nofun
    | changeFirst hc hs ha =>
      cases hs with
      | inl hs =>
        -- the successor was read before the change replaced it
        cases hs
        rw [if_neg (by rw [ha]; simp [hs₀.n_nn.symm])] at hstep
        cases hstep
        exact hkeep ⟨.changeFirst hc (Or.inl trivial) ha, hown, Or.inr hsp', hun⟩ nofun
      | inr hs =>
        cases hs
        rw [if_pos ha] at hstep
        cases hstep
        exact hkeep ⟨.beforeLocked hc (storeNext_next_self _ _ _),
          hown.storeNext hs₀.a_n.symm hs₀.a_nn.symm, Or.inr hsp', hun.storeNext (Or.inl rfl)⟩ nofun
    | splitFirst hc hs => exact hs.elim nofun nofun
    | behindLocked hs => exact hs.elim nofun nofun
    | behindLinked hs => exact hs.elim nofun nofun
    | inOrder hs => exact hs.elim nofun nofun
    | overtaken hs => exact hs.elim nofun nofun
    | stale hs => exact hs.elim nofun nofun
  | setNext next =>
    have hsp' := hsp.resolve_left nofun
    cases hstep
    refine hkeep ⟨?_, hown.storeNext hs₀.n_r hs₀.r_nn.symm, Or.inr hsp',
      hun.storeNext (Or.inr (Or.inr (Or.inl rfl)))⟩ nofun
    have ha_r {x : Option (N × Bool)} (ha : links.next a = x) (y : Option (N × Bool)) :
        (Masstree.storeNext links r y).next a = x := (storeNext_next_of_ne _ _ hs₀.a_r).trans ha
    cases hsh with
    | splitLocked hc ha hn => exact .splitLinked hc (ha_r ha _) (storeNext_next_self _ _ _) hn
    | beforeLocked hc ha => exact .beforeLinked hc (ha_r ha _) (storeNext_next_self _ _ _)
    | neither hc hs => exact hs.elim
    | changeLocked hs => exact hs.elim
    | changeFirst hc hs =>
      cases hs with
      | inl hs => exact hs.elim
      | inr hs => cases hs
    | splitFirst hc hs => exact hs.elim nofun nofun
    | behindLocked hs => exact hs.elim nofun nofun
    | behindLinked hs => exact hs.elim nofun nofun
    | inOrder hs => exact hs.elim nofun nofun
    | overtaken hs => exact hs.elim nofun nofun
    | stale hs => exact hs.elim nofun nofun
  | setNextPrev next =>
    have hsp' := hsp.resolve_left nofun
    have hrest {x : N} (hx : x = n ∨ x = nn) :
        OwnChange n nn m₀ (Masstree.storePrev links x r) c ∧
          (Masstree.storePrev links x r).prev r = some a ∧
          Untouched a n r nn m₀ (Masstree.storePrev links x r) := by
      refine ⟨hown.storePrev fun b hb => ?_, ?_, hun.storePrev ?_⟩
      · rcases hx with rfl | rfl
        · exact (hs₀.behind b hb).2.1
        · exact (hs₀.behind b hb).2.2.2
      · rcases hx with rfl | rfl
        · exact (storePrev_prev_of_ne _ _ hs₀.n_r.symm).trans hsp'
        · exact (storePrev_prev_of_ne _ _ hs₀.r_nn).trans hsp'
      · rcases hx with rfl | rfl
        · exact Or.inl rfl
        · exact Or.inr (Or.inr (Or.inl rfl))
    cases hsh with
    | splitLinked hc ha hr hn =>
      cases hstep
      obtain ⟨h1, h2, h3⟩ := hrest (Or.inl rfl)
      have hlate : Late a n r (Masstree.storePrev links n r) .publish :=
        Or.inl ⟨rfl, by rw [storePrev_next, ha]; simp⟩
      refine hkeep ⟨.splitFirst (Or.inl hc) hlate hr (storePrev_prev_self _ _ _), h1,
        Or.inr h2, h3⟩ ?_
      simp [hs₀.n_nn]
    | beforeLinked hc ha hr =>
      cases hstep
      obtain ⟨h1, h2, h3⟩ := hrest (Or.inr rfl)
      have hlate : Late a n r (Masstree.storePrev links nn r) .publish :=
        Or.inl ⟨rfl, by rw [storePrev_next, ha]; simp⟩
      cases hc with
      | inl hc =>
        -- `change_link` has yet to write `nn->prev_`
        subst hc
        exact ⟨true, ⟨.overtaken hlate hr, h1, Or.inr h2, h3⟩,
          iff_of_true rfl (Or.inr ⟨rfl, rfl, a, rfl⟩)⟩
      | inr hc =>
        subst hc
        refine ⟨false, ⟨.inOrder hlate hr (storePrev_prev_self _ _ _), h1, Or.inr h2, h3⟩,
          iff_of_false Bool.noConfusion ?_⟩
        rintro (hf | ⟨-, -, prev, hprev⟩)
        · cases hf
        · cases hprev
    | neither hc hs => exact hs.elim
    | changeLocked hs => exact hs.elim
    | changeFirst hc hs =>
      cases hs with
      | inl hs => exact hs.elim
      | inr hs => cases hs
    | splitFirst hc hs => exact hs.elim nofun nofun
    | behindLocked hs => exact hs.elim nofun nofun
    | behindLinked hs => exact hs.elim nofun nofun
    | inOrder hs => exact hs.elim nofun nofun
    | overtaken hs => exact hs.elim nofun nofun
    | stale hs => exact hs.elim nofun nofun
  | publish =>
    have hsp' := hsp.resolve_left nofun
    cases hstep
    refine hkeep ⟨?_, hown.storeNext hs₀.a_n.symm hs₀.a_nn.symm, Or.inr hsp',
      hun.storeNext (Or.inl rfl)⟩ nofun
    have hlate : Late a n r (Masstree.storeNext links a (some (r, false))) .done :=
      Or.inr ⟨rfl, storeNext_next_self _ _ _⟩
    have hr_a {x : Option (N × Bool)} (hr : links.next r = x) (y : Option (N × Bool)) :
        (Masstree.storeNext links a y).next r = x :=
          (storeNext_next_of_ne _ _ hs₀.a_r.symm).trans hr
    cases hsh with
    | splitFirst hc hs hr hn => exact .splitFirst hc hlate (hr_a hr _) hn
    | behindLocked hs => exact .behindLocked hlate
    | behindLinked hs hr => exact .behindLinked hlate (hr_a hr _)
    | inOrder hs hr hnn => exact .inOrder hlate (hr_a hr _) hnn
    | overtaken hs hr => exact .overtaken hlate (hr_a hr _)
    | stale hs hr hnn => exact .stale hlate (hr_a hr _) hnn
    | neither hc hs => exact hs.elim
    | changeLocked hs => exact hs.elim
    | changeFirst hc hs =>
      cases hs with
      | inl hs => exact hs.elim
      | inr hs => cases hs
  | done => cases hstep

end Steps

/-! ### Runs -/

section Runs

variable {a n r nn : N} {m₀ m : Links N} {left right : List N}

/-- One step of either thread. -/
theorem inv_step (hs₀ : Neighbours a n r nn m₀) {passed : Bool} {s t : LinkState N} {e : LinkThread}
    (h : LinkInv a n r nn m₀ passed s) (hstep : stepLink a n r nn s e = some t) :
    ∃ passed', LinkInv a n r nn m₀ passed' t ∧
      (passed' = true ↔ passed = true ∨ Overtakes nn s e t) := by
  cases e with
  | split => exact inv_stepSplit hs₀ h hstep
  | change =>
    refine ⟨passed, inv_stepChange hs₀ h hstep, Or.inl, fun hor => hor.resolve_right fun hov => ?_⟩
    cases hov.1

omit [DecidableEq N] in
/-- The neighbours in a list of leaves, beside two leaves that are not in it. -/
theorem neighbours_of_isList (hl : m₀.IsList (left ++ a :: n :: right))
    (hr : r ∉ left ++ a :: n :: right) (hnn : nn ∉ left ++ a :: n :: right) (hne : r ≠ nn) :
    Neighbours a n r nn m₀ := by
  obtain ⟨-, hjoined, hchain⟩ := List.isChain_append_cons_cons.mp hl.chain
  have hnodup := hl.nodup
  simp only [List.mem_append, List.mem_cons, not_or] at hr hnn
  simp only [List.nodup_append, List.nodup_cons, List.mem_cons, not_or] at hnodup
  obtain ⟨-, ⟨⟨han, haright⟩, hnright, -⟩, -⟩ := hnodup
  -- what comes after `n`
  have hbehind : m₀.next n = none ∨ ∃ b ∈ right, m₀.next n = some (b, false) := by
    cases right with
    | nil => exact Or.inl (hl.last n (by simp))
    | cons b right =>
      rw [List.isChain_cons_cons] at hchain
      exact Or.inr ⟨b, List.mem_cons_self, hchain.1.1⟩
  exact {
    next_a := hjoined.1
    prev_n := hjoined.2
    next_n := hbehind.imp_right fun ⟨b, _, hb⟩ => ⟨b, hb⟩
    a_n := han
    a_r := Ne.symm hr.2.1
    a_nn := Ne.symm hnn.2.1
    n_r := Ne.symm hr.2.2.1
    n_nn := Ne.symm hnn.2.2.1
    r_nn := hne
    behind := by
      intro b hb
      rcases hbehind with hnone | ⟨b', hmem, hb'⟩
      · rw [hnone] at hb
        cases hb
      · rw [hb'] at hb
        cases hb
        refine ⟨?_, ?_, ?_, ?_⟩
        · rintro rfl
          exact haright hmem
        · rintro rfl
          exact hnright hmem
        · rintro rfl
          exact hr.2.2.2 hmem
        · rintro rfl
          exact hnn.2.2.2 hmem }

/-- The pointers after any run, and whether the split has overtaken the change in it. -/
theorem inv_run (hs₀ : Neighbours a n r nn m₀) {threads : List LinkThread} {s : LinkState N}
    (hrun : run (stepLink a n r nn) (.start m₀) threads = some s) :
    ∃ passed, LinkInv a n r nn m₀ passed s ∧ (passed = true ↔ ¬ EachStep (stepLink a n r nn)
      (fun s e t => ¬ Overtakes nn s e t) (.start m₀) threads) := by
  have hstart : LinkInv a n r nn m₀ false (.start m₀) :=
    ⟨.neither trivial trivial hs₀.next_a hs₀.prev_n, rfl, Or.inl rfl,
      ⟨fun _ _ _ _ _ => rfl, fun _ _ _ _ _ => rfl⟩⟩
  have hkeep (passed : Bool) (s : LinkState N) (e : LinkThread) (t : LinkState N)
      (h : LinkInv a n r nn m₀ passed s) (hstep : stepLink a n r nn s e = some t) :
      ∃ passed', LinkInv a n r nn m₀ passed' t ∧
        (passed' = true ↔ passed = true ∨ Overtakes nn s e t) :=
    inv_step hs₀ h hstep
  obtain ⟨passed, hinv, hover⟩ := flag_of_run hstart hkeep hrun
  exact ⟨passed, hinv, hover.trans ⟨fun h => h.resolve_left Bool.noConfusion, Or.inr⟩⟩

omit [DecidableEq N] in
/-- The pointers at the end, when the predecessors of `r` and `nn` are right. -/
theorem isList_of_untouched (hl : m₀.IsList (left ++ a :: n :: right))
    (hr : r ∉ left ++ a :: n :: right) (hnn : nn ∉ left ++ a :: n :: right) (hne : r ≠ nn)
    (hun : Untouched a n r nn m₀ m) (hnext : m.next nn = m₀.next n)
    (hb : ∀ b, m₀.next n = some (b, false) → m.prev b = some nn) (ha : m.Joined a r)
    (hrnn : m.Joined r nn) : m.IsList (left ++ a :: r :: nn :: right) := by
  obtain ⟨-, -, hchain⟩ := List.isChain_append_cons_cons.mp hl.chain
  have hnodup := hl.nodup
  simp only [List.mem_append, List.mem_cons, not_or] at hr hnn
  simp only [List.nodup_append, List.nodup_cons, List.mem_cons, not_or] at hnodup
  obtain ⟨hleft, ⟨⟨han, haright⟩, hnright, hright⟩, hdisj⟩ := hnodup
  have hmem {x : N} (hx : x ∈ left ∨ x ∈ right) : x ≠ a ∧ x ≠ n ∧ x ≠ r ∧ x ≠ nn := by
    rcases hx with hx | hx
    · refine ⟨hdisj x hx a (Or.inl rfl), hdisj x hx n (Or.inr (Or.inl rfl)), ?_, ?_⟩
      · rintro rfl
        exact hr.1 hx
      · rintro rfl
        exact hnn.1 hx
    · refine ⟨?_, ?_, ?_, ?_⟩
      · rintro rfl
        exact haright hx
      · rintro rfl
        exact hnright hx
      · rintro rfl
        exact hr.2.2.2 hx
      · rintro rfl
        exact hnn.2.2.2 hx
  -- the leaf behind `n`, if there is one
  have hfirst {x : N} (hx : m₀.next n = some (x, false)) : right.head? = some x := by
    cases right with
    | nil =>
      have hnone : m₀.next n = none := hl.last n (by simp)
      rw [hnone] at hx
      cases hx
    | cons b right =>
      rw [List.isChain_cons_cons] at hchain
      have heq := hx.symm.trans hchain.1.1
      cases heq
      rfl
  apply hl.splice _ _ hnext _ ha hrnn
  · intro b hbhead
    cases right with
    | nil => cases hbhead
    | cons b' right =>
      cases hbhead
      rw [List.isChain_cons_cons] at hchain
      exact hb b hchain.1.1
  · simp only [List.nodup_append, List.nodup_cons, List.mem_cons, not_or]
    refine ⟨hleft, ⟨⟨Ne.symm hr.2.1, Ne.symm hnn.2.1, haright⟩, ⟨hne, hr.2.2.2⟩, hnn.2.2.2,
      hright⟩, ?_⟩
    intro x hx y hy
    rcases hy with rfl | rfl | rfl | hy
    · exact hdisj x hx y (Or.inl rfl)
    · exact (hmem (Or.inl hx)).2.2.1
    · exact (hmem (Or.inl hx)).2.2.2
    · exact hdisj x hx y (Or.inr (Or.inr hy))
  · intro x hx
    obtain ⟨h1, h2, h3, h4⟩ := hmem (List.mem_append.mp hx)
    exact hun.next x h1 h2 h3 h4
  · intro x hx
    rw [List.mem_append, List.mem_cons] at hx
    rcases hx with hx | rfl | hx
    · obtain ⟨h1, h2, h3, h4⟩ := hmem (Or.inl hx)
      refine hun.prev x h2 h3 h4 fun hb' => ?_
      have hxr : x ∈ right := List.mem_of_mem_head? (hfirst hb')
      exact hdisj x hx x (Or.inr (Or.inr hxr)) rfl
    · refine hun.prev x han (Ne.symm hr.2.1) (Ne.symm hnn.2.1) fun hb' => ?_
      exact haright (List.mem_of_mem_head? (hfirst hb'))
    · obtain ⟨h1, h2, h3, h4⟩ := hmem (Or.inr (List.mem_of_mem_tail hx))
      refine hun.prev x h2 h3 h4 fun hb' => ?_
      have hhead := hfirst hb'
      cases right with
      | nil => cases hx
      | cons b right =>
        cases hhead
        exact (List.nodup_cons.mp hright).1 hx

/-- `nn` has taken the place of `n`, `r` follows `a`, and the pointers that can be reached
from the head of the list are consistent. -/
structure Relinked (m₀ m : Links N) (left : List N) (a n r nn : N) : Prop where
  next_a : m.next a = some (r, false)
  next_r : m.next r = some (nn, false)
  next_nn : m.next nn = m₀.next n
  consistent : ∀ head ∈ (left ++ [a]).head?, m.Consistent head

omit [DecidableEq N] in
/-- In a consistent list the predecessor of `nn` is `r`. -/
theorem Relinked.prev_nn (h : Relinked m₀ m left a n r nn) {head : N}
    (hhead : head ∈ (left ++ [a]).head?) (hreach : Relation.ReflTransGen m.Next head a) :
    m.prev nn = some r := by
  have hr : Relation.ReflTransGen m.Next head r := hreach.tail h.next_a
  exact (h.consistent head hhead r nn hr (hr.tail h.next_r)).mp h.next_r

/-- **Changing a link beside a split**: when both functions have finished, the list is
consistent exactly when the split has not written the predecessor of the new leaf between
the last two stores of `change_link`. -/
theorem links_consistent_iff (hl : m₀.IsList (left ++ a :: n :: right))
    (hr : r ∉ left ++ a :: n :: right) (hnn : nn ∉ left ++ a :: n :: right) (hne : r ≠ nn)
    {threads : List LinkThread} {s : LinkState N}
    (hrun : run (stepLink a n r nn) (.start m₀) threads = some s) (hdone : s.Finished) :
    Relinked m₀ s.links left a n r nn ↔
      EachStep (stepLink a n r nn) (fun s e t => ¬ Overtakes nn s e t) (.start m₀) threads := by
  have hs₀ := neighbours_of_isList hl hr hnn hne
  obtain ⟨passed, hinv, hover⟩ := inv_run hs₀ hrun
  obtain ⟨hchange, hsplit⟩ := hdone
  obtain ⟨hsh, hown, hsp, hun⟩ := hinv
  rw [hsplit] at hsp
  have hprev_r := hsp.resolve_left nofun
  rw [hchange, hsplit] at hsh
  rw [hchange] at hown
  obtain ⟨hnext_nn, hb⟩ := hown
  cases hsh with
  | inOrder hs hr' hnn' =>
    have hall : EachStep (stepLink a n r nn) (fun s e t => ¬ Overtakes nn s e t)
        (.start m₀) threads := by
      by_contra hnot
      exact Bool.false_ne_true (hover.mpr hnot)
    have ha := (hs.resolve_left fun h => nomatch h.1).2
    have hlist := isList_of_untouched hl hr hnn hne hun hnext_nn hb ⟨ha, hprev_r⟩ ⟨hr', hnn'⟩
    refine iff_of_true ⟨ha, hr', hnext_nn, fun head hhead => hlist.consistent ?_⟩ hall
    have hmem : head ∈ left ++ [a] := List.mem_of_mem_head? hhead
    rw [List.mem_append, List.mem_singleton] at hmem
    rw [List.mem_append, List.mem_cons]
    exact hmem.imp_right Or.inl
  | stale hs hr' hnn' =>
    refine iff_of_false (fun h => ?_) (hover.mp rfl)
    have ha := (hs.resolve_left fun h => nomatch h.1).2
    -- the successor pointers are those of the list that they should make
    have hlist := isList_of_untouched (m := storePrev s.links nn r) hl hr hnn hne
      (hun.storePrev (Or.inr (Or.inr (Or.inl rfl)))) hnext_nn
      (fun b hb' => (storePrev_prev_of_ne _ _ (hs₀.behind b hb').2.2.2).trans (hb b hb'))
      ⟨ha, (storePrev_prev_of_ne _ _ hs₀.r_nn).trans hprev_r⟩ ⟨hr', storePrev_prev_self _ _ _⟩
    have hchain : (left ++ a :: r :: nn :: right).IsChain s.links.Next :=
      hlist.chain.imp fun x y hxy => hxy.1
    have hreach : ∃ head ∈ (left ++ [a]).head?, Relation.ReflTransGen s.links.Next head a := by
      cases left with
      | nil => exact ⟨a, rfl, .refl⟩
      | cons first left => exact ⟨first, rfl, Links.reaches_of_chain hchain (by simp)⟩
    obtain ⟨head, hhead, hreach⟩ := hreach
    have hprev := h.prev_nn hhead hreach
    rw [hnn'] at hprev
    exact hs₀.a_r (Option.some.inj hprev)
  | splitFirst hc =>
    cases hc with
    | inl hc => exact hc.elim
    | inr hc => cases hc
  | changeFirst hc hs =>
    cases hs with
    | inl hs => exact hs.elim
    | inr hs => cases hs
  | neither hc => exact hc.elim

end Runs

/-! ### A stale predecessor -/

/-- Two leaves 0 and 1. -/
def twoLeaves : Links ℕ where
  next x := if x = 0 then some (1, false) else none
  prev x := if x = 1 then some 0 else none

theorem twoLeaves_isList : twoLeaves.IsList ([] ++ 0 :: 1 :: []) where
  nodup := by decide
  chain := .cons_cons ⟨rfl, rfl⟩ (.singleton 1)
  head := by
    intro x hx
    cases hx
    rfl
  last := by
    intro x hx
    cases hx
    rfl

/-- `change_link(1, 3)` up to its last store, then the whole of `link_split(0, 2)`, then
the last store. -/
def overtakingThreads : List LinkThread :=
  List.replicate 6 .change ++ List.replicate 6 .split ++ [.change]

/-- The leaf 2 is followed by 3, but the predecessor of 3 is still 0. -/
theorem stale_prev :
    ∃ s, run (stepLink 0 1 2 3) (.start twoLeaves) overtakingThreads = some s ∧ s.Finished ∧
      s.links.next 0 = some (2, false) ∧ s.links.next 2 = some (3, false) ∧
      s.links.prev 3 = some 0 ∧ ¬ Relinked twoLeaves s.links [] 0 1 2 3 := by
  refine ⟨_, rfl, by decide, rfl, rfl, rfl, ?_⟩
  intro h
  cases h.prev_nn rfl .refl

theorem links_consistent_iff_of_twoLeaves :
    ∃ s, run (stepLink 0 1 2 3) (.start twoLeaves)
        (List.replicate 7 .change ++ List.replicate 6 .split) = some s ∧
      (Relinked twoLeaves s.links [] 0 1 2 3 ↔
        EachStep (stepLink 0 1 2 3) (fun s e t => ¬ Overtakes 3 s e t) (.start twoLeaves)
          (List.replicate 7 .change ++ List.replicate 6 .split)) :=
  ⟨_, rfl, links_consistent_iff twoLeaves_isList (by decide) (by decide) (by decide) rfl
    (by decide)⟩

end Sidle.Masstree
