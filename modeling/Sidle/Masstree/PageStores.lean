import Sidle.Masstree.Fill

/-!
# Pages under stores

What the stores to a leaf do to its page.  A slot that is not in use may be filled unseen; the
permutation then says where its entry goes.  A split takes the last entries over to another leaf,
and there the new entry waits in the slot that is handed out next.

## Main results

* `Leaf.page_insertFromBack`, `Leaf.page_setValue` — an entry is inserted, or gets another value.
* `Leaf.page_shrunk`, `Leaf.page_moved` — **the two halves of a split**.
-/

namespace Sidle.Masstree

section Stores

variable {l l' : Leaf} {e : Entry} {i k n q v : ℕ}

theorem Leaf.page_congr (hsize : l'.size = l.size)
    (h : ∀ k < l.size, l'.entry (l'.permutation.slot k) = l.entry (l.permutation.slot k)) :
    l'.page = l.page := by
  rw [Leaf.page, Leaf.page, hsize]
  exact map_range_congr h

theorem Leaf.slot_mem_used (hfull : l.permutation.Full) (hk : k < l.size) :
    l.permutation.slot k ∈ l.permutation.used := hfull.mem_used.mpr ⟨k, hk, rfl⟩

/-- The slot that is handed out next is filled unseen. -/
theorem Leaf.Filled.page_of_back (h : l.Filled l.permutation.back e false l')
    (hfull : l.permutation.Full) (hsize : l.size < width) : l'.page = l.page := by
  apply Leaf.page_congr
  · rw [Leaf.size, h.permutation]
    rfl
  · intro k hk
    have hused := Leaf.slot_mem_used hfull hk
    rw [h.permutation]
    refine h.other _ (fun hback => ?_) hused
    exact hfull.back_notMem_used hsize (hback ▸ hused)

/-- The word of a slot that is not in use. -/
theorem Leaf.page_setValue_of_notMem (hfull : l.permutation.Full) (hq : q ∉ l.permutation.used) :
    Leaf.page { l with lv := Function.update l.lv q v } = l.page := by
  refine Leaf.page_congr rfl fun k hk => ?_
  have hne : l.permutation.slot k ≠ q := by
    rintro rfl
    exact hq (Leaf.slot_mem_used hfull hk)
  simp only [Leaf.entry, Function.update_of_ne hne]

theorem Leaf.entry_setValue : Leaf.entry { l with lv := Function.update l.lv q v } q =
    { l.entry q with lv := v } := by
  simp only [Leaf.entry, Function.update_self]

/-- **An entry gets another value.** -/
theorem Leaf.page_setValue (hfull : l.permutation.Full) (hk : k < l.size) :
    Leaf.page { l with lv := Function.update l.lv (l.permutation.slot k) v } =
      l.page.set k { l.entry (l.permutation.slot k) with lv := v } := by
  apply List.ext_getElem?
  intro i
  rw [Leaf.getElem?_page, List.getElem?_set, Leaf.getElem?_page, Leaf.length_page]
  change (if i < l.size then _ else _) = _
  by_cases hik : k = i
  · subst hik
    rw [if_pos hk, if_pos rfl, if_pos hk]
    exact congrArg some Leaf.entry_setValue
  · rw [if_neg hik]
    split
    · rename_i hi
      have hne : l.permutation.slot i ≠ l.permutation.slot k := by
        intro heq
        have hw := hfull.size
        exact hik (hfull.slot_inj (Nat.lt_of_lt_of_le hk hw) (Nat.lt_of_lt_of_le hi hw) heq.symm)
      refine congrArg some ?_
      simp only [Leaf.entry, Function.update_of_ne hne]
    · rfl

/-- **The entry in the slot that is handed out next is inserted.** -/
theorem Leaf.page_insertFromBack (hfull : l.permutation.Full) (hsize : l.size < width)
    (hi : i ≤ l.size) : Leaf.page { l with permutation := l.permutation.insertFromBack i } =
      l.page.insertIdx i (l.entry l.permutation.back) := by
  rw [Leaf.page, Leaf.page, map_range_insertIdx hi]
  apply map_range_congr
  intro k hk
  have hslot := Permuter.slot_insertFromBack (k := k) hfull.length (Nat.lt_of_le_of_lt hi hsize)
    (Nat.lt_of_lt_of_le hk hsize)
  change l.entry ((l.permutation.insertFromBack i).slot k) = _
  rw [hslot]
  unfold inserted
  split
  · rfl
  · split
    · rfl
    · rfl

/-! ### Halves -/

/-- What `shrinkLeft` makes of the permutation, for `n` entries that stay. -/
def Permuter.shrunk (p : Permuter) (n : ℕ) : Permuter :=
  let p' := p.setSize n
  if p.size ≠ width then p'.exchange p'.size (width - 1) else p'

theorem Permuter.Full.shrunk {p : Permuter} (h : p.Full) (hn : n < width) : (p.shrunk n).Full := by
  have hset : (p.setSize n).Full := h.apply (.setSize n) hn.le
  unfold Permuter.shrunk
  split
  · exact hset.apply (.exchange n (width - 1)) ⟨hn, by decide⟩
  · exact hset

theorem Permuter.size_shrunk {p : Permuter} : (p.shrunk n).size = n := by
  unfold Permuter.shrunk
  split <;> rfl

theorem Permuter.slot_shrunk {p : Permuter} (h : p.Full) (hn : n < width) (hk : k < n) :
    (p.shrunk n).slot k = p.slot k := by
  unfold Permuter.shrunk
  split
  · have hslot := Permuter.slot_exchange (p := p.setSize n) h.length hn (j := width - 1) (by decide)
      (hk.trans hn)
    refine hslot.trans ?_
    have hlast : k ≠ width - 1 := by
      simp only [width] at *
      omega
    rw [if_neg hlast, if_neg (Nat.ne_of_lt hk)]
    rfl
  · rfl

/-- **The entries that stay.** -/
theorem Leaf.page_shrunk (hfull : l.permutation.Full) (hn : n < width) (hle : n ≤ l.size) :
    Leaf.page { l with permutation := l.permutation.shrunk n } = l.page.take n := by
  have htake : l.page.take n = (List.range n).map fun k => l.entry (l.permutation.slot k) := by
    rw [Leaf.page, ← List.map_take, List.take_range, min_eq_left hle]
  have hsize : Leaf.size { l with permutation := l.permutation.shrunk n } = n :=
    Permuter.size_shrunk
  rw [htake, Leaf.page, hsize]
  apply map_range_congr
  intro k hk
  exact congrArg l.entry (Permuter.slot_shrunk hfull hn hk)

/-- What the permutation of the right half is: if the new entry is there, it waits in the slot that
is handed out next. -/
def Permuter.moved (size mid kxi : ℕ) : Permuter :=
  if mid ≤ kxi then (Permuter.makeSorted (size + 1 - mid)).removeToBack (kxi - mid)
  else Permuter.makeSorted (size + 1 - mid)

theorem Permuter.slot_makeSorted {n k : ℕ} (hk : k < n) (hn : n ≤ width) :
    (Permuter.makeSorted n).slot k = k := by
  have hall : ∀ n ≤ 15, ∀ k < n, (Permuter.makeSorted n).slot k = k := by decide
  exact hall n hn k hk

variable {size mid kxi : ℕ}

theorem Permuter.full_moved (hmid : 0 < mid) (hmids : mid ≤ size) (hkxi : kxi ≤ size)
    (hsize : size ≤ width) : (Permuter.moved size mid kxi).Full := by
  have hn : size + 1 - mid ≤ width := by omega
  unfold Permuter.moved
  split
  · refine (Permuter.full_makeSorted hn).apply (.removeToBack (kxi - mid)) ?_
    change kxi - mid < size + 1 - mid
    omega
  · exact Permuter.full_makeSorted hn

theorem Permuter.size_moved (hmids : mid ≤ size) :
    (Permuter.moved size mid kxi).size = if mid ≤ kxi then size - mid else size + 1 - mid := by
  unfold Permuter.moved
  split
  · change size + 1 - mid - 1 = size - mid
    omega
  · rfl

/-- **The entries that move.** -/
theorem Leaf.page_moved {f : ℕ → Entry} (hmid : 0 < mid) (hmids : mid ≤ size) (hkxi : kxi ≤ size)
    (hsize : size ≤ width) (hperm : l.permutation = Permuter.moved size mid kxi)
    (hentry : ∀ k < size + 1 - mid, l.entry k = inserted f kxi e (mid + k)) :
    l.page = ((List.range size).map f).drop (if mid ≤ kxi then mid else mid - 1) := by
  have hlsize : l.size = if mid ≤ kxi then size - mid else size + 1 - mid := by
    rw [Leaf.size, hperm]
    exact Permuter.size_moved hmids
  have hn : size + 1 - mid ≤ width := by omega
  apply List.ext_getElem?
  intro k
  rw [Leaf.getElem?_page, List.getElem?_drop, getElem?_map_range, hlsize]
  by_cases hk : mid ≤ kxi
  · rw [if_pos hk, if_pos hk]
    by_cases hlt : k < size - mid
    · have hkw : k < width := by omega
      have hslot : l.permutation.slot k = if k < kxi - mid then k else k + 1 := by
        rw [hperm, Permuter.moved, if_pos hk]
        have hlength := (Permuter.full_makeSorted hn).length
        refine (Permuter.slot_removeToBack hlength (by omega) hkw).trans ?_
        split
        · exact Permuter.slot_makeSorted (by omega) hn
        · rw [if_pos (by omega)]
          exact Permuter.slot_makeSorted (by omega) hn
      rw [if_pos hlt, if_pos (by omega), hslot]
      split
      · rw [hentry k (by omega), inserted_of_lt (by omega)]
      · rw [hentry (k + 1) (by omega), inserted_of_gt (by omega)]
        rfl
    · rw [if_neg hlt, if_neg (by omega)]
  · rw [if_neg hk, if_neg hk]
    by_cases hlt : k < size + 1 - mid
    · have hslot : l.permutation.slot k = k := by
        rw [hperm, Permuter.moved, if_neg hk]
        exact Permuter.slot_makeSorted hlt hn
      rw [if_pos hlt, if_pos (by omega), hslot, hentry k hlt, inserted_of_gt (by omega)]
      exact congrArg (fun j => some (f j)) (by omega)
    · rw [if_neg hlt, if_neg (by omega)]

/-- The new entry waits. -/
theorem Permuter.back_moved (hmid : 0 < mid) (hmids : mid ≤ size) (hkxi : kxi ≤ size)
    (hsize : size ≤ width) (hk : mid ≤ kxi) : (Permuter.moved size mid kxi).back = kxi - mid := by
  have hn : size + 1 - mid ≤ width := by omega
  rw [Permuter.moved, if_pos hk, Permuter.back]
  have hlength := (Permuter.full_makeSorted hn).length
  refine (Permuter.slot_removeToBack hlength (by omega) (by decide)).trans ?_
  rw [if_neg (by simp only [width] at *; omega), if_neg (by decide)]
  exact Permuter.slot_makeSorted (by omega) hn

end Stores

end Sidle.Masstree
