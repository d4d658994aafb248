import Mathlib.Data.List.Basic
import Mathlib.Data.Int.Notation
import Mathlib.Data.Nat.Notation
import Mathlib.Tactic.NormNum

/-!
# Keys, permutations and bounded search

What a Masstree node needs to place a key: the string cut into slices of eight bytes, the
permutation that orders the slots of a leaf, and the two binary searches over them.

## Main definitions

* `Key` — `key<uint64_t>`, a string that is read slice by slice.
* `Permuter` — `kpermuter<15>`.
* `upperBoundBy`, `lowerBoundBy` — `key_bound_binary`.

## Main results

* `lowerBoundBy_eq` — the search finds an entry that the others are sorted around.
* `makeComparable_slice` — every slice is the slice of a key.
-/

namespace Sidle.Masstree

/-- A string of bytes, `Str`. -/
abbrev Str := List UInt8

/-! ### Keys -/

/-- `string_slice<uint64_t>::make_comparable`: the first eight bytes as a number that compares
as the bytes do. -/
def makeComparable (s : Str) : ℕ :=
  (List.range 8).foldl (fun acc i => acc * 256 + (s.getD i 0).toNat) 0

/-- `key::ikey_size`. -/
def ikeySize : ℕ := 8

/-- `key`.  The slices that have been read by `shift` lie before the others. -/
structure Key where
  /-- The bytes from `first_` to `s_`. -/
  shifted : Str
  /-- The `len_` bytes from `s_` on. -/
  rest : Str
  deriving DecidableEq, Repr

namespace Key

/-- `key(Str s)`. -/
def ofStr (s : Str) : Key := ⟨[], s⟩

variable (k : Key)

/-- `ikey`. -/
def ikey : ℕ := makeComparable k.rest

/-- `length`. -/
def length : ℕ := k.rest.length

/-- `has_suffix`. -/
def hasSuffix : Bool := decide (ikeySize < k.length)

/-- `suffix`. -/
def suffix : Str := k.rest.drop ikeySize

/-- `suffix_length`, which is negative for a key without a suffix. -/
def suffixLength : ℤ := (k.length : ℤ) - ikeySize

/-- `shift_by`. -/
def shiftBy (delta : ℕ) : Key := ⟨k.shifted ++ k.rest.take delta, k.rest.drop delta⟩

/-- `shift`. -/
def shift : Key := k.shiftBy ikeySize

/-- `unshift_all`. -/
def unshiftAll : Key := ⟨[], k.shifted ++ k.rest⟩

/-- `prefix_string`. -/
def prefixString : Str := k.shifted

/-- `compare(ikey, keylenx)`: a key with a suffix is as large as any entry with the same
slice that has a suffix or is a layer. -/
def compare (ikey keylenx : ℕ) : Ordering :=
  match Ord.compare k.ikey ikey with
  | .eq =>
    if ikeySize < k.length then (if keylenx ≤ ikeySize then .gt else .eq)
    else Ord.compare k.length keylenx
  | c => c

/-- `compare(const key& x)`. -/
def compareKey (x : Key) : Ordering := k.compare x.ikey x.length

end Key

/-- The eight bytes of a slice. -/
def slice (ikey : ℕ) : Str := (List.range 8).map fun i => UInt8.ofNat (ikey / 256 ^ (7 - i))

theorem length_slice (ikey : ℕ) : (slice ikey).length = ikeySize := by simp [slice, ikeySize]

/-- Every slice is the slice of a key, whatever comes behind it. -/
theorem makeComparable_slice {ikey : ℕ} (h : ikey < 2 ^ 64) (s : Str) :
    makeComparable (slice ikey ++ s) = ikey := by
  have hrange : List.range 8 = [0, 1, 2, 3, 4, 5, 6, 7] := rfl
  simp only [makeComparable, slice, hrange, List.map_cons, List.map_nil, List.cons_append,
    List.nil_append, List.foldl_cons, List.foldl_nil, List.getD_cons_zero, List.getD_cons_succ,
    UInt8.toNat_ofNat']
  norm_num
  omega

/-! ### Permutations -/

/-- The width of a leaf, and of an internode. -/
def width : ℕ := 15

/-- `kpermuter<15>`: the slots in order, the `size` that are in use before the others. -/
structure Permuter where
  size : ℕ
  slots : List ℕ
  deriving DecidableEq, Repr

namespace Permuter

/-- `make_sorted`: the free slots are handed out from the back, in order. -/
def makeSorted (n : ℕ) : Permuter := ⟨n, List.range n ++ (List.range' n (width - n)).reverse⟩

/-- `make_empty`. -/
def makeEmpty : Permuter := makeSorted 0

variable (perm : Permuter)

/-- `operator[]`. -/
def slot (i : ℕ) : ℕ := perm.slots.getD i 0

/-- The slots that are in use, in order. -/
def used : List ℕ := perm.slots.take perm.size

/-- `back`. -/
def back : ℕ := perm.slot (width - 1)

/-- `set_size`. -/
def setSize (n : ℕ) : Permuter := { perm with size := n }

/-- `insert_from_back`. -/
def insertFromBack (i : ℕ) : Permuter :=
  ⟨perm.size + 1, perm.slots.dropLast.insertIdx i perm.back⟩

/-- `remove`: the slot becomes the first of those that are free. -/
def remove (i : ℕ) : Permuter :=
  ⟨perm.size - 1, (perm.slots.eraseIdx i).insertIdx (perm.size - 1) (perm.slot i)⟩

/-- `remove_to_back`: the slot becomes the next to be handed out. -/
def removeToBack (i : ℕ) : Permuter := ⟨perm.size - 1, perm.slots.eraseIdx i ++ [perm.slot i]⟩

/-- `exchange`. -/
def exchange (i j : ℕ) : Permuter :=
  { perm with slots := (perm.slots.set i (perm.slot j)).set j (perm.slot i) }

end Permuter

/-! ### Bounded search -/

/-- `key_upper_bound_by` between `l` and `r`, whose distance the fuel bounds. -/
def upperBoundBy (cmp : ℕ → Ordering) : ℕ → ℕ → ℕ → ℕ
  | 0, l, _ => l
  | fuel + 1, l, r =>
    if l < r then
      let m := (l + r) / 2
      match cmp m with
      | .lt => upperBoundBy cmp fuel l m
      | .eq => m + 1
      | .gt => upperBoundBy cmp fuel (m + 1) r
    else l

/-- `key_indexed_position`: the index of a key in the order of the leaf and, if the leaf has
an entry for it, its slot. -/
structure KeyIndexedPosition where
  i : ℕ
  p : Option ℕ
  deriving DecidableEq, Repr

/-- `key_lower_bound_by` between `l` and `r`, whose distance the fuel bounds. -/
def lowerBoundBy (perm : Permuter) (cmp : ℕ → Ordering) : ℕ → ℕ → ℕ → KeyIndexedPosition
  | 0, l, _ => ⟨l, none⟩
  | fuel + 1, l, r =>
    if l < r then
      let m := (l + r) / 2
      match cmp (perm.slot m) with
      | .lt => lowerBoundBy perm cmp fuel l m
      | .eq => ⟨m, some (perm.slot m)⟩
      | .gt => lowerBoundBy perm cmp fuel (m + 1) r
    else ⟨l, none⟩

section Search

variable {perm : Permuter} {cmp : ℕ → Ordering} {i l r fuel : ℕ}

/-- The search finds the entry at `i` if those before it are smaller and those behind it are
larger. -/
theorem lowerBoundBy_eq (hi : cmp (perm.slot i) = .eq)
    (hlow : ∀ j, l ≤ j → j < i → cmp (perm.slot j) = .gt)
    (hhigh : ∀ j, i < j → j < r → cmp (perm.slot j) = .lt) (hl : l ≤ i) (hr : i < r)
    (hfuel : r - l ≤ fuel) : lowerBoundBy perm cmp fuel l r = ⟨i, some (perm.slot i)⟩ := by
  induction fuel generalizing l r with
  | zero => omega
  | succ fuel ih =>
    rw [lowerBoundBy, if_pos (by omega)]
    rcases Nat.lt_trichotomy ((l + r) / 2) i with hm | hm | hm
    · simp only [hlow _ (by omega) hm]
      exact ih (fun j hj => hlow j (by omega)) hhigh (by omega) hr (by omega)
    · simp only [hm, hi]
    · simp only [hhigh _ hm (by omega)]
      exact ih hlow (fun j hj hjr => hhigh j hj (by omega)) hl hm (by omega)

/-- What the search finds is one of the entries. -/
theorem lowerBoundBy_mem {q : ℕ} (h : (lowerBoundBy perm cmp fuel l r).p = some q) :
    ∃ m, l ≤ m ∧ m < r ∧ q = perm.slot m := by
  induction fuel generalizing l r with
  | zero => cases h
  | succ fuel ih =>
    rw [lowerBoundBy] at h
    split at h
    · dsimp only at h
      split at h
      · obtain ⟨m, hl, hr, hq⟩ := ih h
        exact ⟨m, hl, by omega, hq⟩
      · exact ⟨_, by omega, by omega, (Option.some.inj h).symm⟩
      · obtain ⟨m, hl, hr, hq⟩ := ih h
        exact ⟨m, by omega, hr, hq⟩
    · cases h

end Search

end Sidle.Masstree
