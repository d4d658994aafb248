import Sidle.Masstree.Order
import Sidle.Masstree.Routing
import Sidle.Masstree.Slices

/-!
# Pages

A leaf is a page: the list of what its slots say, in the order of the permutation.  An entry is for
what is left of a key, or it leads to the layer below its slice.  The search in a leaf finds the
entry for the key or one that goes beyond the same slice, or the place where the key belongs.

## Main definitions

* `Entry`, `Entry.ofStr`, `Entry.layer` — what a slot says.
* `Leaf.page` — the entries of a leaf.
* `Finding` — what a search says.

## Main results

* `PageSorted.finding` — **the search in a leaf**.
* `PageSorted.insert` — a key goes where the search has ended.
-/

namespace Sidle.Masstree

/-! ### Entries -/

/-- What a slot of a leaf says. -/
structure Entry where
  ikey : ℕ
  keylenx : ℕ
  suffix : Str
  lv : ℕ

/-- The entries of a leaf. -/
abbrev Page := List Entry

namespace Entry

/-- The entry for what is left of a key, `s`. -/
def ofStr (s : Str) (v : ℕ) : Entry :=
  ⟨makeComparable s, if ikeySize < s.length then ksufKeylenx else s.length, s.drop ikeySize, v⟩

/-- The entry that leads to the layer below a slice. -/
def layer (ikey : ℕ) (root : Addr) : Entry := ⟨ikey, layerKeylenx, [], root⟩

/-- A slice has at most one entry that goes beyond it, behind all that end with it. -/
def Before (e e' : Entry) : Prop :=
  e.ikey < e'.ikey ∨ e.ikey = e'.ikey ∧ e.keylenx ≤ ikeySize ∧ e.keylenx < e'.keylenx

/-- The length is that of a key, or a mark. -/
def Known (e : Entry) : Prop :=
  e.keylenx ≤ ikeySize ∨ e.keylenx = ksufKeylenx ∨ e.keylenx = layerKeylenx

variable {e e' : Entry} {s t : Str} {v w ikey : ℕ} {a : Addr}

@[simp] theorem ikey_ofStr : (ofStr s v).ikey = makeComparable s := rfl

@[simp] theorem lv_ofStr : (ofStr s v).lv = v := rfl

theorem keylenx_ofStr_of_long (h : ikeySize < s.length) : (ofStr s v).keylenx = ksufKeylenx :=
  if_pos h

theorem keylenx_ofStr_of_short (h : s.length ≤ ikeySize) : (ofStr s v).keylenx = s.length :=
  if_neg (Nat.not_lt.mpr h)

theorem known_ofStr : (ofStr s v).Known := by
  by_cases h : ikeySize < s.length
  · exact Or.inr (Or.inl (keylenx_ofStr_of_long h))
  · refine Or.inl ?_
    rw [keylenx_ofStr_of_short (Nat.le_of_not_lt h)]
    exact Nat.le_of_not_lt h

theorem long_layer : ikeySize < (layer ikey a).keylenx := by
  change ikeySize < layerKeylenx
  decide

theorem known_layer : (layer ikey a).Known := Or.inr (Or.inr rfl)

/-- An entry is for one key. -/
theorem ofStr_inj (h : ofStr s v = ofStr t w) : s = t ∧ v = w := by
  have hikey : makeComparable s = makeComparable t := congrArg Entry.ikey h
  have hlen : (ofStr s v).keylenx = (ofStr t w).keylenx := congrArg Entry.keylenx h
  have hsuffix : s.drop ikeySize = t.drop ikeySize := congrArg Entry.suffix h
  refine ⟨?_, congrArg Entry.lv h⟩
  by_cases hs : ikeySize < s.length
  · have ht : ikeySize < t.length := by
      by_contra ht
      rw [keylenx_ofStr_of_long hs, keylenx_ofStr_of_short (Nat.le_of_not_lt ht)] at hlen
      simp only [ksufKeylenx, ikeySize] at *
      omega
    have htake : s.take ikeySize = t.take ikeySize := take_eq_of_makeComparable hikey hs.le ht.le
    rw [← List.take_append_drop ikeySize s, ← List.take_append_drop ikeySize t, htake, hsuffix]
  · have ht : ¬ikeySize < t.length := by
      intro ht
      rw [keylenx_ofStr_of_long ht, keylenx_ofStr_of_short (Nat.le_of_not_lt hs)] at hlen
      simp only [ksufKeylenx, ikeySize] at *
      omega
    rw [keylenx_ofStr_of_short (Nat.le_of_not_lt hs),
      keylenx_ofStr_of_short (Nat.le_of_not_lt ht)] at hlen
    exact eq_of_makeComparable hikey hlen (Nat.le_of_not_lt hs)

/-- An entry for a key leads to no layer. -/
theorem ofStr_ne_layer : ofStr s v ≠ layer ikey a := by
  intro h
  have hlen : (ofStr s v).keylenx = layerKeylenx := congrArg Entry.keylenx h
  by_cases hs : ikeySize < s.length
  · rw [keylenx_ofStr_of_long hs] at hlen
    cases hlen
  · rw [keylenx_ofStr_of_short (Nat.le_of_not_lt hs)] at hlen
    simp only [layerKeylenx, ikeySize] at *
    omega

/-- A slice has at most one entry that goes beyond it. -/
theorem Before.not_long (h : e.Before e') (hikey : e.ikey = e'.ikey) : e.keylenx ≤ ikeySize := by
  rcases h with h | h
  · exact absurd hikey (Nat.ne_of_lt h)
  · exact h.2.1

theorem Before.ikey_le (h : e.Before e') : e.ikey ≤ e'.ikey := by
  unfold Before at h
  omega

end Entry

/-! ### The comparison with a key -/

namespace Key

variable {ka : Key} {e e' : Entry} {t : Str} {v ikey : ℕ} {a : Addr}

/-- `compare_key`. -/
def compareEntry (ka : Key) (e : Entry) : Ordering := ka.compare e.ikey e.keylenx

/-- What is left of the key compares equal to its entry. -/
theorem compareEntry_self : ka.compareEntry (Entry.ofStr ka.rest v) = .eq := by
  rw [compareEntry, compare_eq_eq]
  by_cases hlong : ikeySize < ka.rest.length
  · rw [Entry.keylenx_ofStr_of_long hlong]
    exact ⟨rfl, Or.inl ⟨hlong, by decide⟩⟩
  · rw [Entry.keylenx_ofStr_of_short (Nat.le_of_not_lt hlong)]
    exact ⟨rfl, Or.inr ⟨Nat.le_of_not_lt hlong, rfl⟩⟩

/-- An entry that compares equal is for the key, or both go beyond the same slice. -/
theorem eq_or_long (h : ka.compareEntry (Entry.ofStr t v) = .eq) : t = ka.rest ∨
    t ≠ ka.rest ∧ makeComparable t = ka.ikey ∧ ikeySize < ka.length ∧ ikeySize < t.length ∧
      t.drop ikeySize ≠ ka.suffix := by
  obtain ⟨hikey, hlen⟩ := compare_eq_eq.mp h
  by_cases ht : ikeySize < t.length
  · rw [Entry.keylenx_ofStr_of_long ht] at hlen
    have hka : ikeySize < ka.length := by
      simp only [ksufKeylenx, ikeySize] at *
      omega
    by_cases hsuffix : t.drop ikeySize = ka.suffix
    · left
      have htake : t.take ikeySize = ka.rest.take ikeySize :=
        take_eq_of_makeComparable hikey.symm ht.le hka.le
      rw [← List.take_append_drop ikeySize t, ← List.take_append_drop ikeySize ka.rest, htake,
        hsuffix]
      rfl
    · exact Or.inr ⟨fun heq => hsuffix (congrArg _ heq), hikey.symm, hka, ht, hsuffix⟩
  · rw [Entry.keylenx_ofStr_of_short (Nat.le_of_not_lt ht)] at hlen
    left
    refine (eq_of_makeComparable hikey ?_ ?_).symm
    · change ka.length = t.length
      omega
    · change ka.length ≤ ikeySize
      omega

theorem long_of_compareEntry_layer (h : ka.compareEntry (Entry.layer ikey a) = .eq) :
    ikey = ka.ikey ∧ ikeySize < ka.length := by
  obtain ⟨hikey, hlen⟩ := compare_eq_eq.mp h
  refine ⟨hikey.symm, ?_⟩
  simp only [Entry.layer, layerKeylenx, ikeySize] at *
  omega

theorem compareEntry_layer (h : ikeySize < ka.length) :
    ka.compareEntry (Entry.layer ka.ikey a) = .eq := by
  rw [compareEntry, compare_eq_eq]
  exact ⟨rfl, Or.inl ⟨h, Entry.long_layer⟩⟩

/-- The entry for the key comes behind those that the key is larger than. -/
theorem before_of_gt (h : ka.compareEntry e = .gt) : e.Before (Entry.ofStr ka.rest v) := by
  rw [compareEntry, compare_eq_gt] at h
  unfold Entry.Before
  have hikey : (Entry.ofStr ka.rest v).ikey = ka.ikey := rfl
  by_cases hlong : ikeySize < ka.rest.length
  · rw [hikey, Entry.keylenx_ofStr_of_long hlong]
    simp only [Key.length, ikeySize, ksufKeylenx] at *
    omega
  · rw [hikey, Entry.keylenx_ofStr_of_short (Nat.le_of_not_lt hlong)]
    simp only [Key.length] at *
    omega

/-- It comes before those that the key is smaller than. -/
theorem before_of_lt (h : ka.compareEntry e = .lt) : (Entry.ofStr ka.rest v).Before e := by
  rw [compareEntry, compare_eq_lt] at h
  unfold Entry.Before
  have hikey : (Entry.ofStr ka.rest v).ikey = ka.ikey := rfl
  by_cases hlong : ikeySize < ka.rest.length
  · rw [hikey, Entry.keylenx_ofStr_of_long hlong]
    simp only [Key.length] at *
    omega
  · rw [hikey, Entry.keylenx_ofStr_of_short (Nat.le_of_not_lt hlong)]
    simp only [Key.length] at *
    omega

end Key

/-! ### Sorted pages -/

/-- The entries are in order. -/
structure PageSorted (es : Page) : Prop where
  before : es.Pairwise Entry.Before
  known : ∀ e ∈ es, e.Known

section Pages

variable {es : Page} {e e' : Entry} {s : Str} {v w i ikey : ℕ} {a : Addr} {ka : Key}

theorem PageSorted.of_sublist {es' : Page} (h : PageSorted es) (hs : es'.Sublist es) :
    PageSorted es' :=
  ⟨h.before.sublist hs, fun e he => h.known e (hs.subset he)⟩

/-- Of two entries one comes before the other. -/
theorem PageSorted.before_or_before (h : PageSorted es) (he : e ∈ es) (he' : e' ∈ es)
    (hne : e ≠ e') : e.Before e' ∨ e'.Before e := by
  have hboth : es.Pairwise fun e e' => e.Before e' ∨ e'.Before e := h.before.imp Or.inl
  have hsymm : Std.Symm fun e e' : Entry => e.Before e' ∨ e'.Before e := ⟨fun _ _ => Or.symm⟩
  exact hboth.forall he he' hne

/-- A slice has at most one entry that goes beyond it. -/
theorem PageSorted.eq_of_long (h : PageSorted es) (he : e ∈ es) (he' : e' ∈ es)
    (hikey : e.ikey = e'.ikey) (hlong : ikeySize < e.keylenx) (hlong' : ikeySize < e'.keylenx) :
    e = e' := by
  by_contra hne
  rcases h.before_or_before he he' hne with hlt | hlt
  · exact absurd hlong (Nat.not_lt.mpr (hlt.not_long hikey))
  · exact absurd hlong' (Nat.not_lt.mpr (hlt.not_long hikey.symm))

/-- A key has at most one entry. -/
theorem PageSorted.eq_of_ofStr (h : PageSorted es) (he : Entry.ofStr s v ∈ es)
    (he' : Entry.ofStr s w ∈ es) : v = w := by
  by_contra hne
  have hself {v w : ℕ} : ¬(Entry.ofStr s v).Before (Entry.ofStr s w) := by
    rintro (hlt | ⟨-, -, hlt⟩)
    · exact Nat.lt_irrefl _ hlt
    · exact Nat.lt_irrefl _ hlt
  have hentries : Entry.ofStr s v ≠ Entry.ofStr s w := fun heq => hne (Entry.ofStr_inj heq).2
  rcases h.before_or_before he he' hentries with hlt | hlt
  · exact hself hlt
  · exact hself hlt

/-- A key that goes beyond its slice leaves no room for a layer. -/
theorem PageSorted.layer_notMem (h : PageSorted es) (hs : .ofStr s v ∈ es)
    (hlong : ikeySize < s.length) : .layer (makeComparable s) a ∉ es := by
  intro ha
  refine Entry.ofStr_ne_layer (h.eq_of_long hs ha rfl ?_ Entry.long_layer)
  rw [Entry.keylenx_ofStr_of_long hlong]
  decide

theorem insertIdx_eq_take_append {α : Type*} {l : List α} {i : ℕ} (h : i ≤ l.length) (b : α) :
    l.insertIdx i b = l.take i ++ b :: l.drop i := by
  induction i generalizing l with
  | zero => rfl
  | succ i ih =>
    cases l with
    | nil => cases h
    | cons c l =>
      rw [List.insertIdx_succ_cons, ih (Nat.le_of_succ_le_succ h)]
      rfl

/-- **A key goes where the search has ended.** -/
theorem PageSorted.insert (h : PageSorted es) (hi : i ≤ es.length)
    (hgt : ∀ e ∈ es.take i, ka.compareEntry e = .gt)
    (hlt : ∀ e ∈ es.drop i, ka.compareEntry e = .lt) :
    PageSorted (es.insertIdx i (Entry.ofStr ka.rest v)) := by
  constructor
  · have hsplit : (es.take i ++ es.drop i).Pairwise Entry.Before := by
      rw [List.take_append_drop]
      exact h.before
    obtain ⟨htake, hdrop, hboth⟩ := List.pairwise_append.mp hsplit
    rw [insertIdx_eq_take_append hi, List.pairwise_append, List.pairwise_cons]
    refine ⟨htake, ⟨fun e he => Key.before_of_lt (hlt e he), hdrop⟩, ?_⟩
    intro e he e' he'
    rcases List.mem_cons.mp he' with rfl | he'
    · exact Key.before_of_gt (hgt e he)
    · exact hboth e he e' he'
  · intro e he
    rcases List.eq_or_mem_of_mem_insertIdx he with rfl | he
    · exact Entry.known_ofStr
    · exact h.known e he

/-- An entry that goes beyond its slice may make way for another one. -/
theorem PageSorted.set (h : PageSorted es) (he : es[i]? = some e) (hikey : e'.ikey = e.ikey)
    (hlen : e.keylenx ≤ e'.keylenx) (hshort : e.keylenx ≤ ikeySize → e'.keylenx = e.keylenx)
    (hknown : e'.Known) : PageSorted (es.set i e') := by
  obtain ⟨hi, rfl⟩ := List.getElem?_eq_some_iff.mp he
  constructor
  · have hsplit : (es.take i ++ es[i] :: es.drop (i + 1)).Pairwise Entry.Before := by
      rw [← List.drop_eq_getElem_cons hi, List.take_append_drop]
      exact h.before
    obtain ⟨htake, hdrop, hboth⟩ := List.pairwise_append.mp hsplit
    obtain ⟨hbehind, hdrop⟩ := List.pairwise_cons.mp hdrop
    rw [List.set_eq_take_append_cons_drop, if_pos hi, List.pairwise_append, List.pairwise_cons]
    refine ⟨htake, ⟨fun c hc => ?_, hdrop⟩, fun c hc d hd => ?_⟩
    · have hbefore := hbehind c hc
      unfold Entry.Before at hbefore ⊢
      omega
    · rcases List.mem_cons.mp hd with rfl | hd
      · have hbefore := hboth c hc _ List.mem_cons_self
        unfold Entry.Before at hbefore ⊢
        omega
      · exact hboth c hc d (List.mem_cons_of_mem _ hd)
  · intro c hc
    rcases List.mem_or_eq_of_mem_set hc with hc | rfl
    · exact h.known c hc
    · exact hknown

end Pages

/-! ### The page of a leaf -/

section Leaves

variable {l l' : Leaf} {es : Page} {ka : Key} {i q : ℕ} {e : Entry}

/-- What the slot `q` of a bare leaf says. -/
def Leaf.entry (l : Leaf) (q : ℕ) : Entry :=
  ⟨l.ikey0 q, l.keylenx q, if l.keylenx q = ksufKeylenx then l.iksuf.get q else [], l.lv q⟩

/-- What its slots say. -/
def Leaf.page (l : Leaf) : Page := (List.range l.size).map fun k => l.entry (l.permutation.slot k)

theorem Leaf.length_page : l.page.length = l.size := by simp [Leaf.page]

theorem Leaf.getElem?_page (i : ℕ) :
    l.page[i]? = if i < l.size then some (l.entry (l.permutation.slot i)) else none :=
  getElem?_map_range i

theorem Leaf.getElem?_page_eq_some :
    l.page[i]? = some e ↔ i < l.size ∧ l.entry (l.permutation.slot i) = e := by
  rw [Leaf.getElem?_page]
  split
  · rename_i h
    rw [Option.some.injEq]
    exact ⟨fun he => ⟨h, he⟩, And.right⟩
  · rename_i h
    exact ⟨fun he => (by cases he), fun he => absurd he.1 h⟩

theorem PageSorted.leaf (h : PageSorted l.page) : l.Sorted := by
  constructor
  · intro j k hjk hk
    have hj := Leaf.getElem?_page_eq_some.mpr ⟨hjk.trans hk, rfl⟩
    have hk := Leaf.getElem?_page_eq_some.mpr ⟨hk, rfl⟩
    obtain ⟨hj, hje⟩ := List.getElem?_eq_some_iff.mp hj
    obtain ⟨hk, hke⟩ := List.getElem?_eq_some_iff.mp hk
    have hbefore := List.pairwise_iff_getElem.mp h.before j k hj hk hjk
    rw [hje, hke] at hbefore
    exact hbefore
  · intro k hk
    exact h.known _ (List.mem_of_getElem? (Leaf.getElem?_page_eq_some.mpr ⟨hk, rfl⟩))

/-- What `ksuf_matches` says of an entry. -/
def keyMatches (keylenx : ℕ) (suffix : Str) (ka : Key) : ℤ :=
  if keylenx < ksufKeylenx then 1
  else if keylenx = layerKeylenx then -(ikeySize : ℤ)
  else if suffix = ka.suffix then 1 else 0

/-- What the search for the key `ka` in a page says: where it ends, in which slot, and what
`ksuf_matches` says of the entry there. -/
inductive Finding (es : Page) (ka : Key) : ℕ → Option Entry → ℤ → Prop
  | entry {k v : ℕ} (h : es[k]? = some (.ofStr ka.rest v)) :
    Finding es ka k (some (.ofStr ka.rest v)) 1
  | layer {k : ℕ} {a : Addr} (h : es[k]? = some (.layer ka.ikey a)) (hlong : ikeySize < ka.length) :
    Finding es ka k (some (.layer ka.ikey a)) (-(ikeySize : ℤ))
  | other {k v : ℕ} {t : Str} (h : es[k]? = some (.ofStr t v)) (hne : t ≠ ka.rest)
    (hikey : makeComparable t = ka.ikey) (hlong : ikeySize < ka.length)
    (htlong : ikeySize < t.length) : Finding es ka k (some (.ofStr t v)) 0
  | none {i : ℕ} (hi : i ≤ es.length) (hgt : ∀ e ∈ es.take i, ka.compareEntry e = .gt)
    (hlt : ∀ e ∈ es.drop i, ka.compareEntry e = .lt) : Finding es ka i none 0

/-- A search that finds nothing says that there is no entry for the key, and none that leads to
where it is. -/
theorem Finding.absent {p : Option Entry} (hf : Finding es ka i p 0) (h : PageSorted es) :
    (∀ v, .ofStr ka.rest v ∉ es) ∧ (ikeySize < ka.length → ∀ a, .layer ka.ikey a ∉ es) := by
  cases hf with
  | none hi hgt hlt =>
    have hne : ∀ e ∈ es, ka.compareEntry e ≠ .eq := by
      intro e he heq
      rw [← List.take_append_drop i es] at he
      rcases List.mem_append.mp he with he | he
      · rw [hgt e he] at heq
        cases heq
      · rw [hlt e he] at heq
        cases heq
    exact ⟨fun v hv => hne _ hv Key.compareEntry_self,
      fun hlong a ha => hne _ ha (Key.compareEntry_layer hlong)⟩
  | @other w t ht hne hikey hlong htlong =>
    have hmem := List.mem_of_getElem? ht
    have hthis : ikeySize < (Entry.ofStr t w).keylenx := by
      rw [Entry.keylenx_ofStr_of_long htlong]
      decide
    refine ⟨fun v hv => hne ?_, fun _ a ha => ?_⟩
    · refine (Entry.ofStr_inj (h.eq_of_long hmem hv hikey hthis ?_)).1
      rw [Entry.keylenx_ofStr_of_long hlong]
      decide
    · exact h.layer_notMem hmem htlong (hikey ▸ ha)

/-- An entry is for what is left of a key, or for a layer. -/
def Entry.Meant (e : Entry) : Prop := (∃ s v, e = ofStr s v) ∨ ∃ ikey a, e = layer ikey a

/-- **The search in a leaf.** -/
theorem PageSorted.finding (h : PageSorted l.page) (hmeant : ∀ e ∈ l.page, e.Meant) (ka : Key) :
    Finding l.page ka (l.lower ka).i ((l.lower ka).p.map l.entry)
      (match (l.lower ka).p with
        | some q => keyMatches (l.keylenx q) (l.iksuf.get q) ka
        | none => 0) := by
  obtain ⟨i, p, hlower⟩ : ∃ i p, l.lower ka = ⟨i, p⟩ := ⟨_, _, rfl⟩
  cases p with
  | none =>
    have hnone : (l.lower ka).p = none := by rw [hlower]
    obtain ⟨hi, hgt, hlt⟩ := h.leaf.lower_none hnone
    rw [hlower] at hi hgt hlt ⊢
    refine .none ?_ ?_ ?_
    · rw [Leaf.length_page]
      exact hi
    · intro e he
      obtain ⟨j, hj⟩ := List.mem_iff_getElem?.mp he
      rw [List.getElem?_take] at hj
      split at hj
      · obtain ⟨-, rfl⟩ := Leaf.getElem?_page_eq_some.mp hj
        exact hgt j ‹_›
      · cases hj
    · intro e he
      obtain ⟨j, hj⟩ := List.mem_iff_getElem?.mp he
      rw [List.getElem?_drop] at hj
      obtain ⟨hsize, rfl⟩ := Leaf.getElem?_page_eq_some.mp hj
      exact hlt _ (Nat.le_add_right _ _) hsize
  | some q =>
    obtain ⟨hi, rfl, heq⟩ := lowerBoundBy_some hlower
    have hget := Leaf.getElem?_page_eq_some.mpr ⟨hi, rfl⟩
    have hcompare : ka.compareEntry (l.entry (l.permutation.slot i)) = .eq := heq
    have hmatch : keyMatches (l.keylenx (l.permutation.slot i))
        (l.iksuf.get (l.permutation.slot i)) ka =
        keyMatches (l.entry (l.permutation.slot i)).keylenx
          (l.entry (l.permutation.slot i)).suffix ka := by
      unfold Leaf.entry keyMatches
      by_cases hksuf : l.keylenx (l.permutation.slot i) = ksufKeylenx
      · simp only [if_pos hksuf]
      · by_cases hlt : l.keylenx (l.permutation.slot i) < ksufKeylenx
        · simp only [if_pos hlt]
        · have hknown := h.leaf.keylenx i hi
          have hlayer : l.keylenx (l.permutation.slot i) = layerKeylenx := by
            simp only [ksufKeylenx, layerKeylenx, ikeySize] at *
            omega
          simp only [hlayer]
          rfl
    simp only [hlower, Option.map_some, hmatch]
    generalize l.entry (l.permutation.slot i) = e at hget hcompare
    rcases hmeant e (List.mem_of_getElem? hget) with ⟨t, v, rfl⟩ | ⟨ikey, a, rfl⟩
    · rcases Key.eq_or_long hcompare with rfl | ⟨hne, hikey, hlong, htlong, hsuffix⟩
      · have hone : keyMatches (Entry.ofStr ka.rest v).keylenx
            (Entry.ofStr ka.rest v).suffix ka = 1 := by
          by_cases hlong : ikeySize < ka.rest.length
          · rw [Entry.keylenx_ofStr_of_long hlong]
            exact if_pos rfl
          · rw [Entry.keylenx_ofStr_of_short (Nat.le_of_not_lt hlong)]
            exact if_pos (Nat.lt_of_le_of_lt (Nat.le_of_not_lt hlong) (by decide))
        rw [hone]
        exact .entry hget
      · have hzero : keyMatches (Entry.ofStr t v).keylenx (Entry.ofStr t v).suffix ka = 0 := by
          rw [Entry.keylenx_ofStr_of_long htlong]
          exact if_neg hsuffix
        rw [hzero]
        exact .other hget hne hikey hlong htlong
    · obtain ⟨rfl, hlong⟩ := Key.long_of_compareEntry_layer hcompare
      exact .layer hget hlong

end Leaves

end Sidle.Masstree
