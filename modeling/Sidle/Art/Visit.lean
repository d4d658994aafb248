import Sidle.Art.Release
import Sidle.Art.Traverse
import Mathlib.Data.List.Dedup

/-!
# Visiting all leaves

`adaptive_radix_tree_traverse` walks over the whole tree and calls back for each leaf, with
the node that the leaf hangs on.  A walk gives up when it comes to an old node, and its caller
repeats it unless the caller's own node is old, so leaves may come twice while writers are
at work.  In a quiescent tree no node is old, and each leaf comes once.

## Main definitions

* `adaptiveRadixTreeTraverse` — the walk, for any callback.
* `recordCall` — the callback that records its calls.
* `Visits` — a list of calls that covers the leaves below a place, each once.
* `HeldBy` — the internal node whose child slot holds a leaf.
* `VisitsAll` — what the walk is for.

## Main results

* `Represents.run_traverse` — a walk from any place.
* `traverse_visits_iff` — **when the walk visits the leaves**, each once and with its parent.
-/

namespace Sidle.Art

open Prog Machine Outcome

/-! ### The walk -/

section Walk

variable {σ : Type} (cb : σ → Addr → Addr → ArtM σ)

/-- `is_valid_node`. -/
def isValidNode (node : Addr) : ArtM Bool := do
  let pv ← artNodeGetVersion node
  pure (!isOld pv)

/-- The inner loop over one child, whose pointer is read in every round: the walk over the
child is repeated until it succeeds, or `node` is old. -/
def traverseChild (node : Addr) (j : ℕ) (walk : Ptr → σ → ArtM (Bool × σ)) : ℕ → σ → ArtM (Bool × σ)
  | 0, _ => diverge
  | fuel + 1, x => do
    let child ← load node (.child j)
    let (success, x) ← walk child x
    if success then pure (true, x)
    else do
      let valid ← isValidNode node
      if valid then traverseChild node j walk fuel x else pure (false, x)

/-- The loops over the children, which end early when `node` is old. -/
def traverseChildren (node : Addr) (slotAt : ℕ → ArtM (Option ℕ)) (walk : Ptr → σ → ArtM (Bool × σ))
    (fuel : ℕ) : ℕ → ℕ → σ → ArtM (Bool × σ)
  | 0, _, x => pure (true, x)
  | k + 1, i, x => do
    let valid ← isValidNode node
    if !valid then pure (false, x)
    else do
      let slot ← slotAt i
      match slot with
      | none => traverseChildren node slotAt walk fuel k (i + 1) x
      | some j => do
        let (success, x) ← traverseChild node j walk fuel x
        if success then traverseChildren node slotAt walk fuel k (i + 1) x
        else pure (false, x)

/-- `_adaptive_radix_tree_traverse`.  The callback works on a state of its own; the answer is
whether the walk has succeeded, and that state. -/
def _adaptiveRadixTreeTraverse : ℕ → Addr → Ptr → Bool → σ → ArtM (Bool × σ)
  | 0, _, _, _, _ => diverge
  | fuel + 1, parent, node, full, x => do
    if isLeaf node then do
      let x ← cb x parent (getLeaf node)
      pure (true, x)
    else do
      let x ← if full then cb x node 0 else pure x
      let valid ← isValidNode node
      if !valid then pure (false, x)
      else do
        let v ← artNodeGetStableExpandVersion fuel node
        let walk (child : Ptr) := _adaptiveRadixTreeTraverse fuel node child false
        match getNodeType v with
        | .node4 | .node16 => do
          let version ← load node .version
          traverseChildren node (fun i => pure (some i)) walk fuel (getCount version) 0 x
        | .node48 => traverseChildren node (indexSlot node) walk fuel 256 0 x
        | .node256 => traverseChildren node (occupiedSlot node) walk fuel 256 0 x

/-- `adaptive_radix_tree_traverse`; the answer is the last state of the callback. -/
def adaptiveRadixTreeTraverse (x : σ) (fuel : ℕ) : ArtM σ := do
  let root ← lift .loadRoot
  if root = 0 then pure x
  else do
    let root ← lift .loadRoot
    let (_, x) ← _adaptiveRadixTreeTraverse cb fuel 0 root false x
    pure x

end Walk

/-- A call of the callback: the parent, and the leaf. -/
abbrev Call := Addr × Addr

/-- The callback that records its calls. -/
def recordCall (calls : List Call) (parent cur : Addr) : ArtM (List Call) :=
  pure (calls ++ [(parent, cur)])

/-! ### The bytes of the rounds -/

section Rounds

variable {n : ArtNode}

/-- The byte of the child that round `x` of a loop over the children comes to. -/
def childByte (n : ArtNode) (x : ℕ) : UInt8 :=
  match n.layout with
  | .node4 | .node16 => n.key x
  | .node48 | .node256 => UInt8.ofNat x

theorem childByte_keyed (hk : n.layout.Keyed) (x : ℕ) : childByte n x = n.key x := by
  rcases hk with h | h <;> simp [childByte, h]

theorem ofNat_byte_inj {x y : ℕ} (hx : x < 256) (hy : y < 256) (h : UInt8.ofNat x = UInt8.ofNat y) :
    x = y := by
  have := congrArg UInt8.toNat h
  rwa [UInt8.toNat_ofNat', UInt8.toNat_ofNat', Nat.mod_eq_of_lt hx, Nat.mod_eq_of_lt hy] at this

/-- Each byte with a child has a round of its own. -/
theorem slotOf_eq_some_iff (hok : n.Ok) {b : UInt8} {j : ℕ} :
    n.slotOf b = some j ↔ ∃ x < rounds n, childSlot n x = some j ∧ childByte n x = b := by
  rcases ArtNode.layout_cases n.layout with hk | hk | hk
  · rw [ArtNode.slotOf_keyed_eq_some hok hk, rounds_keyed hk]
    constructor
    · rintro ⟨hj, hb⟩
      exact ⟨j, hj, childSlot_keyed hk hj, (childByte_keyed hk j).trans hb⟩
    · rintro ⟨x, hx, hs, hb⟩
      rw [childSlot_keyed hk hx] at hs
      obtain rfl := Option.some.inj hs
      exact ⟨hx, (childByte_keyed hk x).symm.trans hb⟩
  · simp only [rounds, childSlot, childByte, ArtNode.slotOf_node48 hk, hk]
    constructor
    · intro hs
      exact ⟨b.toNat, b.toNat_lt, by rwa [UInt8.ofNat_toNat], UInt8.ofNat_toNat⟩
    · rintro ⟨x, -, hs, rfl⟩
      exact hs
  · simp only [rounds, childSlot, childByte, ArtNode.slotOf_node256 hk, hk]
    constructor
    · intro hs
      exact ⟨b.toNat, b.toNat_lt, hs, UInt8.ofNat_toNat⟩
    · rintro ⟨x, hx, hs, rfl⟩
      rwa [UInt8.toNat_ofNat', Nat.mod_eq_of_lt hx]

/-- Two rounds with the same byte are the same round. -/
theorem childByte_inj (hok : n.Ok) {x y j i : ℕ} (hx : x < rounds n) (hy : y < rounds n)
    (hxj : childSlot n x = some j) (hyi : childSlot n y = some i)
    (h : childByte n x = childByte n y) : x = y := by
  have hj : n.slotOf (childByte n y) = some j := (slotOf_eq_some_iff hok).mpr ⟨x, hx, hxj, h⟩
  have hi : n.slotOf (childByte n y) = some i := (slotOf_eq_some_iff hok).mpr ⟨y, hy, hyi, rfl⟩
  obtain rfl : j = i := Option.some.inj (hj.symm.trans hi)
  rcases ArtNode.layout_cases n.layout with hk | hk | hk
  · rw [rounds_keyed hk] at hx hy
    rw [childSlot_keyed hk hx] at hxj
    rw [childSlot_keyed hk hy] at hyi
    exact Option.some.inj (hxj.trans hyi.symm)
  · simp only [rounds, hk] at hx hy
    simp only [childByte, hk] at h
    exact ofNat_byte_inj hx hy h
  · simp only [rounds, hk] at hx hy
    simp only [childByte, hk] at h
    exact ofNat_byte_inj hx hy h

end Rounds

variable {L : ℕ} {env : Env} {s : Mem} {t : Tree L} {an : Addr} {n : ArtNode}

/-! ### The loops -/

theorem run_isValidNode (h : s.node? an = some n) (hold : isOld n.version = false) :
    env.machine.run (isValidNode an) s = done true s := by
  refine (env.machine.run_bind_of_done (run_artNodeGetVersion h)).trans ?_
  rw [hold]
  rfl

/-- A loop over the children of a node that is not old, whose walks succeed, makes the calls
of all its rounds. -/
theorem run_traverseChildren (h : s.node? an = some n) (hold : isOld n.version = false)
    {slotAt : ℕ → ArtM (Option ℕ)} {walk : Ptr → List Call → ArtM (Bool × List Call)}
    {sl : ℕ → Option ℕ} {cs : ℕ → List Call} (fuel k i : ℕ)
    (hslot : ∀ x, i ≤ x → x < i + k → env.machine.run (slotAt x) s = done (sl x) s)
    (hnone : ∀ x, i ≤ x → x < i + k → sl x = none → cs x = [])
    (hwalk : ∀ x j, i ≤ x → x < i + k → sl x = some j → j < n.layout.capacity ∧
      ∀ calls, env.machine.run (walk (n.child j) calls) s = done (true, calls ++ cs x) s)
    (calls : List Call) :
    env.machine.run (traverseChildren an slotAt walk (fuel + 1) k i calls) s =
      done (true, calls ++ (List.range' i k).flatMap cs) s := by
  induction k generalizing i calls with
  | zero => simp [traverseChildren]
  | succ k ih =>
    have ih := ih (i + 1) (fun x hx hxk => hslot x (by omega) (by omega))
      (fun x hx hxk => hnone x (by omega) (by omega))
      (fun x j hx hxk => hwalk x j (by omega) (by omega))
    unfold traverseChildren
    refine (env.machine.run_bind_of_done (run_isValidNode h hold)).trans ?_
    refine (env.machine.run_bind_of_done (hslot i (Nat.le_refl i) (by omega))).trans ?_
    rw [List.range'_succ, List.flatMap_cons]
    cases hs : sl i with
    | none =>
      rw [hnone i (Nat.le_refl i) (by omega) hs, List.nil_append]
      exact ih calls
    | some j =>
      obtain ⟨hj, hw⟩ := hwalk i j (Nat.le_refl i) (by omega) hs
      have hchild : env.machine.run (traverseChild an j walk (fuel + 1) calls) s =
          done (true, calls ++ cs i) s := by
        unfold traverseChild
        refine (env.machine.run_bind_of_done (run_load (f := .child j) h hj)).trans ?_
        exact env.machine.run_bind_of_done (hw calls)
      refine (env.machine.run_bind_of_done hchild).trans ?_
      rw [← List.append_assoc]
      exact ih (calls ++ cs i)

/-- A walk over a node that is not old and whose children can be walked over. -/
theorem run_traverse_node (h : s.node? an = some n) (hok : n.Ok) (hold : isOld n.version = false)
    (hexp : isExpanding n.version = false) (hl : isLeaf an = false) {cs : ℕ → List Call}
    {fuel : ℕ} (hfuel : 0 < fuel) (hnone : ∀ x < rounds n, childSlot n x = none → cs x = [])
    (hwalk : ∀ x j, x < rounds n → childSlot n x = some j → ∀ calls,
      env.machine.run (_adaptiveRadixTreeTraverse recordCall fuel an (n.child j) false calls) s =
        done (true, calls ++ cs x) s)
    (parent : Addr) (calls : List Call) :
    env.machine.run (_adaptiveRadixTreeTraverse recordCall (fuel + 1) parent an false calls) s =
      done (true, calls ++ (List.range' 0 (rounds n)).flatMap cs) s := by
  obtain ⟨m, rfl⟩ : ∃ m, fuel = m + 1 := ⟨fuel - 1, by omega⟩
  have hloop (slotAt : ℕ → ArtM (Option ℕ))
      (hslot : ∀ x < rounds n, env.machine.run (slotAt x) s = done (childSlot n x) s) :
      env.machine.run (traverseChildren an slotAt
        (fun child => _adaptiveRadixTreeTraverse recordCall (m + 1) an child false) (m + 1)
          (rounds n) 0 calls) s =
      done (true, calls ++ (List.range' 0 (rounds n)).flatMap cs) s := by
    apply run_traverseChildren h hold m (rounds n) 0
    · intro x _ hx
      exact hslot x (by omega)
    · intro x _ hx hs
      exact hnone x (by omega) hs
    · intro x j _ hx hs
      exact ⟨childSlot_lt hok (by omega) hs, hwalk x j (by omega) hs⟩
  unfold _adaptiveRadixTreeTraverse
  simp only [hl, Bool.false_eq_true, if_false]
  refine (env.machine.run_bind_of_done (run_isValidNode h hold)).trans ?_
  refine (env.machine.run_bind_of_done (run_artNodeGetStableExpandVersion h hexp m)).trans ?_
  rw [hok.type]
  have hkeyed (hk : n.layout.Keyed) : env.machine.run (do
      let version ← load an .version
      traverseChildren an (fun i => pure (some i))
        (fun child => _adaptiveRadixTreeTraverse recordCall (m + 1) an child false) (m + 1)
        (getCount version) 0 calls) s =
      done (true, calls ++ (List.range' 0 (rounds n)).flatMap cs) s := by
    refine (env.machine.run_bind_of_done (run_load (f := .version) h trivial)).trans ?_
    show env.machine.run (traverseChildren an _ _ (m + 1) (getCount n.version) 0 calls) s = _
    rw [← rounds_keyed hk]
    apply hloop
    intro x hx
    rw [childSlot_keyed hk (rounds_keyed hk ▸ hx)]
    rfl
  cases hk : n.layout with
  | node4 => exact hkeyed (Or.inl hk)
  | node16 => exact hkeyed (Or.inr hk)
  | node48 =>
    have hr : rounds n = 256 := by simp [rounds, hk]
    rw [hr] at hloop ⊢
    exact hloop _ fun x _ => run_indexSlot h hk x
  | node256 =>
    have hr : rounds n = 256 := by simp [rounds, hk]
    rw [hr] at hloop ⊢
    exact hloop _ fun x hx => run_occupiedSlot h hk hx

/-! ### The leaves below a place -/

/-- The key of the leaf of a call. -/
def callKey (s : Mem) (c : Call) : Option Key := (s.leaf? c.2).map LeafNode.key

/-- The pointer that the memory holds at a place. -/
def Holds (s : Mem) : Place Addr UInt8 → Ptr → Prop
  | .root, p => s.root = p
  | .edge n b, p => ∃ nd, s.node? n = some nd ∧ nd.childAt b = some p

/-- The leaf with the key `k` at the place `q` is the one that a call is about. -/
structure LeafCall (s : Mem) (t : Tree L) (q : Place Addr UInt8) (k : Key) (c : Call) : Prop where
  place : t.IsPlace q
  get : t.get q = some (.leaf k)
  exists_ptr : ∃ p, Holds s q p ∧ Refers s (.leaf k) p ∧ c = (owner q, getLeaf p)

/-- The calls cover the stored words that begin with `w`, each once, with the leaf of the word
and the node of its place. -/
structure Visits (s : Mem) (t : Tree L) (w : Key) (cs : List Call) : Prop where
  sound : ∀ c ∈ cs, ∃ q k, LeafCall s t q k c ∧ w <+: k
  complete : ∀ k, t.Stored k → w <+: k → ∃ c ∈ cs, callKey s c = some k
  nodup : (cs.map (callKey s)).Nodup

theorem LeafCall.callKey {q : Place Addr UInt8} {k : Key} {c : Call} (h : LeafCall s t q k c) :
    callKey s c = some k := by
  obtain ⟨p, -, ⟨-, l, hl, rfl, -⟩, rfl⟩ := h.exists_ptr
  simp [Art.callKey, hl]

namespace Visits

variable {w : Key} {cs : List Call}

theorem prefix_of_mem (h : Visits s t w cs) {c : Call} (hc : c ∈ cs) {k : Key}
    (hk : callKey s c = some k) : w <+: k := by
  obtain ⟨q, k', hcall, hw⟩ := h.sound c hc
  obtain rfl : k' = k := Option.some.inj (hcall.callKey.symm.trans hk)
  exact hw

/-- A place that holds a leaf. -/
theorem leaf {q : Place Addr UInt8} {k : Key} {c : Call} (h : LeafCall s t q k c) :
    Visits s t (t.path q) [c] where
  sound e he := by
    obtain rfl := List.mem_singleton.mp he
    exact ⟨q, k, h, Trie.path_prefix_word h.place h.get⟩
  complete k' hst hpath := by
    exists c, List.mem_singleton_self c
    rcases Trie.stored_of_place h.place hst hpath with h' | ⟨d, hd, -⟩
    · obtain rfl : k = k' := by simpa [h.get] using h'
      exact h.callKey
    · simp [h.get] at hd
  nodup := List.nodup_singleton _

/-- A node whose rounds cover the words of its edges. -/
theorem node {c : Addr} {nd : ArtNode} (hc : t.live c) (hrep : NodeRep s t c nd)
    {cs : ℕ → List Call} (hnone : ∀ x, childSlot nd x = none → cs x = [])
    (hsome : ∀ x j, x < rounds nd → childSlot nd x = some j →
      Visits s t (t.label c ++ [childByte nd x]) (cs x)) :
    Visits s t (t.label c) ((List.range' 0 (rounds nd)).flatMap cs) := by
  have hround {x : ℕ} (hx : x ∈ List.range' 0 (rounds nd)) {e : Call} (he : e ∈ cs x) :
      x < rounds nd ∧ ∃ j, childSlot nd x = some j := by
    constructor
    · simpa using hx
    · cases hs : childSlot nd x with
      | none =>
        rw [hnone x hs] at he
        cases he
      | some j => exact ⟨j, rfl⟩
  constructor
  · intro e he
    obtain ⟨x, hx, he⟩ := List.mem_flatMap.mp he
    obtain ⟨hlt, j, hs⟩ := hround hx he
    obtain ⟨q, k, hcall, hw⟩ := (hsome x j hlt hs).sound e he
    exact ⟨q, k, hcall, hw.left_of_append_singleton⟩
  · intro k hst hw
    -- the word goes on with a byte that has an edge
    have hlt : (t.label c).length < k.length := by
      rw [Trie.length_of_stored hst]
      exact t.label_length c hc
    obtain ⟨b, hb⟩ := hw.exists_append_singleton hlt
    have hedge : ∃ r, t.edge c b = some r := by
      rcases Trie.stored_of_place (q := .edge c b) hc hst hb with h | ⟨d, hd, -⟩
      · exact ⟨_, h⟩
      · exact ⟨_, hd⟩
    obtain ⟨r, hr⟩ := hedge
    obtain ⟨p, hp, -⟩ := Represents.childAt hrep hr
    obtain ⟨j, hj, -⟩ := ArtNode.childAt_eq_some.mp hp
    obtain ⟨x, hx, hs, rfl⟩ := (slotOf_eq_some_iff hrep.ok).mp hj
    obtain ⟨e, he, hk⟩ := (hsome x j hx hs).complete k hst hb
    exists e
    constructor
    · exact List.mem_flatMap.mpr ⟨x, by simpa using hx, he⟩
    · exact hk
  · rw [List.map_flatMap, List.nodup_flatMap]
    constructor
    · intro x hx
      cases hs : childSlot nd x with
      | none =>
        rw [hnone x hs]
        exact List.nodup_nil
      | some j => exact (hsome x j (by simpa using hx) hs).nodup
    · apply List.Nodup.pairwise_of_forall_ne (List.nodup_range' ..)
      intro x hx y hy hne k hkx hky
      obtain ⟨e, he, rfl⟩ := List.mem_map.mp hkx
      obtain ⟨f, hf, hef⟩ := List.mem_map.mp hky
      obtain ⟨hltx, i, hi⟩ := hround hx he
      obtain ⟨hlty, j, hj⟩ := hround hy hf
      obtain ⟨q, k, hcall, hk⟩ := (hsome x i hltx hi).sound e he
      have hky := (hsome y j hlty hj).prefix_of_mem hf (hef.trans hcall.callKey)
      exact hne (childByte_inj hrep.ok hltx hlty hi hj (hk.append_singleton_inj hky))

/-- The words below a node are the words below the place that holds it. -/
theorem place {q : Place Addr UInt8} {c : Addr} (hq : t.IsPlace q) (hget : t.get q = some (.node c))
    (h : Visits s t (t.label c) cs) : Visits s t (t.path q) cs where
  sound e he := by
    obtain ⟨q', k, hcall, hw⟩ := h.sound e he
    exact ⟨q', k, hcall, (Trie.path_prefix_word hq hget).trans hw⟩
  complete k hst hpath := by
    rcases Trie.stored_of_place hq hst hpath with h' | ⟨d, hd, hdk⟩
    · simp [hget] at h'
    · obtain rfl : c = d := by simpa [hget] using hd
      exact h.complete k hst hdk
  nodup := h.nodup

end Visits

/-- A walk from any place succeeds and covers the words below the place.  The induction is on
the part of the words that is left. -/
theorem Represents.run_traverse (h : Represents env s t) {q : Place Addr UInt8}
    {r : Ref Addr UInt8} {p : Ptr} (hq : t.IsPlace q) (hget : t.get q = some r)
    (hholds : Holds s q p) (hp : Refers s r p) :
    ∃ cs, Visits s t (t.path q) cs ∧ ∀ fuel calls, L - (t.path q).length + 3 ≤ fuel →
      env.machine.run (_adaptiveRadixTreeTraverse recordCall fuel (owner q) p false calls) s =
        done (true, calls ++ cs) s := by
  induction hd : L - (t.path q).length using Nat.strong_induction_on generalizing q r p with
  | _ d ih =>
    cases r with
    | leaf k =>
      have hl : isLeaf p = true := hp.1
      exists [(owner q, getLeaf p)]
      constructor
      · exact Visits.leaf ⟨hq, hget, p, hholds, hp, rfl⟩
      · intro fuel calls hfuel
        obtain ⟨m, rfl⟩ : ∃ m, fuel = m + 1 := ⟨fuel - 1, by omega⟩
        unfold _adaptiveRadixTreeTraverse
        rw [if_pos hl]
        rfl
    | node c =>
      obtain rfl : p = c := hp
      have hc := Trie.live_of_place hq hget
      obtain ⟨nd, hnd, hrep⟩ := h.node p hc
      have hlabel := t.label_length p hc
      have hle : (t.path q).length ≤ (t.label p).length :=
        (Trie.path_prefix_word hq hget).length_le
      -- what each round does
      have hround (x : ℕ) : ∃ cs, (childSlot nd x = none → cs = []) ∧
          ∀ j, x < rounds nd → childSlot nd x = some j →
            Visits s t (t.label p ++ [childByte nd x]) cs ∧
            ∀ fuel calls, L - ((t.label p).length + 1) + 3 ≤ fuel →
              env.machine.run (_adaptiveRadixTreeTraverse recordCall fuel p (nd.child j) false
                calls) s =
                done (true, calls ++ cs) s := by
        by_cases hx : x < rounds nd
        · cases hs : childSlot nd x with
          | none => exact ⟨[], fun _ => rfl, fun j _ hj => nomatch hj⟩
          | some j =>
            have hslot : nd.slotOf (childByte nd x) = some j :=
              (slotOf_eq_some_iff hrep.ok).mpr ⟨x, hx, hs, rfl⟩
            have hat : nd.childAt (childByte nd x) = some (nd.child j) :=
              ArtNode.childAt_eq_some.mpr ⟨j, hslot, rfl⟩
            obtain ⟨r, hr, href⟩ := edge_of_childAt hrep hat
            have hlen : (t.path (.edge p (childByte nd x))).length = (t.label p).length +
              1 := by simp
            obtain ⟨cs, hvis, hrun⟩ := ih (L - (t.path (.edge p (childByte nd x))).length)
              (by omega) (q := .edge p (childByte nd x)) hc hr ⟨nd, hnd, hat⟩ href rfl
            refine ⟨cs, fun hnone => (nomatch hnone), fun i _ hi => ?_⟩
            obtain rfl := Option.some.inj hi
            rw [hlen] at hrun
            exact ⟨hvis, hrun⟩
        · exact ⟨[], fun _ => rfl, fun j hlt => absurd hlt hx⟩
      choose cs hnone hsome using hround
      exists (List.range' 0 (rounds nd)).flatMap cs
      constructor
      · exact (Visits.node hc hrep hnone fun x j hx hs => (hsome x j hx hs).1).place hq hget
      · intro fuel calls hfuel
        obtain ⟨m, rfl⟩ : ∃ m, fuel = m + 1 := ⟨fuel - 1, by omega⟩
        apply run_traverse_node hnd hrep.ok hrep.old hrep.expanding (h.not_isLeaf hc) (by omega)
        · intro x _ hs
          exact hnone x hs
        · intro x j hx hs calls
          exact (hsome x j hx hs).2 m calls (by omega)

/-- The walk over the whole tree covers all stored words. -/
theorem Represents.settles_adaptiveRadixTreeTraverse (h : Represents env s t) :
    ∃ calls, Visits s t [] calls ∧
      env.machine.Settles (adaptiveRadixTreeTraverse recordCall []) s (done calls s) := by
  cases hr : t.root with
  | none =>
    have hroot := h.root
    rw [hr] at hroot
    refine ⟨[], ⟨?_, ?_, ?_⟩, settles_of_add _ 0 fun fuel => ?_⟩
    · intro c hc
      cases hc
    · intro k hst
      exact absurd hst (Trie.not_stored_of_root hr k)
    · exact List.nodup_nil
    · unfold adaptiveRadixTreeTraverse
      refine (env.machine.run_bind_of_done run_loadRoot).trans ?_
      rw [if_pos hroot]
      rfl
  | some r =>
    have hroot := h.root
    rw [hr] at hroot
    have h0 : s.root ≠ 0 := h.ne_zero_of_refers (q := .root) trivial hr hroot
    obtain ⟨calls, hvis, hrun⟩ := h.run_traverse (q := .root) trivial hr rfl hroot
    refine ⟨calls, hvis, settles_of_add _ (L + 3) fun fuel => ?_⟩
    unfold adaptiveRadixTreeTraverse
    refine (env.machine.run_bind_of_done run_loadRoot).trans ?_
    rw [if_neg h0]
    refine (env.machine.run_bind_of_done run_loadRoot).trans ?_
    have hwalk := hrun (fuel + (L + 3)) [] (by simp only [Trie.path_root, List.length_nil]; omega)
    exact env.machine.run_bind_of_done hwalk

/-! ### Looking up a leaf at its place -/

namespace Represents

variable (h : Represents env s t)

include h

theorem run_loadSlot_of_holds {q : Place Addr UInt8} {slot : Slot} {p : Ptr} (hq : t.IsPlace q)
    (hslot : SlotAt s q slot) (hp : Holds s q p) :
    env.machine.run (loadSlot slot) s = done p s := by
  cases q with
  | root =>
    obtain rfl : slot = .root := hslot
    obtain rfl : s.root = p := hp
    exact run_loadRoot
  | edge n b =>
    obtain ⟨nd, i, hnd, hi, rfl⟩ := hslot
    obtain ⟨nd₁, hnd₁, hat⟩ := hp
    obtain ⟨nd₂, hnd₂, hrep⟩ := h.node n hq
    obtain rfl := Option.some.inj (hnd.symm.trans hnd₁)
    obtain rfl := Option.some.inj (hnd.symm.trans hnd₂)
    obtain ⟨j, hj, rfl⟩ := ArtNode.childAt_eq_some.mp hat
    obtain rfl : i = j := Option.some.inj (hi.symm.trans hj)
    exact run_load (f := .child i) hnd (ArtNode.slotOf_lt hrep.ok hi)

/-- A lookup of a stored key, from any place on its path, finds the leaf at the place of the
key. -/
theorem settles_get_of_holds (hL : L ≤ 8) {key : Key} {q₀ : Place Addr UInt8} {p : Ptr}
    (hq₀ : t.IsPlace q₀) (hget₀ : t.get q₀ = some (.leaf key)) (hp : Holds s q₀ p)
    (href : Refers s (.leaf key) p) {q : Place Addr UInt8} {r : Ref Addr UInt8} {slot : Slot}
    (hq : t.IsPlace q) (hget : t.get q = some r) (hslot : SlotAt s q slot)
    (hpath : t.path q <+: key) (parent : Addr) :
    ∃ s', env.machine.Settles
      (fun fuel => _adaptiveRadixTreeGet key fuel true parent slot (t.path q).length) s
      (done (.found (getLeaf p)) s') := by
  have hst : t.Stored key := ⟨q₀, hq₀, hget₀⟩
  have hkey := Trie.length_of_stored hst
  induction hd : L - (t.path q).length using Nat.strong_induction_on
    generalizing q r slot parent with
  | _ d ih =>
    cases r with
    | leaf k =>
      -- the only place of the key on its path that holds a leaf
      have hk : t.get q = some (.leaf key) := by
        rcases Trie.stored_of_place hq hst hpath with h' | ⟨c, hc, -⟩
        · exact h'
        · simp [hget] at hc
      obtain rfl := Trie.leaf_place_unique hq hq₀ hk hget₀
      have hrun (fuel : ℕ) := run_get_slot (h.run_loadSlot_of_holds hq hslot hp) href.1 key fuel
        parent (t.path q).length
      obtain ⟨a, l, rfl, hl, rfl, hlen⟩ := href.of_leaf
      obtain ⟨i, -, hi⟩ := h.fresh.exists_addr_of_leaf? hl
      have hal : getLeaf (a + 1) = a := getLeaf_succ (hi ▸ env.addr_aligned i)
      rw [hal]
      have hleaf : env.machine.run (getAtLeaf (a + 1) l.key (t.path q).length) s = _ :=
        run_getAtLeaf hl hal hlen hpath.length_le fun i _ => rfl
      rw [if_pos rfl] at hleaf
      exact ⟨_, settles_of_add _ 1 fun fuel => (hrun fuel).trans hleaf⟩
    | node c =>
      rcases h.run_get_node (h.shortPrefixes hL) hq hget hslot hkey hpath parent with
        ⟨hns, -⟩ | ⟨b, r, i, hb, hr, hi, hrun⟩
      · exact absurd hst hns
      · have hc := Trie.live_of_place hq hget
        have hle := (Trie.path_prefix_word hq hget).length_le
        have hlt := t.label_length c hc
        simp only [Ref.word_node] at hle
        obtain ⟨s', hset⟩ := ih (L - (t.path (.edge c b)).length)
          (by simp only [Trie.path_edge, List.length_append, List.length_singleton]; omega)
          (q := .edge c b) hc hr hi hb c rfl
        refine ⟨s', hset.step _ 2 1 fun fuel => ?_⟩
        rw [hrun]
        simp

end Represents

/-- The lookup of a key finds the leaf at `a`. -/
def FindsLeaf (env : Env) (s : Mem) (key : Key) (a : Addr) : Prop :=
  ∃ s', env.machine.Settles (adaptiveRadixTreeGet key) s (done (.found a) s')

theorem Represents.finds (h : Represents env s t) (hL : L ≤ 8) {q : Place Addr UInt8} {key : Key}
    {c : Call} (hc : LeafCall s t q key c) : FindsLeaf env s key c.2 := by
  obtain ⟨p, hp, href, rfl⟩ := hc.exists_ptr
  have hst : t.Stored key := ⟨q, hc.place, hc.get⟩
  cases hr : t.root with
  | none => exact absurd hst (Trie.not_stored_of_root hr key)
  | some r =>
    have hroot := h.root
    rw [hr] at hroot
    have h0 : s.root ≠ 0 := h.ne_zero_of_refers (q := .root) trivial hr hroot
    obtain ⟨s', hset⟩ := h.settles_get_of_holds hL hc.place hc.get hp href (q := .root) trivial hr
      rfl List.nil_prefix 0
    exact ⟨s', settles_adaptiveRadixTreeGet_of_walk h0 (by simp) hset⟩

/-! ### Parents -/

/-- The pointer is that of the leaf at `a`. -/
def PointsTo (a : Addr) (p : Ptr) : Prop := isLeaf p = true ∧ getLeaf p = a

/-- A child slot of the internal node `n` of the tree holds the leaf at `a`. -/
def HeldBy (s : Mem) (a n : Addr) : Prop :=
  Reachable s n ∧ ∃ nd b p, s.node? n = some nd ∧ nd.childAt b = some p ∧ PointsTo a p

/-- `parent` is the one internal node whose child slot holds the leaf at `a`, and null exactly
when the leaf is the root. -/
structure ParentOf (s : Mem) (a parent : Addr) : Prop where
  null_iff : parent = 0 ↔ PointsTo a s.root
  held_iff : ∀ n, HeldBy s a n ↔ n = parent ∧ parent ≠ 0

theorem PointsTo.eq {a : Addr} {p p' : Ptr} (h : PointsTo a p) (h' : PointsTo a p') : p = p' := by
  rw [getLeaf_of_isLeaf h.1, getLeaf_of_isLeaf h'.1, h.2, h'.2]

/-- A place that holds the pointer to a leaf is a place of its key. -/
theorem Represents.get_of_holds (h : Represents env s t) {q : Place Addr UInt8} {p : Ptr} {k : Key}
    (hq : t.IsPlace q) (hp : Holds s q p) (href : Refers s (.leaf k) p) :
    t.get q = some (.leaf k) := by
  have hword {r : Ref Addr UInt8} (hget : t.get q = some r) (hr : Refers s r p) : r = .leaf k := by
    cases r with
    | node c =>
      obtain rfl : p = c := hr
      have hl := h.not_isLeaf (Trie.live_of_place hq hget)
      rw [href.1] at hl
      cases hl
    | leaf k' =>
      obtain ⟨-, l, hl, rfl, -⟩ := hr
      obtain ⟨-, l', hl', rfl, -⟩ := href
      obtain rfl := Option.some.inj (hl.symm.trans hl')
      rfl
  cases q with
  | root =>
    obtain rfl : s.root = p := hp
    have hroot := h.root
    cases hr : t.root with
    | none =>
      rw [hr] at hroot
      have h0 := href.1
      rw [hroot] at h0
      cases h0
    | some r =>
      rw [hr] at hroot
      rw [Trie.get_root, hr, hword hr hroot]
  | edge n b =>
    obtain ⟨nd, hnd, hat⟩ := hp
    obtain ⟨nd', hnd', hrep⟩ := h.node n hq
    obtain rfl := Option.some.inj (hnd.symm.trans hnd')
    obtain ⟨r, hr, hr'⟩ := edge_of_childAt hrep hat
    rw [Trie.get_edge, hr, hword hr hr']

theorem Represents.parentOf (h : Represents env s t) {q : Place Addr UInt8} {k : Key} {c : Call}
    (hc : LeafCall s t q k c) : ParentOf s c.2 c.1 := by
  obtain ⟨p, hp, href, rfl⟩ := hc.exists_ptr
  have hpt : PointsTo (getLeaf p) p := ⟨href.1, rfl⟩
  -- the leaf has only one place
  have huniq {q' : Place Addr UInt8} (hq' : t.IsPlace q') (hp' : Holds s q' p) : q' = q :=
    Trie.leaf_place_unique hq' hc.place (h.get_of_holds hq' hp' href) hc.get
  constructor
  · constructor
    · intro h0
      cases q with
      | root =>
        obtain rfl : s.root = p := hp
        exact hpt
      | edge n b => exact absurd h0 (h.ne_zero hc.place)
    · intro hroot
      have heq : .root = q := huniq trivial (hroot.eq hpt)
      cases heq
      rfl
  · intro n
    constructor
    · rintro ⟨hn, nd, b, p', hnd, hat, hp'⟩
      obtain rfl : p' = p := hp'.eq hpt
      have hlive := (h.reachable_iff n).mp hn
      have heq : .edge n b = q := huniq hlive ⟨nd, hnd, hat⟩
      cases heq
      exact ⟨rfl, h.ne_zero hlive⟩
    · rintro ⟨rfl, h0⟩
      cases q with
      | root => exact absurd rfl h0
      | edge n b =>
        obtain ⟨nd, hnd, hat⟩ := hp
        exact ⟨(h.reachable_iff n).mpr hc.place, nd, b, p, hnd, hat, hpt⟩

/-! ### The main result -/

variable {rs : List (Key × ℤ)}

/-- **What the walk is for.**  It ends, and its calls are about the keys of `ks`, each once: with
the leaf that a lookup of the key finds, and with the internal node that this leaf hangs on. -/
def VisitsAll (env : Env) (s : Mem) (ks : List Key) : Prop :=
  ∃ calls, env.machine.Settles (adaptiveRadixTreeTraverse recordCall []) s (done calls s) ∧
    (calls.map (callKey s)).Perm (ks.dedup.map some) ∧
    ∀ c ∈ calls, ∀ key, callKey s c = some key → FindsLeaf env s key c.2 ∧ ParentOf s c.2 c.1

/-- The walk over a memory that holds a trie. -/
theorem Represents.visitsAll (hrep : Represents env s t) (hL : L ≤ 8) {ks : List Key}
    (hst : ∀ k, t.Stored k ↔ k ∈ ks) : VisitsAll env s ks := by
  obtain ⟨calls, hvis, hset⟩ := hrep.settles_adaptiveRadixTreeTraverse
  refine ⟨calls, hset, ?_, ?_⟩
  · rw [List.perm_ext_iff_of_nodup hvis.nodup
      ((List.nodup_dedup _).map fun _ _ => Option.some.inj)]
    intro o
    rw [List.mem_map, List.mem_map]
    constructor
    · rintro ⟨c, hc, rfl⟩
      obtain ⟨q, k, hcall, -⟩ := hvis.sound c hc
      have hk : k ∈ ks := (hst k).mp ⟨q, hcall.place, hcall.get⟩
      exact ⟨k, List.mem_dedup.mpr hk, hcall.callKey.symm⟩
    · rintro ⟨k, hk, rfl⟩
      exact hvis.complete k ((hst k).mpr (List.mem_dedup.mp hk)) List.nil_prefix
  · intro c hc key hkey
    obtain ⟨q, k, hcall, -⟩ := hvis.sound c hc
    obtain rfl : k = key := Option.some.inj (hcall.callKey.symm.trans hkey)
    exact ⟨hrep.finds hL hcall, hrep.parentOf hcall⟩

/-- The walk over what copies of one key have built, in any build. -/
theorem PutRun.visitsAll_of_same (h : PutRun env L rs s) (hL : L ≤ 8)
    (hrs : ∀ k ∈ keysOf rs, ∀ k' ∈ keysOf rs, k = k') : VisitsAll env s (keysOf rs) := by
  cases hks : keysOf rs with
  | nil =>
    have hone := h.holds hL (k := []) (by simp [hks])
    rw [if_pos hks] at hone
    obtain ⟨t, hrep, hroot⟩ := hone
    exact hrep.visitsAll hL fun k => by simp [Trie.not_stored_of_root hroot k]
  | cons k ks =>
    have hall (key : Key) (hkey : key ∈ keysOf rs) : key = k :=
      hrs key hkey k (hks ▸ List.mem_cons_self)
    have hone := h.holds hL hall
    rw [if_neg (by simp [hks])] at hone
    obtain ⟨t, hrep, hroot⟩ := hone
    refine hrep.visitsAll hL fun key => (stored_of_root_leaf hroot key).trans ?_
    rw [← hks]
    exact ⟨fun hkey => hkey ▸ hks ▸ List.mem_cons_self, hall key⟩

/-- Without assertions the walk over the tree of two different keys misses both. -/
theorem exists_putRun_not_visitsAll (hb : env.build.assertions = false) (hL : L ≤ 8) {k key : Key}
    (hk : k.length = L) (hkey : key.length = L) (hne : key ≠ k) (n : ℕ) :
    ∃ rs s, PutRun env L rs s ∧ keysOf rs = List.replicate (n + 1) k ++ [key] ∧
      ¬ VisitsAll env s (keysOf rs) := by
  obtain ⟨rs, s, hrun, hrs, hget⟩ := exists_putRun_loses hb hL hk hkey hne n
  refine ⟨rs, s, hrun, hrs, ?_⟩
  rintro ⟨calls, -, hperm, hcalls⟩
  have hmem : some k ∈ calls.map (callKey s) :=
    hperm.mem_iff.mpr (List.mem_map.mpr ⟨k, List.mem_dedup.mpr (by simp [hrs]), rfl⟩)
  obtain ⟨c, hc, hck⟩ := List.mem_map.mp hmem
  obtain ⟨⟨s', hfound⟩, -⟩ := hcalls c hc k hck
  have heq := (env.machine.converges_unique (adaptiveRadixTreeGet_le_succ k) hfound.converges
    hget.converges).1
  cases heq

/-- **When the walk visits the leaves.**  In every tree that the insertions of an initial part
of `ks` have built, the walk does what it is for, exactly when the build has assertions or the
keys are all equal. -/
theorem traverse_visits_iff (hL : L ≤ 8) {ks : List Key} (hlen : ∀ k ∈ ks, k.length = L) :
    (∀ rs s, PutRun env L rs s → keysOf rs <+: ks → VisitsAll env s (keysOf rs)) ↔
      env.build.assertions = true ∨ ∀ k ∈ ks, ∀ k' ∈ ks, k = k' := by
  constructor
  · intro hvis
    cases hb : env.build.assertions with
    | true => exact .inl rfl
    | false =>
      refine .inr ?_
      by_contra hne
      obtain ⟨k, key, n, hkey, hpre⟩ := exists_first_other hne
      obtain ⟨rs, s, hrun, hrs, hnot⟩ := exists_putRun_not_visitsAll hb hL
        (hlen k (hpre.subset (by simp))) (hlen key (hpre.subset (by simp))) hkey n
      exact hnot (hvis rs s hrun (hrs ▸ hpre))
  · rintro (hb | hks) rs s hrun hpre
    · obtain ⟨t, hrep, hst⟩ := hrun.represents hb hL
      exact hrep.visitsAll hL hst
    · exact hrun.visitsAll_of_same hL fun k hk k' hk' =>
        hks k (hpre.subset hk) k' (hpre.subset hk')

/-- Three keys, one of them twice, in the build with assertions. -/
theorem traverse_visits_iff_of_three :
    (∀ rs s, PutRun sampleEnv 2 rs s → keysOf rs <+: [[1, 2], [1, 3], [1, 2]] →
      VisitsAll sampleEnv s (keysOf rs)) ↔
    sampleEnv.build.assertions = true ∨
      ∀ k ∈ [[1, 2], [1, 3], [1, 2]], ∀ k' ∈ ([[1, 2], [1, 3], [1, 2]] : List Key), k = k' :=
  traverse_visits_iff (by decide) (by decide)

/-- Two keys in the build without assertions: the walk does not call back. -/
theorem release_visits_nothing : ∃ rs s, PutRun releaseEnv 1 rs s ∧ keysOf rs = [[1], [2]] ∧
    ¬ VisitsAll releaseEnv s (keysOf rs) :=
  exists_putRun_not_visitsAll rfl (by decide) (show [1].length = 1 from rfl)
    (show [2].length = 1 from rfl) (by decide) 0

end Sidle.Art
