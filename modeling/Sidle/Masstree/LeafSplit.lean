import Sidle.Masstree.Hoist
import Sidle.Masstree.PageStores

/-!
# The split of a leaf

`split_into` finds a place where one slice ends and another one begins, and copies what comes after
it to a new leaf.  The new key may be among that: its slot is then taken off the permutation of the
new leaf again, as the one that is handed out next.

## Main definitions

* `Leaf.joined` — the entries of a leaf and the one for the new key.
* `Leaf.Parted` — what the new leaf is.

## Main results

* `Leaf.after_of_splitPoint` — entries with one slice stay together.
* `seen_leafSplitInto`, `seen_splitLeaf` — **the leaf is split.**
-/

namespace Sidle.Masstree

open Art (Build Fault)
open Forest Prog Machine

/-! ### Where a leaf is split -/

section Points

variable {after : ℕ → ℕ} {size midIkey fuel midr mid kxi : ℕ} {midl : ℤ} {l : Leaf} {ka : Key}

/-- The loop goes through equal slices, and stops where there is another one. -/
theorem after_of_adjustMid (h : adjustMid after size midIkey fuel midl midr = some mid)
    (hr : 0 < midr) (hgap : midl + 2 < midr) (hle : midl < size)
    (heq : ∀ j : ℕ, midl < j → j < midr → j ≤ size → after j = midIkey) :
    0 < mid ∧ mid ≤ size ∧ after (mid - 1) ≠ after mid := by
  induction fuel generalizing midl midr with
  | zero => cases h
  | succ fuel ih =>
    rw [adjustMid] at h
    split at h
    · rename_i hstop
      obtain rfl : midr = mid := Option.some.inj h
      refine ⟨hr, hstop.1, ?_⟩
      rw [heq (midr - 1) (by omega) (by omega) (by omega)]
      exact hstop.2
    · split at h
      · rename_i hl
        cases h
        obtain ⟨k, rfl⟩ := Int.eq_ofNat_of_zero_le hl.1
        have hk : ((k : ℤ) + 1).toNat = k + 1 := rfl
        rw [hk]
        refine ⟨Nat.succ_pos k, by omega, ?_⟩
        rw [heq (k + 1) (by omega) (by omega) (by omega), Nat.add_sub_cancel]
        exact hl.2.symm
      · rename_i hright hleft
        refine ih h (by omega) (by omega) (by omega) fun j hj hj' hsize => ?_
        by_cases hmid : midl < j ∧ j < midr
        · exact heq j hmid.1 hmid.2 hsize
        · by_cases hjr : j = midr
          · subst hjr
            by_contra hne
            exact hright ⟨hsize, fun h => hne h.symm⟩
          · have hjl : midl = j := by omega
            by_contra hne
            refine hleft ⟨by omega, fun h => hne ?_⟩
            rw [h, hjl, Int.toNat_natCast]

theorem Leaf.after_of_splitPoint (h : l.splitPoint ka kxi = some mid) (hsize : width - 1 ≤ l.size) :
    0 < mid ∧ mid ≤ l.size ∧
      l.ikeyAfterInsert ka kxi (mid - 1) ≠ l.ikeyAfterInsert ka kxi mid := by
  unfold Leaf.splitPoint at h
  extract_lets after m at h
  have hm : 0 < m ∧ m ≤ l.size := by
    simp only [m, width] at *
    split
    · omega
    · split
      · omega
      · omega
  split at h
  · rename_i heq
    refine after_of_adjustMid h (by omega) (by omega) (by omega) fun j hj hj' _ => ?_
    by_cases hjm : j = m
    · rw [hjm]
    · have hpred : j = m - 1 := by omega
      rw [hpred, heq]
  · rename_i hne
    obtain rfl : m = mid := Option.some.inj h
    exact ⟨hm.1, hm.2, fun heq => hne heq.symm⟩

/-- The entries of the leaf and the new one. -/
def Leaf.joined (l : Leaf) (ka : Key) (kxi : ℕ) : ℕ → Entry :=
  inserted (fun k => l.entry (l.permutation.slot k)) kxi (.ofStr ka.rest 0)

theorem Leaf.ikey_joined (i : ℕ) : (l.joined ka kxi i).ikey = l.ikeyAfterInsert ka kxi i := by
  unfold Leaf.joined inserted Leaf.ikeyAfterInsert
  split
  · rfl
  · split
    · rfl
    · rfl

theorem Leaf.getElem?_joined (ka : Key) {i : ℕ} (hkxi : kxi ≤ l.size) (hi : i ≤ l.size) :
    (l.page.insertIdx kxi (.ofStr ka.rest 0))[i]? = some (l.joined ka kxi i) := by
  rw [Leaf.page, map_range_insertIdx hkxi, getElem?_map_range, if_pos (by omega)]
  rfl

end Points

/-! ### The new leaf -/

/-- The leaf `r` on the right has what comes from `mid` on when the key goes into the leaf `l`; if
the key is there, its slot waits. -/
structure Leaf.Parted (l r : Leaf) (ka : Key) (kxi mid : ℕ) : Prop where
  pos : 0 < mid
  le : mid ≤ l.size
  ne : l.ikeyAfterInsert ka kxi (mid - 1) ≠ l.ikeyAfterInsert ka kxi mid
  permutation : r.permutation = Permuter.moved l.size mid kxi
  entry : ∀ k < l.size + 1 - mid, r.entry k = l.joined ka kxi (mid + k)

section Parting

variable {env : Env} {x : Scene} {n nr a : Addr} {f c : Face} {l k : Leaf} {ka : Key}
  {kxi mid fuel : ℕ}

/-- The scene when `i` slots of the new leaf have been filled. -/
def Filling (x : Scene) (nr : Addr) (c : Face) (g : ℕ → Entry) (i : ℕ) (y : Scene) : Prop :=
  ∃ r, y = x.set nr { c with node := .leaf r } ∧ ∀ j < i, r.entry j = g j

theorem Filling.step {g : ℕ → Entry} {i : ℕ} {p : MtM Unit} {y : Scene}
    (h : Filling x nr c g i y)
    (hp : ∀ r : Leaf, machine.Tracks sceneView p (x.set nr { c with node := .leaf r }) fun _ z =>
      ∃ r', z = x.set nr { c with node := .leaf r' } ∧ r.Filled i (g i) true r') :
    machine.Tracks sceneView p y fun _ z => Filling x nr c g (i + 1) z := by
  obtain ⟨r, rfl, hr⟩ := h
  refine (hp r).imp fun _ z hz => ?_
  obtain ⟨r', rfl, hfilled⟩ := hz
  refine ⟨r', rfl, fun j hj => ?_⟩
  by_cases hji : j = i
  · rw [hji, hfilled.self]
  · have hlt : j < i := by omega
    rw [hfilled.other j hji hlt, hr j hlt]

theorem unseen_casNext (expected desired : ℕ) :
    machine.Blind sceneView (casNext a expected desired) := by
  intro x
  refine seen_access fun mem l hs hx hl => ?_
  subst hx
  have hm := leaf?_eq_some.mp hl
  have hgenuine := hs.genuine hm
  split
  · refine ⟨hs.setNode hm ⟨⟨hgenuine.isleaf, hgenuine.migrating, hgenuine.outside⟩, rfl⟩, ?_⟩
    rw [scene_setNode hm]
    exact Scene.set_eq_self ((face_scene hm).trans rfl)
  · exact ⟨hs, rfl⟩

theorem unseen_lockNext : machine.Blind sceneView (lockNext a fuel) := by
  induction fuel with
  | zero => exact blind_diverge
  | succ fuel ih =>
    refine unseen_read.bind fun l => blind_ite blind_ret fun x => ?_
    have hfirst : machine.Tracks sceneView
        (if isMarked l.next then pure false else casNext a l.next (mark l.next)) x
        fun _ y => y = x :=
      blind_ite blind_ret (unseen_casNext _ _) x
    refine tracks_join hfirst fun b y hy => ?_
    subst hy
    exact blind_ite blind_ret ih _

theorem unseen_linkSplit : machine.Blind sceneView (linkSplit fuel n nr) := by
  have hstore {b : Addr} {f : Leaf → Leaf}
      (hf : ∀ l, ∃ p q, f l = { l with prev := p, next := q }) :
      machine.Blind sceneView (writeLeaf b f) := by
    refine unseen_writeLeaf ?_ ?_ ?_ ?_ ?_
    all_goals
      intro l
      obtain ⟨p, q, hl⟩ := hf l
      rw [hl]
    intro external
    rfl
  refine (hstore fun l => ⟨n, l.next, rfl⟩).bind fun _ => unseen_lockNext.bind fun next => ?_
  refine (hstore fun l => ⟨l.prev, next, rfl⟩).bind fun _ => ?_
  refine Blind.bind ?_ fun _ => hstore fun l => ⟨l.prev, nr, rfl⟩
  exact blind_ite (hstore fun l => ⟨nr, l.next, rfl⟩) blind_ret

/-- **The leaf is split** into itself and the one on the right. -/
theorem seen_leafSplitInto (hf : x.face n = some f) (hl : f.node = .leaf l)
    (hc : x.face nr = some c) (hk : c.node = .leaf k) (hne : n ≠ nr) (hsize : width - 1 ≤ l.size)
    (hkxi : kxi ≤ l.size) :
    machine.Tracks sceneView (leafSplitInto env fuel n nr ka kxi) x fun q y => ∃ mid r,
      y = x.set nr { c with node := .leaf r } ∧ l.Parted r ka kxi mid ∧
        q = (if kxi < mid then 0 else if mid = l.size then 2 else 1,
          l.ikeyAfterInsert ka kxi mid) := by
  refine unseen_read.then fun v => unseen_read.then fun vr => (unseen_assert _ _).then fun _ => ?_
  refine (seen_readLeaf (Q := fun l₀ y => y = x ∧ ∃ external, l = l₀.bare external)
    fun f' l₀ external hf' hl₀ _ _ => ?_).bind fun l₀ y hy => ?_
  · rw [hf] at hf'
    cases hf'
    rw [hl] at hl₀
    cases hl₀
    exact ⟨rfl, external, rfl⟩
  obtain ⟨rfl, external, rfl⟩ := hy
  refine (unseen_assert _ _).then fun _ => ?_
  cases hmid : l₀.splitPoint ka kxi with
  | none => exact tracks_diverge
  | some mid =>
    obtain ⟨hpos, hle, hbound⟩ := Leaf.after_of_splitPoint hmid hsize
    let g (j : ℕ) : Entry := (l₀.bare external).joined ka kxi (mid + j)
    refine (unseen_assert _ _).then fun _ => ?_
    have hloop : machine.Tracks sceneView (forRange mid (l₀.size + 1 - mid) fun x =>
        if x = kxi then assign env.build nr (x - mid) ka true
        else assignInitializeFrom env.build nr (x - mid) n
          (l₀.permutation.slot (if kxi < x then x - 1 else x))) y
        fun _ z => Filling y nr c g (mid + (l₀.size + 1 - mid) - mid) z := by
      refine tracks_forRange_step (I := fun i z => Filling y nr c g (i - mid) z)
        (fun i z hi hlt hz => ?_) ?_
      · have hstep : i + 1 - mid = i - mid + 1 := by omega
        have hback : mid + (i - mid) = i := by omega
        change machine.Tracks sceneView _ z fun _ w => Filling y nr c g (i + 1 - mid) w
        rw [hstep]
        refine hz.step fun r => ?_
        have hcr : (y.set nr { c with node := .leaf r }).face nr =
            some { c with node := .leaf r } := Scene.face_set_self
        have hfr : (y.set nr { c with node := .leaf r }).face n = some f :=
          (Scene.face_set_of_ne hne).trans hf
        refine tracks_ite (fun hik => ?_) fun hik => ?_
        · refine (seen_assign hcr rfl).imp fun _ w hw => ?_
          obtain ⟨r', rfl, hr'⟩ := hw
          refine ⟨r', Scene.set_set, ?_⟩
          have hg : g (i - mid) = .ofStr ka.rest 0 := by
            change Leaf.joined _ ka kxi (mid + (i - mid)) = _
            rw [hback, hik]
            exact inserted_self
          rw [hg]
          exact hr'
        · refine (seen_assignInitializeFrom hcr rfl hfr hl).imp fun _ w hw => ?_
          obtain ⟨r', rfl, hr'⟩ := hw
          refine ⟨r', Scene.set_set, ?_⟩
          have hg : g (i - mid) = (l₀.bare external).entry
              (l₀.permutation.slot (if kxi < i then i - 1 else i)) := by
            change Leaf.joined _ ka kxi (mid + (i - mid)) = _
            rw [hback]
            unfold Leaf.joined
            split
            · rename_i hlt
              exact inserted_of_gt hlt
            · exact inserted_of_lt (by omega)
          rw [hg]
          exact hr'
      · refine ⟨k, (Scene.set_eq_self ?_).symm, fun j hj => ?_⟩
        · rw [hc, ← hk]
        · rw [Nat.sub_self] at hj
          exact absurd hj (Nat.not_lt_zero j)
    refine hloop.bind fun _ z hz => ?_
    obtain ⟨r, rfl, hr⟩ := hz
    let sort (r : Leaf) : Leaf := { r with permutation := Permuter.moved l₀.size mid kxi }
    let r' := sort r
    refine (seen_writeLeaf (Q := fun _ z => z = y.set nr { c with node := .leaf r' }) (f := sort)
      (g := sort)
      (fun _ => rfl) (fun _ => rfl) (fun _ => rfl) (fun _ => rfl) (fun _ _ => rfl)
      fun c' r₀ hc' hr₀ => ?_).bind fun _ z hz => ?_
    · rw [Scene.face_set_self] at hc'
      cases hc'
      cases hr₀
      exact Scene.set_set
    · subst hz
      have hparted : (l₀.bare external).Parted r' ka kxi mid := by
        refine ⟨hpos, hle, hbound, rfl, fun j hj => ?_⟩
        have hj' : j < mid + (l₀.size + 1 - mid) - mid := by
          rw [Nat.add_sub_cancel_left]
          exact hj
        exact hr j hj'
      refine (seen_readLeaf (Q := fun r₀ z => z = y.set nr { c with node := .leaf r' } ∧
        r₀.ikey0 = r'.ikey0) fun c' r₀ _ hc' hr₀ _ _ => ?_).bind fun r₀ z hz => ?_
      · rw [Scene.face_set_self] at hc'
        cases hc'
        exact ⟨rfl, (congrArg Leaf.ikey0 (Node.leaf.inj hr₀)).symm⟩
      · obtain ⟨rfl, hikey⟩ := hz
        refine unseen_linkSplit.then fun _ => tracks_ret ⟨mid, r', rfl, hparted, ?_⟩
        have hfirst := hparted.entry 0 (by
          change 0 < l₀.size + 1 - mid
          change mid ≤ l₀.size at hle
          omega)
        have hikey0 : r₀.ikey0 0 = (l₀.bare external).ikeyAfterInsert ka kxi mid := by
          rw [hikey, ← Leaf.ikey_joined, ← Nat.add_zero mid, ← hfirst]
          rfl
        rw [hikey0]
        rfl

end Parting

section Severing

variable {env : Env} {x y : Scene} {G G' M : Places} {a child : Addr} {f c : Face} {l r : Leaf}
  {kxi mid fuel : ℕ} {cursor : Tcursor} {P : Place}

theorem unseen_externalBag : machine.Blind sceneView (externalBag l) := by
  intro x mem hs hx
  refine ensures_externalBag.imp fun b mem' h => ?_
  rw [h.1]
  exact ⟨hs, hx⟩

/-- **The leaf of the cursor is split.** -/
theorem seen_splitLeaf (hf : x.face cursor.n = some f) (hl : f.node = .leaf l)
    (hp : f.parent ≠ 0 → ∀ c, x.face f.parent = some c → c.splitting = false)
    (hsize : width - 1 ≤ l.size) (hkxi : cursor.kx.i ≤ l.size) :
    machine.Tracks sceneView (splitLeaf env fuel cursor) x fun q y => ∃ child mid r,
      child ≠ 0 ∧ x.face child = none ∧ y = x.set child ⟨f.root, f.splitting, 0, .leaf r⟩ ∧
        l.Parted r cursor.ka cursor.kx.i mid ∧
          q = (if cursor.kx.i < mid then 0 else if mid = l.size then 2 else 1,
            ⟨cursor.n, child, l.ikeyAfterInsert cursor.ka cursor.kx.i mid, 0⟩) := by
  refine (unseen_parentMetadata hf hp).bind fun m y hy => ?_
  subst hy
  refine unseen_read.then fun l₀ => unseen_decideNewNodePosition.then fun t => ?_
  refine unseen_externalBag.then fun b => ?_
  refine seen_makeLeaf.bind fun child z hz => ?_
  obtain ⟨h0, hnone, rfl⟩ := hz
  have hne : cursor.n ≠ child := by
    intro heq
    rw [← heq, hf] at hnone
    cases hnone
  -- the version word is that of the leaf
  refine (seen_readVersion (Q := fun v z => z = y.set child .newLeaf ∧ v.isleaf = true ∧
    v.migrating = false ∧ v.isRoot = f.root ∧ v.splitting = f.splitting)
      fun c v hc hleaf hm hr hs => ?_).bind fun v z hz => ?_
  · rw [Scene.face_set_of_ne hne, hf] at hc
    cases hc
    rw [hl] at hleaf
    exact ⟨rfl, hleaf, hm, hr, hs⟩
  obtain ⟨rfl, hleaf, hmig, hroot, hsplit⟩ := hz
  let c : Face := ⟨f.root, f.splitting, 0, Face.newLeaf.node⟩
  refine (seen_writeVersion (Q := fun _ z => z = y.set child c) fun c' w hc hl' _ _ _ => ?_).bind
    fun _ z hz => ?_
  · rw [Scene.face_set_self] at hc
    cases hc
    refine ⟨hleaf.trans hl'.symm, hmig, ?_⟩
    rw [Scene.set_set, hroot, hsplit]
    rfl
  subst hz
  have hfc : (y.set child c).face cursor.n = some f := (Scene.face_set_of_ne hne).trans hf
  refine (seen_leafSplitInto hfc hl Scene.face_set_self rfl hne hsize hkxi).bind fun q z hz => ?_
  obtain ⟨mid, r, rfl, hparted, rfl⟩ := hz
  exact tracks_ret ⟨child, mid, r, h0, hnone, Scene.set_set, hparted, rfl⟩

end Severing

end Sidle.Masstree
