import Sidle.Masstree.Standing

/-!
# What a lookup finds

A lookup that nobody disturbs climbs to the root of its layer, goes down to the leaf that is
responsible for its slice, and there it finds its key, or an entry that leads to the layer below,
or neither.

## Main definitions

* `Visited` — at most access times have changed.
* `Arrived` — a leaf that is responsible for a slice, and its version.

## Main results

* `ensures_arrives` — the descent.
* `ensures_findUnlocked` — a lookup finds what is stored.
* `ensures_get` — **`get` answers what is stored.**
-/

namespace Sidle.Masstree

open Art (Build Fault)
open Forest Prog Machine

/-! ### What a walk reads -/

/-- The version word of the node at `a`. -/
def Mem.version? (mem : Mem) (a : Addr) : Option NodeVersion := (mem.node? a).map Node.version

/-- At most access times have changed. -/
structure Visited (mem mem' : Mem) : Prop where
  scene : mem'.scene = mem.scene
  version : mem'.version? = mem.version?
  tidy : mem.Tidy → mem'.Tidy

instance instIsPreorderVisited : IsPreorder Mem Visited where
  refl _ := ⟨rfl, rfl, id⟩
  trans _ _ _ h h' :=
    ⟨h'.scene.trans h.scene, h'.version.trans h.version, fun ht => h'.tidy (h.tidy ht)⟩

/-- The leaf at `a`, whose version is `v`, is responsible for the slice `i` in the layer. -/
structure Arrived (mem : Mem) (G : Places) (layer : Str) (i : ℕ) (a : Addr) (v : NodeVersion) :
    Prop where
  place : ∃ P, G a = some P ∧ P.layer = layer ∧ P.lo ≤ i ∧ i < P.hi
  leaf : ∃ l, mem.node? a = some (.leaf l)
  version : mem.version? a = some v

section Walks

variable {mem mem' : Mem} {a n root : Addr} {v : NodeVersion} {l : Leaf} {y : Internode}
  {G : Places} {P : Place} {ka : Key} {fuel i : ℕ} {layer : Str} {x : Scene}

theorem Arrived.visited (h : Arrived mem G layer i a v) (hv : Visited mem mem') :
    Arrived mem' G layer i a v := by
  obtain ⟨l, hl⟩ := h.leaf
  refine ⟨h.place, ?_, ?_⟩
  · have hleaf := leafAt_scene.mpr ⟨l, hl, rfl⟩
    rw [← hv.scene] at hleaf
    obtain ⟨l', hl', -⟩ := leafAt_scene.mp hleaf
    exact ⟨l', hl'⟩
  · rw [hv.version]
    exact h.version

/-- The child that an internode sends a slice to is responsible for it. -/
theorem Shape.route {M : Places} (h : Shape x G M) (ha : G a = some P) (hy : x.InternodeAt a y)
    (hlo : P.lo ≤ i) (hhi : i < P.hi) : ∃ lo hi,
      Carried x M a P.layer y.height (y.child (y.upper i)) lo hi ∧ lo ≤ i ∧ i < hi := by
  have hcover := (h.cover ha hy).2
  have hasc (j k : ℕ) (hjk : j < k) (hk : k < y.nkeys) : y.ikey0 j < y.ikey0 k := by
    refine hcover.ascending (fun _ _ _ hc => hc.lt) hjk ?_ ?_
    · rw [Internode.getElem?_keys, if_pos (hjk.trans hk)]
    · rw [Internode.getElem?_keys, if_pos hk]
  obtain ⟨c, lo, hi, hc, hcarried, hlo', hhi'⟩ := hcover.route (Internode.upper_turn hasc) hlo hhi
  rw [getElem?_children] at hc
  exact ⟨lo, hi, hc.2 ▸ hcarried, hlo', hhi'⟩

theorem ensures_stable_version : machine.Ensures (stable a fuel) mem fun v mem' =>
    mem' = mem ∧ mem.version? a = some v ∧ v.splitting = false := by
  induction fuel with
  | zero => exact ensures_diverge
  | succ fuel ih =>
    refine ensures_read.bind fun v mem' hv => ?_
    obtain ⟨rfl, m, hm, rfl⟩ := hv
    refine ensures_ite (fun _ => ih) fun hdirty => ensures_ret.mpr ⟨rfl, ?_, ?_⟩
    · rw [Mem.version?, hm]
      rfl
    · simp only [Bool.or_eq_true, not_or, Bool.not_eq_true] at hdirty
      exact hdirty.2

/-- Nothing has changed. -/
theorem ensures_hasChanged (hv : mem.version? a = some v) (readonly : Bool) :
    machine.Ensures (hasChanged a v readonly) mem fun b mem' => mem' = mem ∧ b = false := by
  refine ensures_read.bind fun w mem' hw => ?_
  obtain ⟨rfl, m, hm, rfl⟩ := hw
  rw [Mem.version?, hm] at hv
  obtain rfl : m.version = v := Option.some.inj hv
  refine ensures_ret.mpr ⟨rfl, ?_⟩
  simp

/-! ### The descent -/

/-- The climb ends at the root of the layer. -/
theorem ensures_climbs (h : Standing mem.scene G) (ha : G a = some P) (hlo : P.lo = 0) :
    machine.Ensures (climbToRoot fuel a) mem fun r mem' => mem' = mem ∧
      mem.version? r.1 = some r.2 ∧ G r.1 = some ⟨P.layer, 0, 2 ^ 64⟩ := by
  induction fuel generalizing a P with
  | zero => exact ensures_diverge
  | succ fuel ih =>
    refine ensures_stable_version.bind fun v mem' hv => ?_
    obtain ⟨rfl, hv, hsplit⟩ := hv
    obtain ⟨m, hm, rfl⟩ := Option.map_eq_some_iff.mp hv
    refine ensures_ite (fun hroot => ensures_ret.mpr ⟨rfl, hv, ?_⟩) fun hroot => ?_
    · have hhi := h.calm.root (Set.notMem_empty a) ha (face_scene hm) hroot hsplit hlo
      rw [ha, ← hlo, ← hhi]
    · refine Ensures.bind
        (P := fun p mem'' => mem'' = mem' ∧ p = if m.parent ≠ 0 then m.parent else a)
        ?_ fun p mem'' hp => ?_
      · refine ensures_read.bind fun p mem'' hp => ?_
        obtain ⟨rfl, m', hm', rfl⟩ := hp
        rw [hm] at hm'
        cases hm'
        exact ensures_ret.mpr ⟨rfl, rfl⟩
      · obtain ⟨rfl, rfl⟩ := hp
        rcases h.shape.parent ha (face_scene hm) with
          ⟨-, hflag, -⟩ | ⟨hp0, Q, y, hQ, hlayer, hy, hmem⟩
        · exact absurd hflag hroot
        · -- a node at the left edge of the layer has its parent there
          have hcover := (h.shape.cover hQ hy).2
          obtain ⟨j, hj⟩ := List.mem_iff_getElem?.mp hmem
          obtain ⟨lo, hi, hcarried, hQlo, -⟩ := hcover.piece (fun _ _ _ hc => hc.lt) hj
          obtain rfl : P = ⟨Q.layer, lo, hi⟩ := Option.some.inj (ha.symm.trans hcarried.place)
          have hp0' : m.parent ≠ 0 := hp0
          have hstart : Q.lo = 0 := Nat.le_zero.mp (hlo ▸ hQlo)
          have hnext := ih hQ hstart
          rw [if_pos hp0']
          exact hnext

/-- The descent ends at the leaf that is responsible for the slice. -/
theorem ensures_descends (h : Shape mem.scene G G) (htidy : mem.Tidy) (ha : G a = some P)
    (hlo : P.lo ≤ ka.ikey) (hhi : ka.ikey < P.hi) (hv : mem.version? a = some v) :
    machine.Ensures (descend ka fuel a v) mem fun r mem' => mem' = mem ∧
      ∀ n w, r = some (n, w) → Arrived mem G P.layer ka.ikey n w := by
  induction fuel generalizing a v P with
  | zero => exact ensures_diverge
  | succ fuel ih =>
    obtain ⟨m, hm, rfl⟩ := Option.map_eq_some_iff.mp hv
    have hgenuine := (htidy.genuine hm).isleaf
    refine ensures_ite (fun hleaf => ensures_ret.mpr ⟨rfl, ?_⟩) fun _ => ?_
    · intro n w hr
      cases hr
      rw [hleaf] at hgenuine
      cases m with
      | leaf l => exact ⟨⟨P, ha, rfl, hlo, hhi⟩, ⟨l, hm⟩, hv⟩
      | internode y => cases hgenuine
    · refine ensures_read.bind fun y mem' hy => ?_
      obtain ⟨rfl, y', hy, rfl⟩ := hy
      obtain ⟨lo, hi, hcarried, hlo', hhi'⟩ :=
        h.route ha (internodeAt_scene.mpr ⟨y, internode?_eq_some.mp hy, rfl⟩) hlo hhi
      refine ensures_ite (fun _ => ensures_ret.mpr ⟨rfl, fun _ _ hr => by cases hr⟩) fun _ => ?_
      refine ensures_stable_version.bind fun vc mem'' hvc => ?_
      obtain ⟨rfl, hvc, -⟩ := hvc
      refine (ensures_hasChanged hv true).bind fun b mem'' hb => ?_
      obtain ⟨rfl, rfl⟩ := hb
      have hchild : G (y.child (y.upper ka.ikey)) = some ⟨P.layer, lo, hi⟩ := hcarried.place
      have hnext := ih hchild hlo' hhi' hvc
      exact hnext

theorem visited_recordAccess : machine.Keeps Visited
    (writeLeaf a fun l => { l with accessTime := (l.accessTime + 1) % 2 ^ 16 }) := by
  intro mem
  refine ensures_access fun l hl => ?_
  have hm := leaf?_eq_some.mp hl
  refine ⟨?_, ?_, ?_⟩
  · rw [scene_setNode hm]
    have hface : mem.scene.face a = some (mem.look (.leaf l)) := face_scene hm
    exact Scene.set_eq_self hface
  · funext b
    rw [Mem.version?, Mem.version?, node?_setNode_eq hm]
    split
    · rename_i hb
      rw [hb, hm]
      rfl
    · rfl
  · intro htidy
    have hgenuine := htidy.genuine hm
    exact htidy.setNode hm ⟨⟨hgenuine.isleaf, hgenuine.migrating, hgenuine.outside⟩, rfl⟩

/-- **The descent** ends at the leaf that is responsible for the slice of the key. -/
theorem ensures_arrives (h : Standing mem.scene G) (htidy : mem.Tidy) (ha : G root = some P)
    (hlo : P.lo = 0) : machine.Ensures (reachLeaf root ka fuel) mem fun r mem' =>
      Visited mem mem' ∧ Arrived mem' G P.layer ka.ikey r.1 r.2 := by
  induction fuel with
  | zero => exact ensures_diverge
  | succ fuel ih =>
    refine (ensures_climbs h ha hlo).bind fun r mem' hr => ?_
    obtain ⟨n, v⟩ := r
    obtain ⟨rfl, hv, hn⟩ := hr
    refine (ensures_descends h.shape htidy hn (Nat.zero_le _) (makeComparable_lt _) hv).bind
      fun r mem'' hr => ?_
    obtain ⟨rfl, harrived⟩ := hr
    cases r with
    | none => exact ih
    | some nv =>
      obtain ⟨n, w⟩ := nv
      refine visited_recordAccess.then fun _ mem₁ hvisited => ensures_ret.mpr ⟨hvisited, ?_⟩
      exact (harrived n w rfl).visited hvisited

/-! ### Lookups -/

/-- What is found in the leaf that a search has arrived at. -/
theorem Arrived.finding (h : Arrived mem G layer i a v) (hG : Standing mem.scene G)
    (hl : mem.node? a = some (.leaf l)) (ka : Key) :
    Finding (l.bare (mem.externalBag l)).page ka (l.lower ka).i
      ((l.lower ka).p.map (l.bare (mem.externalBag l)).entry)
      (match (l.lower ka).p with
        | some p => l.ksufMatches (mem.externalBag l) p ka
        | none => 0) := by
  obtain ⟨P, ha, -⟩ := h.place
  have hok := hG.leaves.ok ha (leafAt_scene.mpr ⟨l, hl, rfl⟩).page
  exact hok.sorted.finding hok.meant ka

/-- An entry for a layer leads to where the rest of the key is. -/
theorem PageOk.shift {es : Page} {c : Addr} {k : ℕ} (h : PageOk G P es)
    (hc : es[k]? = some (.layer ka.ikey c)) (hlong : ikeySize < ka.length)
    (hP : P.layer = ka.shifted) : (∃ hi, G c = some ⟨(ka.shiftBy ikeySize).shifted, 0, hi⟩) ∧
      (ka.shiftBy ikeySize).rest ≠ [] ∧
        (ka.shiftBy ikeySize).shifted ++ (ka.shiftBy ikeySize).rest = ka.shifted ++ ka.rest := by
  obtain ⟨hi, hplace⟩ := h.layer_place (List.mem_of_getElem? hc)
  have hslice : slice ka.ikey = ka.rest.take ikeySize := slice_makeComparable_of_le hlong.le
  refine ⟨⟨hi, ?_⟩, ?_, ?_⟩
  · rw [hplace, hP, hslice]
    rfl
  · intro hnil
    have hdrop : ka.rest.drop ikeySize = [] := hnil
    exact absurd hlong (Nat.not_lt.mpr (List.drop_eq_nil_iff.mp hdrop))
  · rw [Key.shiftBy, List.append_assoc, List.take_append_drop]

/-- A lookup finds what is stored. -/
theorem ensures_findUnlocked (h : Standing mem.scene G) (htidy : mem.Tidy) (ha : G root = some P)
    (hlo : P.lo = 0) (hP : P.layer = ka.shifted) (hrest : ka.shifted ≠ [] → ka.rest ≠ []) :
    machine.Ensures (findUnlocked fuel root ka none) mem fun r mem' => Visited mem mem' ∧
      (r.1 = 0 → ∀ w, ¬Stored mem.scene G (ka.shifted ++ ka.rest) w) ∧
        (r.1 ≠ 0 → Stored mem.scene G (ka.shifted ++ ka.rest) r.2) := by
  induction fuel generalizing mem root ka P with
  | zero => exact ensures_diverge
  | succ fuel ih =>
    refine (ensures_arrives h htidy ha hlo).bind fun nv mem₁ hnv => ?_
    obtain ⟨n, v⟩ := nv
    obtain ⟨hvisited, harrived⟩ := hnv
    have h₁ : Standing mem₁.scene G := hvisited.scene ▸ h
    have htidy₁ := hvisited.tidy htidy
    -- to go on from here is to go on from the start
    have hagain {root : Addr} {ka' : Key} {P : Place} (ha : G root = some P) (hlo : P.lo = 0)
        (hP : P.layer = ka'.shifted) (hrest : ka'.shifted ≠ [] → ka'.rest ≠ [])
        (hkey : ka'.shifted ++ ka'.rest = ka.shifted ++ ka.rest) :
        machine.Ensures (findUnlocked fuel root ka' none) mem₁ fun r mem' => Visited mem mem' ∧
          (r.1 = 0 → ∀ w, ¬Stored mem.scene G (ka.shifted ++ ka.rest) w) ∧
            (r.1 ≠ 0 → Stored mem.scene G (ka.shifted ++ ka.rest) r.2) := by
      refine (ih h₁ htidy₁ ha hlo hP hrest).imp fun r mem' hr => ?_
      rw [hvisited.scene, hkey] at hr
      exact ⟨trans_of Visited hvisited hr.1, hr.2⟩
    refine ensures_ite (fun _ => hagain ha hlo hP hrest rfl) fun _ => ?_
    refine ensures_read.bind fun l mem₂ hl => ?_
    obtain ⟨rfl, l', hl, rfl⟩ := hl
    have hm := leaf?_eq_some.mp hl
    refine ensures_externalBag.bind fun b mem₃ hb => ?_
    obtain ⟨rfl, hb⟩ := hb
    refine (ensures_hasChanged harrived.version true).bind fun changed mem₄ hchanged => ?_
    obtain ⟨rfl, rfl⟩ := hchanged
    have hfinding := harrived.finding h₁ hm ka
    obtain ⟨Q, hn, hQ, hQlo, hQhi⟩ := harrived.place
    have hpage := (leafAt_scene.mpr ⟨_, hm, rfl⟩).page
    have hok := h₁.leaves.ok hn hpage
    have hQ' : Q.layer = ka.shifted := hQ.trans hP
    -- what is stored is in this leaf, or below it
    have hstored (w : ℕ) (hw : Stored mem.scene G (ka.shifted ++ ka.rest) w) :=
      h₁.stored_cases hn hpage hQlo hQhi (fun hne => hrest (hQ' ▸ hne))
        (by rwa [hvisited.scene, hQ'])
    refine ensures_ite (fun hc => by cases hc) fun _ => ?_
    have habsent {i : ℕ} {p : Option Entry}
        (hf : Finding (l.bare (mem₄.externalBag l)).page ka i p 0) (w : ℕ) :
        ¬Stored mem.scene G (ka.shifted ++ ka.rest) w := by
      intro hw
      obtain ⟨hnone, hlayer⟩ := hf.absent hok.sorted
      rcases hstored w hw with hmem | ⟨hlong, c, hc⟩
      · exact hnone w hmem
      · exact hlayer hlong c hc
    cases hp : (l.lower ka).p with
    | none =>
      simp only [hp] at hfinding
      refine ensures_ite (fun hc => absurd hc (lt_irrefl 0)) fun _ => ensures_ret.mpr ?_
      exact ⟨hvisited, fun _ => habsent hfinding, fun hne => absurd rfl hne⟩
    | some q =>
      have hmatch : l.ksufMatches b q ka = l.ksufMatches (mem₄.externalBag l) q ka := by
        rw [Leaf.ksufMatches, hb]
        rfl
      have hlv : l.lv q = ((l.bare (mem₄.externalBag l)).entry q).lv := rfl
      simp only [hp, Option.map_some] at hfinding
      simp only [hmatch, hlv]
      generalize (l.lower ka).i = i at hfinding
      generalize (l.bare (mem₄.externalBag l)).entry q = e at hfinding ⊢
      generalize l.ksufMatches (mem₄.externalBag l) q ka = z at hfinding ⊢
      have hresult := hfinding
      cases hfinding with
      | @entry v hk =>
        refine ensures_ite (fun hc => absurd hc (by decide)) fun _ => ensures_ret.mpr ?_
        refine ⟨hvisited, fun hzero => absurd hzero one_ne_zero, fun _ => ?_⟩
        rw [← hvisited.scene]
        exact ⟨n, Q, _, ka.rest, hn, hpage, List.mem_of_getElem? hk, by rw [hQ']⟩
      | @layer c hk hlong =>
        obtain ⟨⟨hi, hc⟩, hne, hkey⟩ := hok.shift hk hlong hQ'
        refine ensures_ite (fun _ => ?_) fun hc => absurd (by decide) hc
        exact hagain hc rfl rfl (fun _ => hne) hkey
      | @other w t hk hne hikey hlong htlong =>
        refine ensures_ite (fun hc => absurd hc (by decide)) fun _ => ensures_ret.mpr ?_
        exact ⟨hvisited, fun _ => habsent hresult, fun hne => absurd rfl hne⟩

end Walks

/-! ### What `get` answers -/

section Answers

variable {mem : Mem} {G : Places} {fuel : ℕ}

/-- **What `get` answers is what is stored**, in whatever layer it lies. -/
theorem ensures_get (h : Standing mem.scene G) (htidy : mem.Tidy) (key : Str) :
    machine.Ensures (get fuel key) mem fun r mem' => Visited mem mem' ∧
      ∀ v, r = some v ↔ Stored mem.scene G key v := by
  obtain ⟨hi, hroot⟩ := h.shape.root
  have hread : machine.Ensures readRoot mem fun r mem' => r = mem.root ∧ mem' = mem :=
    ensures_access fun _ _ => ⟨rfl, rfl⟩
  refine hread.bind fun r mem' hr => ?_
  obtain ⟨rfl, rfl⟩ := hr
  have hfind : machine.Ensures (findUnlocked fuel mem'.root (Key.ofStr key) none) mem' _ :=
    ensures_findUnlocked h htidy hroot rfl rfl fun hne => absurd rfl hne
  refine hfind.bind fun found mem₁ hfound => ?_
  obtain ⟨hvisited, habsent, hpresent⟩ := hfound
  refine ensures_ret.mpr ⟨hvisited, fun v => ?_⟩
  by_cases hzero : found.1 = 0
  · rw [if_pos hzero]
    constructor
    · intro hv
      cases hv
    · intro hv
      exact absurd hv (habsent hzero v)
  · rw [if_neg hzero]
    constructor
    · rintro ⟨⟩
      exact hpresent hzero
    · intro hv
      exact congrArg some (h.stored_unique (hpresent hzero) hv)

/-- A leaf with the value `7` for the key `A`. -/
def leafOfA : Leaf :=
  { Leaf.make 0 .unknown 0 0 with
    version := Word.setFlag 30 (NodeVersion.make true)
    keylenx := fun _ => 1
    permutation := Permuter.makeSorted 1
    ikey0 := fun _ => makeComparable [65]
    lv := fun _ => 7 }

/-- The leaf is the root of the tree. -/
def memOfA : Mem where
  blocks a := if a = 8 then some ⟨.leaf leafOfA, 0, false⟩ else none
  bags _ := none
  allocated := 1
  root := 8
  callbacks := []
  demotionQueue := []
  global := default

/-- The leaf is responsible for all slices. -/
def placesOfA : Places := fun a => if a = 8 then some ⟨[], 0, 2 ^ 64⟩ else none

theorem node?_memOfA {a : Addr} {n : Node} (h : memOfA.node? a = some n) :
    a = 8 ∧ n = .leaf leafOfA := by
  by_cases ha : a = 8
  · subst ha
    cases h
    exact ⟨rfl, rfl⟩
  · rw [Mem.node?, memOfA] at h
    simp only [if_neg ha] at h
    cases h

theorem placesOfA_eq {a : Addr} {P : Place} (h : placesOfA a = some P) :
    a = 8 ∧ P = ⟨[], 0, 2 ^ 64⟩ := by
  by_cases ha : a = 8
  · subst ha
    cases h
    exact ⟨rfl, rfl⟩
  · rw [placesOfA, if_neg ha] at h
    cases h

theorem face_memOfA {a : Addr} {f : Face} (h : memOfA.scene.face a = some f) : a = 8 ∧
    f = ⟨true, false, 0, .leaf (leafOfA.bare (memOfA.externalBag leafOfA))⟩ := by
  obtain ⟨n, hn, rfl⟩ := face_scene_eq_some.mp h
  obtain ⟨rfl, rfl⟩ := node?_memOfA hn
  have hroot : leafOfA.version.isRoot = true := by decide
  have hsplit : leafOfA.version.splitting = false := by decide
  refine ⟨rfl, ?_⟩
  simp only [Mem.look, Node.version, hroot, hsplit]
  rfl

theorem page_memOfA {a : Addr} {es : Page} (h : memOfA.scene.page a = some es) :
    es = [.ofStr [65] 7] := by
  obtain ⟨l, ⟨f, hf, hn⟩, rfl⟩ := Scene.page_eq_some.mp h
  obtain ⟨-, rfl⟩ := face_memOfA hf
  cases hn
  rfl

theorem tidy_memOfA : memOfA.Tidy where
  null := rfl
  lt a ha := by
    by_cases h : a = 8
    · subst h
      decide
    · rw [memOfA] at ha
      simp only [if_neg h] at ha
      exact absurd rfl ha
  bag_lt _ h := absurd rfl h
  genuine a n hn := by
    obtain ⟨-, rfl⟩ := node?_memOfA hn
    exact ⟨by decide, by decide, fun h => absurd rfl h⟩
  bag a n k hn hk h0 := by
    obtain ⟨-, rfl⟩ := node?_memOfA hn
    cases hk
    exact absurd rfl h0
  own a b m n k hm hn hk hk' h0 := by
    obtain ⟨rfl, -⟩ := node?_memOfA hm
    exact (node?_memOfA hn).1.symm

theorem standing_memOfA : Standing memOfA.scene placesOfA := by
  have hinternode (a : Addr) (y : Internode) : ¬memOfA.scene.InternodeAt a y := by
    rintro ⟨f, hf, hn⟩
    obtain ⟨-, rfl⟩ := face_memOfA hf
    cases hn
  refine ⟨⟨rfl, ?_, ?_, ?_, ?_, ?_, ⟨2 ^ 64, rfl⟩⟩, ⟨?_, ?_⟩, ⟨?_, ?_, ?_, ?_⟩⟩
  · intro a P ha
    obtain ⟨rfl, -⟩ := placesOfA_eq ha
    exact ⟨_, face_scene rfl⟩
  · intro a P ha
    obtain ⟨-, rfl⟩ := placesOfA_eq ha
    exact ⟨by decide, le_rfl⟩
  · intro a P ha
    obtain ⟨-, rfl⟩ := placesOfA_eq ha
    exact dvd_zero _
  · intro a P y _ hy
    exact absurd hy (hinternode a y)
  · intro a P f ha hf
    obtain ⟨-, rfl⟩ := placesOfA_eq ha
    obtain ⟨-, rfl⟩ := face_memOfA hf
    exact Or.inl ⟨rfl, rfl, rfl, rfl⟩
  · intro a P f y _ _ hf hy
    exact absurd ⟨f, hf, hy⟩ (hinternode a y)
  · intro a P f _ ha _ _ _ _
    obtain ⟨-, rfl⟩ := placesOfA_eq ha
    rfl
  · rintro a P l - ⟨f, hf, hn⟩
    obtain ⟨-, rfl⟩ := face_memOfA hf
    cases hn
    exact Permuter.full_makeSorted (by decide)
  · intro a P es ha hes
    obtain ⟨-, rfl⟩ := placesOfA_eq ha
    obtain rfl := page_memOfA hes
    refine ⟨⟨List.pairwise_singleton _ _, ?_⟩, ?_, ?_⟩
    · intro e he
      rw [List.mem_singleton.mp he]
      exact Entry.known_ofStr
    · intro e he
      rw [List.mem_singleton.mp he]
      exact ⟨Nat.zero_le _, makeComparable_lt _⟩
    · intro e he
      exact Or.inl ⟨[65], 7, List.mem_singleton.mp he, fun h => absurd rfl h⟩
  · intro a b P Q es es' ha hb _ _ _ _ _
    exact (placesOfA_eq ha).1.trans (placesOfA_eq hb).1.symm
  · intro a P ha hne
    obtain ⟨-, rfl⟩ := placesOfA_eq ha
    exact absurd rfl hne

theorem ensures_get_memOfA : machine.Ensures (get 9 [65]) memOfA fun r mem' =>
    Visited memOfA mem' ∧ ∀ v, r = some v ↔ Stored memOfA.scene placesOfA [65] v :=
  ensures_get standing_memOfA tidy_memOfA [65]

end Answers

end Sidle.Masstree
