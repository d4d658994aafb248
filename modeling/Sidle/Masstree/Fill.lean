import Sidle.Masstree.Standing

/-!
# Slots are filled

What `assign` and its like write to a slot of a leaf.  A suffix goes to where the last one of its
slot lies, or behind all others, or all suffixes move to a larger bag: the strings of the slots in
use stay what they were.

## Main definitions

* `Leaf.Kept` — the slots whose suffixes are copied to a larger bag.
* `Leaf.Filled` — a slot says something else, and the others that are kept say what they said.

## Main results

* `seen_assign` — **the slot says the key**.
* `seen_assignInitializeFrom` — it says what a slot of another leaf says.
-/

namespace Sidle.Masstree

open Art (Build Fault)
open Prog Machine

/-! ### Suffixes -/

/-- The slots whose suffixes move to a larger bag. -/
def Leaf.Kept (l : Leaf) (p : ℕ) (initializing : Bool) (q : ℕ) : Prop :=
  if initializing then q < p else q ∈ l.permutation.used

/-- A bare leaf with other suffixes. -/
def Leaf.withSuffixes (l : Leaf) (get : ℕ → Str) : Leaf := { l with iksuf := ⟨0, 0, get⟩ }

/-- The slot `p` has the suffix `s`, and those that are kept have the suffix they had. -/
structure Leaf.Suffixes (l : Leaf) (p : ℕ) (s : Str) (initializing : Bool) (get : ℕ → Str) :
    Prop where
  self : get p = s
  other : ∀ q, q ≠ p → l.Kept p initializing q → l.keylenx q = ksufKeylenx → get q = l.iksuf.get q

section Suffixes

variable {build : Build} {mem : Mem} {a k : Addr} {l : Leaf} {p : ℕ} {s : Str}
  {initializing : Bool} {b b' : Stringbag} {x : Scene}

theorem get_of_copyKsufs {get : ℕ → Str} {ps : List ℕ} (h : copyKsufs get ps b = some b') (q : ℕ) :
    b'.get q = if q ∈ ps then get q else b.get q := by
  induction ps generalizing b with
  | nil =>
    cases h
    exact (if_neg List.not_mem_nil).symm
  | cons mp ps ih =>
    obtain ⟨c, hc, h⟩ := Option.bind_eq_some_iff.mp h
    rw [ih h, Stringbag.get_of_assign hc, Function.update_apply]
    by_cases hq : q = mp
    · simp [hq]
    · simp [hq]

/-- The look of the leaf at `a` when its suffixes are those of `get`. -/
def Mem.lookWith (mem : Mem) (l : Leaf) (get : ℕ → Str) : Face :=
  { mem.look (.leaf l) with node := .leaf ((l.bare (mem.externalBag l)).withSuffixes get) }

theorem look_leaf_eq (mem mem' : Mem) {l' : Leaf} (hv : l'.version = l.version)
    (hp : l'.parent = l.parent)
    (hbare : ∀ external, l'.bare external = (l.bare external).withSuffixes (l'.ksufAt external))
    {get : ℕ → Str} (hget : l'.ksufAt (mem'.externalBag l') = get) :
    mem'.look (.leaf l') = mem.lookWith l get := by
  have hsame : (l.bare (mem'.externalBag l')).withSuffixes get =
      (l.bare (mem.externalBag l)).withSuffixes get := rfl
  simp only [Mem.look, Mem.lookWith, Mem.bare, Node.version, Node.parent, hv, hp, hbare, hget,
    hsame]

theorem Mem.Tidy.setBag (h : mem.Tidy) (b : Stringbag) : (mem.setBag k b).Tidy := by
  have hnone (j : Addr) : (mem.setBag k b).bags j = none ↔ mem.bags j = none := by
    by_cases hj : j = k
    · simp [Mem.setBag, hj]
    · simp [Mem.setBag, Function.update_of_ne hj]
  refine ⟨h.null, h.lt, fun j hj => h.bag_lt ((hnone j).not.mp hj), h.genuine, ?_, h.own⟩
  intro c n j hn hj h0
  exact (hnone j).not.mpr (h.bag hn hj h0)

theorem Mem.Tidy.retireBag (h : mem.Tidy) : (mem.retireBag k).Tidy := by
  have hnone (j : Addr) : (mem.retireBag k).bags j = none ↔ mem.bags j = none := by
    by_cases hj : j = k
    · simp [Mem.retireBag, hj]
    · simp [Mem.retireBag, Function.update_of_ne hj]
  refine ⟨h.null, h.lt, fun j hj => h.bag_lt ((hnone j).not.mp hj), h.genuine, ?_, h.own⟩
  intro c n j hn hj h0
  exact (hnone j).not.mpr (h.bag hn hj h0)

theorem scene_retireBag : (mem.retireBag k).scene = mem.scene := by
  have hbag (j : Addr) : (mem.retireBag k).bag? j = mem.bag? j := by
    by_cases hj : j = k
    · subst hj
      simp only [Mem.bag?, Mem.retireBag, Function.update_self, Option.map_map]
      rfl
    · simp only [Mem.bag?, Mem.retireBag, Function.update_of_ne hj]
  have hlook : (mem.retireBag k).look = mem.look := by
    funext n
    cases n with
    | leaf l => simp only [Mem.look, Mem.bare, Mem.externalBag, hbag]
    | internode y => rfl
  rw [Mem.scene, hlook]
  rfl

/-- A bag is seen in the leaf that it belongs to. -/
theorem scene_setBag (h : mem.Tidy) (hl : mem.node? a = some (.leaf l)) (h0 : l.ksuf ≠ 0)
    (hb : mem.bag? l.ksuf = some b) :
    (mem.setBag l.ksuf b').scene = mem.scene.set a (mem.lookWith l b'.get) := by
  have hbag : (mem.setBag l.ksuf b').bag? l.ksuf = some b' := by
    obtain ⟨c, hc, -⟩ := Option.map_eq_some_iff.mp hb
    simp only [Mem.bag?, Mem.setBag, Function.update_self, hc, Option.map_some]
  refine congrArg (Scene.mk mem.root) (funext fun c => ?_)
  rw [Function.update_apply]
  change (mem.node? c).map (mem.setBag l.ksuf b').look = _
  split
  · rename_i hc
    subst hc
    rw [hl, Option.map_some]
    refine congrArg some (look_leaf_eq mem _ rfl rfl (fun _ => rfl) ?_)
    funext q
    rw [Leaf.ksufAt, Leaf.bag, if_pos h0, Mem.externalBag, hbag]
    rfl
  · rename_i hc
    change _ = (mem.node? c).map mem.look
    cases hn : mem.node? c with
    | none => rfl
    | some n =>
      cases n with
      | internode y => rfl
      | leaf l' =>
        rw [Option.map_some, Option.map_some]
        by_cases h0' : l'.ksuf = 0
        · have hat (e e' : Stringbag) : l'.bare e = l'.bare e' := by
            have hget : l'.ksufAt e = l'.ksufAt e' := by
              funext q
              rw [Leaf.ksufAt, Leaf.ksufAt, Leaf.bag, Leaf.bag, if_neg (not_not.mpr h0'),
                if_neg (not_not.mpr h0')]
            rw [Leaf.bare, hget]
            rfl
          simp only [Mem.look, Mem.bare, hat _ (mem.externalBag l')]
        · have hne : l'.ksuf ≠ l.ksuf := fun heq => hc (h.own hn hl (k := l.ksuf)
            (congrArg some heq) rfl h0)
          have hsame : (mem.setBag l.ksuf b').externalBag l' = mem.externalBag l' := by
            simp only [Mem.externalBag, Mem.bag?, Mem.setBag, Function.update_of_ne hne]
          simp only [Mem.look, Mem.bare, hsame]

/-- The suffix `s` has been written. -/
def FilledWith (mem : Mem) (a : Addr) (l : Leaf) (p : ℕ) (s : Str) (initializing : Bool)
    (mem' : Mem) : Prop :=
  mem'.Tidy ∧ ∃ get, mem'.scene = mem.scene.set a (mem.lookWith l get) ∧
    (l.bare (mem.externalBag l)).Suffixes p s initializing get

theorem suffixes_update {get : ℕ → Str} (hget : get = Function.update l.iksuf.get p s) :
    l.Suffixes p s initializing get := by
  subst hget
  exact ⟨Function.update_self .., fun q hq _ _ => Function.update_of_ne hq ..⟩

theorem ensures_fillExternal (initializing : Bool) (h : mem.Tidy)
    (hl : mem.node? a = some (.leaf l)) :
    machine.Ensures (assignToExternal l p s) mem fun r mem' =>
      (r = true → FilledWith mem a l p s initializing mem') ∧ (r = false → mem' = mem) := by
  refine ensures_ite (fun h0 => ?_) fun _ => ensures_ret.mpr ⟨fun hr => (by cases hr), fun _ => rfl⟩
  refine ensures_read.bind fun b mem' hb => ?_
  obtain ⟨rfl, c, hc, rfl⟩ := hb
  split
  · rename_i b' hb'
    refine (ensures_access (Q := fun _ mem'' => mem'' = mem'.setBag l.ksuf b') fun _ _ => rfl).bind
      fun _ mem'' hmem => ensures_ret.mpr ⟨fun _ => ?_, fun hr => by cases hr⟩
    subst hmem
    refine ⟨h.setBag b', b'.get, scene_setBag h hl h0 hc, suffixes_update ?_⟩
    have hget : (l.bare (mem'.externalBag l)).iksuf.get = b.get := by
      funext q
      change l.ksufAt (mem'.externalBag l) q = b.get q
      rw [Leaf.ksufAt, Leaf.bag, if_pos h0, Mem.externalBag, hc]
      rfl
    rw [hget]
    exact Stringbag.get_of_assign hb'
  · exact ensures_ret.mpr ⟨fun hr => (by cases hr), fun _ => rfl⟩

theorem setNode_setNode {m n : Node} : (mem.setNode a m).setNode a n = mem.setNode a n := by
  simp only [Mem.setNode, Function.update_self, Function.update_idem, Option.map_map]
  rfl

/-- A leaf gets a new bag. -/
theorem Mem.Tidy.newBag (h : mem.Tidy) (hl : mem.node? a = some (.leaf l)) {l' : Leaf}
    (hv : l'.version = l.version) (hk : l'.ksuf = mem.fresh) (he : l'.extrasize64 < 0) :
    ((mem.allocBag b).setNode a (.leaf l')).Tidy := by
  have hnone (c : Addr) : ((mem.allocBag b).setNode a (.leaf l')).blocks c = none ↔
      mem.blocks c = none := by
    by_cases hc : c = a
    · simp [Mem.setNode, Mem.allocBag, hc]
    · simp [Mem.setNode, Mem.allocBag, Function.update_of_ne hc]
  have hlt : mem.fresh < ((mem.allocBag b).setNode a (.leaf l')).fresh :=
    show mem.fresh < (mem.alloc 0 (.leaf l)).fresh from fresh_lt_alloc
  have hl₁ : (mem.allocBag b).node? a = some (.leaf l) := hl
  have hnode ⦃c : Addr⦄ ⦃n : Node⦄ (hn : ((mem.allocBag b).setNode a (.leaf l')).node? c = some n) :
      c = a ∧ n = .leaf l' ∨ c ≠ a ∧ mem.node? c = some n := by
    rw [node?_setNode_eq hl₁] at hn
    split at hn
    · exact Or.inl ⟨‹_›, (Option.some.inj hn).symm⟩
    · exact Or.inr ⟨‹_›, hn⟩
  -- no leaf points to the new bag yet
  have hfresh ⦃c : Addr⦄ ⦃n : Node⦄ (hn : mem.node? c = some n) : n.bagPtr ≠ some mem.fresh := by
    intro hk'
    exact Nat.lt_irrefl _ (h.bag_lt (h.bag hn hk' fresh_ne_zero))
  refine ⟨(hnone 0).mpr h.null, fun c hc => (h.lt ((hnone c).not.mp hc)).trans hlt, ?_, ?_, ?_, ?_⟩
  · intro k hk'
    by_cases hkf : k = mem.fresh
    · exact hkf ▸ hlt
    · exact (h.bag_lt fun hnone => hk' ((Function.update_of_ne hkf ..).trans hnone)).trans hlt
  · intro c n hn
    rcases hnode hn with ⟨rfl, rfl⟩ | ⟨-, hn⟩
    · have hgenuine := h.genuine hl
      refine ⟨?_, ?_, fun _ => he⟩
      · simp only [Node.version, hv]
        exact hgenuine.isleaf
      · simp only [Node.version, hv]
        exact hgenuine.migrating
    · exact h.genuine hn
  · intro c n k hn hk' h0
    rcases hnode hn with ⟨rfl, rfl⟩ | ⟨-, hn⟩
    · obtain rfl : l'.ksuf = k := Option.some.inj hk'
      rw [hk]
      simp [Mem.setNode, Mem.allocBag]
    · have hkf : k ≠ mem.fresh := by
        rintro rfl
        exact hfresh hn hk'
      intro hnone
      exact h.bag hn hk' h0 ((Function.update_of_ne hkf ..).symm.trans hnone)
  · intro c d m n k hm hn hk' hk'' h0
    rcases hnode hm with ⟨rfl, rfl⟩ | ⟨-, hm'⟩
    · rcases hnode hn with ⟨rfl, -⟩ | ⟨-, hn'⟩
      · rfl
      · obtain rfl : l'.ksuf = k := Option.some.inj hk'
        exact absurd (hk ▸ hk'') (hfresh hn')
    · rcases hnode hn with ⟨rfl, rfl⟩ | ⟨-, hn'⟩
      · obtain rfl : l'.ksuf = k := Option.some.inj hk''
        exact absurd (hk ▸ hk') (hfresh hm')
      · exact h.own hm' hn' hk' hk'' h0

theorem scene_newBag (h : mem.Tidy) (hl : mem.node? a = some (.leaf l)) {l' : Leaf}
    (hv : l'.version = l.version) (hp : l'.parent = l.parent) (hk : l'.ksuf = mem.fresh)
    (hbare : ∀ external, l'.bare external = (l.bare external).withSuffixes (l'.ksufAt external)) :
    ((mem.allocBag b).setNode a (.leaf l')).scene = mem.scene.set a (mem.lookWith l b.get) := by
  have hl₁ : (mem.allocBag b).node? a = some (.leaf l) := hl
  have hscene : (mem.allocBag b).scene = mem.scene := by
    refine congrArg (Scene.mk mem.root) (funext fun c => ?_)
    change (mem.node? c).map (mem.allocBag b).look = (mem.node? c).map mem.look
    cases hn : mem.node? c with
    | none => rfl
    | some n =>
      cases n with
      | internode y => rfl
      | leaf k =>
        have hat : k.bare ((mem.allocBag b).externalBag k) = k.bare (mem.externalBag k) := by
          have hget : k.ksufAt ((mem.allocBag b).externalBag k) = k.ksufAt (mem.externalBag k) := by
            funext q
            by_cases h0 : k.ksuf = 0
            · rw [Leaf.ksufAt, Leaf.ksufAt, Leaf.bag, Leaf.bag, if_neg (not_not.mpr h0),
                if_neg (not_not.mpr h0)]
            · have hkf : k.ksuf ≠ mem.fresh := by
                intro heq
                exact Nat.lt_irrefl _ (heq ▸ h.bag_lt (h.bag hn rfl h0))
              simp only [Mem.externalBag, Mem.bag?, Mem.allocBag, Function.update_of_ne hkf]
          rw [Leaf.bare, hget]
          rfl
        rw [Option.map_some, Option.map_some]
        simp only [Mem.look, Mem.bare, hat]
  rw [scene_setNode hl₁, hscene]
  congr 1
  refine look_leaf_eq mem _ hv hp hbare ?_
  funext q
  have hbag : (mem.allocBag b).bag? mem.fresh = some b := by
    simp only [Mem.bag?, Mem.allocBag, Function.update_self, Option.map_some]
  rw [Leaf.ksufAt, Leaf.bag, hk, if_pos fresh_ne_zero, Mem.externalBag, hk, hbag]
  rfl

/-- The suffixes move to a larger bag. -/
theorem ensures_fillLarger (h : mem.Tidy) (hl : mem.node? a = some (.leaf l)) :
    machine.Ensures (assignExternal build a l p s initializing) mem fun _ mem' =>
      FilledWith mem a l p s initializing mem' := by
  refine ensures_externalBag.bind fun oksuf mem' hb => ?_
  obtain ⟨rfl, hb⟩ := hb
  dsimp only
  split
  · exact ensures_fail
  · rename_i nksuf hnksuf
    obtain ⟨c, hc, hnksuf⟩ := Option.bind_eq_some_iff.mp hnksuf
    refine (ensures_access (Q := fun b mem'' => b = mem'.fresh ∧ mem'' = mem'.allocBag nksuf)
      fun _ h => ⟨by cases h; rfl, by cases h; rfl⟩).bind fun b _ h' => ?_
    obtain ⟨rfl, rfl⟩ := h'
    refine (keeps_assert (R := Eq) _ _).then fun _ _ h' => ?_
    subst h'
    let l₂ : Leaf := { l with ksuf := mem'.fresh }
    let l₃ : Leaf :=
      { l₂ with extrasize64 := if 0 ≤ l₂.extrasize64 then -l₂.extrasize64 - 1 else l₂.extrasize64 }
    have hl₁ : (mem'.allocBag nksuf).node? a = some (.leaf l) := hl
    have hl₂ : ((mem'.allocBag nksuf).setNode a (.leaf l₂)).node? a = some (.leaf l₂) :=
      node?_setNode hl₁
    have htwice : ((mem'.allocBag nksuf).setNode a (.leaf l₂)).setNode a (.leaf l₃) =
        (mem'.allocBag nksuf).setNode a (.leaf l₃) := setNode_setNode
    have htidy : ((mem'.allocBag nksuf).setNode a (.leaf l₃)).Tidy := by
      refine h.newBag hl rfl rfl ?_
      change (if 0 ≤ l.extrasize64 then -l.extrasize64 - 1 else l.extrasize64) < 0
      split
      · omega
      · omega
    have hscene : ((mem'.allocBag nksuf).setNode a (.leaf l₃)).scene =
        mem'.scene.set a (mem'.lookWith l nksuf.get) :=
      scene_newBag h hl rfl rfl rfl fun _ => rfl
    have hsuffixes : (l.bare (mem'.externalBag l)).Suffixes p s initializing nksuf.get := by
      rw [Stringbag.get_of_assign hnksuf]
      refine ⟨Function.update_self .., fun q hq hkept hlong => ?_⟩
      rw [Function.update_of_ne hq, get_of_copyKsufs hc, if_pos, hb]
      · rfl
      · rw [List.mem_filter]
        constructor
        · cases initializing with
          | false => exact hkept
          | true => exact List.mem_range.mpr hkept
        · have hksuf : l.hasKsuf q = true := beq_iff_eq.mpr hlong
          simp [hq, hksuf]
    refine ensures_bind_of_done (run_writeLeaf hl₁) (ensures_bind_of_done (run_writeLeaf hl₂) ?_)
    rw [htwice]
    refine ensures_ite (fun _ => ?_) fun _ => ensures_ret.mpr ⟨htidy, _, hscene, hsuffixes⟩
    refine ensures_access fun _ _ => ⟨htidy.retireBag, _, ?_, hsuffixes⟩
    exact scene_retireBag.trans hscene

/-- **A suffix is written.** -/
theorem ensures_assignKsuf (h : mem.Tidy) (hl : mem.node? a = some (.leaf l)) :
    machine.Ensures (assignKsuf build a p s initializing) mem fun _ mem' =>
      FilledWith mem a l p s initializing mem' := by
  refine ensures_read.bind fun l' mem' hl' => ?_
  obtain ⟨rfl, l'', hl', rfl⟩ := hl'
  rw [leaf?_eq_some.mpr hl] at hl'
  cases hl'
  refine (ensures_fillExternal initializing h hl).bind fun b mem₁ hb => ?_
  obtain ⟨hdone, hsame⟩ := hb
  refine ensures_ite (fun htrue => ensures_ret.mpr (hdone htrue)) fun hb => ?_
  obtain rfl := hsame (Bool.eq_false_iff.mpr hb)
  split
  · rename_i b' hb'
    split at hb'
    · rename_i hextra
      have h0 : l.ksuf = 0 := by
        by_contra h0
        exact absurd ((h.genuine hl).outside h0) (not_lt.mpr hextra.le)
      refine ensures_access fun k hk => ?_
      rw [leaf?_eq_some.mpr hl] at hk
      cases hk
      have hgenuine := h.genuine hl
      refine ⟨h.setNode hl ⟨⟨hgenuine.isleaf, hgenuine.migrating, hgenuine.outside⟩, rfl⟩, b'.get,
        ?_, suffixes_update ?_⟩
      · have hlook : mem₁.look (.leaf { l with iksuf := b' }) = mem₁.lookWith l b'.get := by
          refine look_leaf_eq mem₁ _ rfl rfl (fun _ => rfl) ?_
          funext q
          rw [Leaf.ksufAt, Leaf.bag, if_neg (not_not.mpr h0)]
        rw [scene_setNode hl]
        exact congrArg _ hlook
      · have hget : (l.bare (mem₁.externalBag l)).iksuf.get = l.iksuf.get := by
          funext q
          change l.ksufAt (mem₁.externalBag l) q = l.iksuf.get q
          rw [Leaf.ksufAt, Leaf.bag, if_neg (not_not.mpr h0)]
        rw [hget]
        exact Stringbag.get_of_assign hb'
    · cases hb'
  · exact ensures_fillLarger h hl

end Suffixes

/-! ### Slots -/

/-- The slot `p` of the bare leaf says `e`, and those that are kept say what they said. -/
structure Leaf.Filled (l : Leaf) (p : ℕ) (e : Entry) (initializing : Bool) (l' : Leaf) : Prop where
  permutation : l'.permutation = l.permutation
  self : l'.entry p = e
  other : ∀ q, q ≠ p → l.Kept p initializing q → l'.entry q = l.entry q

section Slots

variable {build : Build} {mem : Mem} {a b : Addr} {l k : Leaf} {p q : ℕ} {s : Str} {ka : Key}
  {initializing : Bool} {x : Scene} {c d : Face} {β : Type}

/-- A leaf is read, and the bag it points to. -/
theorem seen_readLeafBag {h : Leaf → Stringbag → MtM β} {Q : β → Scene → Prop}
    (H : ∀ f l bag, x.face a = some f → f.node = .leaf (l.bare bag) →
      machine.Tracks sceneView (h l bag) x Q) :
    machine.Tracks sceneView (do
      let l ← readLeaf a
      let bag ← externalBag l
      h l bag) x Q := by
  intro mem hs hx
  refine ensures_read.bind fun l mem' hl => ?_
  obtain ⟨rfl, l', hl, rfl⟩ := hl
  refine ensures_externalBag.bind fun bag mem'' hb => ?_
  obtain ⟨rfl, hb⟩ := hb
  have hface := face_scene (leaf?_eq_some.mp hl)
  have hsame : l.bare bag = l.bare (mem''.externalBag l) := by
    have hget : l.ksufAt bag = l.ksufAt (mem''.externalBag l) := funext hb
    rw [Leaf.bare, hget]
    rfl
  change mem''.scene = x at hx
  rw [hx] at hface
  refine H _ l bag hface ?_ _ hs hx
  rw [hsame]
  rfl

/-- The suffix is written. -/
theorem seen_assignKsuf (hc : x.face a = some c) (hl : c.node = .leaf l) :
    machine.Tracks sceneView (assignKsuf build a p s initializing) x fun _ y => ∃ get,
      y = x.set a { c with node := .leaf (l.withSuffixes get) } ∧
        l.Suffixes p s initializing get := by
  intro mem hs hx
  change mem.scene = x at hx
  subst hx
  obtain ⟨l', hl', rfl⟩ := leafAt_scene.mp ⟨c, hc, hl⟩
  rw [face_scene hl'] at hc
  cases hc
  refine (ensures_assignKsuf hs hl').imp fun _ mem' h => ?_
  obtain ⟨htidy, get, hscene, hsuffixes⟩ := h
  exact ⟨htidy, get, hscene, hsuffixes⟩

theorem Leaf.filled {l' : Leaf} {e : Entry} (hperm : l'.permutation = l.permutation)
    (hikey : l'.ikey0 = Function.update l.ikey0 p e.ikey)
    (hlen : l'.keylenx = Function.update l.keylenx p e.keylenx)
    (hlv : l'.lv = Function.update l.lv p e.lv)
    (hself : (if e.keylenx = ksufKeylenx then l'.iksuf.get p else []) = e.suffix)
    (hother : ∀ q, q ≠ p → l.Kept p initializing q → l.keylenx q = ksufKeylenx →
      l'.iksuf.get q = l.iksuf.get q) : l.Filled p e initializing l' := by
  refine ⟨hperm, ?_, fun q hq hkept => ?_⟩
  · simp only [Leaf.entry, hikey, hlen, hlv, Function.update_self, hself]
  · simp only [Leaf.entry, hikey, hlen, hlv, Function.update_of_ne hq]
    by_cases hksuf : l.keylenx q = ksufKeylenx
    · rw [if_pos hksuf, if_pos hksuf, hother q hq hkept hksuf]
    · rw [if_neg hksuf, if_neg hksuf]

/-- What is written to the slot `p`, but for the suffix. -/
def Leaf.put (p : ℕ) (e : Entry) (l : Leaf) : Leaf :=
  { l with
    lv := Function.update l.lv p e.lv
    ikey0 := Function.update l.ikey0 p e.ikey
    keylenx := Function.update l.keylenx p e.keylenx }

/-- The suffix comes last. -/
theorem Leaf.Suffixes.filled {e : Entry} {get : ℕ → Str}
    (h : (l.put p e).Suffixes p e.suffix initializing get) (hlong : e.keylenx = ksufKeylenx) :
    l.Filled p e initializing ((l.put p e).withSuffixes get) := by
  refine Leaf.filled rfl rfl rfl rfl ?_ fun q hq hkept hksuf => ?_
  · rw [if_pos hlong]
    exact h.self
  · refine h.other q hq hkept ?_
    exact (Function.update_of_ne hq ..).trans hksuf

theorem Leaf.filled_put {e : Entry} (hlong : e.keylenx ≠ ksufKeylenx) (hshort : e.suffix = []) :
    l.Filled p e initializing (l.put p e) := by
  refine Leaf.filled rfl rfl rfl rfl ?_ fun _ _ _ _ => rfl
  rw [if_neg hlong, hshort]

theorem seen_writePut {e : Entry} (hc : x.face a = some c) (hl : c.node = .leaf l) :
    machine.Tracks sceneView (writeLeaf a (Leaf.put p e)) x fun _ y =>
      y = x.set a { c with node := .leaf (l.put p e) } := by
  refine seen_writeLeaf (f := Leaf.put p e) (g := Leaf.put p e) (fun _ => rfl) (fun _ => rfl)
    (fun _ => rfl) (fun _ => rfl) (fun _ _ => rfl) fun c' l' hc' hl' => ?_
  rw [hc] at hc'
  cases hc'
  rw [hl] at hl'
  cases hl'
  rfl

/-- The suffix is written behind the rest of the slot. -/
theorem seen_assignKsuf_put {e : Entry} (hlong : e.keylenx = ksufKeylenx) :
    machine.Tracks sceneView (assignKsuf build a p e.suffix initializing)
      (x.set a { c with node := .leaf (l.put p e) }) fun _ y => ∃ l',
        y = x.set a { c with node := .leaf l' } ∧ l.Filled p e initializing l' := by
  refine (seen_assignKsuf (c := { c with node := .leaf (l.put p e) }) Scene.face_set_self rfl).imp
    fun _ y hy => ?_
  obtain ⟨get, rfl, hget⟩ := hy
  exact ⟨_, Scene.set_set, hget.filled hlong⟩

/-- **The slot says the key.** -/
theorem seen_assign (hc : x.face a = some c) (hl : c.node = .leaf l) :
    machine.Tracks sceneView (assign build a p ka initializing) x fun _ y => ∃ l',
      y = x.set a { c with node := .leaf l' } ∧
        l.Filled p (.ofStr ka.rest 0) initializing l' := by
  let e : Entry := ⟨ka.ikey, if ka.hasSuffix then ksufKeylenx else ka.length, ka.suffix, 0⟩
  have he : e = .ofStr ka.rest 0 := by
    simp only [e, Key.hasSuffix, decide_eq_true_eq]
    rfl
  rw [← he]
  refine (seen_writePut (e := e) hc hl).bind fun _ y hy => ?_
  subst hy
  refine tracks_ite (fun hlong => seen_assignKsuf_put (if_pos hlong)) fun hshort =>
    tracks_ret ⟨_, rfl, Leaf.filled_put ?_ ?_⟩
  · change (if ka.hasSuffix then ksufKeylenx else ka.length) ≠ ksufKeylenx
    rw [if_neg hshort]
    rw [Key.hasSuffix, decide_eq_true_eq] at hshort
    simp only [ikeySize, ksufKeylenx] at *
    omega
  · refine List.drop_eq_nil_of_le (Nat.le_of_not_lt fun h => hshort ?_)
    rw [Key.hasSuffix]
    exact decide_eq_true h

/-- **The slot says what a slot of another leaf says.** -/
theorem seen_assignInitializeFrom (hc : x.face a = some c) (hl : c.node = .leaf l)
    (hd : x.face b = some d) (hk : d.node = .leaf k) :
    machine.Tracks sceneView (assignInitializeFrom build a p b q) x fun _ y => ∃ l',
      y = x.set a { c with node := .leaf l' } ∧ l.Filled p (k.entry q) true l' := by
  intro mem hs hx
  change mem.scene = x at hx
  subst hx
  obtain ⟨l₀, hl₀, rfl⟩ := leafAt_scene.mp ⟨c, hc, hl⟩
  obtain ⟨k₀, hk₀, rfl⟩ := leafAt_scene.mp ⟨d, hd, hk⟩
  refine ensures_read.bind fun xl mem' hxl => ?_
  obtain ⟨rfl, k', hxl, rfl⟩ := hxl
  rw [leaf?_eq_some.mpr hk₀] at hxl
  cases hxl
  let e : Entry := (k₀.bare (mem'.externalBag k₀)).entry q
  refine ensures_bind_of_done (run_writeLeaf hl₀) ?_
  obtain ⟨hs₁, hx₁⟩ := seen_writePut (p := p) (e := e) hc hl _ hs rfl _ _ (run_writeLeaf hl₀)
  refine ensures_ite (fun hlong => ?_) fun hshort => ensures_ret.mpr ⟨hs₁, _, hx₁, ?_⟩
  · refine ensures_externalBag.bind fun xb mem'' hxb => ?_
    obtain ⟨rfl, hxb⟩ := hxb
    have hlong' : e.keylenx = ksufKeylenx := beq_iff_eq.mp hlong
    have hsuffix : k₀.ksufAt xb q = e.suffix := (hxb q).trans (if_pos hlong').symm
    rw [hsuffix]
    exact seen_assignKsuf_put hlong' _ hs₁ hx₁
  · have hshort' : e.keylenx ≠ ksufKeylenx := fun h => hshort (beq_iff_eq.mpr h)
    exact Leaf.filled_put hshort' (if_neg hshort')

/-- **The slot leads to a layer**, whose root is still to be written. -/
theorem seen_assignInitializeForLayer (hc : x.face a = some c) (hl : c.node = .leaf l) :
    machine.Tracks sceneView (assignInitializeForLayer build a p ka) x fun _ y =>
      y = x.set a { c with node := .leaf (l.put p (.layer ka.ikey (l.lv p))) } := by
  refine (unseen_assert _ _).then fun _ => ?_
  refine seen_writeLeaf (g := fun l => l.put p (.layer ka.ikey (l.lv p))) (fun _ => rfl)
    (fun _ => rfl) (fun _ => rfl) (fun _ => rfl) (fun l external => ?_) fun c' l' hc' hl' => ?_
  · have hlv : Function.update l.lv p (l.lv p) = l.lv := Function.update_eq_self ..
    simp only [Leaf.put, Entry.layer, Leaf.bare, hlv]
    rfl
  · rw [hc] at hc'
    cases hc'
    rw [hl] at hl'
    cases hl'
    rfl

end Slots

end Sidle.Masstree
