import Sidle.Masstree.Hang

/-!
# A split moves up

The programs of a round of `make_split` on what is seen of the memory: the right half is hung up
beside the left one, or both below a new root, and if the parent is full it is split as well.

## Main definitions

* `Scene.adopt` — nodes get another parent.
* `Scene.cutParent` — a full parent without the children that have moved.

## Main results

* `seen_insertChild`, `seen_hangNewParent` — a half is hung up.
* `seen_internodeSplitInto`, `seen_splitParent` — the parent is split.
-/

namespace Sidle.Masstree

open Art (Build Fault)
open Prog Machine

/-! ### Known nodes -/

/-- The nodes `cs` get the parent `q`. -/
def Scene.adopt (x : Scene) (q : Addr) (cs : List Addr) : Scene :=
  { x with face := fun a => (x.face a).map fun f => if a ∈ cs then { f with parent := q } else f }

section Known

variable {x y : Scene} {a b p q : Addr} {f g : Face} {y₀ : Internode} {l : Leaf} {cs ds : List Addr}

theorem Scene.set_comm (h : a ≠ b) : (x.set a f).set b g = (x.set b g).set a f := by
  simp only [Scene.set, Function.update_comm h]

theorem Scene.leaf?_set : (x.set a f).leaf? = Function.update x.leaf? a f.node.leaf? := by
  funext b
  rw [Scene.leaf?, Scene.face_set, Function.update_apply]
  split
  · rfl
  · rfl

theorem Scene.leaf?_of_face (hf : x.face a = some f) : x.leaf? a = f.node.leaf? := by
  rw [Scene.leaf?, hf]
  rfl

/-- The leaf at `a` stays what it is. -/
theorem Scene.leaf?_set_eq (hf : x.face a = some f) (h : g.node.leaf? = f.node.leaf?) :
    (x.set a g).leaf? = x.leaf? := by
  rw [Scene.leaf?_set, h, ← Scene.leaf?_of_face hf, Function.update_eq_self]

theorem Scene.face_adopt_of_notMem (h : a ∉ cs) : (x.adopt q cs).face a = x.face a := by
  rw [Scene.adopt]
  simp only [if_neg h, Option.map_id']

theorem Scene.face_adopt_of_mem (h : a ∈ cs) (hf : x.face a = some f) :
    (x.adopt q cs).face a = some { f with parent := q } := by
  rw [Scene.adopt]
  simp only [hf, Option.map_some, if_pos h]

theorem Scene.leaf?_adopt : (x.adopt q cs).leaf? = x.leaf? := by
  funext a
  simp only [Scene.leaf?, Scene.adopt]
  cases x.face a with
  | none => rfl
  | some f =>
    simp only [Option.map_some, Option.bind_some]
    split
    · rfl
    · rfl

theorem Scene.adopt_adopt : (x.adopt q cs).adopt q ds = x.adopt q (cs ++ ds) := by
  refine congrArg (Scene.mk x.root) (funext fun a => ?_)
  simp only [Scene.adopt, Option.map_map]
  congr 1
  funext f
  simp only [Function.comp_apply, List.mem_append]
  by_cases hc : a ∈ cs
  · by_cases hd : a ∈ ds
    · simp [hc, hd]
    · simp [hc, hd]
  · by_cases hd : a ∈ ds
    · simp [hc, hd]
    · simp [hc, hd]

theorem Scene.adopt_congr (h : ∀ a, a ∈ cs ↔ a ∈ ds) : x.adopt q cs = x.adopt q ds := by
  simp only [Scene.adopt, h]

theorem Scene.set_parent (hf : x.face a = some f) :
    x.set a { f with parent := q } = x.adopt q [a] := by
  refine congrArg (Scene.mk x.root) (funext fun b => ?_)
  rw [Function.update_apply]
  split
  · rename_i hb
    subst hb
    rw [hf, Option.map_some, if_pos (List.mem_singleton_self b)]
  · rename_i hb
    simp only [List.mem_singleton, if_neg hb, Option.map_id']

theorem Scene.adopt_nil : x.adopt q [] = x := by
  simp only [Scene.adopt, List.not_mem_nil, if_false, Option.map_id']

theorem seen_writeInternodeAt {h : Internode → Internode} (hv : ∀ y, (h y).version = y.version)
    (hp : ∀ y, (h y).parent = y.parent) (hbare : ∀ y, (h y).bare = h y.bare)
    (hg : x.face a = some g) (hn : g.node = .internode y₀) :
    machine.Tracks sceneView (writeInternode a h) x fun _ y =>
      y = x.set a { g with node := .internode (h y₀) } := by
  refine seen_writeInternode (g := h) hv hp hbare fun c z hc hz => ?_
  rw [hg] at hc
  cases hc
  rw [hn] at hz
  cases hz
  rfl

theorem seen_setParentAt (hg : x.face a = some g) :
    machine.Tracks sceneView (setParent a p) x fun _ y => y = x.set a { g with parent := p } := by
  refine seen_setParent fun c hc => ?_
  rw [hg] at hc
  cases hc
  rfl

/-- The loop that gives nodes another parent. -/
theorem seen_adopt (child : ℕ → Addr) (s n : ℕ) :
    machine.Tracks sceneView (forRange s n fun i => setParent (child i) q) x fun _ y =>
      y = x.adopt q ((List.range' s n).map child) := by
  induction n generalizing s x with
  | zero => exact tracks_ret Scene.adopt_nil.symm
  | succ n ih =>
    refine (seen_setParent (Q := fun _ y => y = x.adopt q [child s]) fun c hc => ?_).bind
      fun _ y hy => ?_
    · exact Scene.set_parent hc
    · subst hy
      refine (ih (s + 1)).imp fun _ z hz => ?_
      rw [hz, Scene.adopt_adopt]
      rfl

end Known

/-! ### The programs -/

/-- What is seen when the full internode `p` has been split for the child of the round `r`, and the
new internode `q` beside it has taken over its children. -/
def Scene.cutParent (x : Scene) (r : SplitRound) (p q : Addr) (kp mid : ℕ) (g : Face)
    (y₀ r₀ : Internode) : Scene :=
  let yr := y₀.splitRight r₀ mid kp r.xikey r.child
  ((x.set q ⟨false, false, 0, .internode yr⟩).adopt q yr.children).set p { g with
    splitting := true
    node := .internode { y₀ with nkeys := if kp < mid then mid - 1 else mid } }

section Programs

variable {env : Env} {x : Scene} {r : SplitRound} {a p q : Addr} {kp mid splitType fuel ka : ℕ}
  {f g fc : Face} {y₀ r₀ : Internode} {value : Addr}

/-- **A child goes in.** -/
theorem seen_insertChild (hg : x.face p = some g) (hn : g.node = .internode y₀)
    (hc : x.face r.child = some fc) (hpc : p ≠ r.child) :
    machine.Tracks sceneView (insertChild r p kp) x fun _ y =>
      y = (x.set r.child { fc with parent := p }).set p
        { g with node := .internode (y₀.withChild kp r.xikey r.child) } := by
  let y₁ := y₀.shift (kp + 1) kp (y₀.nkeys - kp)
  let y₂ := y₁.assign kp r.xikey r.child
  refine (seen_writeInternodeAt (h := fun y => y.shift (kp + 1) kp (y.nkeys - kp)) (fun _ => rfl)
    (fun _ => rfl) (fun _ => rfl) hg hn).bind fun _ y hy => ?_
  subst hy
  have hc' : (x.set p { g with node := .internode y₁ }).face r.child = some fc := by
    rw [Scene.face_set_of_ne hpc.symm, hc]
  refine (seen_setParentAt hc').bind fun _ y hy => ?_
  subst hy
  rw [Scene.set_comm hpc]
  refine (seen_writeInternodeAt (h := fun y => y.assign kp r.xikey r.child)
    (g := { g with node := .internode y₁ }) (fun _ => rfl) (fun _ => rfl) (fun _ => rfl)
    Scene.face_set_self rfl).bind fun _ y hy => ?_
  subst hy
  rw [Scene.set_set]
  refine (seen_writeInternodeAt (h := fun y => { y with nkeys := y.nkeys + 1 })
    (g := { g with node := .internode y₂ }) (fun _ => rfl) (fun _ => rfl) (fun _ => rfl)
    Scene.face_set_self rfl).imp fun _ y hy => ?_
  rw [hy, Scene.set_set]
  rfl

/-- **A new root above the two halves.** -/
theorem seen_hangNewParent (hf : x.face r.n = some f) (hc : x.face r.child = some fc)
    (hnc : r.n ≠ r.child) : machine.Tracks sceneView (hangNewParent env r 0 kp) x fun _ y =>
      ∃ nn y₁, x.face nn = none ∧ nn ≠ 0 ∧ y₁.nkeys = 1 ∧ y₁.height = r.height + 1 ∧
        y₁.keys = [r.xikey] ∧ y₁.children = [r.n, r.child] ∧
          y = ((x.set nn ⟨true, false, 0, .internode y₁⟩).set r.child { fc with parent := nn }).set
            r.n { f with parent := nn } := by
  refine unseen_decideNewNodePosition.then fun t => ?_
  refine seen_makeInternode.bind fun nn y hy => ?_
  obtain ⟨h0, hnone, rfl⟩ := hy
  have hcn : r.child ≠ nn := by
    rintro rfl
    rw [hc] at hnone
    cases hnone
  have hnn : r.n ≠ nn := by
    rintro rfl
    rw [hf] at hnone
    cases hnone
  let y₀ := (Internode.make (r.height + 1) .unknown 0).bare
  let y₁ : Internode := { y₀ with child := Function.update y₀.child 0 r.n }
  let y₂ := y₁.assign 0 r.xikey r.child
  refine (seen_writeInternodeAt (h := fun y => { y with child := Function.update y.child 0 r.n })
    (g := .newInternode (r.height + 1)) (fun _ => rfl) (fun _ => rfl) (fun _ => rfl)
    Scene.face_set_self rfl).bind fun _ y hy => ?_
  subst hy
  rw [Scene.set_set]
  have hc' {c : Face} : (x.set nn c).face r.child = some fc := by
    rw [Scene.face_set_of_ne hcn, hc]
  refine (seen_setParentAt hc').bind fun _ y hy => ?_
  subst hy
  rw [Scene.set_comm hcn.symm]
  refine (seen_writeInternodeAt (h := fun y => y.assign 0 r.xikey r.child)
    (g := { Face.newInternode (r.height + 1) with node := .internode y₁ }) (fun _ => rfl)
    (fun _ => rfl) (fun _ => rfl) Scene.face_set_self rfl).bind fun _ y hy => ?_
  subst hy
  rw [Scene.set_set]
  refine (seen_writeInternodeAt (h := fun y => { y with nkeys := 1 })
    (g := { Face.newInternode (r.height + 1) with node := .internode y₂ }) (fun _ => rfl)
    (fun _ => rfl) (fun _ => rfl) Scene.face_set_self rfl).bind fun _ y hy => ?_
  subst hy
  rw [Scene.set_set]
  let y₃ : Internode := { y₂ with nkeys := 1 }
  refine tracks_ite (fun _ => ?_) fun h => absurd rfl h
  refine (seen_makeLayerRoot (Q := fun _ z => z = (x.set r.child { fc with parent := nn }).set nn
    ⟨true, false, 0, .internode y₃⟩) fun c hc₀ => ?_).bind fun _ z hz => ?_
  · rw [Scene.face_set_self] at hc₀
    cases hc₀
    rw [Scene.set_set]
    rfl
  subst hz
  have hf' : ((x.set r.child { fc with parent := nn }).set nn ⟨true, false, 0, .internode y₃⟩).face
      r.n = some f := by
    rw [Scene.face_set_of_ne hnn, Scene.face_set_of_ne hnc, hf]
  refine (seen_setParentAt hf').imp fun _ z hz => ?_
  refine ⟨nn, y₃, hnone, h0, rfl, rfl, rfl, rfl, ?_⟩
  rw [hz, Scene.set_comm (a := nn) hcn.symm]

theorem version_splitRight {mid : ℕ} :
    (y₀.splitRight r₀ mid kp ka value).version = r₀.version ∧
      (y₀.splitRight r₀ mid kp ka value).parent = r₀.parent := by
  unfold Internode.splitRight
  split
  · exact ⟨rfl, rfl⟩
  · split
    · exact ⟨rfl, rfl⟩
    · exact ⟨rfl, rfl⟩

theorem bare_splitRight {mid : ℕ} : (y₀.splitRight r₀ mid kp ka value).bare =
    y₀.bare.splitRight r₀.bare mid kp ka value := by
  unfold Internode.splitRight
  split
  · rfl
  · split
    · rfl
    · rfl

/-- `split_into` of an internode. -/
theorem seen_internodeSplitInto (hg : x.face p = some g) (hn : g.node = .internode y₀)
    (hr : x.face q = some f) (hr₀ : f.node = .internode r₀) (hpq : p ≠ q) {mid : ℕ}
    (hmid : mid = if splitType = 2 then width else (width + 1) / 2)
    (hp : p ∉ (y₀.splitRight r₀ mid kp ka value).children)
    (hv : mid < kp → value ∈ (y₀.splitRight r₀ mid kp ka value).children) :
    machine.Tracks sceneView (internodeSplitInto env p q kp ka value splitType) x fun res y =>
      res = (if kp < mid then some kp else none, y₀.splitIkey mid kp ka) ∧
        y = ((x.set q { f with node := .internode (y₀.splitRight r₀ mid kp ka value) }).adopt q
          (y₀.splitRight r₀ mid kp ka value).children).set p { g with
            splitting := true
            node := .internode { y₀ with nkeys := if kp < mid then mid - 1 else mid } } := by
  refine unseen_read.then fun _ => unseen_read.then fun _ => (unseen_assert _ _).then fun _ => ?_
  refine (seen_readInternode (Q := fun xi z => z = x ∧ xi.bare = y₀) fun f' xi hf' hxi => ?_).bind
    fun xi z hz => ?_
  · rw [hg] at hf'
    cases hf'
    rw [hn] at hxi
    exact ⟨rfl, (Node.internode.inj hxi).symm⟩
  obtain ⟨rfl, rfl⟩ := hz
  rw [← hmid]
  let yr := xi.bare.splitRight r₀ mid kp ka value
  let x₁ := z.set q { f with node := .internode yr }
  refine (seen_writeInternode (f := fun r => xi.splitRight r mid kp ka value)
    (g := fun r => xi.bare.splitRight r mid kp ka value) (Q := fun _ y => y = x₁)
    (fun _ => version_splitRight.1) (fun _ => version_splitRight.2) (fun _ => bare_splitRight)
    fun c r hc hcr => ?_).bind fun _ y hy => ?_
  · rw [hr] at hc
    cases hc
    rw [hr₀] at hcr
    cases hcr
    rfl
  subst hy
  -- the new child is one of those that are adopted in the loop
  have hfirst : machine.Tracks sceneView (if mid < kp then setParent value q else pure ()) x₁
      fun _ y => ∃ cs, (∀ a ∈ cs, a ∈ yr.children) ∧ y = x₁.adopt q cs := by
    refine tracks_ite (fun hlt => ?_) fun _ =>
      tracks_ret ⟨[], fun _ h => absurd h List.not_mem_nil, ?_⟩
    · refine seen_setParent fun c hc => ⟨[value], fun a ha => ?_, Scene.set_parent hc⟩
      rw [List.mem_singleton.mp ha]
      exact hv hlt
    · exact Scene.adopt_nil.symm
  refine tracks_join hfirst fun _ y hy => ?_
  obtain ⟨cs, hcs, rfl⟩ := hy
  refine (seen_readInternode (Q := fun r y => y = x₁.adopt q cs ∧ r.bare = yr)
    fun f' r hf' hr' => ?_).bind fun r y hy => ?_
  · obtain ⟨f'', hf'', rfl⟩ := Option.map_eq_some_iff.mp hf'
    rw [Scene.face_set_self] at hf''
    cases hf''
    refine ⟨rfl, ?_⟩
    split at hr'
    · exact (Node.internode.inj hr').symm
    · exact (Node.internode.inj hr').symm
  obtain ⟨rfl, hbare⟩ := hy
  have hchildren : (List.range' 0 (r.nkeys + 1)).map r.child = yr.children := by
    rw [← hbare, ← List.range_eq_range']
    rfl
  have hadopt : x₁.adopt q (cs ++ yr.children) = x₁.adopt q yr.children := by
    apply Scene.adopt_congr
    intro a
    rw [List.mem_append]
    exact ⟨fun h => h.elim (hcs a) id, Or.inr⟩
  refine (seen_adopt r.child 0 (r.nkeys + 1)).bind fun _ y hy => ?_
  rw [hchildren, Scene.adopt_adopt, hadopt] at hy
  subst hy
  have hgp : (x₁.adopt q yr.children).face p = some g := by
    rw [Scene.face_adopt_of_notMem hp, Scene.face_set_of_ne hpq, hg]
  refine (seen_markSplit (Q := fun _ y => y = (x₁.adopt q yr.children).set p
    { g with splitting := true }) fun c hc => ?_).bind fun _ y hy => ?_
  · rw [hgp] at hc
    cases hc
    rfl
  subst hy
  refine (seen_writeInternodeAt
    (h := fun y => { y with nkeys := if kp < mid then mid - 1 else mid })
    (g := { g with splitting := true }) (fun _ => rfl) (fun _ => rfl) (fun _ => rfl)
    Scene.face_set_self hn).bind fun _ y hy => ?_
  refine tracks_ret ⟨rfl, ?_⟩
  rw [hy, Scene.set_set]

/-- The locks that are taken to look at the parent are not seen. -/
theorem unseen_parentMetadata (hf : x.face a = some f)
    (hp : f.parent ≠ 0 → ∀ c, x.face f.parent = some c → c.splitting = false) :
    machine.Tracks sceneView (parentMetadata env fuel a) x fun _ y => y = x := by
  refine unseen_lockedParent.bind fun p y hy => ?_
  obtain ⟨rfl, c, hc, rfl⟩ := hy
  rw [hf] at hc
  cases hc
  refine tracks_ite (fun h0 => ?_) fun _ => tracks_ret rfl
  exact unseen_read.then fun _ => (unseen_unlock (hp h0)).bind fun _ y hy => tracks_ret hy

/-- **The parent is split.** -/
theorem seen_splitParent (hg : x.face p = some g) (hn : g.node = .internode y₀)
    (hsplit : g.splitting = false)
    (hgp : g.parent ≠ 0 → ∀ c, x.face g.parent = some c → c.splitting = false)
    (hmid : mid = if splitType = 2 then width else (width + 1) / 2)
    (hp : ∀ r₀, p ∉ (y₀.splitRight r₀ mid kp r.xikey r.child).children)
    (hv : ∀ r₀, mid < kp → r.child ∈ (y₀.splitRight r₀ mid kp r.xikey r.child).children) :
    machine.Tracks sceneView (splitParent env fuel r p kp splitType) x fun res y =>
      ∃ r₀, x.face res.1 = none ∧ res.1 ≠ 0 ∧ r₀.height = r.height + 1 ∧
        res.2 = (if kp < mid then some kp else none, y₀.splitIkey mid kp r.xikey) ∧
          y = x.cutParent r p res.1 kp mid g y₀ r₀ := by
  refine (unseen_parentMetadata hg hgp).bind fun m y hy => ?_
  subst hy
  refine unseen_read.then fun xi => unseen_decideNewNodePosition.then fun t => ?_
  refine seen_makeInternode.bind fun q z hz => ?_
  obtain ⟨h0, hnone, rfl⟩ := hz
  have hpq : p ≠ q := by
    rintro rfl
    rw [hg] at hnone
    cases hnone
  let r₀ := (Internode.make (r.height + 1) .unknown 0).bare
  -- the version word is that of the parent, but for the root flag
  refine (seen_readVersion (Q := fun v z => z = y.set q (.newInternode (r.height + 1)) ∧
    v.isleaf = false ∧ v.migrating = false ∧ v.splitting = false) fun c v hc hl hm _ hs => ?_).bind
      fun v z hz => ?_
  · rw [Scene.face_set_of_ne hpq, hg] at hc
    cases hc
    rw [hn] at hl
    exact ⟨rfl, hl, hm, hs.trans hsplit⟩
  obtain ⟨rfl, hleaf, hmig, hvs⟩ := hz
  refine (seen_writeVersion (Q := fun _ z => z = y.set q ⟨v.isRoot, false, 0, .internode r₀⟩)
    fun c w hc hl _ _ _ => ?_).bind fun _ z hz => ?_
  · rw [Scene.face_set_self] at hc
    cases hc
    refine ⟨hleaf.trans hl.symm, hmig, ?_⟩
    rw [Scene.set_set, hvs]
    rfl
  subst hz
  refine (seen_clearRoot (Q := fun _ z => z = y.set q ⟨false, false, 0, .internode r₀⟩)
    fun c hc => ?_).bind fun _ z hz => ?_
  · rw [Scene.face_set_self] at hc
    cases hc
    rw [Scene.set_set]
  subst hz
  have hg' : (y.set q ⟨false, false, 0, .internode r₀⟩).face p = some g := by
    rw [Scene.face_set_of_ne hpq, hg]
  refine (seen_internodeSplitInto hg' hn Scene.face_set_self rfl hpq hmid (hp r₀) (hv r₀)).bind
    fun res z hz => ?_
  obtain ⟨rfl, rfl⟩ := hz
  refine tracks_ret ⟨r₀, hnone, h0, rfl, rfl, ?_⟩
  rw [Scene.set_set]
  rfl

end Programs

end Sidle.Masstree
