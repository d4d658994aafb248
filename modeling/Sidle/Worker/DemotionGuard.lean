import Sidle.Worker.DemotionLocks

/-!
# The guard of a demotion

An internal node is to be moved to remote memory only when it lies below the demotion depth
threshold and none of its children is local.  `need_continue_migrate` checks this, and a
migration that climbs from a node to its parent does not go on without it.  A demotion that
starts from an internal node is not checked at all: the check is made for
`has_migrated == 0`, and the call leaves `has_migrated` at `1`.

Here the executor runs without interference while it works on a task, and between two tasks
the tree may change in any way.

## Main definitions

* `Demotable` — the guard.
* `MovesGuarded` — every node that is moved to remote memory meets the guard.
* `StartsGuarded` — the demotions that start from an internal node meet it, or are turned
  away.

## Main results

* `safe_needContinueMigrate` — `need_continue_migrate` checks the guard.
* `guarded_migrateInternode`, `guarded_migrateLeaf` — a migration keeps to the guard.
* `moves_guarded` — **in a run whose demotions start guarded every move is guarded**.
-/

namespace Sidle.Worker

open Art Prog Trace

/-! ### The guard -/

/-- The slot that round `i` of `art_node_traverse` visits. -/
def visitedSlot (n : ArtNode) (i : ℕ) : Option ℕ :=
  match getNodeType n.version with
  | .node4 | .node16 => if i < getCount n.version then some i else none
  | .node48 =>
    if n.index (UInt8.ofNat i) ≠ 0 then some ((n.index (UInt8.ofNat i)).toNat - 1) else none
  | .node256 => if n.child i ≠ 0 then some i else none

/-- The memory type of the leaf or node that a pointer leads to. -/
def memType? (mem : Mem) (c : Ptr) : Option NodeMemType :=
  if Art.isLeaf c then (mem.leaf? (Art.getLeaf c)).map (·.metadata.type)
  else (mem.node? c).map (·.sidleMeta.type)

/-- The pointer leads to a leaf or node that is not local. -/
def NotLocal (mem : Mem) (c : Ptr) : Prop := ∃ type ∈ memType? mem c, type ≠ .local_

/-- The guard: the node lies below the demotion depth threshold, and none of its children is
local. -/
def Demotable (mem : Mem) (an : Addr) : Prop :=
  ∃ n, mem.node? an = some n ∧
    mem.global.threshold.demotionDepthThreshold < n.sidleMeta.depth ∧
    ∀ i < 256, ∀ j ∈ visitedSlot n i, NotLocal mem (n.child j)

/-- What an access is asked for: a node that is copied meets the guard. -/
def CopiesDemotable : {β : Type} → ArtOp β → Mem → Prop
  | _, .copy _ src _, mem => Demotable mem src
  | _, _, _ => True

/-- The program, which runs alone, copies only nodes that meet the guard. -/
abbrev Guarded (env : Env) {α : Type} (Q : α → Mem → Prop) (p : ArtM α) (mem : Mem) : Prop :=
  Safe env.machine.effects CopiesDemotable (fun _ => True) Q p mem

/-! ### Programs that only read -/

section Reading

variable {env : Env} {mem : Mem} {an : Addr} {n : ArtNode} {α : Type}

theorem guarded_load {β : Type} (f : NodeField β) :
    Guarded env (fun b mem' => mem' = mem ∧ ∃ n, mem.node? an = some n ∧ b = f.get n) (load an f)
      mem := by
  apply And.intro trivial
  intro b mem' hexec
  simp only [Machine.effects, Env.machine, Env.exec] at hexec
  split at hexec
  · split at hexec <;> cases hexec
    exact ⟨rfl, _, ‹_›, rfl⟩
  · cases hexec

theorem guarded_loadLeaf {β : Type} (f : LeafField β) :
    Guarded env (fun b mem' => mem' = mem ∧ ∃ l, mem.leaf? an = some l ∧ b = f.get l)
      (loadLeaf an f) mem := by
  apply And.intro trivial
  intro b mem' hexec
  simp only [Machine.effects, Env.machine, Env.exec] at hexec
  split at hexec
  · split at hexec <;> cases hexec
    exact ⟨rfl, _, ‹_›, rfl⟩
  · cases hexec

/-- The first part of a sequence when it only reads. -/
theorem Guarded.read {β : Type} {p : ArtM β} {h : β → ArtM α} {P : β → Prop}
    {Q : α → Mem → Prop} (hp : Guarded env (fun b mem' => mem' = mem ∧ P b) p mem)
    (hh : ∀ b, P b → Guarded env Q (h b) mem) : Guarded env Q (p >>= h) mem := by
  apply hp.bind
  intro b mem' hb
  rw [hb.1]
  exact hh b hb.2

/-- A loop over the children that ends without a stop has visited all of them. -/
theorem guarded_visitChildren (hn : mem.node? an = some n) {slotAt : ℕ → ArtM (Option ℕ)}
    {visit : ℕ → Ptr → ArtM Bool} {P : Ptr → Prop} (k i : ℕ)
    (hslot : ∀ x, i ≤ x → x < i + k →
      Guarded env (fun o mem' => mem' = mem ∧ o = visitedSlot n x) (slotAt x) mem)
    (hvisit : ∀ j c, Guarded env (fun b mem' => mem' = mem ∧ (b = true → P c)) (visit j c) mem) :
    Guarded env (fun b mem' => mem' = mem ∧
        (b = true → ∀ x, i ≤ x → x < i + k → ∀ j ∈ visitedSlot n x, P (n.child j)))
      (visitChildren an slotAt visit k i) mem := by
  induction k generalizing i with
  | zero => exact ⟨rfl, fun _ x hx hxk => absurd hxk (by omega)⟩
  | succ k ih =>
    have ih := ih (i + 1) fun x hx hxk => hslot x (by omega) (by omega)
    apply (hslot i (Nat.le_refl i) (by omega)).read
    intro slot hslot
    -- the first round, and then the others
    have hcombine (hfirst : ∀ j ∈ visitedSlot n i, P (n.child j)) {b : Bool}
        (hrest : b = true → ∀ x, i + 1 ≤ x → x < i + 1 + k → ∀ j ∈ visitedSlot n x, P (n.child j)) :
        b = true → ∀ x, i ≤ x → x < i + (k + 1) → ∀ j ∈ visitedSlot n x, P (n.child j) := by
      intro hb x hx hxk
      by_cases hxi : x = i
      · exact hxi ▸ hfirst
      · exact hrest hb x (by omega) (by omega)
    cases slot with
    | none =>
      apply ih.imp
      intro b mem' hb
      exact ⟨hb.1, hcombine (by simp [← hslot]) hb.2⟩
    | some j =>
      apply (guarded_load (.child j)).read
      rintro c ⟨n', hn', rfl⟩
      rw [hn] at hn'
      cases hn'
      apply (hvisit j (n.child j)).read
      intro goOn hgoOn
      apply safe_ite
      · intro hgo
        apply ih.imp
        intro b mem' hb
        refine ⟨hb.1, hcombine ?_ hb.2⟩
        intro j' hj'
        rw [← hslot] at hj'
        cases hj'
        exact hgoOn hgo
      · intro _
        exact ⟨rfl, fun h => by cases h⟩

theorem guarded_indexSlot (hn : mem.node? an = some n)
    (ht : getNodeType n.version = .node48) (i : ℕ) :
    Guarded env (fun o mem' => mem' = mem ∧ o = visitedSlot n i) (indexSlot an i) mem := by
  apply (guarded_load (.index (UInt8.ofNat i))).read
  rintro index ⟨n', hn', rfl⟩
  rw [hn] at hn'
  cases hn'
  refine ⟨rfl, ?_⟩
  rw [visitedSlot, ht]
  rfl

theorem guarded_occupiedSlot (hn : mem.node? an = some n) (ht : getNodeType n.version = .node256)
    (i : ℕ) :
    Guarded env (fun o mem' => mem' = mem ∧ o = visitedSlot n i) (occupiedSlot an i) mem := by
  apply (guarded_load (.child i)).read
  rintro c ⟨n', hn', rfl⟩
  rw [hn] at hn'
  cases hn'
  refine ⟨rfl, ?_⟩
  rw [visitedSlot, ht]
  rfl

/-- `art_node_traverse` visits all children of a node, unless it is stopped. -/
theorem guarded_artNodeTraverse (hn : mem.node? an = some n) {cb : Ptr → ArtM Bool} {P : Ptr → Prop}
    (hcb : ∀ c, Guarded env (fun b mem' => mem' = mem ∧ (b = true → P c)) (cb c) mem) :
    Guarded env (fun b mem' => mem' = mem ∧
      (b = true → ∀ i < 256, ∀ j ∈ visitedSlot n i, P (n.child j)))
        (artNodeTraverse an cb) mem := by
  have hload : Guarded env (fun v mem' => mem' = mem ∧ v = n.version) (load an .version) mem := by
    apply (guarded_load .version).imp
    rintro v mem' ⟨rfl, n', hn', rfl⟩
    rw [hn] at hn'
    cases hn'
    exact ⟨rfl, rfl⟩
  have hkeyed (ht : getNodeType n.version = .node4 ∨ getNodeType n.version = .node16) :
      Guarded env (fun b mem' => mem' = mem ∧
          (b = true → ∀ i < 256, ∀ j ∈ visitedSlot n i, P (n.child j)))
        (do
          let version ← load an .version
          visitChildren an (fun i => pure (some i)) (fun _ c => cb c) (getCount version)
            0) mem := by
    apply hload.read
    rintro v rfl
    have hslot (i : ℕ) : visitedSlot n i = if i < getCount n.version then some i else none := by
      cases ht with
      | inl ht => simp [visitedSlot, ht]
      | inr ht => simp [visitedSlot, ht]
    apply (guarded_visitChildren (P := P) hn (getCount n.version) 0 ?_ fun _ => hcb).imp
    · rintro b mem' ⟨rfl, hb⟩
      refine ⟨rfl, fun hbt i _ j hj => ?_⟩
      by_cases hi : i < getCount n.version
      · exact hb hbt i (Nat.zero_le i) (by omega) j hj
      · simp [hslot, hi] at hj
    · intro x _ hx
      exact ⟨rfl, by rw [hslot, if_pos (by omega)]⟩
  have hall (k : ℕ) (hk : k = 256) {b : Bool} {mem' : Mem} (h : mem' = mem ∧ (b = true →
      ∀ x, 0 ≤ x → x < 0 + k → ∀ j ∈ visitedSlot n x, P (n.child j))) :
      mem' = mem ∧ (b = true → ∀ i < 256, ∀ j ∈ visitedSlot n i, P (n.child j)) :=
    ⟨h.1, fun hb i hi => h.2 hb i (Nat.zero_le i) (by omega)⟩
  apply hload.read
  rintro v rfl
  split
  · exact hkeyed (Or.inl ‹_›)
  · exact hkeyed (Or.inr ‹_›)
  · exact (guarded_visitChildren hn 256 0 (fun x _ _ => guarded_indexSlot hn ‹_› x)
      fun _ => hcb).imp
      fun b mem' hb => hall 256 rfl hb
  · exact (guarded_visitChildren hn 256 0 (fun x _ _ => guarded_occupiedSlot hn ‹_› x)
      fun _ => hcb).imp
      fun b mem' hb => hall 256 rfl hb

theorem guarded_isLocalChild (fuel : ℕ) (c : Ptr) :
    Guarded env (fun b mem' => mem' = mem ∧ (b = false → NotLocal mem c))
      (isLocalChild (artOps env fuel) c) mem := by
  change Guarded env _ (if Art.isLeaf c = true then do
      let m ← loadLeaf (Art.getLeaf c) .metadata
      pure (decide (m.type = .local_))
    else do
      let m ← load c .sidleMeta
      pure (decide (m.type = .local_))) mem
  apply safe_ite
  · intro hc
    apply (guarded_loadLeaf .metadata).read
    rintro m ⟨l, hl, rfl⟩
    refine ⟨rfl, fun h => ⟨l.metadata.type, ?_, of_decide_eq_false h⟩⟩
    simp [memType?, hc, hl]
  · intro hc
    apply (guarded_load .sidleMeta).read
    rintro m ⟨n, hn, rfl⟩
    refine ⟨rfl, fun h => ⟨n.sidleMeta.type, ?_, of_decide_eq_false h⟩⟩
    simp [memType?, hc, hn]

/-- **`need_continue_migrate` checks the guard**, and a node that was popped is never delayed. -/
theorem guarded_needContinueMigrate (fuel : ℕ) (an : Addr) (hasMigrated : ℕ) :
    Guarded env (fun state mem' => mem' = mem ∧ (state = .proceed → Demotable mem an) ∧
        (hasMigrated = 0 → state ≠ .delay))
      (needContinueMigrate (artOps env fuel) an .remote hasMigrated) mem := by
  apply safe_ite
  · intro _
    exact ⟨rfl, by simp, by simp⟩
  · intro _
    apply (guarded_load .sidleMeta).read
    rintro m ⟨n, hn, rfl⟩
    have hthr : Guarded env (fun t mem' => mem' = mem ∧ t =
      mem.global.threshold.demotionDepthThreshold)
        (artOps env fuel).getDemotionDepthThreshold mem := by
      apply And.intro trivial
      intro b mem' hexec
      cases hexec
      exact ⟨rfl, rfl⟩
    apply hthr.read
    rintro t rfl
    apply (guarded_load .sidleMeta).read
    rintro m ⟨n', hn', rfl⟩
    rw [hn] at hn'
    cases hn'
    apply safe_ite
    · intro _
      exact ⟨rfl, by simp, by simp⟩
    · intro hdepth
      have hcb (c : Ptr) : Guarded env (fun b mem' => mem' = mem ∧ (b = true → NotLocal mem c)) (do
          let l ← isLocalChild (artOps env fuel) c
          pure !l) mem := by
        apply (guarded_isLocalChild fuel c).read
        intro l hl
        exact ⟨rfl, fun h => hl (by simpa using h)⟩
      apply (guarded_artNodeTraverse hn hcb).read
      intro noLocal hnoLocal
      refine ⟨rfl, ?_, ?_⟩
      · intro hstate
        cases noLocal with
        | true =>
          refine ⟨n, hn, ?_, hnoLocal rfl⟩
          have := (not_or.mp hdepth).1
          simp only [NodeField.get] at this
          omega
        | false => simp at hstate; split at hstate <;> cases hstate
      · intro h0
        simp only [h0, if_true]
        split <;> simp

end Reading

/-! ### Programs that do not copy -/

/-- The access is not a copy. -/
def NoCopy : {β : Type} → ArtOp β → Prop
  | _, .copy .. => False
  | _, _ => True

section NoCopy

variable {env : Env} {X : Fault → Prop} {mem : Mem} {α : Type}

theorem Quietly.noCopy {p : ArtM α} (hp : Quietly X p) : All NoCopy X p := by
  apply hp.imp
  · intro _ o ho
    cases o with
    | copy => exact absurd ho id
    | _ => trivial
  · intro _ he
    exact he

theorem noCopy_artNodeLock (fuel : ℕ) (an : Addr) : All NoCopy X (artNodeLock fuel an) := by
  induction fuel with
  | zero => trivial
  | succ fuel ih =>
    apply (all_lift trivial).bind
    intro version
    apply all_ite
    · exact ih
    · apply all_ite
      · exact all_pure 1
      · exact (all_lift trivial).bind fun ok => all_ite (all_pure 0) ih

theorem noCopy_artNodeUnlock (an : Addr) : All NoCopy X (artNodeUnlock an) :=
  (all_lift trivial).bind fun _ => all_lift trivial

theorem noCopy_artNodeGetLockedParent (fuel : ℕ) (an : Addr) :
    All NoCopy X (artNodeGetLockedParent fuel an) := by
  induction fuel with
  | zero => trivial
  | succ fuel ih =>
    apply (all_lift trivial).bind
    intro parent
    apply all_ite
    · exact all_pure 0
    · apply (noCopy_artNodeLock fuel parent).bind
      intro r
      apply all_ite
      · exact ih
      · apply (all_lift trivial).bind
        intro parent'
        apply all_ite
        · exact all_pure parent
        · exact (noCopy_artNodeUnlock parent).bind fun _ => ih

theorem noCopy_unlockNode (an : Addr) : All NoCopy X (unlockNode an) := by
  apply all_ite
  · exact all_pure ()
  · apply (all_lift trivial).bind
    intro v
    exact all_ite (noCopy_artNodeUnlock an) (all_pure ())

theorem noCopy_leafMigration (fuel : ℕ) (curNode parent : Addr) (t : NodeMemType) :
    All NoCopy (fun _ => True) (leafMigration env fuel curNode parent t) := by
  apply all_ite
  · exact all_pure 0
  · apply (quietly_loadLeaf curNode _).noCopy.bind
    intro m
    apply all_ite
    · exact all_pure 0
    · apply all_ite
      · trivial
      · apply (quietly_load parent _).noCopy.bind
        intro pv
        apply all_ite
        · exact all_pure 0
        · apply (noCopy_artNodeLock fuel parent).bind
          intro r
          apply all_ite
          · exact all_pure 0
          · apply (quietly_leafBytes trivial curNode).noCopy.bind
            intro key
            apply (quietly_allocLeaf env parent key t true).noCopy.bind
            intro newNodePtr
            apply (quietly_loadLeaf curNode _).noCopy.bind
            intro m
            apply (quietly_loadLeaf curNode _).noCopy.bind
            intro time
            apply (quietly_storeLeaf (getLeaf newNodePtr) .metadata m).noCopy.bind
            intro _
            apply (quietly_storeLeaf (getLeaf newNodePtr) .accessTime time).noCopy.bind
            intro _
            apply (quietly_loadLeaf (getLeaf newNodePtr) _).noCopy.bind
            intro m
            apply (quietly_storeLeaf (getLeaf newNodePtr) .metadata _).noCopy.bind
            intro _
            exact (quietly_replaceOldChildPtr trivial env.build parent _ _).noCopy.bind
              fun _ => all_pure _

/-- A program that does not copy has nothing to check. -/
theorem guarded_of_noCopy {p : ArtM α} (hp : All NoCopy (fun _ => True) p) :
    Guarded env (fun _ _ => True) p mem := by
  apply All.safe (I := fun _ => True) hp
  · intro _ o mem ho _
    cases o with
    | copy => exact absurd ho id
    | _ => trivial
  · intros
    trivial
  · trivial

end NoCopy

/-! ### What a migration leaves alone -/

/-- The blocks in use are as they were, and so is the demotion depth threshold. -/
structure Extends (mem mem' : Mem) : Prop where
  heap : ∀ a, mem.heap a ≠ none → mem'.heap a = mem.heap a
  threshold :
    mem'.global.threshold.demotionDepthThreshold = mem.global.threshold.demotionDepthThreshold

section Extends

variable {env : Env} {mem mem' : Mem} {an new_ : Addr} {n : ArtNode} {α : Type}

theorem Extends.refl (mem : Mem) : Extends mem mem := ⟨fun _ _ => rfl, rfl⟩

theorem Extends.node? (h : Extends mem mem') (hn : mem.node? an = some n) :
    mem'.node? an = some n := by
  rw [Mem.node?_congr (h.heap an (by simp [Mem.heap_of_node? hn])), hn]

theorem Extends.leaf? {l : LeafNode} (h : Extends mem mem') (hl : mem.leaf? an = some l) :
    mem'.leaf? an = some l := by
  rw [Mem.leaf?_congr (h.heap an (by simp [Mem.heap_of_leaf? hl])), hl]

theorem Extends.notLocal {c : Ptr} (h : Extends mem mem') (hc : NotLocal mem c) :
    NotLocal mem' c := by
  obtain ⟨type, htype, hlocal⟩ := hc
  refine ⟨type, ?_, hlocal⟩
  unfold memType? at htype ⊢
  split at htype
  · rename_i hleaf
    obtain ⟨l, hl, hm⟩ := Option.map_eq_some_iff.mp htype
    rw [if_pos hleaf, h.leaf? hl]
    exact congrArg some hm
  · rename_i hleaf
    obtain ⟨n, hn, hm⟩ := Option.map_eq_some_iff.mp htype
    rw [if_neg hleaf, h.node? hn]
    exact congrArg some hm

/-- A node that meets the guard goes on to meet it. -/
theorem Extends.demotable (h : Extends mem mem') (hd : Demotable mem an) : Demotable mem' an := by
  obtain ⟨n, hn, hdepth, hchildren⟩ := hd
  refine ⟨n, h.node? hn, by rw [h.threshold]; exact hdepth, fun i hi j hj => ?_⟩
  exact h.notLocal (hchildren i hi j hj)

/-- A write to a new block. -/
theorem Extends.setNode (h : Extends mem mem') (hnew : mem.heap new_ = none) :
    Extends mem (mem'.setNode new_ n) := by
  constructor
  · intro a ha
    have hne : a ≠ new_ := fun hae => ha (hae ▸ hnew)
    rw [Mem.setNode_heap, Function.update_of_ne hne, h.heap a ha]
  · exact h.threshold

theorem guarded_store_new {β : Type} (f : NodeField β) (x : β) (h : Extends mem mem')
    (hnew : mem.heap new_ = none) :
    Guarded env (fun _ mem'' => Extends mem mem'') (store new_ f x) mem' := by
  apply And.intro trivial
  intro b mem'' hexec
  simp only [Machine.effects, Env.machine, Env.exec] at hexec
  split at hexec
  · split at hexec <;> cases hexec
    exact h.setNode hnew
  · cases hexec

/-- A field of a node that meets the guard is copied to a new block. -/
theorem guarded_copyField {β : Type} (f : NodeField β) (hd : Demotable mem an)
    (hnew : mem.heap new_ = none) (h : Extends mem mem') :
    Guarded env (fun _ mem'' => Extends mem mem'') (copyField new_ an f) mem' := by
  apply And.intro (h.demotable hd)
  intro b mem'' hexec
  simp only [Machine.effects, Env.machine, Env.exec] at hexec
  split at hexec
  · split at hexec <;> cases hexec
    exact h.setNode hnew
  · cases hexec

theorem guarded_memcpyNode (t : NodeType) (hd : Demotable mem an) (hnew : mem.heap new_ = none)
    (h : Extends mem mem') :
    Guarded env (fun _ mem'' => Extends mem mem'') (memcpyNode new_ an t) mem' := by
  have hfield {β : Type} (f : NodeField β) (mem₁ : Mem) (h₁ : Extends mem mem₁) :
      Guarded env (fun _ mem'' => Extends mem mem'') (copyField new_ an f) mem₁ :=
    guarded_copyField f hd hnew h₁
  apply (hfield .version mem' h).bind
  intro _ mem₁ h₁
  apply (hfield .prefixes mem₁ h₁).bind
  intro _ mem₁ h₁
  apply (hfield .new_ mem₁ h₁).bind
  intro _ mem₁ h₁
  apply (hfield .parent mem₁ h₁).bind
  intro _ mem₁ h₁
  apply (hfield .sidleMeta mem₁ h₁).bind
  intro _ mem₁ h₁
  apply (safe_forRange 0 _ (fun i mem₂ _ _ h₂ => hfield (.key i) mem₂ h₂) h₁).bind
  intro _ mem₁ h₁
  have hchildren (mem₂ : Mem) (h₂ : Extends mem mem₂) :
      Guarded env (fun _ mem'' => Extends mem mem'')
        (forRange 0 t.capacity fun i => copyField new_ an (.child i)) mem₂ :=
    safe_forRange 0 _ (fun i mem₂ _ _ h₂ => hfield (.child i) mem₂ h₂) h₂
  apply safe_ite
  · intro _
    apply (safe_forRange 0 _ (fun i mem₂ _ _ h₂ => hfield (.index _) mem₂ h₂) h₁).bind
    intro _ mem₂ h₂
    exact hchildren mem₂ h₂
  · intro _
    exact hchildren mem₁ h₁

/-- The accounting of an internal node leaves the demotion depth threshold alone. -/
theorem demotionDepthThreshold_updateLocalMemoryUsage {g g' : Global} {sidleCheck : Bool}
    {status : ℤ → ℕ → MemUsageStatus} {type : NodeMemType} {depth : ℕ} {size : ℤ}
    {isMigration : Bool}
    (h : g.updateLocalMemoryUsage sidleCheck status type depth size isMigration false = some g') :
    g'.threshold.demotionDepthThreshold = g.threshold.demotionDepthThreshold := by
  have haccount : (g.accountLocalMemory type depth size isMigration false).threshold =
      g.threshold := by
    simp [Global.accountLocalMemory]
  unfold Global.updateLocalMemoryUsage at h
  simp only at h
  split at h
  · cases h
  · cases h
    rw [← haccount]
    unfold Global.reactToUsage
    split
    · rfl
    · split
      · rfl
      · split <;> rfl

/-- `_new_art_node` for a migration touches a new block only. -/
theorem guarded_newArtNode (t : NodeType) {type : NodeMemType} (htype : type ≠ .unknown)
    (hfresh : mem.Fresh env) :
    Guarded env (fun new_ mem' => mem.heap new_ = none ∧ Extends mem mem')
      (_newArtNode env t 0 0 type true) mem := by
  have halloc : Guarded env (fun new_ mem' => mem.heap new_ = none ∧ Extends mem mem')
      (sidleAllocNode env t 0 type true 0) mem := by
    have hdepth : childDepth 0 = pure 1 := if_pos rfl
    have hplace (depth : ℕ) : newNodeType 0 type depth = pure type := if_neg htype
    simp only [sidleAllocNode, hdepth, hplace, pure_eq_ret, ret_bind]
    apply And.intro trivial
    intro new_ mem₁ hexec
    cases hexec
    have hnew : mem.heap (env.addr mem.allocated) = none := Env.heap_addr hfresh
    have hext : Extends mem (env.mallocNode mem t) :=
      ⟨fun a ha => env.heap_mallocNode_of_ne t (hfresh.ne_of_heap ha), rfl⟩
    apply (guarded_store_new .sidleMeta _ hext hnew).bind
    intro _ mem₂ h₂
    have haccount : Guarded env (fun _ mem'' => Extends mem mem'')
        (accountAlloc env type 1 ((t.size : ℤ) - (0 : ℕ)) true false) mem₂ := by
      apply safe_ite
      · intro _
        apply And.intro trivial
        intro _ mem₃ hexec
        simp only [Machine.effects, Env.machine, Env.exec] at hexec
        split at hexec
        · rename_i g hg
          cases hexec
          obtain ⟨g', hg', heq⟩ := Option.map_eq_some_iff.mp hg
          cases heq
          exact ⟨h₂.heap, (demotionDepthThreshold_updateLocalMemoryUsage hg').trans h₂.threshold⟩
        · cases hexec
      · intro _
        exact h₂
    apply haccount.bind
    intro _ mem₃ h₃
    exact ⟨hnew, h₃⟩
  apply halloc.bind
  rintro new_ mem₁ ⟨hnew, h₁⟩
  apply (guarded_store_new .version 0 h₁ hnew).bind
  intro _ mem₂ h₂
  apply (guarded_store_new .new_ 0 h₂ hnew).bind
  intro _ mem₃ h₃
  apply (guarded_store_new .parent 0 h₃ hnew).bind
  intro _ mem₄ h₄
  exact ⟨hnew, h₄⟩

/-- The copy of a node that meets the guard. -/
theorem guarded_migrateCopy (fuel : ℕ) (v : Version) (hfresh : mem.Fresh env)
    (hd : Demotable mem an) :
    Guarded env (fun _ _ => True) (migrateCopy env fuel an .remote v) mem := by
  apply (guarded_newArtNode (getNodeType v) (by decide) hfresh).bind
  rintro new_ mem₁ ⟨hnew, h₁⟩
  apply (guarded_memcpyNode (getNodeType v) hd hnew h₁).bind
  intro _ mem₂ h₂
  apply guarded_of_noCopy
  apply (quietly_load new_ .sidleMeta).noCopy.bind
  intro m
  apply (quietly_store new_ .sidleMeta { m with type := .remote } trivial).noCopy.bind
  intro _
  apply (noCopy_artNodeGetLockedParent fuel an).bind
  intro parent
  apply (quietly_sidleCheck trivial env.build (all_pure _)).noCopy.bind
  intro _
  apply (quietly_replaceOldChildPtr trivial env.build parent an new_).noCopy.bind
  intro _
  apply (quietly_replaceOldParentPtr trivial env.build new_).noCopy.bind
  intro _
  apply (quietly_store an .new_ new_ trivial).noCopy.bind
  intro _
  apply (all_lift trivial : All NoCopy (fun _ => True) (store an .version (setOld v))).bind
  intro _
  apply (noCopy_artNodeUnlock an).bind
  intro _
  exact (noCopy_artNodeUnlock new_).bind fun _ => all_pure _

end Extends

/-! ### Migrations -/

section Migration

variable {env : Env} {mem : Mem} {an : Addr} {n : ArtNode}

theorem visitedSlot_setLock (v : Version) (hv : n.version = v) (i : ℕ) :
    visitedSlot { n with version := setLock v } i = visitedSlot n i := by
  have ht : getNodeType (setLock v) = getNodeType v := congrArg (·.type) (@view_setLock v)
  have hc : getCount (setLock v) = getCount v := congrArg (·.count) (@view_setLock v)
  simp only [visitedSlot, ht, hc, hv]

/-- Locking a node does not change whether it meets the guard. -/
theorem Demotable.setLock (hd : Demotable mem an) (hn : mem.node? an = some n) :
    Demotable (mem.setNode an { n with version := setLock n.version }) an := by
  obtain ⟨n', hn', hdepth, hchildren⟩ := hd
  rw [hn] at hn'
  cases hn'
  refine ⟨_, Mem.node?_setNode_self .., hdepth, fun i hi j hj => ?_⟩
  rw [visitedSlot_setLock n.version rfl] at hj
  obtain ⟨type, htype, hlocal⟩ := hchildren i hi j hj
  refine ⟨type, ?_, hlocal⟩
  unfold memType? at htype ⊢
  split at htype
  · rename_i hleaf
    obtain ⟨l, hl, hm⟩ := Option.map_eq_some_iff.mp htype
    have hne := (Mem.ne_of_node?_of_leaf? hn hl).symm
    rw [if_pos hleaf, Mem.leaf?_setNode_of_ne _ _ hne, hl]
    exact congrArg some hm
  · rename_i hleaf
    obtain ⟨n', hn', hm⟩ := Option.map_eq_some_iff.mp htype
    rw [if_neg hleaf]
    change (Mem.node? _ (n.child j)).map _ = some type
    by_cases hne : n.child j = an
    · rw [hne, hn] at hn'
      cases hn'
      rw [hne, Mem.node?_setNode_self]
      exact congrArg some hm
    · rw [Mem.node?_setNode_of_ne _ _ hne, hn']
      exact congrArg some hm

theorem guarded_artNodeLock (fuel : ℕ) (hd : Demotable mem an) :
    Guarded env (fun _ mem' => Demotable mem' an) (artNodeLock fuel an) mem := by
  induction fuel with
  | zero => trivial
  | succ fuel ih =>
    apply (guarded_load .version).read
    rintro v ⟨n, hn, rfl⟩
    apply safe_ite
    · intro _
      exact ih
    · intro _
      apply safe_ite
      · intro _
        exact hd
      · intro _
        apply And.intro trivial
        intro ok mem' hexec
        simp only [Machine.effects, Env.machine, Env.exec, hn] at hexec
        split at hexec
        · cases hexec
          exact hd.setLock hn
        · cases hexec
          exact ih

/-- The checks of `internode_migration` let pass only a node that no reason applies to. -/
theorem guarded_migratableVersion :
    Guarded env (fun v mem' => v.isSome = true → mem' = mem ∧ ∀ r : Reason, ¬ r.HoldsAt env mem an)
      (migratableVersion env an) mem := by
  have haway : Guarded env
      (fun v mem' => v.isSome = true → mem' = mem ∧ ∀ r : Reason, ¬ r.HoldsAt env mem an)
      (artNodeUnlock an >>= fun _ => (pure none : ArtM (Option Version))) mem := by
    apply (guarded_of_noCopy (noCopy_artNodeUnlock an)).bind
    intro _ mem' _ h
    cases h
  have hcheck {c : ArtM Bool} {P : Prop}
      (hc : Guarded env (fun b mem' => mem' = mem ∧ (b = true → P)) c mem) :
      Guarded env (fun _ mem' => mem' = mem ∧ (env.build.sidleCheck = true → P))
        (Art.sidleCheck env.build c) mem := by
    apply safe_ite
    · intro _
      apply hc.read
      intro b hb
      exact safe_ite (fun hbt => ⟨rfl, fun _ => hb hbt⟩) fun _ => trivial
    · intro h
      exact ⟨rfl, fun hs => absurd hs h⟩
  apply (guarded_load .version).read
  rintro v ⟨n, hn, rfl⟩
  have hread {β : Type} (f : NodeField β) :
      Guarded env (fun b mem' => mem' = mem ∧ b = f.get n) (load an f) mem := by
    apply (guarded_load f).imp
    rintro b mem' ⟨rfl, n', hn', rfl⟩
    rw [hn] at hn'
    cases hn'
    exact ⟨rfl, rfl⟩
  have hunlocked : Guarded env
      (fun b mem' => mem' = mem ∧ (b = true → isLocked n.version = false))
      (pure !isLocked n.version) mem := ⟨rfl, fun h => by simpa using h⟩
  apply (hcheck hunlocked).read
  intro _ hunlocked
  have hdepth : Guarded env (fun b mem' => mem' = mem ∧ (b = true → 1 < n.sidleMeta.depth)) (do
      let m ← load an .sidleMeta
      pure (decide (m.depth > 1))) mem := by
    apply (hread .sidleMeta).read
    rintro m rfl
    exact ⟨rfl, of_decide_eq_true⟩
  apply (hcheck hdepth).read
  intro _ hdepth
  apply safe_ite
  · intro _
    exact haway
  · intro hold
    apply (hread .parent).read
    rintro parent rfl
    apply safe_ite
    · intro _
      exact haway
    · intro hparent
      apply (hread .sidleMeta).read
      rintro m rfl
      apply safe_ite
      · intro _
        exact haway
      · -- no reason is left
        intro hm _
        refine ⟨rfl, fun r hr => ?_⟩
        obtain ⟨n', hn', hr⟩ := hr
        rw [hn] at hn'
        cases hn'
        cases r with
        | old => exact hold hr
        | parent =>
          apply hparent
          simp [NodeField.get, show isValidAddr n.parent = false from hr]
        | depth =>
          cases hr with
          | inl hr => exact hm hr
          | inr hr => exact absurd (hdepth hr.1) (by omega)
        | locked => exact absurd hr.2 (by simp [hunlocked hr.1])

/-- No access hands out a block that the allocator has not handed out. -/
theorem fresh_step {β : Type} (o : ArtOp β) (b : β) (mem mem' : Mem) (hfresh : mem.Fresh env)
    (hstep : env.machine.effects.step o b mem mem') : mem'.Fresh env :=
  hfresh.exec hstep

/-- `internode_migration` of a node that meets the guard, or that is turned away. -/
theorem guarded_internodeMigration (fuel : ℕ) (needLockFirst : Bool) (hfresh : mem.Fresh env)
    (h : Demotable mem an ∨ (needLockFirst = false ∧ ∃ r : Reason, r.HoldsAt env mem an)) :
    Guarded env (fun _ mem' => mem'.Fresh env)
      (internodeMigration env fuel an .remote needLockFirst) mem := by
  unfold internodeMigration
  extract_lets jp
  have hrest (mem₁ : Mem) (hfresh₁ : mem₁.Fresh env)
      (h₁ : Demotable mem₁ an ∨ ∃ r : Reason, r.HoldsAt env mem₁ an) :
      Guarded env (fun _ _ => True) (jp true) mem₁ := by
    apply guarded_migratableVersion.bind
    intro v mem₂ hv
    cases v with
    | none => trivial
    | some v =>
      obtain ⟨rfl, hreason⟩ := hv rfl
      exact guarded_migrateCopy fuel v hfresh₁ (h₁.resolve_right fun ⟨r, hr⟩ => hreason r hr)
  have hall : Guarded env (fun _ _ => True)
      (internodeMigration env fuel an .remote needLockFirst) mem := by
    cases needLockFirst with
    | false => exact hrest mem hfresh (h.imp_right fun h => h.2)
    | true =>
      have hd : Demotable mem an := h.resolve_right fun h => by cases h.1
      have hlock : Guarded env (fun _ mem' => Demotable mem' an) (lockFirst fuel an) mem := by
        apply (guarded_load .version).read
        intro v _
        apply safe_ite
        · intro _
          exact hd
        · intro _
          apply (guarded_artNodeLock fuel hd).bind
          intro r mem₁ h₁
          exact h₁
      apply (hlock.and_invariant fresh_step hfresh).bind
      intro ready mem₁ h₁
      apply safe_ite
      · intro _
        exact hrest mem₁ h₁.2 (Or.inl h₁.1)
      · intro _
        trivial
  exact (hall.and_invariant fresh_step hfresh).imp fun _ _ h => h.2

/-- The end of a program that has nothing to check. -/
theorem guarded_fresh_of_noCopy {α : Type} {p : ArtM α} (hp : All NoCopy (fun _ => True) p)
    (hfresh : mem.Fresh env) : Guarded env (fun _ mem' => mem'.Fresh env) p mem :=
  ((guarded_of_noCopy hp).and_invariant fresh_step hfresh).imp fun _ _ h => h.2

/-- **A migration keeps to the guard**, when the node that it starts from meets it or is turned
away, or is told to come from the queue. -/
theorem guarded_migrateInternode (fuel fuel' : ℕ) (ti : Addr) (hasMigrated : ℕ)
    (hfresh : mem.Fresh env)
    (h : hasMigrated = 0 ∨ Demotable mem an ∨ ∃ r : Reason, r.HoldsAt env mem an) :
    Guarded env (fun _ mem' => mem'.Fresh env)
      (migrateInternode (artOps env fuel) fuel' an .remote ti hasMigrated) mem := by
  induction fuel' generalizing an hasMigrated mem with
  | zero => trivial
  | succ fuel' ih =>
    have hcheck : Guarded env (fun _ mem' => mem' = mem ∧ True)
        ((artOps env fuel).sidleCheck (an != 0)) mem := by
      apply safe_ite
      · intro _
        exact safe_ite (fun _ => ⟨rfl, trivial⟩) fun _ => trivial
      · intro _
        exact ⟨rfl, trivial⟩
    apply hcheck.read
    intro _ _
    have hstopped : Guarded env
        (fun stopped mem' => mem' = mem ∧ (stopped = false → Demotable mem an ∨
          ((hasMigrated == 0 && NodeMemType.remote == .remote) = false ∧
            ∃ r : Reason, r.HoldsAt env mem an)))
        (stopsPopped (artOps env fuel) (hasMigrated == 0 && NodeMemType.remote == .remote) an
          .remote hasMigrated) mem := by
      apply safe_ite
      · intro h0
        apply (guarded_needContinueMigrate fuel an hasMigrated).read
        intro state hstate
        refine ⟨rfl, fun hstop => Or.inl (hstate.1 ?_)⟩
        have h0 : hasMigrated = 0 := by simpa using h0
        have hdelay := hstate.2 h0
        cases state with
        | proceed => rfl
        | stop => simp at hstop
        | delay => exact absurd rfl hdelay
      · intro h0
        refine ⟨rfl, fun _ => ?_⟩
        have h := h.resolve_left fun h => h0 (by simp [h])
        exact h.imp_right fun h => ⟨Bool.eq_false_iff.mpr h0, h⟩
    apply hstopped.read
    intro stopped hstopped
    apply safe_ite
    · intro _
      exact hfresh
    · intro hgo
      apply (guarded_internodeMigration fuel _ hfresh (hstopped (Bool.eq_false_iff.mpr hgo))).bind
      intro parent mem₁ hfresh₁
      apply safe_ite
      · intro _
        exact hfresh₁
      · intro _
        apply (guarded_needContinueMigrate fuel parent (hasMigrated + 1)).read
        intro state hstate
        refine Safe.bind (P := fun _ mem' => mem'.Fresh env) ?_
          fun _ mem₂ hfresh₂ => guarded_fresh_of_noCopy (noCopy_unlockNode parent) hfresh₂
        cases state with
        | proceed => exact ih (hasMigrated + 1) hfresh₁ (Or.inr (Or.inl (hstate.1 rfl)))
        | delay =>
          apply guarded_fresh_of_noCopy _ hfresh₁
          apply (quietly_sidleCheck trivial env.build (all_pure _)).noCopy.bind
          intro _
          exact (quietly_addDelayed env fuel parent).noCopy
        | stop => exact hfresh₁

/-- A migration that starts from a leaf keeps to the guard. -/
theorem guarded_migrateLeaf (fuel fuel' : ℕ) (cur parent ti : Addr) (hfresh : mem.Fresh env) :
    Guarded env (fun _ _ => True)
      (migrateLeaf (artOps env fuel) fuel' cur parent .remote ti) mem := by
  apply (guarded_fresh_of_noCopy (noCopy_leafMigration fuel cur parent .remote) hfresh).bind
  intro p mem₁ hfresh₁
  apply safe_ite
  · intro _
    trivial
  · intro _
    apply safe_ite
    · intro _
      apply (guarded_needContinueMigrate fuel p 1).read
      intro status hstatus
      apply safe_ite
      · intro hproceed
        apply (guarded_migrateInternode fuel fuel' ti 1 hfresh₁
          (Or.inr (Or.inl (hstatus.1 hproceed)))).imp
        intros
        trivial
      · intro _
        apply guarded_of_noCopy
        apply all_ite
        · exact (quietly_addDelayed env fuel p).noCopy.bind fun _ => noCopy_unlockNode p
        · exact noCopy_unlockNode p
    · intro h
      exact absurd rfl h

end Migration

/-! ### Runs -/

/-- Other threads change the tree only between two tasks. -/
def OthersBetween (env : Env) (s : DemotionState) (e : DemotionEvent) (s' : DemotionState) : Prop :=
  ∀ mem, e = .others mem → s.phase = .idle ∧ (s.mem.Fresh env → s'.mem.Fresh env)

/-- A demotion that starts from an internal node starts from one that meets the guard or is
turned away. -/
def StartsGuarded (env : Env) (_s : DemotionState) (e : DemotionEvent)
    (s' : DemotionState) : Prop :=
  ∀ fuel node, e = .start fuel → s'.DemotesInternode node →
    Demotable s'.mem node ∨ ∃ r : Reason, r.HoldsAt env s'.mem node

/-- A node that is being moved to remote memory meets the guard. -/
def MovesGuarded (s : DemotionState) : Prop := ∀ src, s.Copies src → Demotable s.mem src

/-- The invariant of a run: what is left of the program under way keeps to the guard. -/
structure GuardInvariant (env : Env) (s : DemotionState) : Prop where
  fresh : s.mem.Fresh env
  phase : match s.phase with
    | .idle => True
    | .choosing _ p => All NoCopy (fun _ => True) p
    | .migrating _ _ p => Guarded env (fun _ _ => True) p s.mem

section Runs

variable {env : Env} {s s' : DemotionState} {e : DemotionEvent}

theorem guarded_run (fuel : ℕ) (d : Demotion) {mem : Mem} (hfresh : mem.Fresh env)
    (hd : ∀ node, d = .internode node →
      Demotable mem node ∨ ∃ r : Reason, r.HoldsAt env mem node) :
    Guarded env (fun _ _ => True) (d.run env fuel) mem := by
  cases d with
  | nothing => trivial
  | internode node =>
    apply (guarded_migrateInternode fuel fuel 0 1 hfresh (Or.inr (hd node rfl))).imp
    intros
    trivial
  | leaf cur parent => exact guarded_migrateLeaf fuel fuel cur parent 0 hfresh

/-- **A step keeps the invariant**, when the demotions start guarded. -/
theorem GuardInvariant.step (h : GuardInvariant env s) (hstep : demotionStep env s e = some s')
    (hothers : OthersBetween env s e s') (hstarts : StartsGuarded env s e s') :
    GuardInvariant env s' := by
  obtain ⟨phase, map, mem, l⟩ := s
  obtain ⟨hfresh, hphase⟩ := h
  cases e with
  | take task fuel =>
    cases phase with
    | idle =>
      simp only [demotionStep, Option.ite_none_right_eq_some] at hstep
      obtain ⟨-, hstep⟩ := hstep
      cases hstep
      exact ⟨hfresh, (quietly_chooseDemotion fuel map task).noCopy⟩
    | choosing | migrating => cases hstep
  | access =>
    cases phase with
    | idle => cases hstep
    | choosing task p =>
      obtain ⟨⟨p', mem', l'⟩, haccess, rfl⟩ := Option.map_eq_some_iff.mp hstep
      obtain ⟨β, o, k, b, rfl, hexec, rfl, rfl⟩ := accessStep_eq_some haccess
      exact ⟨hfresh.exec hexec, hphase.2 b⟩
    | migrating task d p =>
      obtain ⟨⟨p', mem', l'⟩, haccess, rfl⟩ := Option.map_eq_some_iff.mp hstep
      obtain ⟨β, o, k, b, rfl, hexec, rfl, rfl⟩ := accessStep_eq_some haccess
      exact ⟨hfresh.exec hexec, hphase.2 b mem' hexec⟩
  | start fuel =>
    cases phase with
    | choosing task p =>
      cases p with
      | ret md =>
        cases hstep
        refine ⟨hfresh, guarded_run fuel md.2 hfresh ?_⟩
        intro node hd
        exact hstarts fuel node rfl ⟨task, _, by rw [hd]⟩
      | fail | diverge | op => cases hstep
    | idle | migrating => cases hstep
  | finish =>
    cases phase with
    | migrating task d p =>
      cases p with
      | ret =>
        cases hstep
        exact ⟨hfresh, trivial⟩
      | fail | diverge | op => cases hstep
    | idle | choosing => cases hstep
  | endRound =>
    cases phase with
    | idle =>
      cases hstep
      exact ⟨hfresh, trivial⟩
    | choosing | migrating => cases hstep
  | others mem' =>
    cases hstep
    obtain ⟨hidle, hfresh'⟩ := hothers mem' rfl
    cases hidle
    exact ⟨hfresh' hfresh, trivial⟩

theorem GuardInvariant.movesGuarded (h : GuardInvariant env s) : MovesGuarded s := by
  obtain ⟨phase, map, mem, l⟩ := s
  obtain ⟨-, hphase⟩ := h
  intro src hsrc
  cases phase with
  | idle => exact absurd hsrc id
  | choosing task p =>
    cases p with
    | op o k =>
      cases o with
      | copy => exact absurd hphase.1 id
      | _ => exact absurd hsrc id
    | _ => exact absurd hsrc id
  | migrating task d p =>
    cases p with
    | op o k =>
      cases o with
      | copy dst src' f =>
        obtain rfl : src' = src := hsrc
        exact hphase.1
      | _ => exact absurd hsrc id
    | _ => exact absurd hsrc id

/-- **In a run whose demotions start guarded every move is guarded**: when the executor moves
an internal node to remote memory, the node lies below the demotion depth threshold at that
moment and none of its children is local. -/
theorem moves_guarded {mem : Mem} (hmem : mem.Fresh env) {es : List DemotionEvent}
    (hothers : EachStep (demotionStep env) (OthersBetween env) (.initial mem) es)
    (hstarts : EachStep (demotionStep env) (StartsGuarded env) (.initial mem) es) :
    Always (demotionStep env) MovesGuarded (.initial mem) es := by
  have hboth : EachStep (demotionStep env)
      (fun s e s' => OthersBetween env s e s' ∧ StartsGuarded env s e s') (.initial mem) es :=
    fun before e after t u heq hrun hstep =>
      ⟨hothers before e after t u heq hrun hstep, hstarts before e after t u heq hrun hstep⟩
  have hall : Always (demotionStep env) (GuardInvariant env) (.initial mem) es :=
    always_of_eachStep ⟨hmem, trivial⟩ (fun t e u ht hstep hP => ht.step hstep hP.1 hP.2) hboth
  exact hall.imp fun t ht => ht.movesGuarded

end Runs

/-! ### The sample tree -/

instance (mem : Mem) (c : Ptr) : Decidable (NotLocal mem c) :=
  decidable_of_iff ((memType? mem c).any (· ≠ .local_) = true) (by
    simp [NotLocal, Option.any_eq_true])

instance (mem : Mem) (an : Addr) : Decidable (Demotable mem an) :=
  match h : mem.node? an with
  | none => isFalse fun ⟨_, hn, _⟩ => by simp [h] at hn
  | some n =>
    decidable_of_iff (mem.global.threshold.demotionDepthThreshold < n.sidleMeta.depth ∧
      ((List.range 256).all fun i => (visitedSlot n i).all fun j =>
        decide (NotLocal mem (n.child j))) = true) (by
        simp [Demotable, h, Option.all_eq_true])

/-- The node that a demotion started from meets the guard. -/
def DemotionState.startedGuarded (s : DemotionState) : Bool :=
  match s.phase with
  | .migrating _ (.internode node) _ => decide (Demotable s.mem node)
  | _ => true

theorem othersBetween_of_alone {env : Env} {s : DemotionState} {es : List DemotionEvent}
    (h : ∀ mem, .others mem ∉ es) : EachStep (demotionStep env) (OthersBetween env) s es := by
  intro before e after t u heq _ _ mem he
  rw [he] at heq
  exact absurd (heq ▸ List.mem_append_right before List.mem_cons_self) (h mem)

/-- In the sample tree the node `32` meets the guard when its last leaf is recorded. -/
theorem moves_guarded_of_coldTree :
    Always (demotionStep sampleEnv) MovesGuarded (.initial coldTree) (firstTask ++ secondTask) := by
  have hstarts : Always (demotionStep sampleEnv) (fun s => s.startedGuarded = true)
      (.initial coldTree) (firstTask ++ secondTask) := by decide +kernel
  apply moves_guarded coldTree_fresh (othersBetween_of_alone (by simp [firstTask, secondTask]))
  apply eachStep_of_always (P := StartsGuarded sampleEnv) hstarts
  intro t e u _ _ hu fuel node _ hnode
  obtain ⟨task, p, hp⟩ := hnode
  simp only [DemotionState.startedGuarded, hp] at hu
  exact Or.inl (of_decide_eq_true hu)

/-- The sample tree after the demotion depth threshold has grown to `2`, the depth of the
node `32`. -/
def shallowTree : Mem :=
  coldTree.setGlobal
    { coldTree.global with
      threshold := coldTree.global.threshold.adjustDemotionDepthThreshold false }

/-- **The two tasks move a node that lies at the demotion depth threshold.** -/
theorem shallowTree_moves_unguarded :
    PutRun sampleEnv 2 [([1, 1], 0), ([2, 1], 0), ([1, 2], 0)] layeredTree ∧
    EachStep (demotionStep sampleEnv) (OthersBetween sampleEnv) (.initial shallowTree)
      (firstTask ++ secondTask) ∧
    ¬ Always (demotionStep sampleEnv) MovesGuarded (.initial shallowTree)
      (firstTask ++ secondTask) := by
  refine ⟨putRun_layeredTree, othersBetween_of_alone (by simp [firstTask, secondTask]), ?_⟩
  intro hall
  have hrun : ((run (demotionStep sampleEnv) (.initial shallowTree) (firstTask ++ secondTask)).any
      fun t => decide (t.Copies 32 ∧ ¬ Demotable t.mem 32)) = true := by decide +kernel
  obtain ⟨t, ht, hmoves⟩ := (Option.any_eq_true _ _).mp hrun
  obtain ⟨hcopies, hguard⟩ := of_decide_eq_true hmoves
  exact hguard (hall.last ht 32 hcopies)

end Sidle.Worker
