import Sidle.Worker.Demotion

/-!
# The record of locks along a migration

The functions of the executors are followed on the record of locks alone, for whatever the
accesses answer; the memory comes in only where the record has to be true of it.  A function
that neither locks nor copies keeps the record, and what the others do to it is one lemma
for each of them.

## Main definitions

* `Truthful` — the record tells the truth about the memory.
* `lockEffects` — what an access does to the record, whatever the memory.
* `SafeLocks` — a program copies only from nodes that it has locked.
* `Quietly` — a program neither locks nor unlocks nor copies.

## Main results

* `Truthful.exec` — the record stays true.
* `safe_artNodeLock`, `safe_artNodeGetLockedParent`, … — the functions that lock.
* `safe_migrateCopy` — the copy of a node that the migration has locked.
* `safe_migrateInternode`, `safe_migrateLeaf` — a migration that has locked its node copies
  locked nodes only.
-/

namespace Sidle.Worker

open Art Prog

/-! ### The record and the memory -/

/-- The record tells the truth about the memory. -/
structure Truthful (env : Env) (mem : Mem) (l : Locks) : Prop where
  fresh : mem.Fresh env
  locked : ∀ a ∈ l.held, Locked mem a

/-- What the answer of an access says about the record. -/
def Possible : {β : Type} → ArtOp β → β → Locks → Prop
  | _, .casVersion an expected _, true, l => isLocked expected = false → an ∉ l.held
  | _, .mallocNode _, an, l => an ∉ l.held
  | _, _, _, _ => True

section Record

variable (l : Locks) (an dst src : Addr) (v : Version)

theorem Locks.mem_held_drop {a : Addr} : a ∈ (l.drop an).held ↔ a ≠ an ∧ a ∈ l.held := by
  simp only [Locks.held, Locks.drop, Finset.mem_union, Finset.mem_erase]
  tauto

theorem Locks.held_setVersion :
    (l.setVersion an v).held = if isLocked v then l.held else (l.drop an).held := by
  unfold Locks.setVersion
  split <;> split <;> rfl

theorem Locks.held_copyVersion :
    (l.copyVersion dst src).held = if src ∈
      l.held then insert dst l.held else (l.drop dst).held := by
  unfold Locks.copyVersion
  split
  · exact Finset.union_insert _ _ _
  · rfl

theorem Locks.held_own : ({ l with owned := insert an l.owned } : Locks).held = insert an l.held :=
  Finset.insert_union _ _ _

end Record

namespace Truthful

variable {env : Env} {mem mem' : Mem} {l : Locks} {a an : Addr} {n n' : ArtNode}

theorem isLocked (h : Truthful env mem l) (ha : a ∈ l.held) (hn : mem.node? a = some n) :
    Art.isLocked n.version = true := by
  obtain ⟨n', hn', hl⟩ := h.locked a ha
  rw [hn] at hn'
  cases hn'
  exact hl

/-- What a write to the node `an` leaves locked. -/
theorem locked_setNode (h : Truthful env mem l) (ha : a ∈ l.held)
    (hn' : a = an → Art.isLocked n'.version = true) : Locked (mem.setNode an n') a := by
  by_cases hae : a = an
  · subst hae
    exact ⟨n', Mem.node?_setNode_self .., hn' rfl⟩
  · obtain ⟨m, hm, hl⟩ := h.locked a ha
    exact ⟨m, by rw [Mem.node?_setNode_of_ne _ _ hae, hm], hl⟩

/-- The version word of a node is overwritten. -/
theorem locked_setVersion (h : Truthful env mem l)
    (ha : a ∈ (l.setVersion an n'.version).held) : Locked (mem.setNode an n') a := by
  rw [Locks.held_setVersion] at ha
  split at ha
  · exact h.locked_setNode ha fun _ => ‹_›
  · obtain ⟨hne, ha⟩ := (l.mem_held_drop an).mp ha
    exact h.locked_setNode ha fun hae => absurd hae hne

/-- A write that leaves the version word alone. -/
theorem locked_setNode_of_version (h : Truthful env mem l) (ha : a ∈ l.held)
    (hn : mem.node? an = some n) (hv : n'.version = n.version) : Locked (mem.setNode an n') a := by
  apply h.locked_setNode ha
  intro hae
  rw [hv]
  exact h.isLocked ha (hae ▸ hn)

/-- A change of the memory that leaves the blocks in use alone. -/
theorem locked_of_heap (h : Truthful env mem l) (ha : a ∈ l.held)
    (hheap : mem.heap a ≠ none → mem'.heap a = mem.heap a) : Locked mem' a := by
  obtain ⟨m, hm, hl⟩ := h.locked a ha
  refine ⟨m, ?_, hl⟩
  rw [Mem.node?_congr (hheap (by simp [Mem.heap_of_node? hm])), hm]

theorem casVersion {expected desired : Version} {b : Bool} (h : Truthful env mem l)
    (hexec : env.exec (.casVersion an expected desired) mem = .ok (b, mem')) :
    Possible (.casVersion an expected desired) b l ∧
      ∀ a ∈ (Locks.after (.casVersion an expected desired) b l).held, Locked mem' a := by
  simp only [Env.exec] at hexec
  split at hexec
  case h_2 => cases hexec
  case h_1 n hn =>
    split at hexec <;> cases hexec
    case isFalse => exact ⟨trivial, h.locked⟩
    case isTrue hv =>
      have hfree (hul : Art.isLocked expected = false) : an ∉ l.held := by
        intro ha
        have hl := h.isLocked ha hn
        rw [hv, hul] at hl
        cases hl
      refine ⟨hfree, fun a ha => ?_⟩
      simp only [Locks.after] at ha
      split at ha
      · exact h.locked_setVersion ha
      · rename_i hul
        have hne (ha : a ∈ l.held) : a ≠ an := fun hae =>
          hfree (Bool.eq_false_iff.mpr hul) (hae ▸ ha)
        split at ha
        · rw [Locks.held_own, Finset.mem_insert] at ha
          cases ha with
          | inl hae => exact ⟨_, by rw [hae]; exact Mem.node?_setNode_self .., ‹_›⟩
          | inr ha => exact h.locked_setNode ha fun hae => absurd hae (hne ha)
        · exact h.locked_setNode ha fun hae => absurd hae (hne ha)

theorem copy {β : Type} {dst src : Addr} {f : NodeField β} {b : Unit} (h : Truthful env mem l)
    (hexec : env.exec (.copy dst src f) mem = .ok (b, mem')) :
    ∀ a ∈ (Locks.after (.copy dst src f) b l).held, Locked mem' a := by
  simp only [Env.exec] at hexec
  split at hexec
  case h_2 => cases hexec
  case h_1 n m hn hm =>
    split at hexec <;> cases hexec
    intro a ha
    cases f with
    | version =>
      have ha : a ∈ (l.copyVersion dst src).held := ha
      rw [Locks.held_copyVersion] at ha
      split at ha
      case isTrue hsrc =>
        rw [Finset.mem_insert] at ha
        by_cases hae : a = dst
        · have hl := h.isLocked hsrc hn
          rw [hae]
          exact ⟨_, Mem.node?_setNode_self .., hl⟩
        · exact h.locked_setNode (ha.resolve_left hae) fun h => absurd h hae
      case isFalse =>
        obtain ⟨hne, ha⟩ := (l.mem_held_drop dst).mp ha
        exact h.locked_setNode ha fun hae => absurd hae hne
    | _ => exact h.locked_setNode_of_version (show a ∈ l.held from ha) hm rfl

/-- **What the record says of an access is true, and it stays true.** -/
theorem exec {β : Type} {o : ArtOp β} {b : β} (h : Truthful env mem l)
    (hexec : env.exec o mem = .ok (b, mem')) :
    Possible o b l ∧ Truthful env mem' (Locks.after o b l) := by
  have hfresh : mem'.Fresh env := h.fresh.exec hexec
  suffices hs : Possible o b l ∧ ∀ a ∈ (Locks.after o b l).held, Locked mem' a from
    ⟨hs.1, hfresh, hs.2⟩
  cases o with
  | loadRoot | storeRoot =>
    cases hexec
    exact ⟨trivial, h.locked⟩
  | casRoot =>
    simp only [Env.exec] at hexec
    split at hexec <;> (cases hexec; exact ⟨trivial, h.locked⟩)
  | load | loadLeaf =>
    simp only [Env.exec] at hexec
    split at hexec
    · split at hexec <;> cases hexec
      exact ⟨trivial, h.locked⟩
    · cases hexec
  | onGlobal =>
    simp only [Env.exec] at hexec
    split at hexec <;> cases hexec
    exact ⟨trivial, h.locked⟩
  | storeLeaf =>
    simp only [Env.exec] at hexec
    split at hexec
    · split at hexec <;> cases hexec
      refine ⟨trivial, fun a ha => ?_⟩
      obtain ⟨m, hm, hl⟩ := h.locked a ha
      have hne := Mem.ne_of_node?_of_leaf? hm ‹_›
      exact ⟨m, by rw [Mem.node?_setLeaf_of_ne _ _ hne, hm], hl⟩
    · cases hexec
  | mallocLeaf len =>
    cases hexec
    refine ⟨trivial, fun a ha => h.locked_of_heap ha fun hne => ?_⟩
    exact env.heap_mallocLeaf_of_ne len (h.fresh.ne_of_heap hne)
  | mallocNode t =>
    cases hexec
    constructor
    · intro ha
      obtain ⟨m, hm, -⟩ := h.locked _ ha
      exact h.fresh.ne_of_node? hm rfl
    · intro a ha
      exact h.locked_of_heap ha fun hne => env.heap_mallocNode_of_ne t (h.fresh.ne_of_heap hne)
  | free an =>
    simp only [Env.exec] at hexec
    split at hexec <;> cases hexec
    refine ⟨trivial, fun a ha => ?_⟩
    obtain ⟨hne, ha⟩ := (l.mem_held_drop an).mp ha
    exact h.locked_of_heap ha fun _ => Function.update_of_ne hne _ _
  | store an f x =>
    simp only [Env.exec] at hexec
    split at hexec
    case h_2 => cases hexec
    case h_1 n hn =>
      split at hexec <;> cases hexec
      refine ⟨trivial, fun a ha => ?_⟩
      cases f with
      | version => exact h.locked_setVersion ha
      | _ => exact h.locked_setNode_of_version (show a ∈ l.held from ha) hn rfl
  | casVersion => exact h.casVersion hexec
  | copy => exact ⟨trivial, h.copy hexec⟩

end Truthful

/-! ### Programs and the record -/

/-- Restrictions on what the accesses answer. -/
structure Answers where
  allow : {β : Type} → ArtOp β → β → Prop

/-- The accesses may answer anything. -/
def Answers.any : Answers := ⟨fun _ _ => True⟩

/-- What an access does to the record, whatever the memory holds. -/
def lockEffects (A : Answers) : Effects ArtOp Locks :=
  ⟨fun o b l l' => A.allow o b ∧ Possible o b l ∧ l' = Locks.after o b l⟩

/-- All originals that are not yet old are locked by the migration itself. -/
def Locks.Orderly (l : Locks) : Prop := l.copied ⊆ l.owned

/-- The access copies from nodes only that the migration has locked, and does not unlock an
original that is not yet old. -/
def LocksFirst {β : Type} (o : ArtOp β) (l : Locks) : Prop :=
  (∀ src, CopiesFrom src (lift o : ArtM β) → src ∈ l.owned) ∧
    (l.Orderly → ∀ b, (Locks.after o b l).Orderly)

/-- The program meets its obligations and leaves the record as `Q` says. -/
abbrev SafeLocks (A : Answers) {α : Type} (Q : α → Locks → Prop) (p : ArtM α) (l : Locks) : Prop :=
  Safe (lockEffects A) LocksFirst (fun _ => True) Q p l

/-- The access is neither a write to a version word nor a copy nor the release of a node. -/
def Quiet : {β : Type} → ArtOp β → Prop
  | _, .store _ .version _ => False
  | _, .casVersion .. => False
  | _, .copy .. => False
  | _, .free _ => False
  | _, _ => True

section Quietly

variable {A : Answers} {X : Fault → Prop} {α β : Type} {l : Locks}

theorem Quiet.after {o : ArtOp β} (h : Quiet o) (b : β) (l : Locks) : Locks.after o b l = l := by
  cases o with
  | store an f x => cases f <;> first | rfl | exact absurd h id
  | casVersion | copy | free => exact absurd h id
  | _ => rfl

theorem Quiet.locksFirst {o : ArtOp β} (h : Quiet o) (l : Locks) : LocksFirst o l := by
  constructor
  · intro src hsrc
    cases o with
    | copy => exact absurd h id
    | _ => exact absurd hsrc id
  · intro hl b
    rwa [h.after]

/-- The program neither locks nor unlocks nor copies. -/
abbrev Quietly (X : Fault → Prop) (p : ArtM α) : Prop := All Quiet X p

/-- The rest of a sequence after a program that leaves the record alone. -/
theorem Quietly.then {p : ArtM β} {h : β → ArtM α} {Q : α → Locks → Prop}
    (hp : Quietly (fun _ => True) p)
    (hh : ∀ b, SafeLocks A Q (h b) l) : SafeLocks A Q (p >>= h) l := by
  have hkeeps : SafeLocks A (fun _ l' => l' = l) p l := by
    apply All.safe (I := fun l' => l' = l) hp
    · intro _ o l' ho _
      exact ho.locksFirst l'
    · intro _ o b l' l'' ho hl' hstep
      rw [hstep.2.2, ho.after, hl']
    · rfl
  apply hkeeps.bind
  intro b l' hl'
  rw [hl']
  exact hh b

/-- A program that leaves the record alone. -/
theorem Quietly.keeps {p : ArtM α} (hp : Quietly (fun _ => True) p) (l : Locks) :
    SafeLocks A (fun _ l' => l' = l) p l := by
  have h : SafeLocks A (fun _ l' => l' = l) (p >>= ret) l := hp.then fun _ => rfl
  rwa [bind_ret] at h

theorem quietly_load (an : Addr) (f : NodeField α) : Quietly X (load an f) := all_lift trivial

theorem quietly_loadLeaf (a : Addr) (f : LeafField α) : Quietly X (loadLeaf a f) := all_lift trivial

theorem quietly_storeLeaf (a : Addr) (f : LeafField α) (x : α) : Quietly X (storeLeaf a f x) :=
  all_lift trivial

theorem quietly_store (an : Addr) (f : NodeField α) (x : α) (h : Quiet (.store an f x)) :
    Quietly X (store an f x) := all_lift h

theorem quietly_onGlobal (f : Global → Option (α × Global)) : Quietly X (lift (.onGlobal f)) :=
  all_lift trivial

theorem quietly_sidleCheck (hX : X .thrown) (build : Build) {c : ArtM Bool} (hc : Quietly X c) :
    Quietly X (Art.sidleCheck build c) := by
  apply all_ite
  · exact hc.bind fun b => all_ite (all_pure ()) hX
  · exact all_pure ()

theorem quietly_visitChildren {an : Addr} {slotAt : ℕ → ArtM (Option ℕ)}
    {visit : ℕ → Ptr → ArtM Bool}
    (hslot : ∀ i, Quietly X (slotAt i)) (hvisit : ∀ j c, Quietly X (visit j c)) (n i : ℕ) :
    Quietly X (visitChildren an slotAt visit n i) := by
  induction n generalizing i with
  | zero => exact all_pure true
  | succ n ih =>
    apply (hslot i).bind
    intro slot
    cases slot with
    | none => exact ih (i + 1)
    | some j =>
      apply (quietly_load an _).bind
      intro c
      apply (hvisit j c).bind
      intro goOn
      exact all_ite (ih (i + 1)) (all_pure false)

theorem quietly_indexSlot (an : Addr) (i : ℕ) : Quietly X (indexSlot an i) :=
  (quietly_load an _).bind fun _ => all_pure _

theorem quietly_occupiedSlot (an : Addr) (i : ℕ) : Quietly X (occupiedSlot an i) :=
  (quietly_load an _).bind fun _ => all_pure _

theorem quietly_artNodeTraverse (an : Addr) {cb : Ptr → ArtM Bool} (hcb : ∀ c, Quietly X (cb c)) :
    Quietly X (artNodeTraverse an cb) := by
  apply (quietly_load an _).bind
  intro version
  split
  · exact (quietly_load an _).bind
      fun _ => quietly_visitChildren (fun _ => all_pure _) (fun _ => hcb) _ _
  · exact (quietly_load an _).bind
      fun _ => quietly_visitChildren (fun _ => all_pure _) (fun _ => hcb) _ _
  · exact quietly_visitChildren (quietly_indexSlot an) (fun _ => hcb) _ _
  · exact quietly_visitChildren (quietly_occupiedSlot an) (fun _ => hcb) _ _

theorem quietly_replaceOldChildPtr (hX : X .thrown) (build : Build) (parent : Addr)
    (oldChild newChild : Ptr) :
    Quietly X (replaceOldChildPtr build parent oldChild newChild) := by
  have hredirect (j : ℕ) (c : Ptr) : Quietly X (if c = oldChild then do
      store parent (.child j) newChild
      pure false
    else pure true) :=
    all_ite ((quietly_store parent (.child j) newChild trivial).bind fun _ => all_pure _)
      (all_pure _)
  apply (quietly_sidleCheck hX build (all_pure _)).bind
  intro _
  apply (quietly_load parent _).bind
  intro version
  apply (quietly_load parent _).bind
  intro version'
  have hall (n i : ℕ) : Quietly X (visitChildren parent (fun i => pure (some i)) _ n i) :=
    quietly_visitChildren (fun i => all_pure (some i)) hredirect n i
  split
  · exact (hall _ _).bind fun _ => all_pure _
  · exact (hall _ _).bind fun _ => all_pure _
  · exact (quietly_visitChildren (quietly_indexSlot parent) hredirect _ _).bind fun _ => all_pure _
  · exact (hall _ _).bind fun _ => all_pure _

theorem quietly_replaceOldParentPtr (hX : X .thrown) (build : Build) (curNode : Addr) :
    Quietly X (replaceOldParentPtr build curNode) := by
  apply (quietly_sidleCheck hX build (all_pure _)).bind
  intro _
  refine All.bind (quietly_artNodeTraverse curNode fun child => ?_) fun _ => all_pure _
  exact all_ite (all_pure true)
    ((quietly_store child .parent curNode trivial).bind fun _ => all_pure _)

theorem quietly_childDepth (parent : Addr) : Quietly X (childDepth parent) :=
  all_ite (all_pure 1) ((quietly_load parent _).bind fun _ => all_pure _)

theorem quietly_newNodeType (parent : Addr) (targetType : NodeMemType) (curDepth : ℕ) :
    Quietly X (newNodeType parent targetType curDepth) := by
  apply all_ite
  · apply all_ite
    · exact (all_pure _).bind fun _ => quietly_onGlobal _
    · exact (quietly_load parent _).bind fun _ => quietly_onGlobal _
  · exact all_pure _

theorem quietly_accountAlloc (env : Env) (type : NodeMemType) (curDepth : ℕ) (size : ℤ)
    (isMigration isLeaf : Bool) :
    Quietly X (accountAlloc env type curDepth size isMigration isLeaf) :=
  all_ite (quietly_onGlobal _) (all_pure ())

theorem quietly_allocLeaf (env : Env) (parent : Addr) (key : Key) (targetType : NodeMemType)
    (isMigration : Bool) : Quietly X (allocLeaf env parent key targetType isMigration) := by
  apply (quietly_childDepth parent).bind
  intro curDepth
  apply (quietly_newNodeType parent targetType curDepth).bind
  intro type
  apply (all_lift (show Quiet (.mallocLeaf key.length) from trivial)).bind
  intro node
  apply (quietly_storeLeaf node .metadata _).bind
  intro _
  apply (quietly_storeLeaf node .accessTime _).bind
  intro _
  apply (quietly_accountAlloc env type curDepth _ isMigration true).bind
  intro _
  apply (quietly_storeLeaf node .keyLength _).bind
  intro _
  exact (quietly_storeLeaf node .keys _).bind fun _ => all_pure _

theorem quietly_leafBytes (hX : X .badAccess) (leaf : Addr) : Quietly X (leafBytes leaf) := by
  apply (quietly_loadLeaf leaf _).bind
  intro len
  apply (quietly_loadLeaf leaf _).bind
  intro bytes
  exact all_ite (all_pure _) hX

theorem quietly_isLocalChild (env : Env) (fuel : ℕ) (child : Ptr) :
    Quietly X (isLocalChild (artOps env fuel) child) := by
  apply (all_pure _).bind
  intro leaf
  cases leaf with
  | true => exact (quietly_loadLeaf _ _).bind fun _ => all_pure _
  | false => exact (quietly_load _ _).bind fun _ => all_pure _

theorem quietly_needContinueMigrate (env : Env) (fuel : ℕ) (node : Addr) (targetType : NodeMemType)
    (hasMigrated : ℕ) :
    Quietly X (needContinueMigrate (artOps env fuel) node targetType hasMigrated) := by
  apply all_ite
  · exact all_pure _
  · cases targetType with
    | remote =>
      apply (quietly_load node _).bind
      intro m
      apply (quietly_onGlobal _).bind
      intro threshold
      apply (quietly_load node _).bind
      intro m'
      apply all_ite
      · exact all_pure _
      · refine All.bind (quietly_artNodeTraverse node fun child => ?_) fun _ => all_pure _
        exact (quietly_isLocalChild env fuel child).bind fun _ => all_pure _
    | local_ => exact (quietly_load node _).bind fun _ => all_pure _
    | unknown | debug => exact all_pure _

theorem quietly_addDelayed (env : Env) (fuel : ℕ) (node : Addr) :
    Quietly X (addDelayed (artOps env fuel) node) := quietly_onGlobal _

theorem quietly_findFirstLocalAncestor (fuel : ℕ) (map : DemotionMap) (node child : Addr) :
    Quietly X (findFirstLocalAncestor fuel map node child) := by
  induction fuel generalizing node child with
  | zero => exact all_diverge
  | succ fuel ih =>
    apply all_ite
    · exact all_pure _
    · apply (quietly_load node _).bind
      intro v
      apply all_ite
      · exact all_pure _
      · apply (quietly_load node _).bind
        intro m
        apply all_ite
        · exact all_pure _
        · exact (quietly_load node _).bind fun parent => ih parent node

theorem quietly_chooseDemotion (fuel : ℕ) (map : DemotionMap) (task : Task) :
    Quietly X (chooseDemotion fuel map task) := by
  apply all_ite
  · exact all_pure _
  · apply all_ite
    · exact all_pure _
    · apply (quietly_loadLeaf _ _).bind
      intro m
      exact all_ite (quietly_findFirstLocalAncestor fuel map _ _) (all_pure _)

end Quietly

/-! ### Locking and unlocking -/

section Locking

variable {A : Answers} {l : Locks} {an : Addr}

/-- The record after the migration has locked `an`. -/
def Locks.own (l : Locks) (an : Addr) : Locks := { l with owned := insert an l.owned }

theorem Locks.setVersion_of_unlocked {v : Version} (hv : isLocked v = false) (h : an ∉ l.copied) :
    l.setVersion an v = l.drop an := by
  have hcopied : (l.drop an).copied.erase an = (l.drop an).copied := Finset.erase_eq_of_notMem h
  simp [Locks.setVersion, hv, hcopied]

theorem isLocked_setLock (v : Version) : isLocked (setLock v) = true :=
  congrArg (·.locked) (@view_setLock v)

theorem isLocked_unlockedVersion (v : Version) : isLocked (unlockedVersion v) = false :=
  congrArg (·.locked) (@view_unsetLock _)

theorem Locks.after_casVersion {expected desired : Version} (he : isLocked expected = false)
    (hd : isLocked desired = true) :
    Locks.after (.casVersion an expected desired) true l = l.own an := by
  simp [Locks.after, he, hd, Locks.own]

theorem Locks.drop_own (h : an ∉ l.held) : (l.own an).drop an = l := by
  have h₁ : an ∉ l.owned := fun ha => h (Finset.mem_union_left _ ha)
  have h₂ : an ∉ l.inherited := fun ha => h (Finset.mem_union_right _ ha)
  simp [Locks.own, Locks.drop, Finset.erase_insert h₁, Finset.erase_eq_of_notMem h₂]

/-- `art_node_lock` locks the node, or does nothing to the record. -/
theorem safe_artNodeLock (fuel : ℕ) (l : Locks) :
    SafeLocks A (fun r l' => (r = 0 ∧ an ∉ l.held ∧ l' = l.own an) ∨ (r ≠ 0 ∧ l' = l))
      (artNodeLock fuel an) l := by
  induction fuel with
  | zero => trivial
  | succ fuel ih =>
    apply (quietly_load an _).then
    intro version
    apply safe_ite
    · intro _
      exact ih
    · intro hul
      have hul : isLocked version = false := Bool.eq_false_iff.mpr hul
      apply safe_ite
      · intro _
        exact Or.inr ⟨Nat.one_ne_zero, rfl⟩
      · intro _
        refine ⟨⟨fun _ h => absurd h id, ?_⟩, ?_⟩
        · intro hl b
          cases b with
          | false => exact hl
          | true =>
            rw [Locks.after_casVersion hul (isLocked_setLock version)]
            exact hl.trans (Finset.subset_insert _ _)
        · intro ok l' hstep
          obtain ⟨-, hpos, rfl⟩ := hstep
          cases ok with
          | false => exact ih
          | true =>
            exact Or.inl ⟨rfl, hpos hul, Locks.after_casVersion hul (isLocked_setLock version)⟩

/-- `art_node_unlock` takes the node off the record. -/
theorem safe_artNodeUnlock (h : an ∉ l.copied) :
    SafeLocks A (fun _ l' => l' = l.drop an) (artNodeUnlock an) l := by
  apply (quietly_load an _).then
  intro version
  have hafter : l.setVersion an (unlockedVersion version) = l.drop an :=
    Locks.setVersion_of_unlocked (isLocked_unlockedVersion version) h
  refine ⟨⟨fun _ h => absurd h id, ?_⟩, ?_⟩
  · intro hl _
    change (l.setVersion an (unlockedVersion version)).Orderly
    rw [hafter]
    intro a ha
    exact Finset.mem_erase.mpr ⟨fun hae => h (hae ▸ ha), hl ha⟩
  · intro _ l' hstep
    exact hstep.2.2.trans hafter

/-- `art_node_get_locked_parent` answers a node that it has locked, or null. -/
theorem safe_artNodeGetLockedParent (fuel : ℕ) (hl : l.Orderly) :
    SafeLocks A (fun p l' => (p = 0 ∧ l' = l) ∨ (p ∉ l.held ∧ l' = l.own p))
      (artNodeGetLockedParent fuel an) l := by
  induction fuel with
  | zero => trivial
  | succ fuel ih =>
    apply (quietly_load an _).then
    intro parent
    apply safe_ite
    · intro _
      exact Or.inl ⟨rfl, rfl⟩
    · intro _
      apply (safe_artNodeLock fuel l).bind
      intro r l₁ hr
      apply safe_ite
      · intro hr0
        obtain ⟨-, rfl⟩ := hr.resolve_left fun h => hr0 h.1
        exact ih
      · intro hr0
        obtain ⟨-, hfree, rfl⟩ := hr.resolve_right fun h => hr0 h.1
        apply (quietly_load an _).then
        intro parent'
        apply safe_ite
        · intro _
          exact Or.inr ⟨hfree, rfl⟩
        · intro _
          -- the node has got another parent meanwhile
          have hcopied : parent ∉ (l.own parent).copied := fun h =>
            hfree (Finset.mem_union_left _ (hl h))
          apply (safe_artNodeUnlock hcopied).bind
          intro _ l₂ hl₂
          rw [hl₂, Locks.drop_own hfree]
          exact ih

/-- `leaf_migration` answers the parent, which it has locked, or null. -/
theorem safe_leafMigration (env : Env) (fuel : ℕ) (curNode parent : Addr) (t : NodeMemType) :
    SafeLocks A (fun p l' => (p = 0 ∧ l' = l) ∨ (p ∉ l.held ∧ l' = l.own p))
      (leafMigration env fuel curNode parent t) l := by
  have hnull : SafeLocks A (fun p l' => (p = 0 ∧ l' = l) ∨ (p ∉ l.held ∧ l' = l.own p))
      (pure 0 : ArtM Addr) l := Or.inl ⟨rfl, rfl⟩
  apply safe_ite
  · intro _
    exact hnull
  · intro _
    apply (quietly_loadLeaf curNode _).then
    intro m
    apply safe_ite
    · intro _
      exact hnull
    · intro _
      apply safe_ite
      · intro _
        trivial
      · intro _
        apply (quietly_load parent _).then
        intro pv
        apply safe_ite
        · intro _
          exact hnull
        · intro _
          apply (safe_artNodeLock fuel l).bind
          intro r l₁ hr
          apply safe_ite
          · intro hr0
            obtain ⟨-, rfl⟩ := hr.resolve_left fun h => hr0 h.1
            exact hnull
          · intro hr0
            obtain ⟨-, hfree, rfl⟩ := hr.resolve_right fun h => hr0 h.1
            apply (quietly_leafBytes trivial curNode).then
            intro key
            apply (quietly_allocLeaf env parent key t true).then
            intro newNodePtr
            apply (quietly_loadLeaf curNode _).then
            intro m
            apply (quietly_loadLeaf curNode _).then
            intro time
            apply (quietly_storeLeaf (getLeaf newNodePtr) .metadata m).then
            intro _
            apply (quietly_storeLeaf (getLeaf newNodePtr) .accessTime time).then
            intro _
            apply (quietly_loadLeaf (getLeaf newNodePtr) _).then
            intro m
            apply (quietly_storeLeaf (getLeaf newNodePtr) .metadata _).then
            intro _
            apply (quietly_replaceOldChildPtr trivial env.build parent _ _).then
            intro _
            exact Or.inr ⟨hfree, rfl⟩

/-- The checks of `internode_migration` unlock a node that is not to be copied. -/
theorem safe_migratableVersion (env : Env) (h : an ∉ l.copied) :
    SafeLocks A (fun v l' => l' = if v.isSome then l else l.drop an)
      (migratableVersion env an) l := by
  have haway : SafeLocks A (fun v l' => l' = if v.isSome then l else l.drop an)
      (artNodeUnlock an >>= fun _ => (pure none : ArtM (Option Version))) l := by
    apply (safe_artNodeUnlock h).bind
    intro _ l' hl'
    exact hl'
  apply (quietly_load an _).then
  intro v
  apply (quietly_sidleCheck trivial env.build (all_pure _)).then
  intro _
  apply (quietly_sidleCheck trivial env.build ((quietly_load an _).bind fun _ => all_pure _)).then
  intro _
  apply safe_ite
  · intro _
    exact haway
  · intro _
    apply (quietly_load an _).then
    intro parent
    apply safe_ite
    · intro _
      exact haway
    · intro _
      apply (quietly_load an _).then
      intro m
      apply safe_ite
      · intro _
        exact haway
      · intro _
        exact rfl

theorem Locks.drop_of_notMem (h : an ∉ l.held) : l.drop an = l := by
  have h₁ : an ∉ l.owned := fun ha => h (Finset.mem_union_left _ ha)
  have h₂ : an ∉ l.inherited := fun ha => h (Finset.mem_union_right _ ha)
  simp [Locks.drop, Finset.erase_eq_of_notMem h₁, Finset.erase_eq_of_notMem h₂]

/-- `_new_art_node` answers a node that is not on the record. -/
theorem safe_newArtNode (env : Env) (type : NodeType) (parent : Addr) (oldSize : ℕ)
    (t : NodeMemType) (isMigration : Bool) (hl : l.Orderly) :
    SafeLocks A (fun new_ l' => new_ ∉ l.held ∧ l' = l)
      (_newArtNode env type parent oldSize t isMigration) l := by
  have halloc : SafeLocks A (fun new_ l' => new_ ∉ l.held ∧ l' = l)
      (sidleAllocNode env type parent t isMigration oldSize) l := by
    apply (quietly_childDepth parent).then
    intro curDepth
    apply (quietly_newNodeType parent t curDepth).then
    intro memType
    refine ⟨Quiet.locksFirst (o := .mallocNode type) trivial l, ?_⟩
    intro new_ l' hstep
    obtain ⟨-, hfree, rfl⟩ := hstep
    apply (quietly_store new_ .sidleMeta (NodeMetadata.make memType curDepth) trivial).then
    intro _
    apply (quietly_accountAlloc env memType curDepth _ isMigration false).then
    intro _
    exact ⟨hfree, rfl⟩
  apply halloc.bind
  intro new_ l' hnew
  obtain ⟨hfree, rfl⟩ := hnew
  have hcopied : new_ ∉ l'.copied := fun h => hfree (Finset.mem_union_left _ (hl h))
  have hafter : l'.setVersion new_ 0 = l' := by
    rw [Locks.setVersion_of_unlocked (by decide) hcopied, Locks.drop_of_notMem hfree]
  refine ⟨⟨fun _ h => absurd h id, fun _ _ => ?_⟩, fun _ l₁ hstep => ?_⟩
  · change (l'.setVersion new_ 0).Orderly
    rwa [hafter]
  · obtain rfl : l₁ = l' := hstep.2.2.trans hafter
    apply (quietly_store new_ .new_ 0 trivial).then
    intro _
    apply (quietly_store new_ .parent 0 trivial).then
    intro _
    exact ⟨hfree, rfl⟩

/-- The record after the node `an` has been copied to `new_`. -/
def Locks.copy (l : Locks) (new_ an : Addr) : Locks :=
  { l with inherited := insert new_ l.inherited, copied := insert an l.copied }

theorem Locks.after_copy {β : Type} {new_ : Addr} (f : NodeField β) :
    Locks.after (.copy new_ an f) () (l.copy new_ an) =
      match f with
      | .version => ((l.copy new_ an).copyVersion new_ an).copyFrom an
      | _ => l.copy new_ an := by
  cases f <;> simp [Locks.after, Locks.copyFrom, Locks.copy]

/-- A field other than the version word is copied. -/
theorem safe_copyField {β : Type} {new_ : Addr} (f : NodeField β) (h : an ∈ l.owned)
    (hf : Locks.after (.copy new_ an f) () (l.copy new_ an) = l.copy new_ an) :
    SafeLocks A (fun _ l' => l' = l.copy new_ an) (copyField new_ an f) (l.copy new_ an) := by
  refine ⟨⟨fun src hsrc => ?_, fun hl _ => ?_⟩, fun _ l' hstep => ?_⟩
  · obtain rfl : an = src := hsrc
    exact h
  · rwa [hf]
  · exact hstep.2.2.trans hf

/-- `memcpy` of a node that the migration has locked. -/
theorem safe_memcpyNode {new_ : Addr} (t : NodeType) (h : an ∈ l.owned) :
    SafeLocks A (fun _ l' => l' = l.copy new_ an) (memcpyNode new_ an t) l := by
  have hstart : Locks.after (.copy new_ an .version) () l = l.copy new_ an := by
    have hheld : an ∈ l.held := Finset.mem_union_left _ h
    simp [Locks.after, Locks.copyVersion, Locks.copyFrom, Locks.copy, hheld]
  have hfield {β : Type} (f : NodeField β)
      (hf : Locks.after (.copy new_ an f) () (l.copy new_ an) = l.copy new_ an) (l' : Locks)
      (hl' : l' = l.copy new_ an) :
      SafeLocks A (fun _ l'' => l'' = l.copy new_ an) (copyField new_ an f) l' := by
    rw [hl']
    exact safe_copyField f h hf
  refine ⟨⟨fun src hsrc => ?_, fun hl _ => ?_⟩, fun _ l' hstep => ?_⟩
  · obtain rfl : an = src := hsrc
    exact h
  · change (Locks.after (.copy new_ an .version) () l).Orderly
    rw [hstart]
    exact Finset.insert_subset h hl
  · have hl' : l' = l.copy new_ an := hstep.2.2.trans hstart
    apply (hfield .prefixes (Locks.after_copy _) l' hl').bind
    intro _ l' hl'
    apply (hfield .new_ (Locks.after_copy _) l' hl').bind
    intro _ l' hl'
    apply (hfield .parent (Locks.after_copy _) l' hl').bind
    intro _ l' hl'
    apply (hfield .sidleMeta (Locks.after_copy _) l' hl').bind
    intro _ l' hl'
    apply (safe_forRange 0 _ (fun i l' _ _ hl' =>
      hfield (.key i) (Locks.after_copy _) l' hl') hl').bind
    intro _ l' hl'
    have hchildren (l' : Locks) (hl' : l' = l.copy new_ an) :
        SafeLocks A (fun _ l' => l' = l.copy new_ an)
          (forRange 0 t.capacity fun i => copyField new_ an (.child i)) l' :=
      safe_forRange 0 _ (fun i l' _ _ hl' => hfield (.child i) (Locks.after_copy _) l' hl') hl'
    apply safe_ite
    · intro _
      apply (safe_forRange 0 _
        (fun i l' _ _ hl' => hfield (.index _) (Locks.after_copy _) l' hl') hl').bind
      intro _ l' hl'
      exact hchildren l' hl'
    · intro _
      exact hchildren l' hl'

/-- The migration goes on at `p`, if it does: it has locked it, and nothing is being copied. -/
def Locks.Ready (l : Locks) (p : Addr) : Prop := l.copied = ∅ ∧ (p ≠ 0 → p ∈ l.owned)

/-- **The copy of a node that the migration has locked**: the lock is held until the node is
old, and the parent is locked then. -/
theorem safe_migrateCopy (env : Env) (fuel : ℕ) (t : NodeMemType) (v : Version) (h : an ∈ l.owned)
    (hl : l.copied = ∅) :
    SafeLocks A (fun p l' => l'.Ready p) (migrateCopy env fuel an t v) l := by
  have hord : l.Orderly := by simp [Locks.Orderly, hl]
  apply (safe_newArtNode env (getNodeType v) 0 0 t true hord).bind
  intro new_ l₀ hnew
  obtain ⟨hfree, rfl⟩ := hnew
  have hne : an ≠ new_ := fun hae => hfree (hae ▸ Finset.mem_union_left _ h)
  apply (safe_memcpyNode (getNodeType v) h).bind
  intro _ l₁ hl₁
  have hcopied : l₁.copied = {an} := by simp [hl₁, Locks.copy, hl]
  have hord₁ : l₁.Orderly := by
    intro a ha
    rw [hcopied, Finset.mem_singleton] at ha
    rw [ha, hl₁]
    exact h
  have han₁ : an ∈ l₁.held := by simp [hl₁, Locks.copy, Locks.held, h]
  have hnew₁ : new_ ∈ l₁.held := by simp [hl₁, Locks.copy, Locks.held]
  apply (quietly_load new_ .sidleMeta).then
  intro m
  apply (quietly_store new_ .sidleMeta { m with type := t } trivial).then
  intro _
  apply (safe_artNodeGetLockedParent fuel hord₁).bind
  intro parent l₂ hparent
  apply (quietly_sidleCheck trivial env.build (all_pure _)).then
  intro _
  apply (quietly_replaceOldChildPtr trivial env.build parent an new_).then
  intro _
  apply (quietly_replaceOldParentPtr trivial env.build new_).then
  intro _
  apply (quietly_store an .new_ new_ trivial).then
  intro _
  have hcopied₂ : l₂.copied = {an} := by
    cases hparent with
    | inl hp => rw [hp.2, hcopied]
    | inr hp => rw [hp.2, ← hcopied]; rfl
  have hparent₂ : parent ≠ 0 → parent ∈ l₂.owned ∧ parent ≠ an ∧ parent ≠ new_ := by
    intro hp0
    obtain ⟨hpfree, rfl⟩ := hparent.resolve_left fun hp => hp0 hp.1
    refine ⟨Finset.mem_insert_self _ _, ?_, ?_⟩
    · intro hpa
      exact hpfree (hpa ▸ han₁)
    · intro hpn
      exact hpfree (hpn ▸ hnew₁)
  -- the node gets old, and its copy is no longer of interest
  have hold : isOld (setOld v) = true := congrArg (·.old) (@view_setOld v)
  have hsetOld : (l₂.setVersion an (setOld v)).copied = ∅ := by
    unfold Locks.setVersion
    rw [if_pos hold]
    have : (if isLocked (setOld v) then l₂ else l₂.drop an).copied = l₂.copied := by split <;> rfl
    simp [this, hcopied₂]
  have hparent₃ : parent ≠ 0 → parent ∈ (l₂.setVersion an (setOld v)).owned := by
    intro hp0
    obtain ⟨hp, hpa, -⟩ := hparent₂ hp0
    unfold Locks.setVersion
    rw [if_pos hold]
    split
    · exact hp
    · exact Finset.mem_erase.mpr ⟨hpa, hp⟩
  refine ⟨⟨fun _ h => absurd h id, fun _ _ => ?_⟩, fun _ l₃ hstep => ?_⟩
  · change (l₂.setVersion an (setOld v)).Orderly
    simp [Locks.Orderly, hsetOld]
  · obtain rfl : l₃ = l₂.setVersion an (setOld v) := hstep.2.2
    apply (safe_artNodeUnlock (by simp [hsetOld])).bind
    intro _ l₄ hl₄
    have hcopied₄ : l₄.copied = ∅ := by rw [hl₄, ← hsetOld]; rfl
    apply (safe_artNodeUnlock (by simp [hcopied₄])).bind
    intro _ l₅ hl₅
    constructor
    · rw [hl₅, ← hcopied₄]
      rfl
    · intro hp0
      obtain ⟨-, hpa, hpn⟩ := hparent₂ hp0
      rw [hl₅, hl₄]
      exact Finset.mem_erase.mpr ⟨hpn, Finset.mem_erase.mpr ⟨hpa, hparent₃ hp0⟩⟩

theorem safe_lockFirst (fuel : ℕ) :
    SafeLocks A (fun ok l' => (ok = true ∧ l' = l.own an) ∨ (ok = false ∧ l' = l))
      (lockFirst fuel an) l := by
  apply (quietly_load an _).then
  intro v
  apply safe_ite
  · intro _
    exact Or.inr ⟨rfl, rfl⟩
  · intro _
    apply (safe_artNodeLock fuel l).bind
    intro r l' hr
    cases hr with
    | inl hr => exact Or.inl ⟨by simp [hr.1], hr.2.2⟩
    | inr hr => exact Or.inr ⟨by simp [hr.1], hr.2⟩

/-- `internode_migration` of a node that is locked, or that it is to lock first. -/
theorem safe_internodeMigration (env : Env) (fuel : ℕ) (t : NodeMemType) (needLockFirst : Bool)
    (hl : l.copied = ∅) (h : needLockFirst = false → an ∈ l.owned) :
    SafeLocks A (fun p l' => l'.Ready p) (internodeMigration env fuel an t needLockFirst) l := by
  unfold internodeMigration
  extract_lets jp
  have hrest (l₁ : Locks) (hl₁ : l₁.copied = ∅) (h₁ : an ∈ l₁.owned) :
      SafeLocks A (fun p l' => l'.Ready p) (jp true) l₁ := by
    apply (safe_migratableVersion env (by simp [hl₁])).bind
    intro v l₂ hl₂
    cases v with
    | none =>
      refine ⟨?_, fun h => absurd rfl h⟩
      rw [hl₂, ← hl₁]
      rfl
    | some v =>
      rw [hl₂]
      exact safe_migrateCopy env fuel t v h₁ hl₁
  cases needLockFirst with
  | false => exact hrest l hl (h rfl)
  | true =>
    apply (safe_lockFirst fuel).bind
    intro ready l₁ hready
    apply safe_ite
    · intro hr
      obtain ⟨-, rfl⟩ := hready.resolve_right fun h => by simp [h.1] at hr
      exact hrest _ hl (Finset.mem_insert_self _ _)
    · intro hr
      obtain ⟨-, rfl⟩ := hready.resolve_left fun h => hr h.1
      exact ⟨hl, fun h => absurd rfl h⟩

theorem safe_unlockNode (hl : l.copied = ∅) :
    SafeLocks A (fun _ l' => l'.copied = ∅) (unlockNode an) l := by
  apply safe_ite
  · intro _
    exact hl
  · intro _
    apply (quietly_load an _).then
    intro v
    apply safe_ite
    · intro _
      apply (safe_artNodeUnlock (by simp [hl])).imp
      intro _ l' hl'
      rw [hl', ← hl]
      rfl
    · intro _
      exact hl

/-- **A migration copies locked nodes only**, when it has locked the node that it starts from,
or is told that the node comes from the queue. -/
theorem safe_migrateInternode (env : Env) (fuel fuel' : ℕ) (t : NodeMemType) (ti : Addr)
    (hasMigrated : ℕ) (hl : l.copied = ∅)
    (h : an ∈ l.owned ∨ (hasMigrated = 0 ∧ t = .remote)) :
    SafeLocks A (fun _ l' => l'.copied = ∅)
      (migrateInternode (artOps env fuel) fuel' an t ti hasMigrated) l := by
  induction fuel' generalizing an hasMigrated l with
  | zero => trivial
  | succ fuel' ih =>
    apply (quietly_sidleCheck trivial env.build (all_pure _)).then
    intro _
    have hstopped (isNew : Bool) :
        Quietly (fun _ => True) (stopsPopped (artOps env fuel) isNew an t hasMigrated) :=
      all_ite ((quietly_needContinueMigrate env fuel an t hasMigrated).bind fun _ => all_pure _)
        (all_pure false)
    apply (hstopped _).then
    intro stopped
    apply safe_ite
    · intro _
      exact hl
    · intro _
      apply (safe_internodeMigration env fuel t _ hl _).bind
      · intro parent l₁ hready
        apply safe_ite
        · intro _
          exact hready.1
        · intro hp
          apply (quietly_needContinueMigrate env fuel parent t (hasMigrated + 1)).then
          intro state
          refine Safe.bind (P := fun _ l' => l'.copied = ∅) ?_ fun _ l₂ hl₂ => safe_unlockNode hl₂
          cases state with
          | proceed => exact ih (hasMigrated + 1) hready.1 (Or.inl (hready.2 hp))
          | delay =>
            apply (quietly_sidleCheck trivial env.build (all_pure _)).then
            intro _
            apply ((quietly_addDelayed env fuel parent).keeps l₁).imp
            intro _ l' hl'
            rw [hl', hready.1]
          | stop => exact hready.1
      · intro hnew
        refine h.resolve_right fun hpopped => ?_
        simp [hpopped.1, hpopped.2] at hnew

/-- A migration that starts from a leaf copies locked nodes only. -/
theorem safe_migrateLeaf (env : Env) (fuel fuel' : ℕ) (cur parent : Addr) (t : NodeMemType)
    (ti : Addr) (hl : l.copied = ∅) :
    SafeLocks A (fun _ l' => l'.copied = ∅)
      (migrateLeaf (artOps env fuel) fuel' cur parent t ti) l := by
  apply (safe_leafMigration env fuel cur parent t).bind
  intro p l₁ hp
  have hl₁ : l₁.copied = ∅ := by
    cases hp with
    | inl hp => rw [hp.2, hl]
    | inr hp => rw [hp.2, ← hl]; rfl
  apply safe_ite
  · intro _
    exact hl₁
  · intro hp0
    obtain ⟨-, rfl⟩ := hp.resolve_left fun h => hp0 h.1
    have hgo : SafeLocks A (fun _ l' => l'.copied = ∅)
        (migrateInternode (artOps env fuel) fuel' p t ti 1) (l.own p) :=
      safe_migrateInternode env fuel fuel' t ti 1 hl₁ (Or.inl (Finset.mem_insert_self _ _))
    apply safe_ite
    · intro _
      apply (quietly_needContinueMigrate env fuel p t 1).then
      intro status
      apply safe_ite
      · intro _
        exact hgo
      · intro _
        apply safe_ite
        · intro _
          apply (quietly_addDelayed env fuel p).then
          intro _
          exact safe_unlockNode hl₁
        · intro _
          exact safe_unlockNode hl₁
    · intro _
      exact hgo

end Locking

end Sidle.Worker
