import Sidle.Art.Transparency
import Sidle.Worker.Pipeline

/-!
# Tasks of the radix tree

A task of the radix tree is a pair of addresses: a tagged leaf and its parent, or an internal
node and zero.  The migration trigger and the executors make such pairs, and the demotion
executor tells the two kinds apart by the second component.  What a thread relies on is what no
other thread does: no block is freed, the root pointer stays, and the tasks that are queued are
what they should be.

## Main definitions

* `Grows` — a program obeys this and relies on it.
* `Built` — a tree that any insertions have led to.
* `Pipeline.Proper` — the invariant of the pipeline.

## Main results

* `grows_adaptiveRadixTreeTraverse`, `grows_migrateInternode`, … — the threads.
* `tasks_typed_of_root` — **the demotion executor only gets proper tasks** when the root is an
  internal node.
* `root_leaf_demoted` — the only leaf of a tree is taken for an internal node.
-/

namespace Sidle.Worker

open Art Prog Machine

/-! ### The threads -/

/-- The program obeys `Evolves` and relies on it; when it returns the memory has evolved, and `Q`
holds. -/
def Grows (env : Env) {α : Type} (p : ArtM α) (mem : Mem) (Q : α → Mem → Prop) : Prop :=
  env.machine.Relies (Evolves env) (Evolves env) p mem fun a mem' => After env mem mem' ∧ Q a mem'

section Threads

variable {env : Env} {mem : Mem} {α β : Type} {p : ArtM α} {Q Q' : α → Mem → Prop} {a : Addr}

theorem Grows.imp (h : Grows env p mem Q)
    (hQ : ∀ a mem', After env mem mem' → Q a mem' → Q' a mem') : Grows env p mem Q' :=
  Relies.imp h fun a mem' hq => ⟨hq.1, hQ a mem' hq.1 hq.2⟩

theorem grows_ret (hs : Sound env mem) {a : α} (hQ : ∀ mem', After env mem mem' → Q a mem') :
    Grows env (ret a) mem Q := fun mem' h => ⟨h hs, hQ mem' (h hs)⟩

theorem grows_ite {c : Prop} [Decidable c] {q : ArtM α} (hp : c → Grows env p mem Q)
    (hq : ¬c → Grows env q mem Q) : Grows env (if c then p else q) mem Q := relies_ite hp hq

theorem Grows.bind {h : α → ArtM β} {Q : β → Mem → Prop} {P : α → Mem → Prop}
    (hp : Grows env p mem P)
    (hh : ∀ a mem', After env mem mem' → P a mem' → Grows env (h a) mem' Q) :
    Grows env (p >>= h) mem Q :=
  Relies.bind hp fun a mem' hP =>
    Relies.imp (hh a mem' hP.1 hP.2) fun _ _ hq => ⟨hP.1.trans hq.1, hq.2⟩

theorem grows_of_tame (hp : Tamely p) (hs : Sound env mem) :
    Grows env p mem fun _ _ => True := by
  induction p generalizing mem with
  | ret a => exact grows_ret hs fun _ _ => trivial
  | fail | diverge => trivial
  | op o k ih =>
    intro mem₁ h₁ b mem₂ hexec
    have hG : Evolves env mem₁ mem₂ := hp.1.evolves hexec
    have hafter : After env mem mem₂ := (h₁ hs).trans (hG (h₁ hs).sound)
    refine ⟨hG, ?_⟩
    exact Relies.imp (ih b (hp.2 b) hafter.sound) fun _ _ hq => ⟨hafter.trans hq.1, trivial⟩

/-- A tame part of a sequence. -/
theorem grows_then {h : α → ArtM β} {Q : β → Mem → Prop} (hp : Tamely p)
    (hs : Sound env mem) (hh : ∀ a mem', After env mem mem' → Grows env (h a) mem' Q) :
    Grows env (p >>= h) mem Q :=
  (grows_of_tame hp hs).bind fun a mem' hafter _ => hh a mem' hafter

/-- A tame part of a sequence after which a block is what it was. -/
theorem grows_keeping {h : α → ArtM β} {Q : β → Mem → Prop} {k : Bool} (hp : Tamely p)
    (hs : Sound env mem) (hk : kind mem a = some k)
    (hh : ∀ b mem', Sound env mem' → kind mem' a = some k → Grows env (h b) mem' Q) :
    Grows env (p >>= h) mem Q :=
  grows_then hp hs fun b mem' hafter => hh b mem' hafter.sound (hafter.kept a k hk)

/-- What a field of a node is read from is a node. -/
theorem grows_load {f : NodeField β} (hs : Sound env mem) :
    Grows env (load a f) mem fun _ mem' => kind mem' a = some true := by
  refine relies_lift fun mem₁ b mem₂ h₁ hexec => ?_
  have hG : Evolves env mem₁ mem₂ := Tame.evolves (o := .load a f) trivial hexec
  have hafter₂ : After env mem₁ mem₂ := hG (h₁ hs).sound
  have hkind : kind mem₁ a = some true := by
    simp only [Env.machine, Env.exec] at hexec
    split at hexec
    · exact kind_of_node? ‹_›
    · cases hexec
  refine ⟨hG, fun mem₃ h₃ => ?_⟩
  have hafter₃ : After env mem₂ mem₃ := h₃ hafter₂.sound
  exact ⟨(h₁ hs).trans (hafter₂.trans hafter₃), (hafter₂.trans hafter₃).kept a true hkind⟩

theorem grows_loadLeaf {f : LeafField β} (hs : Sound env mem) :
    Grows env (loadLeaf a f) mem fun _ mem' => kind mem' a = some false := by
  refine relies_lift fun mem₁ b mem₂ h₁ hexec => ?_
  have hG : Evolves env mem₁ mem₂ := Tame.evolves (o := .loadLeaf a f) trivial hexec
  have hafter₂ : After env mem₁ mem₂ := hG (h₁ hs).sound
  have hkind : kind mem₁ a = some false := by
    simp only [Env.machine, Env.exec] at hexec
    split at hexec
    · exact kind_of_leaf? ‹_›
    · cases hexec
  refine ⟨hG, fun mem₃ h₃ => ?_⟩
  have hafter₃ : After env mem₂ mem₃ := h₃ hafter₂.sound
  exact ⟨(h₁ hs).trans (hafter₂.trans hafter₃), (hafter₂.trans hafter₃).kept a false hkind⟩

/-- A proper task is added. -/
theorem grows_addTask {f : Global → Option (α × Global)} {task : Task} (hs : Sound env mem)
    (htask : Typed mem task) (hf : ∀ g b g', f g = some (b, g') → ∀ t ∈ g'.demotionPairQueue,
      t ∈ g.demotionPairQueue ∨ t = task) :
    Grows env (lift (.onGlobal f) : ArtM α) mem fun _ _ => True := by
  refine relies_lift fun mem₁ b mem₂ h₁ hexec => ?_
  have hG : Evolves env mem₁ mem₂ := by
    intro hs₁
    simp only [Env.machine, Env.exec] at hexec
    split at hexec
    · rename_i b' g hg
      cases hexec
      refine hs₁.setGlobal fun t ht => ?_
      rcases hf _ _ _ hg t ht with hold | rfl
      · exact Or.inl hold
      · exact Or.inr (htask.kept (h₁ hs).kept)
    · cases hexec
  refine ⟨hG, fun mem₃ h₃ => ⟨?_, trivial⟩⟩
  have hafter₂ : After env mem₁ mem₂ := hG (h₁ hs).sound
  exact (h₁ hs).trans (hafter₂.trans (h₃ hafter₂.sound))

/-- What is locked is an internal node. -/
theorem grows_artNodeLock (fuel : ℕ) (hs : Sound env mem) :
    Grows env (artNodeLock fuel a) mem fun _ mem' => kind mem' a = some true := by
  cases fuel with
  | zero => trivial
  | succ fuel =>
    refine (grows_load hs).bind fun version mem₁ h₁ hkind => ?_
    have hrest : Tamely (if isLocked version then artNodeLock fuel a
        else if isOld version then pure 1
        else do
          let ok ← lift (.casVersion a version (setLock version))
          if ok then pure 0 else artNodeLock fuel a) := by
      refine all_ite (tame_artNodeLock fuel a) (all_ite (all_pure 1) ?_)
      exact (all_lift trivial).bind fun ok => all_ite (all_pure 0) (tame_artNodeLock fuel a)
    exact (grows_of_tame hrest h₁.sound).imp fun _ mem₂ h₂ _ => h₂.kept a true hkind

/-- The parent that has been locked is an internal node. -/
theorem grows_artNodeGetLockedParent (fuel : ℕ) (hs : Sound env mem) :
    Grows env (artNodeGetLockedParent fuel a) mem
      fun p mem' => p ≠ 0 → kind mem' p = some true := by
  induction fuel generalizing mem with
  | zero => trivial
  | succ fuel ih =>
    refine grows_then (all_lift trivial) hs fun parent mem₁ h₁ => ?_
    refine grows_ite (fun _ => grows_ret h₁.sound fun _ _ h => absurd rfl h) fun _ => ?_
    refine (grows_artNodeLock fuel h₁.sound).bind fun r mem₂ h₂ hkind => ?_
    refine grows_ite (fun _ => ih h₂.sound) fun _ => ?_
    refine grows_then (all_lift trivial) h₂.sound fun parent' mem₃ h₃ => ?_
    refine grows_ite (fun _ => ?_) fun _ => ?_
    · exact grows_ret h₃.sound fun mem₄ h₄ _ => (h₃.trans h₄).kept parent true hkind
    · exact grows_then (tame_artNodeUnlock parent) h₃.sound fun _ mem₄ h₄ => ih h₄.sound

/-- The parent that a migration of a leaf answers is an internal node. -/
theorem grows_leafMigration (fuel : ℕ) (cur parent : Addr) (t : NodeMemType) (hs : Sound env mem) :
    Grows env (leafMigration env fuel cur parent t) mem
      fun p mem' => p ≠ 0 → kind mem' p = some true := by
  have hnone {mem : Mem} (hs : Sound env mem) :
      Grows env (pure 0 : ArtM Addr) mem fun p mem' => p ≠ 0 → kind mem' p = some true :=
    grows_ret hs fun _ _ h => absurd rfl h
  refine grows_ite (fun _ => hnone hs) fun _ => ?_
  refine grows_then (all_lift trivial) hs fun m mem₁ h₁ => ?_
  refine grows_ite (fun _ => hnone h₁.sound) fun _ => grows_ite (fun _ => trivial) fun _ => ?_
  refine (grows_load h₁.sound).bind fun pv mem₂ h₂ hk => ?_
  refine grows_ite (fun _ => hnone h₂.sound) fun _ => ?_
  refine grows_keeping (tame_artNodeLock fuel parent) h₂.sound hk fun r mem hs hk => ?_
  refine grows_ite (fun _ => hnone hs) fun _ => ?_
  -- nothing from here on touches the queues
  refine grows_keeping (tame_leafBytes cur) hs hk fun key mem hs hk => ?_
  refine grows_keeping (tame_allocLeaf env parent key t true) hs hk fun newNodePtr mem hs hk => ?_
  refine grows_keeping (all_lift trivial) hs hk fun m mem hs hk => ?_
  refine grows_keeping (all_lift trivial) hs hk fun time mem hs hk => ?_
  refine grows_keeping (all_lift trivial) hs hk fun _ mem hs hk => ?_
  refine grows_keeping (all_lift trivial) hs hk fun _ mem hs hk => ?_
  refine grows_keeping (all_lift trivial) hs hk fun m mem hs hk => ?_
  refine grows_keeping (all_lift trivial) hs hk fun _ mem hs hk => ?_
  refine grows_keeping (tame_replaceOldChildPtr _ _ _ _) hs hk fun _ mem hs hk => ?_
  exact grows_ret hs fun _ hafter _ => hafter.kept parent true hk

/-- The parent that a migration of an internal node answers is an internal node. -/
theorem grows_internodeMigration (fuel : ℕ) (an : Addr) (t : NodeMemType) (needLockFirst : Bool)
    (hs : Sound env mem) : Grows env (internodeMigration env fuel an t needLockFirst) mem
      fun p mem' => p ≠ 0 → kind mem' p = some true := by
  have hnone {mem : Mem} (hs : Sound env mem) :
      Grows env (pure 0 : ArtM Addr) mem fun p mem' => p ≠ 0 → kind mem' p = some true :=
    grows_ret hs fun _ _ h => absurd rfl h
  have hlock : Tamely (lockFirst fuel an) :=
    (all_lift trivial).bind fun v =>
      all_ite (all_pure _) ((tame_artNodeLock fuel an).bind fun _ => all_pure _)
  have hversion : Tamely (migratableVersion env an) := by
    have hdepth : Tamely (do
        let m ← load an .sidleMeta
        pure (decide (m.depth > 1)) : ArtM Bool) := (all_lift trivial).bind fun _ => all_pure _
    have hgive : Tamely (do
        artNodeUnlock an
        pure none : ArtM (Option Version)) := (tame_artNodeUnlock an).bind fun _ => all_pure _
    refine (all_lift trivial).bind fun v => (tame_sidleCheck _ (all_pure _)).bind fun _ => ?_
    refine (tame_sidleCheck _ hdepth).bind fun _ => all_ite hgive ?_
    refine (all_lift trivial).bind fun parent => all_ite hgive ?_
    exact (all_lift trivial).bind fun m => all_ite hgive (all_pure _)
  unfold internodeMigration
  extract_lets jp
  have hready (ready : Bool) {mem : Mem} (hs : Sound env mem) : Grows env (jp ready) mem
      fun p mem' => p ≠ 0 → kind mem' p = some true := by
    refine grows_ite (fun _ => ?_) fun _ => hnone hs
    refine grows_then hversion hs fun v mem h => ?_
    cases v with
    | none => exact hnone h.sound
    | some v =>
      refine grows_then (tame_newArtNode env _ 0 0 t true) h.sound fun new_ mem h => ?_
      refine grows_then (tame_memcpyNode new_ an _) h.sound fun _ mem h => ?_
      refine grows_then (all_lift trivial) h.sound fun m mem h => ?_
      refine grows_then (all_lift trivial) h.sound fun _ mem h => ?_
      refine (grows_artNodeGetLockedParent fuel h.sound).bind fun parent mem h hk => ?_
      have hrest : Tamely (do
          sidleCheck env.build (pure (parent != 0))
          replaceOldChildPtr env.build parent an new_
          replaceOldParentPtr env.build new_
          artNodeSetNewNode an new_
          artNodeSetVersion an (setOld v)
          artNodeUnlock an
          artNodeUnlock new_ : ArtM Unit) := by
        refine (tame_sidleCheck _ (all_pure _)).bind fun _ => ?_
        refine (tame_replaceOldChildPtr _ _ _ _).bind fun _ => ?_
        refine (tame_replaceOldParentPtr _ _).bind fun _ => (all_lift trivial).bind fun _ => ?_
        refine (all_lift trivial).bind fun _ => (tame_artNodeUnlock an).bind fun _ => ?_
        exact tame_artNodeUnlock new_
      have hend : Grows env ((do
          sidleCheck env.build (pure (parent != 0))
          replaceOldChildPtr env.build parent an new_
          replaceOldParentPtr env.build new_
          artNodeSetNewNode an new_
          artNodeSetVersion an (setOld v)
          artNodeUnlock an
          artNodeUnlock new_ : ArtM Unit) >>= fun _ => pure parent) mem
          fun p mem' => p ≠ 0 → kind mem' p = some true :=
        grows_then hrest h.sound fun _ mem' h' => grows_ret h'.sound fun _ hafter h0 =>
          (h'.trans hafter).kept parent true (hk h0)
      simpa only [bind_assoc'] using hend
  cases needLockFirst with
  | true => exact grows_then hlock hs fun ready mem h => hready ready h.sound
  | false => exact grows_then (all_pure _) hs fun ready mem h => hready ready h.sound

theorem grows_addDelayed (fuel : ℕ) {p : Addr} (hs : Sound env mem) (hk : kind mem p = some true) :
    Grows env (addDelayed (artOps env fuel) p) mem fun _ _ => True := by
  have htask : Typed mem (p, 0) := by
    unfold Typed
    rwa [if_pos rfl]
  refine grows_addTask hs htask fun g b g' h t ht => ?_
  cases h
  rcases List.mem_append.mp ht with hold | hnew
  · exact Or.inl hold
  · exact Or.inr (List.mem_singleton.mp hnew)

theorem grows_migrateInternode (fuel n : ℕ) (an : Addr) (t : NodeMemType) (ti : Addr) (k : ℕ)
    (hs : Sound env mem) :
    Grows env (migrateInternode (artOps env fuel) n an t ti k) mem fun _ _ => True := by
  induction n generalizing mem an k with
  | zero => trivial
  | succ n ih =>
    have hstopped (isNew : Bool) : Tamely (stopsPopped (artOps env fuel) isNew an t k) := by
      cases isNew with
      | true => exact (tame_needContinueMigrate env fuel an t k).bind fun _ => all_pure _
      | false => exact all_pure _
    refine grows_then (tame_sidleCheck _ (all_pure _)) hs fun _ mem h => ?_
    refine grows_then (hstopped _) h.sound fun stopped mem h => ?_
    refine grows_ite (fun _ => grows_ret h.sound fun _ _ => trivial) fun _ => ?_
    refine (grows_internodeMigration fuel an t _ h.sound).bind fun parent mem h hk => ?_
    refine grows_ite (fun _ => grows_ret h.sound fun _ _ => trivial) fun h0 => ?_
    refine grows_keeping (tame_needContinueMigrate env fuel parent t (k + 1)) h.sound (hk h0)
      fun state mem hs hk => ?_
    have hcontinue : Grows env (continueWith (artOps env fuel) parent t
        (migrateInternode (artOps env fuel) n parent t ti (k + 1)) state) mem fun _ _ => True := by
      cases state with
      | stop => exact grows_ret hs fun _ _ => trivial
      | proceed => exact ih parent (k + 1) hs
      | delay =>
        exact grows_keeping (tame_sidleCheck _ (all_pure _)) hs hk fun _ mem hs hk =>
          grows_addDelayed fuel hs hk
    exact hcontinue.bind fun _ mem h _ => grows_of_tame (tame_unlockNode parent) h.sound

theorem grows_migrateLeaf (fuel n : ℕ) (cur parent : Addr) (t : NodeMemType) (ti : Addr)
    (hs : Sound env mem) :
    Grows env (migrateLeaf (artOps env fuel) n cur parent t ti) mem fun _ _ => True := by
  refine (grows_leafMigration fuel cur parent t hs).bind fun p mem h hk => ?_
  refine grows_ite (fun _ => grows_ret h.sound fun _ _ => trivial) fun h0 => ?_
  refine grows_ite (fun _ => ?_) fun _ => grows_migrateInternode fuel n p t ti 1 h.sound
  refine grows_keeping (tame_needContinueMigrate env fuel p t 1) h.sound (hk h0)
    fun state mem hs hk => ?_
  refine grows_ite (fun _ => grows_migrateInternode fuel n p t ti 1 hs) fun _ => ?_
  refine grows_ite (fun _ => ?_) fun _ => grows_of_tame (tame_unlockNode p) hs
  exact (grows_addDelayed fuel hs hk).bind
    fun _ mem h _ => grows_of_tame (tame_unlockNode p) h.sound

/-- What is demoted for a proper task is what it is taken for. -/
theorem grows_chooseDemotion (fuel : ℕ) (map : DemotionMap) {task : Task} (hs : Sound env mem)
    (htask : Typed mem task) :
    Grows env (chooseDemotion fuel map task) mem fun r mem' => r.2.Typed mem' := by
  have hancestor (fuel : ℕ) (map : DemotionMap) (node child : Addr) {mem : Mem}
    (hs : Sound env mem) :
      Grows env (findFirstLocalAncestor fuel map node child) mem fun r mem' => r.2.Typed mem' := by
    induction fuel generalizing mem node child with
    | zero => trivial
    | succ fuel ih =>
      refine grows_ite (fun _ => grows_ret hs fun _ _ => trivial) fun _ => ?_
      refine (grows_load hs).bind fun v mem h hk => ?_
      refine grows_ite (fun _ => grows_ret h.sound fun _ _ => trivial) fun _ => ?_
      refine grows_keeping (all_lift trivial) h.sound hk fun m mem hs hk => ?_
      refine grows_ite (fun _ => grows_ret hs fun mem' h => ?_) fun _ => ?_
      · show Demotion.Typed mem' (if _ then _ else _)
        split
        · exact h.kept node true hk
        · trivial
      · exact grows_then (all_lift trivial) hs fun parent mem h => ih parent node h.sound
  refine grows_ite (fun _ => grows_ret hs fun _ _ => trivial) fun _ => ?_
  unfold Typed at htask
  refine grows_ite (fun h0 => grows_ret hs fun mem' h => ?_) fun h0 => ?_
  · rw [if_pos h0] at htask
    exact h.kept task.1 true htask
  · rw [if_neg h0] at htask
    refine grows_then (all_lift trivial) hs fun m mem₁ h₁ => ?_
    refine grows_ite (fun _ => hancestor fuel map _ _ h₁.sound) fun _ => ?_
    refine grows_ret h₁.sound fun mem' h => ?_
    have hk := (h₁.trans h).kept
    exact ⟨hk _ _ htask.2.1, hk _ _ htask.2.2⟩

theorem grows_demotion (fuel : ℕ) (d : Demotion) (hs : Sound env mem) :
    Grows env (d.run env fuel) mem fun _ _ => True := by
  cases d with
  | nothing => exact grows_ret hs fun _ _ => trivial
  | internode node => exact grows_migrateInternode fuel fuel node .remote 0 1 hs
  | leaf cur parent => exact grows_migrateLeaf fuel fuel cur parent .remote 0 hs

theorem grows_promote (fuel : ℕ) (task : Task) (hs : Sound env mem) :
    Grows env (promote env fuel task) mem fun _ _ => True := by
  refine grows_ite (fun _ => grows_ret hs fun _ _ => trivial) fun _ => ?_
  exact grows_then (tame_sidleCheck _ (all_pure _)) hs fun _ mem h =>
    grows_migrateLeaf fuel fuel _ _ .local_ 0 h.sound

/-- The task that the trigger makes of a leaf and its parent is proper. -/
theorem typed_leafTask {parent cur : Addr} (hfresh : mem.Fresh env)
    (hleaf : kind mem cur = some false) (hparent : kind mem parent = some true) :
    Typed mem (makeLeaf (cur + 1), parent) := by
  have haligned : 8 ∣ cur := by
    obtain ⟨i, -, rfl⟩ := exists_addr_of_kind hfresh hleaf
    exact env.addr_aligned i
  unfold Typed
  rw [if_neg (ne_zero_of_kind hfresh hparent), makeLeaf_succ haligned]
  exact ⟨isLeaf_succ haligned, by rwa [getLeaf_succ haligned], hparent⟩

theorem grows_addLeafTask (type : TaskType) {parent cur : Addr} (hs : Sound env mem)
    (hleaf : kind mem cur = some false) (hparent : kind mem parent = some true) :
    Grows env (addLeafTask type parent cur) mem fun _ _ => True := by
  refine grows_addTask hs (typed_leafTask hs.fresh hleaf hparent) fun g b g' h t ht => ?_
  cases type with
  | promotion =>
    cases h
    exact Or.inl ht
  | demotion =>
    cases h
    rcases List.mem_append.mp ht with hold | hnew
    · exact Or.inl hold
    · exact Or.inr (List.mem_singleton.mp hnew)

/-- What the trigger does for a leaf below an internal node. -/
theorem grows_artTriggerMigrationCb (callByAdjuster : Bool) (x : TriggerState) {parent cur : Addr}
    (hs : Sound env mem) (hparent : kind mem parent = some true) :
    Grows env (artTriggerMigrationCb env callByAdjuster x parent cur) mem fun _ _ => True := by
  have hadd (type : TaskType) (x : TriggerState) {mem : Mem} (hs : Sound env mem)
      (hleaf : kind mem cur = some false) (hparent : kind mem parent = some true) :
      Grows env (do
        sidleCheck env.build (pure (parent != 0))
        addLeafTask type parent cur
        pure x) mem fun _ _ => True := by
    refine grows_then (tame_sidleCheck _ (all_pure _)) hs fun _ mem h => ?_
    have hadd := grows_addLeafTask type h.sound (h.kept _ _ hleaf) (h.kept _ _ hparent)
    refine hadd.bind fun _ mem h _ => ?_
    exact grows_ret h.sound fun _ _ => trivial
  have hpromotes (hotness : Hotness) : Tamely (isPromotionCandidate hotness cur) := by
    have hload : Tamely loadCanPromote := tame_onGlobal fun g b g' h => by cases h; rfl
    exact hload.bind fun _ => all_ite ((all_lift trivial).bind fun _ => all_pure _) (all_pure _)
  have hdemotes (hotness : Hotness) :
      Tamely (isDemotionCandidate callByAdjuster hotness cur) :=
    all_ite ((all_lift trivial).bind fun _ => all_pure _) (all_pure _)
  refine (grows_loadLeaf hs).bind fun count mem₁ h₁ hleaf => ?_
  refine grows_then (all_lift trivial) h₁.sound fun count mem₂ h₂ => ?_
  refine grows_then (hpromotes _) h₂.sound fun promotes mem₃ h₃ => ?_
  have hk₃ : Kept mem₁ mem₃ := (h₂.trans h₃).kept
  have hparent₃ : kind mem₃ parent = some true := hk₃ _ _ (h₁.kept _ _ hparent)
  refine grows_ite (fun _ => hadd .promotion _ h₃.sound (hk₃ _ _ hleaf) hparent₃) fun _ => ?_
  refine grows_then (hdemotes _) h₃.sound fun demotes mem₄ h₄ => ?_
  refine grows_ite (fun _ => ?_) fun _ => grows_ret h₄.sound fun _ _ => trivial
  exact hadd .demotion _ h₄.sound (h₄.kept _ _ (hk₃ _ _ hleaf)) (h₄.kept _ _ hparent₃)

/-- The walk below an internal node, whose callback expects an internal node for a parent. -/
theorem grows_adaptiveRadixTreeTraverse {σ : Type} {cb : σ → Addr → Addr → ArtM σ}
    (hcb : ∀ x parent cur mem, Sound env mem → kind mem parent = some true →
      Grows env (cb x parent cur) mem fun _ _ => True)
    (fuel : ℕ) (parent : Addr) (node : Ptr) (x : σ) (hs : Sound env mem)
    (hparent : isLeaf node = true → kind mem parent = some true) :
    Grows env (_adaptiveRadixTreeTraverse cb fuel parent node false x) mem fun _ _ => True := by
  induction fuel generalizing mem parent node x with
  | zero => trivial
  | succ fuel ih =>
    have hvalid : Tamely (isValidNode node) := (all_lift trivial).bind fun _ => all_pure _
    have hstable (n : ℕ) : Tamely (artNodeGetStableExpandVersion n node) := by
      induction n with
      | zero => trivial
      | succ n ih => exact (all_lift trivial).bind fun _ => all_ite ih (all_pure _)
    -- a walk over a child, and the loops around it
    have hchild (j n : ℕ) (x : σ) {mem : Mem} (hs : Sound env mem)
      (hk : kind mem node = some true) :
        Grows env (traverseChild node j
          (fun child => _adaptiveRadixTreeTraverse cb fuel node child false) n x) mem
          fun _ _ => True := by
      induction n generalizing mem x with
      | zero => trivial
      | succ n ihn =>
        refine grows_keeping (all_lift trivial) hs hk fun child mem hs hk => ?_
        refine (ih node child x hs fun _ => hk).bind fun r mem' h _ => ?_
        refine grows_ite (fun _ => grows_ret h.sound fun _ _ => trivial) fun _ => ?_
        refine grows_keeping hvalid h.sound (h.kept _ _ hk) fun valid mem hs hk => ?_
        exact grows_ite (fun _ => ihn _ hs hk) fun _ => grows_ret hs fun _ _ => trivial
    have hchildren (slotAt : ℕ → ArtM (Option ℕ)) (hslot : ∀ i, Tamely (slotAt i))
        (n i : ℕ) (x : σ) {mem : Mem} (hs : Sound env mem) (hk : kind mem node = some true) :
        Grows env (traverseChildren node slotAt
          (fun child => _adaptiveRadixTreeTraverse cb fuel node child false) fuel n i x) mem
          fun _ _ => True := by
      induction n generalizing mem i x with
      | zero => exact grows_ret hs fun _ _ => trivial
      | succ n ihn =>
        refine grows_keeping hvalid hs hk fun valid mem hs hk => ?_
        refine grows_ite (fun _ => grows_ret hs fun _ _ => trivial) fun _ => ?_
        refine grows_keeping (hslot i) hs hk fun slot mem hs hk => ?_
        cases slot with
        | none => exact ihn (i + 1) x hs hk
        | some j =>
          refine (hchild j fuel x hs hk).bind fun r mem' h _ => ?_
          exact grows_ite (fun _ => ihn (i + 1) _ h.sound (h.kept _ _ hk)) fun _ =>
            grows_ret h.sound fun _ _ => trivial
    refine grows_ite (fun hl => ?_) fun _ => ?_
    · exact (hcb x parent _ mem hs (hparent hl)).bind fun _ mem h _ =>
        grows_ret h.sound fun _ _ => trivial
    · refine grows_then (all_pure x) hs fun x mem h => ?_
      refine (grows_load h.sound).bind fun pv mem h hk => ?_
      refine grows_then (all_pure _) h.sound fun valid mem' h' => ?_
      refine grows_ite (fun _ => grows_ret h'.sound fun _ _ => trivial) fun _ => ?_
      refine grows_keeping (hstable fuel) h'.sound (h'.kept _ _ hk) fun v mem hs hk => ?_
      split
      · exact grows_keeping (all_lift trivial) hs hk fun version mem hs hk =>
          hchildren _ (fun _ => all_pure _) _ _ _ hs hk
      · exact grows_keeping (all_lift trivial) hs hk fun version mem hs hk =>
          hchildren _ (fun _ => all_pure _) _ _ _ hs hk
      · exact hchildren _ (tame_indexSlot node) _ _ _ hs hk
      · exact hchildren _ (tame_occupiedSlot node) _ _ _ hs hk

theorem grows_artTriggerRound (callByAdjuster : Bool) (hotWatermark coldWatermark fuel : ℕ)
    (x : TriggerState) (hs : Sound env mem) :
    Grows env (artTriggerRound env callByAdjuster hotWatermark coldWatermark fuel x) mem
      fun _ _ => True := by
  have hroot {mem : Mem} (hs : Sound env mem) :
      Grows env (lift .loadRoot : ArtM Ptr) mem fun p _ => isLeaf p = false := by
    refine relies_lift fun mem₁ p mem₂ h₁ hexec => ?_
    cases hexec
    exact ⟨refl_of (Evolves env) mem₁, fun mem₃ h₃ =>
      ⟨(h₁ hs).trans (h₃ (h₁ hs).sound), (h₁ hs).sound.root⟩⟩
  have hwalk : Grows env (adaptiveRadixTreeTraverse
    (artTriggerMigrationCb env callByAdjuster) x fuel)
      mem fun _ _ => True := by
    refine (hroot hs).bind fun root mem h _ => ?_
    refine grows_ite (fun _ => grows_ret h.sound fun _ _ => trivial) fun _ => ?_
    refine (hroot h.sound).bind fun root mem h hnot => ?_
    refine Grows.bind (P := fun _ _ => True) ?_ fun _ mem h _ => grows_ret h.sound
      fun _ _ => trivial
    refine grows_adaptiveRadixTreeTraverse (fun x parent cur mem hs hk =>
      grows_artTriggerMigrationCb callByAdjuster x hs hk) fuel 0 root x h.sound fun hl => ?_
    rw [hnot] at hl
    cases hl
  exact hwalk.bind fun x mem h _ => grows_ret h.sound fun _ _ => trivial

end Threads

/-! ### Runs of the pipeline -/

/-- Insertions of keys, and changes of the state shared with the workers between them. -/
inductive Built (env : Env) : List Key → Mem → Prop
  | init (g : Global) : Built env [] (Mem.init g)
  | adjust {ks : List Key} {mem : Mem} (h : Built env ks mem) (g : Global) :
      Built env ks (mem.setGlobal g)
  | put {ks : List Key} {mem mem' : Mem} {r : ℤ} (h : Built env ks mem) (key : Key)
      (hput : env.machine.Converges (adaptiveRadixTreePut env key) mem r mem') :
      Built env (ks ++ [key]) mem'

/-- What is left of a thread is correct. -/
def Obeys (env : Env) {α : Type} (p : ArtM α) (mem : Mem) (Q : α → Mem → Prop) : Prop :=
  env.machine.Relies (Evolves env) (Evolves env) p mem Q

/-- What is left of the demotion executor is correct. -/
def Phase.Obeys (env : Env) (mem : Mem) : Phase → Prop
  | .idle => True
  | .choosing _ p => Worker.Obeys env p mem fun r mem' => r.2.Typed mem'
  | .migrating _ d p => d.Typed mem ∧ Worker.Obeys env p mem fun _ _ => True

/-- The invariant of the pipeline. -/
structure Pipeline.Proper (env : Env) (s : Pipeline) : Prop where
  sound : Sound env s.mem
  trigger : Obeys env s.trigger s.mem fun _ _ => True
  promotion : Obeys env s.promotion s.mem fun _ _ => True
  demotion : s.executor.phase.Obeys env s.mem

/-- A task is dequeued by the demotion executor only when it is proper. -/
def TakesTyped (s : Pipeline) (e : PipelineEvent) (_ : Pipeline) : Prop :=
  ∀ task fuel, e = .demotion (.take task fuel) → Typed s.mem task

/-- What the demotion executor passes to `migrate_internode` is an internal node, and what it
passes to `migrate_leaf` a leaf. -/
def DemotesTyped (s : Pipeline) : Prop :=
  ∀ task d p, s.executor.phase = .migrating task d p → d.Typed s.mem

section Runs

variable {env : Env} {mem mem' : Mem} {s s' : Pipeline} {α : Type} {p p' : ArtM α}
  {Q : α → Mem → Prop}

theorem fresh_run (h : mem.Fresh env) {a : α} (hrun : env.machine.run p mem = .done a mem') :
    mem'.Fresh env := by
  induction p generalizing mem with
  | ret => cases hrun; exact h
  | fail | diverge => cases hrun
  | op o k ih =>
    cases hexec : env.machine.exec o mem with
    | error e =>
      rw [env.machine.run_op_error hexec] at hrun
      cases hrun
    | ok r =>
      obtain ⟨b, mem₁⟩ := r
      rw [env.machine.run_op_ok hexec] at hrun
      exact ih b (h.exec hexec) hrun

theorem Built.fresh {ks : List Key} (h : Built env ks mem) : mem.Fresh env := by
  induction h with
  | init g => exact fun a ha => absurd rfl ha
  | adjust h g ih => exact ih
  | put h key hput ih =>
    obtain ⟨n, hrun⟩ := hput
    exact fresh_run ih hrun

theorem Built.afterPut {ks : List Key} (h : Built env ks mem) (key : Key) {fuel : ℕ} {r : ℤ}
    (hr : (env.machine.run (adaptiveRadixTreePut env key fuel) mem).answer? = some r) :
    Built env (ks ++ [key]) (mem.afterPut env key fuel) := h.put key (converges_afterPut hr)

theorem Grows.obeys (h : Grows env p mem Q) : Obeys env p mem Q := Relies.imp h fun _ _ hq => hq.2

/-- What is left of a thread stays correct when the others move. -/
theorem Obeys.after (h : Obeys env p mem Q) (hs : After env mem mem') : Obeys env p mem' Q :=
  Relies.stable h fun _ => hs

theorem Phase.Obeys.after {phase : Phase} (h : phase.Obeys env mem) (hs : After env mem mem') :
    phase.Obeys env mem' := by
  cases phase with
  | idle => trivial
  | choosing task p => exact Worker.Obeys.after h hs
  | migrating task d p => exact ⟨h.1.kept hs.kept, Worker.Obeys.after h.2 hs⟩

/-- One access of a thread. -/
theorem Obeys.access (h : Obeys env p mem Q) (hs : Sound env mem) {l l' : Locks}
    (hstep : accessStep env p mem l = some (p', mem', l')) :
    After env mem mem' ∧ Obeys env p' mem' Q := by
  cases p with
  | ret | fail | diverge => cases hstep
  | op o k =>
    simp only [accessStep] at hstep
    split at hstep
    · rename_i b mem₁ hexec
      cases hstep
      obtain ⟨hG, hk⟩ := h mem (refl_of (Evolves env) mem) b _ hexec
      exact ⟨hG hs, hk⟩
    · cases hstep

/-- The memory has evolved, and the threads are where they were. -/
theorem Pipeline.Proper.setMem (h : s.Proper env) (hs : After env s.mem mem') :
    (s.setMem mem').Proper env where
  sound := hs.sound
  trigger := h.trigger.after hs
  promotion := h.promotion.after hs
  demotion := h.demotion.after hs

theorem mem_eraseTask {type : TaskType} {task t : Task} {g : Global}
    (h : t ∈ (eraseTask type task g).demotionPairQueue) : t ∈ g.demotionPairQueue := by
  cases type with
  | promotion => exact h
  | demotion => exact List.mem_of_mem_erase h

/-- A step of the demotion executor. -/
theorem Pipeline.Proper.demotion_step (h : s.Proper env) {e : DemotionEvent}
    (he : ∀ mem, e ≠ .others mem) {x : DemotionState}
    (hstep : demotionStep env s.executor e = some x) :
    ({ s with executor := x } : Pipeline).Proper env := by
  have hphase := h.demotion
  cases e with
  | others mem => exact absurd rfl (he mem)
  | take task fuel =>
    simp only [demotionStep] at hstep
    split at hstep
    · split at hstep <;> cases hstep
      rename_i htake
      have hafter : After env s.mem (s.mem.setGlobal (eraseTask .demotion task s.mem.global)) :=
        h.sound.setGlobal fun t ht => Or.inl (mem_eraseTask ht)
      have htask : Typed s.mem task := h.sound.tasks task htake.2.2
      have hchoose := grows_chooseDemotion fuel s.executor.map hafter.sound (htask.kept hafter.kept)
      exact ⟨hafter.sound, h.trigger.after hafter, h.promotion.after hafter, hchoose.obeys⟩
    · cases hstep
  | access =>
    simp only [demotionStep] at hstep
    split at hstep
    · cases hstep
    · rename_i task p heq
      rw [heq] at hphase
      obtain ⟨⟨p', mem', l'⟩, hacc, rfl⟩ := Option.map_eq_some_iff.mp hstep
      obtain ⟨hafter, hrest⟩ := Obeys.access hphase h.sound hacc
      exact ⟨hafter.sound, h.trigger.after hafter, h.promotion.after hafter, hrest⟩
    · rename_i task d p heq
      rw [heq] at hphase
      obtain ⟨⟨p', mem', l'⟩, hacc, rfl⟩ := Option.map_eq_some_iff.mp hstep
      obtain ⟨hafter, hrest⟩ := Obeys.access hphase.2 h.sound hacc
      exact ⟨hafter.sound, h.trigger.after hafter, h.promotion.after hafter,
        hphase.1.kept hafter.kept, hrest⟩
  | start fuel =>
    simp only [demotionStep] at hstep
    split at hstep
    · rename_i task map d heq
      cases hstep
      rw [heq] at hphase
      have hd : d.Typed s.mem := hphase s.mem (refl_of (Evolves env) s.mem)
      exact ⟨h.sound, h.trigger, h.promotion, hd, (grows_demotion fuel d h.sound).obeys⟩
    · cases hstep
  | finish =>
    simp only [demotionStep] at hstep
    split at hstep
    · cases hstep
      exact ⟨h.sound, h.trigger, h.promotion, trivial⟩
    · cases hstep
  | endRound =>
    simp only [demotionStep] at hstep
    split at hstep
    · rename_i heq
      cases hstep
      exact ⟨h.sound, h.trigger, h.promotion, hphase⟩
    · cases hstep

/-- Every step of the pipeline keeps the invariant. -/
theorem Pipeline.Proper.step (h : s.Proper env) {e : PipelineEvent}
    (hstep : pipelineStep env s e = some s') : s'.Proper env := by
  cases e with
  | trigger callByAdjuster hotWatermark coldWatermark fuel =>
    simp only [pipelineStep] at hstep
    split at hstep
    · cases hstep
      exact { h with trigger := (grows_artTriggerRound _ _ _ fuel _ h.sound).obeys }
    · cases hstep
  | triggerAccess =>
    obtain ⟨⟨p', mem', l'⟩, hacc, rfl⟩ := Option.map_eq_some_iff.mp hstep
    obtain ⟨hafter, hrest⟩ := h.trigger.access h.sound hacc
    exact { h.setMem hafter with trigger := hrest }
  | promote task fuel =>
    simp only [pipelineStep] at hstep
    split at hstep
    · split at hstep <;> cases hstep
      have hafter : After env s.mem (s.mem.setGlobal (eraseTask .promotion task s.mem.global)) :=
        h.sound.setGlobal fun t ht => Or.inl (mem_eraseTask ht)
      exact { h.setMem hafter with promotion := (grows_promote fuel task hafter.sound).obeys }
    · cases hstep
  | promotionAccess =>
    obtain ⟨⟨p', mem', l'⟩, hacc, rfl⟩ := Option.map_eq_some_iff.mp hstep
    obtain ⟨hafter, hrest⟩ := h.promotion.access h.sound hacc
    exact { h.setMem hafter with promotion := hrest }
  | demotion e =>
    cases e with
    | others mem => cases hstep
    | _ =>
      obtain ⟨x, hx, rfl⟩ := Option.map_eq_some_iff.mp hstep
      exact h.demotion_step (fun _ he => by cases he) hx
  | clear type task =>
    cases hstep
    exact h.setMem (h.sound.setGlobal fun t ht => Or.inl (mem_eraseTask ht))
  | adjust g =>
    simp only [pipelineStep] at hstep
    split at hstep
    · rename_i hqueues
      cases hstep
      exact h.setMem (h.sound.setGlobal fun t ht => Or.inl (by rwa [hqueues.2] at ht))
    · cases hstep

/-- **Proper tasks.**  When the workers start on a tree whose root is an internal node, and with
an empty queue, every task that the demotion executor dequeues is proper, in any run: without a
parent it denotes an internal node, and with one a tagged leaf and an internal node.  So no leaf
is passed to `migrate_internode`, and no internal node to `get_leaf_`. -/
theorem tasks_typed_of_root {ks : List Key} (hbuilt : Built env ks mem)
    (hroot : isLeaf mem.root = false) (hqueue : mem.global.demotionPairQueue = [])
    (x : TriggerState)
    (es : List PipelineEvent) :
    Trace.EachStep (pipelineStep env) TakesTyped (.initial mem x) es ∧
      Trace.Always (pipelineStep env) DemotesTyped (.initial mem x) es := by
  have hproper : Trace.Always (pipelineStep env) (fun s => s.Proper env) (.initial mem x) es := by
    refine Trace.always_of_step ⟨⟨hbuilt.fresh, hroot, ?_⟩, ?_, ?_, trivial⟩
      fun _ _ _ h hstep => h.step hstep
    · intro task ht
      rw [show (Pipeline.initial mem x).mem.global.demotionPairQueue = [] from hqueue] at ht
      cases ht
    · exact fun _ _ => trivial
    · exact fun _ _ => trivial
  refine ⟨Trace.eachStep_of_always hproper fun s e s' h hstep _ task fuel he => ?_, ?_⟩
  · subst he
    obtain ⟨x, hx, -⟩ := Option.map_eq_some_iff.mp hstep
    simp only [demotionStep] at hx
    split at hx
    · split at hx <;> cases hx
      rename_i htake
      exact h.sound.tasks task htake.2.2
    · cases hx
  · refine hproper.imp fun s h task d p heq => ?_
    have hphase := h.demotion
    rw [heq] at hphase
    exact hphase.1

/-- Once two different keys of one length have been inserted the root is an internal node. -/
theorem not_isLeaf_root (hb : env.build.assertions = true) {L : ℕ} (hL : L ≤ 8)
    {ks : List (Key × ℤ)} (h : PutRun env L ks mem) {k k' : Key} (hk : k ∈ keysOf ks)
    (hk' : k' ∈ keysOf ks) (hne : k ≠ k') : isLeaf mem.root = false := by
  obtain ⟨t, hrep, hstored⟩ := h.represents hb hL
  have hroot := hrep.root
  have hplace {k : Key} (hk : k ∈ keysOf ks) := Trie.stored_of_place (q := .root) trivial
    ((hstored k).mpr hk) List.nil_prefix
  rcases hplace hk with hleaf | ⟨c, hc, -⟩
  · rcases hplace hk' with hleaf' | ⟨c, hc, -⟩
    · rw [hleaf] at hleaf'
      cases hleaf'
      exact absurd rfl hne
    · rw [hleaf] at hc
      cases hc
  · rw [show t.root = some (.node c) from hc] at hroot
    obtain ⟨n, hn, -⟩ := hrep.node c (t.root_node c hc)
    obtain ⟨i, -, rfl⟩ := exists_addr_of_kind hrep.fresh (kind_of_node? hn)
    rw [show mem.root = env.addr i from hroot]
    exact not_isLeaf_of_aligned (env.addr_aligned i)

end Runs

/-! ### A tree with a single key -/

section Example

/-- A tree with two leaves below the root. -/
def twoLeaves : Mem := oneLeaf.afterPut releaseEnv [2, 1, 1] 6

/-- A run of the theorem on a tree with two keys, where a round of the trigger comes to both. -/
theorem tasks_typed_of_twoLeaves : isLeaf twoLeaves.root = false ∧ ∀ es,
    Trace.EachStep (pipelineStep releaseEnv) TakesTyped (.initial twoLeaves ⟨.initial, 0, 0⟩) es ∧
      Trace.Always (pipelineStep releaseEnv) DemotesTyped
        (.initial twoLeaves ⟨.initial, 0, 0⟩) es := by
  have hroot : isLeaf twoLeaves.root = false := by decide +kernel
  have h₀ : Built releaseEnv [] (Mem.init default) := .init default
  have h₁ : Built releaseEnv [[1, 1, 1]] (Mem.afterPut releaseEnv [1, 1, 1] 6 _) :=
    h₀.afterPut _ (r := 0) (by decide +kernel)
  have h₂ : Built releaseEnv [[1, 1, 1], [2, 1, 1]] (Mem.afterPut releaseEnv [2, 1, 1] 6 _) :=
    h₁.afterPut _ (r := 0) (by decide +kernel)
  have h₃ : Built releaseEnv [[1, 1, 1], [2, 1, 1], [1, 1, 1]] oneLeaf :=
    h₂.afterPut _ (r := 0) (by decide +kernel)
  have hbuilt : Built releaseEnv [[1, 1, 1], [2, 1, 1], [1, 1, 1], [2, 1, 1]] twoLeaves :=
    h₃.afterPut _ (r := 0) (by decide +kernel)
  exact ⟨hroot, tasks_typed_of_root hbuilt hroot (by decide +kernel) _⟩

/-- The tree with the key `1` only. -/
def oneKey : Mem := (Mem.init default).afterPut releaseEnv [1] 5

/-- The trigger of a process that has just started. -/
def freshTrigger : TriggerState := ⟨.initial, 0, 0⟩

/-- The workers may demote. -/
def demoting : Global := { (default : Global) with flags := ⟨false, true, true, true⟩ }

/-- A round of the trigger that the adjuster has asked for. -/
def soleLeafEvents : List PipelineEvent :=
  [.adjust demoting, .trigger true 10 10 2] ++ List.replicate 8 .triggerAccess

/-- **The only leaf is demoted as an internal node.**  The root of a tree with a single key is a
leaf, the trigger passes it on with a null parent, and the demotion executor takes it for an
internal node. -/
theorem root_leaf_demoted : Built releaseEnv [[1]] oneKey ∧ oneKey.global.demotionPairQueue = [] ∧
    ∃ s s', Trace.run (pipelineStep releaseEnv) (.initial oneKey freshTrigger)
      soleLeafEvents = some s ∧
      pipelineStep releaseEnv s (.demotion (.take (9, 0) 2)) = some s' ∧
      kind s.mem (getLeaf 9) = some false ∧ ¬Typed s.mem (9, 0) := by
  refine ⟨?_, by decide +kernel, ?_⟩
  · exact (Built.init default).afterPut [1] (show (releaseEnv.machine.run
      (adaptiveRadixTreePut releaseEnv [1] 5) (Mem.init default)).answer? = some 0 by
        decide +kernel)
  · have hglance : ((Trace.run (pipelineStep releaseEnv) (.initial oneKey freshTrigger)
        soleLeafEvents).map fun s => (kind s.mem 8, kind s.mem 9,
          (pipelineStep releaseEnv s (.demotion (.take (9, 0) 2))).isSome)) =
        some (some false, none, true) := by decide +kernel
    obtain ⟨s, hs, heq⟩ := Option.map_eq_some_iff.mp hglance
    obtain ⟨hleaf, hnone, hsome⟩ : kind s.mem 8 = some false ∧ kind s.mem 9 = none ∧
        (pipelineStep releaseEnv s (.demotion (.take (9, 0) 2))).isSome = true := by
      simpa only [Prod.mk.injEq] using heq
    obtain ⟨s', hs'⟩ := Option.isSome_iff_exists.mp hsome
    refine ⟨s, s', hs, hs', hleaf, fun h => ?_⟩
    have hnode : kind s.mem 9 = some true := h
    rw [hnone] at hnode
    cases hnode

end Example

end Sidle.Worker
