import Sidle.Art.LeafMigration
import Sidle.Prog.Trace
import Sidle.Worker.Locks

/-!
# The locks of a demotion

`internode_migration` copies a node, and what another thread adds to the node between the
copy and its `OLD_BIT` is lost.  The node is to be locked meanwhile, by the migration itself.
It is whenever the migration started from a leaf: `leaf_migration` locks the parent of the
leaf, and `art_node_get_locked_parent` the next node at each level.  It is not when the
migration started from an internal node, because the call passes `has_migrated` in the place
of `ti`.

## Main definitions

* `CopiesLocked` — every copied node is locked by the migration that copies it.
* `Reason`, `Spared` — why an internal node is not copied.

## Main results

* `safe_migrateInternode_of_reason` — such a node is not copied.
* `copies_locked` — **in a run that spares the internal nodes all copied nodes are locked**.
* `coldTree_copies_unlocked` — a run that copies an unlocked node.
-/

namespace Sidle.Worker

open Art Prog Trace

/-! ### Internal nodes that are turned away -/

/-- Why `internode_migration` does not copy a node that it is called on without a lock. -/
inductive Reason
  /-- The node is old. -/
  | old
  /-- Its parent pointer is no address. -/
  | parent
  /-- Its depth is that of the root; `SIDLE_CHECK` asks for a depth above 1. -/
  | depth
  /-- Another thread has locked it; `SIDLE_CHECK` asks for an unlocked node. -/
  | locked
  deriving DecidableEq, Repr

namespace Reason

/-- The reason applies to a node. -/
def Holds (build : Build) (n : ArtNode) : Reason → Prop
  | .old => isOld n.version = true
  | .parent => isValidAddr n.parent = false
  | .depth => n.sidleMeta.depth = 1 ∨ (build.sidleCheck = true ∧ n.sidleMeta.depth ≤ 1)
  | .locked => build.sidleCheck = true ∧ isLocked n.version = true

instance (build : Build) (n : ArtNode) (r : Reason) : Decidable (r.Holds build n) := by
  cases r <;> unfold Holds <;> infer_instance

/-- The reason applies to the node at an address. -/
def HoldsAt (env : Env) (mem : Mem) (an : Addr) (r : Reason) : Prop :=
  ∃ n, mem.node? an = some n ∧ r.Holds env.build n

/-- What is read off the node as long as the reason applies. -/
def answers (build : Build) (an : Addr) (r : Reason) : Answers where
  allow
    | .load an' f, b => an' = an → ∃ n, r.Holds build n ∧ b = f.get n
    | _, _ => True

end Reason

section Reason

variable {env : Env} {mem mem' : Mem} {l : Locks} {an : Addr} {r : Reason}

theorem Reason.HoldsAt.allow {β : Type} {o : ArtOp β} {b : β} (h : r.HoldsAt env mem an)
    (hexec : env.exec o mem = .ok (b, mem')) : (r.answers env.build an).allow o b := by
  cases o with
  | load an' f =>
    intro han
    subst han
    obtain ⟨n, hn, hr⟩ := h
    simp only [Env.exec, hn] at hexec
    split at hexec <;> cases hexec
    exact ⟨n, hr, rfl⟩
  | _ => trivial

/-- A load from a node that a reason applies to. -/
theorem safe_load_of_reason {β : Type} (build : Build) (f : NodeField β) :
    SafeLocks (r.answers build an) (fun b l' => (∃ n, r.Holds build n ∧ b = f.get n) ∧ l' = l)
      (load an f) l := by
  constructor
  · exact Quiet.locksFirst (o := .load an f) trivial l
  · intro b l' hstep
    exact ⟨hstep.1 rfl, hstep.2.2⟩

/-- A failing `SIDLE_CHECK` goes no further. -/
theorem safe_sidleCheck {A : Answers} (build : Build) {c : ArtM Bool} {P : Prop}
    (hc : SafeLocks A (fun b l' => (b = true → P) ∧ l' = l) c l) :
    SafeLocks A (fun _ l' => (build.sidleCheck = true → P) ∧ l' = l)
      (Art.sidleCheck build c) l := by
  apply safe_ite
  · intro _
    apply hc.bind
    intro b l' hb
    apply safe_ite
    · intro hbt
      exact ⟨fun _ => hb.1 hbt, hb.2⟩
    · intro _
      trivial
  · intro h
    exact ⟨fun hs => absurd hs h, rfl⟩

/-- A node that a reason applies to is not to be copied. -/
theorem safe_migratableVersion_of_reason (hl : l.copied = ∅) :
    SafeLocks (r.answers env.build an) (fun v l' => v = none ∧ l'.copied = ∅)
      (migratableVersion env an) l := by
  have haway : SafeLocks (r.answers env.build an) (fun v l' => v = none ∧ l'.copied = ∅)
      (artNodeUnlock an >>= fun _ => (pure none : ArtM (Option Version))) l := by
    apply (safe_artNodeUnlock (by simp [hl])).bind
    intro _ l' hl'
    exact ⟨rfl, by rw [hl', ← hl]; rfl⟩
  apply (safe_load_of_reason env.build .version).bind
  rintro v l' ⟨⟨n, hn, hv⟩, rfl⟩
  have hlock : SafeLocks (r.answers env.build an)
    (fun b l₁ => (b = true → isLocked v = false) ∧ l₁ = l')
      (pure !isLocked v) l' := by simp
  apply (safe_sidleCheck env.build hlock).bind
  rintro _ l' ⟨hunlocked, rfl⟩
  have hdepth : SafeLocks (r.answers env.build an)
      (fun b l₁ => (b = true → r = .depth → env.build.sidleCheck = false) ∧ l₁ = l')
      (do
        let m ← load an .sidleMeta
        pure (decide (m.depth > 1))) l' := by
    apply (safe_load_of_reason env.build .sidleMeta).bind
    rintro m l₁ ⟨⟨n, hn, hm⟩, rfl⟩
    refine ⟨fun hd hr => ?_, rfl⟩
    subst hr hm
    have hd : 1 < n.sidleMeta.depth := of_decide_eq_true hd
    cases hn with
    | inl hn => omega
    | inr hn => omega
  apply (safe_sidleCheck env.build hdepth).bind
  rintro _ l' ⟨hdeep, rfl⟩
  apply safe_ite
  · intro _
    exact haway
  · intro hold
    apply (safe_load_of_reason env.build .parent).bind
    rintro parent l' ⟨⟨np, hnp, hp⟩, rfl⟩
    apply safe_ite
    · intro _
      exact haway
    · intro hparent
      apply (safe_load_of_reason env.build .sidleMeta).bind
      rintro m l' ⟨⟨nm, hnm, hm⟩, rfl⟩
      apply safe_ite
      · intro _
        exact haway
      · -- no reason is left
        intro hm1
        exfalso
        cases r with
        | old => exact hold (hv ▸ hn)
        | parent =>
          apply hparent
          rw [hp]
          simp [NodeField.get, show isValidAddr np.parent = false from hnp]
        | depth =>
          cases hnm with
          | inl hnm => exact hm1 (hm ▸ hnm)
          | inr hnm => simpa [hnm.1] using hdeep hnm.1 rfl
        | locked =>
          have hlk : isLocked v = true := hv ▸ hn.2
          rw [hunlocked hn.1] at hlk
          cases hlk

/-- **An internal node that a reason applies to is not copied.** -/
theorem safe_migrateInternode_of_reason (fuel fuel' : ℕ) (t : NodeMemType) (ti : Addr)
    (hasMigrated : ℕ) (hnew : hasMigrated ≠ 0) (hl : l.copied = ∅) :
    SafeLocks (r.answers env.build an) (fun _ l' => l'.copied = ∅)
      (migrateInternode (artOps env fuel) fuel' an t ti hasMigrated) l := by
  cases fuel' with
  | zero => trivial
  | succ fuel' =>
    have hisNew : (hasMigrated == 0 && t == .remote) = false := by simp [hnew]
    unfold migrateInternode
    rw [hisNew]
    apply (quietly_sidleCheck trivial env.build (all_pure _)).then
    intro _
    change SafeLocks _ _ (internodeMigration env fuel an t false >>= fun parent => _) l
    have hnull : SafeLocks (r.answers env.build an) (fun p l' => p = 0 ∧ l'.copied = ∅)
        (internodeMigration env fuel an t false) l := by
      apply (safe_migratableVersion_of_reason hl).bind
      rintro v l' ⟨rfl, hl'⟩
      exact ⟨rfl, hl'⟩
    apply hnull.bind
    rintro p l' ⟨rfl, hl'⟩
    exact hl'

end Reason

/-! ### Runs -/

/-- Other threads do not unlock what the migration has locked. -/
def OthersRespect (env : Env) (s : DemotionState) (e : DemotionEvent) (s' : DemotionState) : Prop :=
  ∀ mem, e = .others mem → (s.mem.Fresh env → s'.mem.Fresh env) ∧
    ∀ a ∈ s.locks.held, Locked s.mem a → Locked s'.mem a

/-- While the executor demotes an internal node, there is a reason for which the node is not
copied, and such a reason does not go away. -/
def Spared (env : Env) (s : DemotionState) (_e : DemotionEvent) (s' : DemotionState) : Prop :=
  ∀ node, s'.DemotesInternode node → (∃ r : Reason, r.HoldsAt env s'.mem node) ∧
    ∀ r : Reason, s.DemotesInternode node → r.HoldsAt env s.mem node → r.HoldsAt env s'.mem node

/-- Each node that is being copied, or has been copied and is not yet old, is locked, and the
migration under way has locked it. -/
def CopiesLocked (s : DemotionState) : Prop :=
  ∀ a, s.Copies a ∨ a ∈ s.locks.copied → a ∈ s.locks.owned ∧ Locked s.mem a

/-- What is left of the program under way meets its obligations. -/
def PhaseSafe (env : Env) (s : DemotionState) : Prop :=
  match s.phase with
  | .idle => True
  | .choosing _ p => SafeLocks .any (fun _ l => l = .none) p s.locks
  | .migrating _ (.internode node) p =>
    ∃ r : Reason, r.HoldsAt env s.mem node ∧
      SafeLocks (r.answers env.build node) (fun _ _ => True) p s.locks
  | .migrating _ _ p => SafeLocks .any (fun _ _ => True) p s.locks

/-- The invariant of a run. -/
structure LockInvariant (env : Env) (s : DemotionState) : Prop where
  truthful : Truthful env s.mem s.locks
  orderly : s.locks.Orderly
  phase : PhaseSafe env s

section Runs

variable {env : Env} {s s' : DemotionState} {e : DemotionEvent}

theorem accessStep_eq_some {α : Type} {p p' : ArtM α} {mem mem' : Mem} {l l' : Locks}
    (h : accessStep env p mem l = some (p', mem', l')) :
    ∃ (β : Type) (o : ArtOp β) (k : β → ArtM α) (b : β), p = .op o k ∧
      env.exec o mem = .ok (b, mem') ∧ p' = k b ∧ l' = Locks.after o b l := by
  cases p with
  | op o k =>
    simp only [accessStep] at h
    cases hexec : env.exec o mem with
    | error => simp [hexec] at h
    | ok bm =>
      simp only [hexec, Option.some.injEq, Prod.mk.injEq] at h
      obtain ⟨rfl, rfl, rfl⟩ := h
      exact ⟨_, o, k, bm.1, rfl, hexec, rfl, rfl⟩
  | _ => simp [accessStep] at h

/-- The next access of a safe program. -/
theorem Truthful.access {A : Answers} {α : Type} {Q : α → Locks → Prop} {p p' : ArtM α}
    {mem mem' : Mem} {l l' : Locks} (h : Truthful env mem l) (hord : l.Orderly)
    (hsafe : SafeLocks A Q p l) (hstep : accessStep env p mem l = some (p', mem', l'))
    (hA : ∀ {β : Type} (o : ArtOp β) (b : β), env.exec o mem = .ok (b, mem') → A.allow o b) :
    Truthful env mem' l' ∧ l'.Orderly ∧ SafeLocks A Q p' l' := by
  obtain ⟨β, o, k, b, rfl, hexec, rfl, rfl⟩ := accessStep_eq_some hstep
  obtain ⟨hpos, htrue⟩ := h.exec hexec
  exact ⟨htrue, hsafe.1.2 hord b, hsafe.2 b _ ⟨hA o b hexec, hpos, rfl⟩⟩

theorem Demotion.run_safe (fuel : ℕ) (task : Task) (d : Demotion) (map : DemotionMap) (mem : Mem)
    (hd : ∀ node, d = .internode node → ∃ r : Reason, r.HoldsAt env mem node) :
    PhaseSafe env ⟨.migrating task d (d.run env fuel), map, mem, .none⟩ := by
  cases d with
  | nothing => trivial
  | internode node =>
    obtain ⟨r, hr⟩ := hd node rfl
    refine ⟨r, hr, ?_⟩
    exact (safe_migrateInternode_of_reason fuel fuel .remote 0 1 Nat.one_ne_zero rfl).imp
      fun _ _ _ => trivial
  | leaf cur parent =>
    exact (safe_migrateLeaf env fuel fuel cur parent .remote 0 rfl).imp fun _ _ _ => trivial

/-- **A step keeps the invariant**, when other threads respect the locks and internal nodes are
spared. -/
theorem LockInvariant.step (h : LockInvariant env s) (hstep : demotionStep env s e = some s')
    (hothers : OthersRespect env s e s') (hspared : Spared env s e s') : LockInvariant env s' := by
  obtain ⟨phase, map, mem, l⟩ := s
  obtain ⟨htrue, hord, hphase⟩ := h
  cases e with
  | take task fuel =>
    cases phase with
    | idle =>
      simp only [demotionStep, Option.ite_none_right_eq_some] at hstep
      obtain ⟨-, hstep⟩ := hstep
      cases hstep
      refine ⟨⟨htrue.fresh, by simp [Locks.held, Locks.none]⟩,
        by simp [Locks.Orderly, Locks.none], ?_⟩
      exact (quietly_chooseDemotion fuel map task).keeps .none
    | choosing | migrating => cases hstep
  | access =>
    cases phase with
    | idle => cases hstep
    | choosing task p =>
      obtain ⟨⟨p', mem', l'⟩, haccess, rfl⟩ := Option.map_eq_some_iff.mp hstep
      obtain ⟨htrue', hord', hsafe'⟩ := htrue.access hord hphase haccess fun _ _ _ => trivial
      exact ⟨htrue', hord', hsafe'⟩
    | migrating task d p =>
      obtain ⟨⟨p', mem', l'⟩, haccess, rfl⟩ := Option.map_eq_some_iff.mp hstep
      cases d with
      | nothing | leaf =>
        obtain ⟨htrue', hord', hsafe'⟩ := htrue.access hord hphase haccess fun _ _ _ => trivial
        exact ⟨htrue', hord', hsafe'⟩
      | internode node =>
        obtain ⟨r, hr, hsafe⟩ := hphase
        obtain ⟨htrue', hord', hsafe'⟩ :=
          htrue.access hord hsafe haccess fun _ _ hexec => hr.allow hexec
        exact ⟨htrue', hord', r, (hspared node ⟨task, p', rfl⟩).2 r ⟨task, p, rfl⟩ hr, hsafe'⟩
  | start fuel =>
    cases phase with
    | choosing task p =>
      cases p with
      | ret md =>
        cases hstep
        obtain rfl : l = .none := hphase
        refine ⟨htrue, hord, ?_⟩
        apply Demotion.run_safe
        intro node hd
        exact (hspared node ⟨task, _, by rw [hd]⟩).1
      | fail | diverge | op => cases hstep
    | idle | migrating => cases hstep
  | finish =>
    cases phase with
    | migrating task d p =>
      cases p with
      | ret =>
        cases hstep
        exact ⟨htrue, hord, trivial⟩
      | fail | diverge | op => cases hstep
    | idle | choosing => cases hstep
  | endRound =>
    cases phase with
    | idle =>
      cases hstep
      exact ⟨htrue, hord, trivial⟩
    | choosing | migrating => cases hstep
  | others mem' =>
    cases hstep
    obtain ⟨hfresh, hlocked⟩ := hothers mem' rfl
    refine ⟨⟨hfresh htrue.fresh, fun a ha => hlocked a ha (htrue.locked a ha)⟩, hord, ?_⟩
    cases phase with
    | idle => trivial
    | choosing => exact hphase
    | migrating task d p =>
      cases d with
      | nothing | leaf => exact hphase
      | internode node =>
        obtain ⟨r, hr, hsafe⟩ := hphase
        exact ⟨r, (hspared node ⟨task, p, rfl⟩).2 r ⟨task, p, rfl⟩ hr, hsafe⟩

/-- The program that is about to copy from a node has locked it. -/
theorem SafeLocks.owned {A : Answers} {α : Type} {Q : α → Locks → Prop} {p : ArtM α} {l : Locks}
    {a : Addr} (h : SafeLocks A Q p l) (ha : CopiesFrom a p) : a ∈ l.owned := by
  cases p with
  | op o k =>
    cases o with
    | copy dst src f => exact h.1.1 a ha
    | _ => exact absurd ha id
  | _ => exact absurd ha id

theorem LockInvariant.copiesLocked (h : LockInvariant env s) : CopiesLocked s := by
  obtain ⟨phase, map, mem, l⟩ := s
  obtain ⟨htrue, hord, hphase⟩ := h
  have hlocked (a : Addr) (ha : a ∈ l.owned) : a ∈ l.owned ∧ Locked mem a :=
    ⟨ha, htrue.locked a (Finset.mem_union_left _ ha)⟩
  intro a ha
  apply hlocked
  cases ha with
  | inr hcopied => exact hord hcopied
  | inl hcopies =>
    cases phase with
    | idle => exact absurd hcopies id
    | choosing => exact SafeLocks.owned hphase hcopies
    | migrating task d p =>
      cases d with
      | nothing | leaf => exact SafeLocks.owned hphase hcopies
      | internode node =>
        obtain ⟨r, -, hsafe⟩ := hphase
        exact SafeLocks.owned hsafe hcopies

/-- **In a run that spares the internal nodes all copied nodes are locked**: whatever other
threads do, short of unlocking what the migration has locked, each node that the executor
copies is locked by the migration itself from before the copy until the node is old. -/
theorem copies_locked {mem : Mem} (hmem : mem.Fresh env) {es : List DemotionEvent}
    (hothers : EachStep (demotionStep env) (OthersRespect env) (.initial mem) es)
    (hspared : EachStep (demotionStep env) (Spared env) (.initial mem) es) :
    Always (demotionStep env) CopiesLocked (.initial mem) es := by
  have hinit : LockInvariant env (.initial mem) :=
    ⟨⟨hmem, by simp [DemotionState.initial, Locks.held, Locks.none]⟩,
      by simp [DemotionState.initial, Locks.Orderly, Locks.none], trivial⟩
  have hboth : EachStep (demotionStep env)
      (fun s e s' => OthersRespect env s e s' ∧ Spared env s e s') (.initial mem) es :=
    fun before e after t u heq hrun hstep =>
      ⟨hothers before e after t u heq hrun hstep, hspared before e after t u heq hrun hstep⟩
  have hall : Always (demotionStep env) (LockInvariant env) (.initial mem) es :=
    always_of_eachStep hinit (fun t e u ht hstep hP => ht.step hstep hP.1 hP.2) hboth
  exact hall.imp fun t ht => ht.copiesLocked

end Runs

/-! ### A sample tree -/

instance (mem : Mem) (an : Addr) : Decidable (Locked mem an) :=
  match h : mem.node? an with
  | none => isFalse fun ⟨_, hn, _⟩ => by simp [h] at hn
  | some n => decidable_of_iff (isLocked n.version = true) (by simp [Locked, h])

/-- The shared state of a tree whose first layers are local: the executor may run. -/
def localGlobal : Global :=
  { (default : Global) with threshold := ⟨8, 1, 1⟩, flags := ⟨false, true, true, true⟩ }

/-- The tree with the keys `11`, `21` and `12`: its root, and below it the node `32` with the
leaves `8` and `40`. -/
def layeredTree : Mem :=
  (((Mem.init localGlobal).afterPut sampleEnv [1, 1] 9).afterPut sampleEnv [2, 1] 9).afterPut
    sampleEnv [1, 2] 9

theorem putRun_layeredTree :
    PutRun sampleEnv 2 [([1, 1], 0), ([2, 1], 0), ([1, 2], 0)] layeredTree := by
  have h₀ : PutRun sampleEnv 2 [] (Mem.init localGlobal) := .init (Int.le_refl 0)
  have h₁ : PutRun sampleEnv 2 [([1, 1], 0)]
      ((Mem.init localGlobal).afterPut sampleEnv [1, 1] 9) := by
    apply h₀.afterPut rfl
    decide
  have h₂ : PutRun sampleEnv 2 [([1, 1], 0), ([2, 1], 0)]
      (((Mem.init localGlobal).afterPut sampleEnv [1, 1] 9).afterPut sampleEnv [2, 1] 9) := by
    apply h₁.afterPut rfl
    decide
  apply h₂.afterPut rfl
  decide

/-- The trigger has found the two leaves of the node `32` cold. -/
def coldTree : Mem :=
  layeredTree.setGlobal
    { layeredTree.global with
      demotionPairQueue := [(makeLeaf (8 + 1), 32), (makeLeaf (40 + 1), 32)] }

/-- The executor takes the first of the two leaves. -/
def firstTask : List DemotionEvent :=
  .take (makeLeaf (8 + 1), 32) 9 :: List.replicate 3 .access ++ [.start 9, .finish]

/-- The executor takes the second one, and demotes the node `32` as far as to its copy. -/
def secondTask : List DemotionEvent :=
  .take (makeLeaf (40 + 1), 32) 9 :: List.replicate 3 .access ++ .start 9 ::
    List.replicate 10 .access

theorem coldTree_fresh : coldTree.Fresh sampleEnv := by
  obtain ⟨tr, hrep, -⟩ := putRun_layeredTree.represents rfl (by decide)
  unfold coldTree
  exact hrep.fresh.setGlobal _

theorem othersRespect_of_alone {env : Env} {s : DemotionState} {es : List DemotionEvent}
    (h : ∀ mem, .others mem ∉ es) : EachStep (demotionStep env) (OthersRespect env) s es := by
  intro before e after t u heq _ _ mem he
  rw [he] at heq
  exact absurd (heq ▸ List.mem_append_right before List.mem_cons_self) (h mem)

/-- The executor is not demoting an internal node. -/
def DemotionState.sparesAll (s : DemotionState) : Bool :=
  match s.phase with
  | .migrating _ (.internode _) _ => false
  | _ => true

/-- After the first task the node `32` has a child that is not recorded, and it is left alone. -/
theorem copies_locked_of_firstTask :
    Always (demotionStep sampleEnv) CopiesLocked (.initial coldTree) firstTask := by
  have hspares : Always (demotionStep sampleEnv) (fun s => s.sparesAll = true) (.initial coldTree)
      firstTask := by decide
  apply copies_locked coldTree_fresh (othersRespect_of_alone (by simp [firstTask]))
  apply eachStep_of_always (P := Spared sampleEnv) hspares
  intro t e u _ _ hu node hnode
  obtain ⟨task, p, hp⟩ := hnode
  simp [DemotionState.sparesAll, hp] at hu

/-- **The two tasks end in a copy of an unlocked node**, in the tree that three insertions have
built. -/
theorem coldTree_copies_unlocked :
    PutRun sampleEnv 2 [([1, 1], 0), ([2, 1], 0), ([1, 2], 0)] layeredTree ∧
    EachStep (demotionStep sampleEnv) (OthersRespect sampleEnv) (.initial coldTree)
      (firstTask ++ secondTask) ∧
    ¬ Always (demotionStep sampleEnv) CopiesLocked (.initial coldTree)
      (firstTask ++ secondTask) := by
  refine ⟨putRun_layeredTree, othersRespect_of_alone (by simp [firstTask, secondTask]), ?_⟩
  intro hall
  have hrun : ((run (demotionStep sampleEnv) (.initial coldTree) (firstTask ++ secondTask)).any
      fun t => decide (t.Copies 32 ∧ ¬ Locked t.mem 32)) = true := by decide
  obtain ⟨t, ht, hcopies⟩ := (Option.any_eq_true _ _).mp hrun
  obtain ⟨hcopies, hunlocked⟩ := of_decide_eq_true hcopies
  exact hunlocked (hall.last ht 32 (Or.inl hcopies)).2

end Sidle.Worker
