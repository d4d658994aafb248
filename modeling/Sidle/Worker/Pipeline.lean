import Sidle.Art.Visit
import Sidle.Prog.Rely
import Sidle.Worker.Demotion
import Sidle.Worker.Histogram

/-!
# The trigger and the executors of the radix tree

The migration trigger and the two executors run in threads of their own, an access to the memory
of the tree each step.  The trigger walks over the tree and queues tasks for the leaves, the
executors dequeue them.  Writers are not at work here; other threads move the flags and the
thresholds only.

## Main definitions

* `artTriggerMigrationCb`, `artTriggerRound` — what the trigger does for a leaf, and in a round.
* `promote` — what the promotion executor does with a task.
* `Pipeline`, `PipelineEvent`, `pipelineStep` — the trigger and the executors.
* `Typed` — a task denotes what its form says.
* `Evolves` — what no thread of the pipeline breaks.
* `Tame` — an access that queues no demotion task.

## Main results

* `Tame.evolves`, `tame_needContinueMigrate`, … — most accesses are tame.
-/

namespace Sidle.Worker

open Art Prog Machine

/-! ### The trigger -/

/-- The state of a round of the trigger: the histogram, `node_counter_` and `access_counter_`. -/
structure TriggerState where
  histogram : SidleHistogram
  nodeCounter : ℕ
  accessCounter : ℕ

/-- `queue_.add_multi_task` for a leaf of the radix tree and its parent. -/
def addLeafTask (type : TaskType) (parent cur : Addr) : ArtM Unit :=
  lift (.onGlobal fun g => match type with
    | .promotion =>
      some ((), { g with
        promotionPairQueue := g.promotionPairQueue ++ [(makeLeaf (cur + 1), parent)] })
    | .demotion =>
      some ((), { g with
        demotionPairQueue := g.demotionPairQueue ++ [(makeLeaf (cur + 1), parent)] }))

/-- `can_promote_.load()`. -/
def loadCanPromote : ArtM Bool := lift (.onGlobal fun g => some (g.flags.canPromote, g))

/-- The condition of `trigger_migration_cb` for a promotion. -/
def isPromotionCandidate (hotness : Hotness) (cur : Addr) : ArtM Bool := do
  let canPromote ← loadCanPromote
  if canPromote then do
    let m ← loadLeaf cur .metadata
    pure (decide (m.type = .remote) && hotness == .hot)
  else pure false

/-- The condition of `trigger_migration_cb` for a demotion. -/
def isDemotionCandidate (callByAdjuster : Bool) (hotness : Hotness) (cur : Addr) : ArtM Bool :=
  if hotness = .cold then do
    let m ← loadLeaf cur .metadata
    pure (decide (m.type = .local_) || callByAdjuster)
  else pure false

/-- `trigger_migration_cb` on the radix tree, access by access. -/
def artTriggerMigrationCb (env : Env) (callByAdjuster : Bool) (x : TriggerState)
    (parent cur : Addr) : ArtM TriggerState := do
  let count ← loadLeaf cur .accessTime
  let (hotness, histogram) := x.histogram.update count
  let count ← loadLeaf cur .accessTime
  let promotes ← isPromotionCandidate hotness cur
  if promotes then do
    sidleCheck env.build (pure (parent != 0))
    addLeafTask .promotion parent cur
  else do
    let demotes ← isDemotionCandidate callByAdjuster hotness cur
    if demotes then do
      sidleCheck env.build (pure (parent != 0))
      addLeafTask .demotion parent cur
    else pure ()
  pure ⟨histogram, x.nodeCounter + 1, x.accessCounter + count⟩

/-- The end of a round: the histogram is refreshed, the counters are reset and the thresholds are
adjusted. -/
def TriggerState.endRound (hotWatermark coldWatermark : ℕ) (x : TriggerState) : TriggerState where
  histogram := (x.histogram.refresh x.nodeCounter x.accessCounter).adjustThreshold
    hotWatermark coldWatermark
  nodeCounter := 0
  accessCounter := 0

/-- A round of `art_migration_trigger::run_job`. -/
def artTriggerRound (env : Env) (callByAdjuster : Bool) (hotWatermark coldWatermark fuel : ℕ)
    (x : TriggerState) : ArtM TriggerState := do
  let x ← adaptiveRadixTreeTraverse (artTriggerMigrationCb env callByAdjuster) x fuel
  pure (x.endRound hotWatermark coldWatermark)

/-! ### The pipeline -/

/-- What the promotion executor does with a task. -/
def promote (env : Env) (fuel : ℕ) (task : Task) : ArtM Unit :=
  if task.1 = 0 ∨ task.2 = 0 then pure ()
  else do
    sidleCheck env.build (pure (isLeaf task.1))
    migrateLeaf (artOps env fuel) fuel (getLeaf task.1) task.2 .local_ 0

/-- The trigger and the two executors.  The memory of the tree is that of the demotion executor,
a thread that waits has an answer already. -/
structure Pipeline where
  executor : DemotionState
  trigger : ArtM TriggerState
  promotion : ArtM Unit

/-- The steps of the pipeline. -/
inductive PipelineEvent
  /-- The trigger begins a round. -/
  | trigger (callByAdjuster : Bool) (hotWatermark coldWatermark fuel : ℕ)
  /-- The trigger performs its next access. -/
  | triggerAccess
  /-- The promotion executor dequeues a task. -/
  | promote (task : Task) (fuel : ℕ)
  /-- The promotion executor performs its next access. -/
  | promotionAccess
  /-- A step of the demotion executor. -/
  | demotion (e : DemotionEvent)
  /-- A clean-up loop dequeues a task. -/
  | clear (type : TaskType) (task : Task)
  /-- Other threads change the flags, the thresholds or the usage, but not the queues. -/
  | adjust (g : Global)

namespace Pipeline

/-- The memory of the tree. -/
abbrev mem (s : Pipeline) : Mem := s.executor.mem

/-- The memory has become `mem`. -/
def setMem (s : Pipeline) (mem : Mem) : Pipeline :=
  { s with executor := { s.executor with mem := mem } }

/-- All threads wait. -/
def initial (mem : Mem) (x : TriggerState) : Pipeline := ⟨.initial mem, .ret x, .ret ()⟩

end Pipeline

/-- The queues of the radix tree without one task. -/
def eraseTask (type : TaskType) (task : Task) (g : Global) : Global :=
  match type with
  | .promotion => { g with promotionPairQueue := g.promotionPairQueue.erase task }
  | .demotion => { g with demotionPairQueue := g.demotionPairQueue.erase task }

/-- The transition function. -/
def pipelineStep (env : Env) (s : Pipeline) : PipelineEvent → Option Pipeline
  | .trigger callByAdjuster hotWatermark coldWatermark fuel =>
    match s.trigger with
    | .ret x =>
      some { s with
        trigger := artTriggerRound env callByAdjuster hotWatermark coldWatermark fuel x }
    | _ => none
  | .triggerAccess =>
    (accessStep env s.trigger s.mem .none).map fun (p, mem, _) => { s.setMem mem with trigger := p }
  | .promote task fuel =>
    let g := s.mem.global
    match s.promotion with
    | .ret () =>
      if g.flags.canPromote ∧ g.flags.isRunning ∧ task ∈ g.promotionPairQueue then
        some { s.setMem (s.mem.setGlobal (eraseTask .promotion task g)) with
          promotion := promote env fuel task }
      else none
    | _ => none
  | .promotionAccess =>
    (accessStep env s.promotion s.mem .none).map fun (p, mem, _) =>
      { s.setMem mem with promotion := p }
  | .demotion (.others _) => none
  | .demotion e => (demotionStep env s.executor e).map fun x => { s with executor := x }
  | .clear type task => some (s.setMem (s.mem.setGlobal (eraseTask type task s.mem.global)))
  | .adjust g =>
    if g.promotionPairQueue = s.mem.global.promotionPairQueue ∧
        g.demotionPairQueue = s.mem.global.demotionPairQueue then
      some (s.setMem (s.mem.setGlobal g))
    else none

/-! ### What no thread breaks -/

/-- What the block at `a` is for: `true` for an internal node, `false` for a leaf. -/
def kind (mem : Mem) (a : Addr) : Option Bool :=
  (mem.heap a).map fun
    | .node _ => true
    | .leaf _ => false

/-- A pair with a parent denotes a tagged leaf and an internal node, and one without an internal
node. -/
def Typed (mem : Mem) (task : Task) : Prop :=
  if task.2 = 0 then kind mem task.1 = some true
  else isLeaf task.1 = true ∧ kind mem (getLeaf task.1) = some false ∧
    kind mem task.2 = some true

/-- What is demoted is what it is taken for. -/
def Demotion.Typed (mem : Mem) : Demotion → Prop
  | .nothing => True
  | .internode node => kind mem node = some true
  | .leaf cur parent => kind mem cur = some false ∧ kind mem parent = some true

/-- No block of `mem` is gone. -/
def Kept (mem mem' : Mem) : Prop := ∀ a k, kind mem a = some k → kind mem' a = some k

/-- The root is not a leaf, and the demotion tasks are of the two forms. -/
structure Sound (env : Env) (mem : Mem) : Prop where
  fresh : mem.Fresh env
  root : isLeaf mem.root = false
  tasks : ∀ task ∈ mem.global.demotionPairQueue, Typed mem task

/-- The memory is sound, and no block of `mem` is gone. -/
structure After (env : Env) (mem mem' : Mem) : Prop where
  sound : Sound env mem'
  kept : Kept mem mem'

/-- What every thread does, and relies on. -/
def Evolves (env : Env) (mem mem' : Mem) : Prop := Sound env mem → After env mem mem'

section Evolves

variable {env : Env} {mem mem' mem'' : Mem} {a an : Addr}

theorem Sound.after (h : Sound env mem) : After env mem mem := ⟨h, fun _ _ ha => ha⟩

theorem After.trans (h : After env mem mem') (h' : After env mem' mem'') : After env mem mem'' :=
  ⟨h'.sound, fun a k ha => h'.kept a k (h.kept a k ha)⟩

instance : IsPreorder Mem (Evolves env) where
  refl _ h := h.after
  trans _ _ _ h h' hs := (h hs).trans (h' (h hs).sound)

theorem Typed.kept {task : Task} (h : Typed mem task) (hk : Kept mem mem') : Typed mem' task := by
  unfold Typed at h ⊢
  split at h
  · rename_i h0
    rw [if_pos h0]
    exact hk _ _ h
  · rename_i h0
    rw [if_neg h0]
    exact ⟨h.1, hk _ _ h.2.1, hk _ _ h.2.2⟩

theorem Demotion.Typed.kept {d : Demotion} (h : d.Typed mem) (hk : Kept mem mem') :
    d.Typed mem' := by
  cases d with
  | nothing => trivial
  | internode node => exact hk _ _ h
  | leaf cur parent => exact ⟨hk _ _ h.1, hk _ _ h.2⟩

theorem kind_of_node? {n : ArtNode} (h : mem.node? a = some n) : kind mem a = some true := by
  rw [kind, Mem.heap_of_node? h]
  rfl

theorem kind_of_leaf? {l : LeafNode} (h : mem.leaf? a = some l) : kind mem a = some false := by
  rw [kind, Mem.heap_of_leaf? h]
  rfl

theorem exists_addr_of_kind (hfresh : mem.Fresh env) {k : Bool} (h : kind mem a = some k) :
    ∃ i < mem.allocated, env.addr i = a := by
  obtain ⟨b, hb, -⟩ := Option.map_eq_some_iff.mp h
  exact hfresh a (by rw [hb]; exact Option.some_ne_none b)

/-- There is nothing at the null pointer. -/
theorem ne_zero_of_kind (hfresh : mem.Fresh env) {k : Bool} (h : kind mem a = some k) : a ≠ 0 := by
  obtain ⟨i, -, rfl⟩ := exists_addr_of_kind hfresh h
  exact (env.addr_pos i).ne'

/-- A block is kept by a store to a node. -/
theorem kept_setNode {n n' : ArtNode} (hn : mem.node? an = some n) :
    Kept mem (mem.setNode an n') := by
  intro a k ha
  by_cases hae : a = an
  · subst hae
    rw [kind_of_node? hn] at ha
    rw [← ha]
    exact kind_of_node? (Mem.node?_setNode_self ..)
  · rwa [kind, show (mem.setNode an n').heap a = mem.heap a from Function.update_of_ne hae _ _]

theorem kept_setLeaf {l l' : LeafNode} (hl : mem.leaf? an = some l) :
    Kept mem (mem.setLeaf an l') := by
  intro a k ha
  by_cases hae : a = an
  · subst hae
    rw [kind_of_leaf? hl] at ha
    rw [← ha]
    exact kind_of_leaf? (Mem.leaf?_setLeaf_self ..)
  · rwa [kind, show (mem.setLeaf an l').heap a = mem.heap a from Function.update_of_ne hae _ _]

/-- A block that is handed out was free before. -/
theorem kept_of_fresh (hfresh : mem.Fresh env)
    (hheap : ∀ a, a ≠ env.addr mem.allocated → mem'.heap a = mem.heap a) : Kept mem mem' := by
  intro a k ha
  have hne : a ≠ env.addr mem.allocated := by
    obtain ⟨i, hi, rfl⟩ := exists_addr_of_kind hfresh ha
    exact fun h => absurd (env.addr_injective h) (Nat.ne_of_lt hi)
  rwa [kind, hheap a hne]

/-- No task has been added but proper ones. -/
theorem Sound.step (h : Sound env mem) (hfresh : mem'.Fresh env) (hroot : mem'.root = mem.root)
    (hk : Kept mem mem') (htasks : ∀ task ∈ mem'.global.demotionPairQueue,
      task ∈ mem.global.demotionPairQueue ∨ Typed mem task) : After env mem mem' := by
  refine ⟨⟨hfresh, by rw [hroot]; exact h.root, fun task ht => ?_⟩, hk⟩
  rcases htasks task ht with hold | hnew
  · exact (h.tasks task hold).kept hk
  · exact hnew.kept hk

theorem Sound.setGlobal (h : Sound env mem) {g : Global} (hg : ∀ task ∈ g.demotionPairQueue,
      task ∈ mem.global.demotionPairQueue ∨ Typed mem task) : After env mem (mem.setGlobal g) :=
  h.step h.fresh rfl (fun _ _ ha => ha) hg

/-! ### Accesses that add no task -/

/-- The access frees nothing, leaves the root pointer alone and adds no demotion task. -/
def Tame : {β : Type} → ArtOp β → Prop
  | _, .storeRoot _ => False
  | _, .casRoot _ _ => False
  | _, .free _ => False
  | _, .onGlobal f => ∀ g b g', f g = some (b, g') → g'.demotionPairQueue = g.demotionPairQueue
  | _, _ => True

/-- All accesses of the program are tame. -/
abbrev Tamely {α : Type} (p : ArtM α) : Prop := All Tame (fun _ => True) p

theorem Tame.evolves {β : Type} {o : ArtOp β} {b : β} (ho : Tame o)
    (hexec : env.exec o mem = .ok (b, mem')) : Evolves env mem mem' := by
  intro h
  have hfresh : mem'.Fresh env := h.fresh.exec hexec
  have hsame {mem' : Mem} (hfresh : mem'.Fresh env) (hroot : mem'.root = mem.root)
      (hglobal : mem'.global = mem.global) (hk : Kept mem mem') : After env mem mem' :=
    h.step hfresh hroot hk fun task ht => Or.inl (by rwa [hglobal] at ht)
  cases o with
  | storeRoot | casRoot | free => exact absurd ho id
  | loadRoot =>
    cases hexec
    exact h.after
  | load an f =>
    simp only [Env.exec] at hexec
    split at hexec
    · split at hexec <;> cases hexec
      exact h.after
    · cases hexec
  | loadLeaf a f =>
    simp only [Env.exec] at hexec
    split at hexec
    · split at hexec <;> cases hexec
      exact h.after
    · cases hexec
  | store an f x =>
    simp only [Env.exec] at hexec
    split at hexec
    case h_2 => cases hexec
    case h_1 n hn =>
      split at hexec <;> cases hexec
      exact hsame hfresh rfl rfl (kept_setNode hn)
  | storeLeaf a f x =>
    simp only [Env.exec] at hexec
    split at hexec
    case h_2 => cases hexec
    case h_1 l hl =>
      split at hexec <;> cases hexec
      exact hsame hfresh rfl rfl (kept_setLeaf hl)
  | casVersion an expected desired =>
    simp only [Env.exec] at hexec
    split at hexec
    case h_2 => cases hexec
    case h_1 n hn =>
      split at hexec <;> cases hexec
      · exact hsame hfresh rfl rfl (kept_setNode hn)
      · exact h.after
  | copy dst src f =>
    simp only [Env.exec] at hexec
    split at hexec
    case h_2 => cases hexec
    case h_1 n m hn hm =>
      split at hexec <;> cases hexec
      exact hsame hfresh rfl rfl (kept_setNode hm)
  | mallocNode t =>
    cases hexec
    exact hsame hfresh rfl rfl (kept_of_fresh h.fresh fun a ha => env.heap_mallocNode_of_ne t ha)
  | mallocLeaf len =>
    cases hexec
    exact hsame hfresh rfl rfl (kept_of_fresh h.fresh fun a ha => env.heap_mallocLeaf_of_ne len ha)
  | onGlobal f =>
    simp only [Env.exec] at hexec
    split at hexec
    · rename_i b' g hg
      cases hexec
      exact h.setGlobal fun task ht => Or.inl (by rwa [ho _ _ _ hg] at ht)
    · cases hexec

end Evolves

/-! ### Tame programs -/

section TamePrograms

variable {env : Env} {α : Type}

theorem tame_onGlobal {f : Global → Option (α × Global)}
    (hf : ∀ g b g', f g = some (b, g') → g'.demotionPairQueue = g.demotionPairQueue) :
    Tamely (lift (.onGlobal f) : ArtM α) := all_lift hf

theorem tame_sidleCheck (build : Build) {c : ArtM Bool} (hc : Tamely c) :
    Tamely (Art.sidleCheck build c) :=
  all_ite (hc.bind fun _ => all_ite (all_pure ()) trivial) (all_pure ())

theorem tame_visitChildren {an : Addr} {slotAt : ℕ → ArtM (Option ℕ)}
    {visit : ℕ → Ptr → ArtM Bool} (hslot : ∀ i, Tamely (slotAt i))
    (hvisit : ∀ j c, Tamely (visit j c)) (n i : ℕ) :
    Tamely (visitChildren an slotAt visit n i) := by
  induction n generalizing i with
  | zero => exact all_pure true
  | succ n ih =>
    refine (hslot i).bind fun slot => ?_
    cases slot with
    | none => exact ih (i + 1)
    | some j =>
      refine (all_lift trivial).bind fun c => (hvisit j c).bind fun _ => ?_
      exact all_ite (ih (i + 1)) (all_pure false)

theorem tame_indexSlot (an : Addr) (i : ℕ) : Tamely (indexSlot an i) :=
  (all_lift trivial).bind fun _ => all_pure _

theorem tame_occupiedSlot (an : Addr) (i : ℕ) : Tamely (occupiedSlot an i) :=
  (all_lift trivial).bind fun _ => all_pure _

theorem tame_artNodeTraverse (an : Addr) {cb : Ptr → ArtM Bool} (hcb : ∀ c, Tamely (cb c)) :
    Tamely (artNodeTraverse an cb) := by
  refine (all_lift trivial).bind fun version => ?_
  split
  · exact (all_lift trivial).bind fun _ =>
      tame_visitChildren (fun _ => all_pure _) (fun _ => hcb) _ _
  · exact (all_lift trivial).bind fun _ =>
      tame_visitChildren (fun _ => all_pure _) (fun _ => hcb) _ _
  · exact tame_visitChildren (tame_indexSlot an) (fun _ => hcb) _ _
  · exact tame_visitChildren (tame_occupiedSlot an) (fun _ => hcb) _ _

theorem tame_replaceOldChildPtr (build : Build) (parent : Addr) (oldChild newChild : Ptr) :
    Tamely (replaceOldChildPtr build parent oldChild newChild) := by
  have hredirect (j : ℕ) (c : Ptr) : Tamely (redirectSlot parent oldChild newChild j c) :=
    all_ite ((all_lift trivial).bind fun _ => all_pure _) (all_pure _)
  refine (tame_sidleCheck build (all_pure _)).bind fun _ => (all_lift trivial).bind fun _ => ?_
  refine (all_lift trivial).bind fun version => ?_
  split
  · exact (tame_visitChildren (fun _ => all_pure _) hredirect _ _).bind fun _ => all_pure _
  · exact (tame_visitChildren (fun _ => all_pure _) hredirect _ _).bind fun _ => all_pure _
  · exact (tame_visitChildren (tame_indexSlot parent) hredirect _ _).bind fun _ => all_pure _
  · exact (tame_visitChildren (fun _ => all_pure _) hredirect _ _).bind fun _ => all_pure _

theorem tame_replaceOldParentPtr (build : Build) (curNode : Addr) :
    Tamely (replaceOldParentPtr build curNode) := by
  refine (tame_sidleCheck build (all_pure _)).bind fun _ => ?_
  refine (tame_artNodeTraverse curNode fun child => ?_).bind fun _ => all_pure _
  exact all_ite (all_pure true) ((all_lift trivial).bind fun _ => all_pure _)

theorem tame_childDepth (parent : Addr) : Tamely (childDepth parent) :=
  all_ite (all_pure 1) ((all_lift trivial).bind fun _ => all_pure _)

theorem tame_newNodeType (parent : Addr) (targetType : NodeMemType) (curDepth : ℕ) :
    Tamely (newNodeType parent targetType curDepth) := by
  have hdecide (parentType : NodeMemType) : Tamely (decideNewNodePosition parentType curDepth) :=
    tame_onGlobal fun g b g' h => by cases h; rfl
  refine all_ite (all_ite ?_ ?_) (all_pure _)
  · exact (all_pure _).bind fun _ => hdecide _
  · exact (all_lift trivial).bind fun _ => hdecide _

theorem demotionPairQueue_updateLocalMemoryUsage {g g' : Global} {sidleCheck : Bool}
    {checkMemoryUsage : ℤ → ℕ → MemUsageStatus} {type : NodeMemType} {curDepth : ℕ} {size : ℤ}
    {isMigration isLeaf : Bool}
    (h : g.updateLocalMemoryUsage sidleCheck checkMemoryUsage type curDepth size
      isMigration isLeaf =
      some g') : g'.demotionPairQueue = g.demotionPairQueue := by
  simp only [Global.updateLocalMemoryUsage] at h
  split at h
  · cases h
  · rw [← Option.some.inj h]
    unfold Global.reactToUsage
    split_ifs <;> rfl

theorem tame_accountAlloc (env : Env) (type : NodeMemType) (curDepth : ℕ) (size : ℤ)
    (isMigration isLeaf : Bool) :
    Tamely (accountAlloc env type curDepth size isMigration isLeaf) := by
  refine all_ite (tame_onGlobal fun g b g' h => ?_) (all_pure ())
  obtain ⟨g₁, hg₁, heq⟩ := Option.map_eq_some_iff.mp h
  cases heq
  exact demotionPairQueue_updateLocalMemoryUsage hg₁

theorem tame_allocLeaf (env : Env) (parent : Addr) (key : Key) (targetType : NodeMemType)
    (isMigration : Bool) : Tamely (allocLeaf env parent key targetType isMigration) := by
  refine (tame_childDepth parent).bind fun curDepth => ?_
  refine (tame_newNodeType parent targetType curDepth).bind fun type => ?_
  refine (all_lift trivial).bind fun node => (all_lift trivial).bind fun _ => ?_
  refine (all_lift trivial).bind fun _ => ?_
  refine (tame_accountAlloc env type curDepth _ isMigration true).bind fun _ => ?_
  exact (all_lift trivial).bind fun _ => (all_lift trivial).bind fun _ => all_pure _

theorem tame_leafBytes (leaf : Addr) : Tamely (leafBytes leaf) :=
  (all_lift trivial).bind fun _ => (all_lift trivial).bind fun _ => all_ite (all_pure _) trivial

theorem tame_artNodeLock (fuel : ℕ) (an : Addr) : Tamely (artNodeLock fuel an) := by
  induction fuel with
  | zero => trivial
  | succ fuel ih =>
    refine (all_lift trivial).bind fun version => all_ite ih (all_ite (all_pure 1) ?_)
    exact (all_lift trivial).bind fun ok => all_ite (all_pure 0) ih

theorem tame_artNodeUnlock (an : Addr) : Tamely (artNodeUnlock an) :=
  (all_lift trivial).bind fun _ => all_lift trivial

theorem tame_unlockNode (an : Addr) : Tamely (unlockNode an) :=
  all_ite (all_pure ())
    ((all_lift trivial).bind fun _ => all_ite (tame_artNodeUnlock an) (all_pure ()))

theorem tame_newArtNode (env : Env) (t : NodeType) (parent : Addr) (oldSize : ℕ)
    (targetType : NodeMemType) (isMigration : Bool) :
    Tamely (_newArtNode env t parent oldSize targetType isMigration) := by
  have halloc : Tamely (sidleAllocNode env t parent targetType isMigration oldSize) := by
    refine (tame_childDepth parent).bind fun curDepth => ?_
    refine (tame_newNodeType parent targetType curDepth).bind fun type => ?_
    refine (all_lift trivial).bind fun node => (all_lift trivial).bind fun _ => ?_
    exact (tame_accountAlloc env type curDepth _ isMigration false).bind fun _ => all_pure _
  refine halloc.bind fun an => (all_lift trivial).bind fun _ => (all_lift trivial).bind fun _ => ?_
  exact (all_lift trivial).bind fun _ => all_pure _

theorem tame_memcpyNode (dst src : Addr) (t : NodeType) : Tamely (memcpyNode dst src t) := by
  have hcopy {β : Type} (f : NodeField β) : Tamely (copyField dst src f) := all_lift trivial
  refine (hcopy _).bind fun _ => (hcopy _).bind fun _ => (hcopy _).bind fun _ => ?_
  refine (hcopy _).bind fun _ => (hcopy _).bind fun _ => ?_
  refine (all_forRange _ _ fun i _ _ => hcopy _).bind fun _ => ?_
  refine all_ite ?_ ?_
  · refine (all_forRange _ _ fun i _ _ => hcopy _).bind fun _ => ?_
    exact all_forRange _ _ fun i _ _ => hcopy _
  · exact all_forRange _ _ fun i _ _ => hcopy _

theorem tame_needContinueMigrate (env : Env) (fuel : ℕ) (node : Addr) (targetType : NodeMemType)
    (hasMigrated : ℕ) :
    Tamely (needContinueMigrate (artOps env fuel) node targetType hasMigrated) := by
  have hthreshold : Tamely (artOps env fuel).getDemotionDepthThreshold :=
    tame_onGlobal fun g b g' h => by cases h; rfl
  have hchild (child : Ptr) : Tamely (isLocalChild (artOps env fuel) child) := by
    refine (all_pure _).bind fun leaf => ?_
    cases leaf with
    | true => exact (all_lift trivial).bind fun _ => all_pure _
    | false => exact (all_lift trivial).bind fun _ => all_pure _
  refine all_ite (all_pure _) ?_
  cases targetType with
  | remote =>
    refine (all_lift trivial).bind fun m => hthreshold.bind fun threshold => ?_
    refine (all_lift trivial).bind fun m' => all_ite (all_pure _) ?_
    refine (tame_artNodeTraverse node fun child => ?_).bind fun _ => all_pure _
    exact (hchild child).bind fun _ => all_pure _
  | local_ => exact (all_lift trivial).bind fun _ => all_pure _
  | unknown | debug => exact all_pure _

end TamePrograms

end Sidle.Worker
