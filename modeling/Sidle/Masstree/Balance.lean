import Sidle.Masstree.Held
import Sidle.Prog.Returns

/-!
# The tasks of a quiet Masstree return

On a layer at rest of whose nodes none is locked every task runs to its end: each lock is free
when it is asked for, each node that is read is there, and a climb is no longer than the path to
the root.  With what is known of the locks of the executors nothing is locked then.

## Main definitions

* `Upright` — a layer at rest in which a climb comes to an end.
* `Listed` — a leaf as it stands in the list of leaves.
* `Quiescent` — a layer at rest in a memory without locks.

## Main results

* `returns_internodeMigration`, `returns_leafMigration` — the migrations return.
* `returns_migrateInternode` — **every climb returns**, by induction on its length.
* `returns_task` — every task returns, and releases its locks.
-/

namespace Sidle.Masstree

open Art (Build Fault)
open Prog Machine Outcome Word Worker

/-! ### Layers without locks -/

/-- A layer at rest whose nodes are marked as what they are, with places for all children, and in
which the rank falls on the way to the root. -/
structure Upright (rank : Addr → ℕ) (F : Forest Addr Info) : Prop where
  rest : AtRest F
  tagged : ∀ ⦃a e⦄, F a = some e → e.data.marks.isleaf = e.data.leaf
  width : ∀ ⦃a e⦄, F a = some e → e.children.length ≤ width + 1
  rank : ∀ ⦃a e p⦄, F a = some e → e.parent = some p → rank p < rank a

section Layers

variable {rank : Addr → ℕ} {mem : Mem} {F : Forest Addr Info} {S : Set Addr} {a n n' p : Addr}
  {e x : Forest.Entry Addr Info} {t : NodeMemType}

/-- A node may give way to a copy of another type. -/
theorem Upright.replace (h : Upright rank F) (hn : F n = some x) (hn' : F n' = none)
    (t : NodeMemType) :
    Upright (Function.update rank n' (rank n)) (F.replace n n' { x.data with type := t }) := by
  have hrank {b : Addr} (hb : F b ≠ none) :
      Function.update rank n' (rank n) (Forest.moved n n' b) = rank b := by
    unfold Forest.moved
    by_cases hbn : b = n
    · simp [hbn]
    · rw [if_neg hbn, Function.update_of_ne]
      rintro rfl
      exact hb hn'
  have hdata {b : Addr} {y : Forest.Entry Addr Info} (hb : F b = some y) :
      (if b = n then { x.data with type := t } else y.data).marks = y.data.marks ∧
        (if b = n then { x.data with type := t } else y.data).leaf = y.data.leaf := by
    split
    · rename_i hbn
      subst hbn
      obtain rfl := Option.some.inj (hn.symm.trans hb)
      exact ⟨rfl, rfl⟩
    · exact ⟨rfl, rfl⟩
  refine ⟨h.rest.replace hn hn' t, fun b z hb => ?_, fun b z hb => ?_, fun b z q hb hq => ?_⟩
  · obtain ⟨c, y, hc, rfl, rfl⟩ := (Forest.replace_eq_some hn hn').mp hb
    rw [(hdata hc).1, (hdata hc).2]
    exact h.tagged hc
  · obtain ⟨c, y, hc, rfl, rfl⟩ := (Forest.replace_eq_some hn hn').mp hb
    simpa [Forest.Entry.moved] using h.width hc
  · obtain ⟨c, y, hc, rfl, rfl⟩ := (Forest.replace_eq_some hn hn').mp hb
    obtain ⟨r, hr, rfl⟩ := Option.map_eq_some_iff.mp hq
    obtain ⟨w, hw, -⟩ := h.rest.parent hc hr
    rw [hrank (by simp [hw]), hrank (by simp [hc])]
    exact h.rank hc hr

/-- The node behind an entry is marked as what it is. -/
theorem Upright.node (h : Upright rank F) (hF : mem.Holds F) (ha : F a = some e) :
    ∃ m, mem.node? a = some m ∧ e = m.entry e.data.retired ∧ m.Tagged := by
  obtain ⟨m, hm, he⟩ := node?_of_forest (hF.sub ha)
  refine ⟨m, hm, he, ?_⟩
  have htag := h.tagged ha
  rw [he] at htag
  cases m <;> exact htag

/-- A node with children is an internode. -/
theorem Upright.internode (h : Upright rank F) (hF : mem.Holds F) (ha : F a = some e)
    (hleaf : e.data.leaf = false) : ∃ o, mem.node? a = some (.internode o) ∧
      e = (Node.internode o).entry e.data.retired ∧ o.version.isleaf = false := by
  obtain ⟨m, hm, he, htag⟩ := h.node hF ha
  cases m with
  | leaf l =>
    rw [he] at hleaf
    cases hleaf
  | internode o => exact ⟨o, hm, he, htag⟩

theorem leaf_eq_false (hF : mem.Holds F) (ha : F a = some e) {c : Addr} (hc : c ∈ e.children) :
    e.data.leaf = false := by
  cases hleaf : e.data.leaf with
  | false => rfl
  | true =>
    rw [children_of_leaf hF ha hleaf] at hc
    cases hc

/-- The parent of a node is an internode with the node among its children. -/
theorem Upright.parent (h : Upright rank F) (hF : mem.Holds F) (ha : F a = some e)
    (hp : e.parent = some p) : ∃ y z, F p = some z ∧ z.data.leaf = false ∧
      mem.node? p = some (.internode y) ∧ z = (Node.internode y).entry z.data.retired ∧
      y.version.isleaf = false ∧ a ∈ y.children ∧ y.nkeys ≤ Masstree.width := by
  obtain ⟨z, hz, hmem⟩ := h.rest.parent ha hp
  have hleaf := leaf_eq_false hF hz hmem
  obtain ⟨y, hy, hyz, htag⟩ := h.internode hF hz hleaf
  have hchildren : z.children = y.children := congrArg Forest.Entry.children hyz
  have hwidth := h.width hz
  rw [hchildren] at hmem hwidth
  refine ⟨y, z, hz, hleaf, hy, hyz, htag, hmem, ?_⟩
  simpa [Internode.children] using hwidth

/-- An internode of the layer stands in a tree, with a child in each place. -/
theorem Upright.attached (h : Upright rank F) (hF : mem.Holds F) (hb : mem.Bounded S)
    (ha : F a = some e) (hleaf : e.data.leaf = false) : ∃ o, mem.Attached a o ∧
      e = (Node.internode o).entry e.data.retired ∧ ∀ i ≤ o.nkeys, o.child i ≠ 0 := by
  obtain ⟨o, ho, he, -⟩ := h.internode hF ha hleaf
  have hchild (i : ℕ) (hi : i ≤ o.nkeys) : ∃ y, F (o.child i) = some y := by
    have hmem : o.child i ∈ e.children := by
      rw [he]
      exact mem_children.mpr ⟨i, hi, rfl⟩
    obtain ⟨y, hy, -⟩ := h.rest.linked.down ha hmem
    exact ⟨y, hy⟩
  refine ⟨o, ⟨hb.null, hb.fresh, ho, fun hp => ?_, fun i hi _ => ?_⟩, he, fun i hi => ?_⟩
  · have hlink : e.parent = some o.parent := by
      rw [he]
      exact link_eq_some.mpr ⟨rfl, hp⟩
    obtain ⟨y, z, -, -, hy, -, htag, -⟩ := h.parent hF ha hlink
    exact ⟨y, hy, htag⟩
  · obtain ⟨y, hy⟩ := hchild i hi
    obtain ⟨m, hm, -, htag⟩ := h.node hF hy
    exact ⟨m, hm, htag⟩
  · obtain ⟨y, hy⟩ := hchild i hi
    exact hF.pos hy

/-- A node that is not locked may be locked. -/
theorem Upright.lockable (h : Upright rank F) (ha : F a = some e) {m : Node}
    (hm : mem.node? a = some m) (he : e = m.entry e.data.retired) (hfree : a ∉ mem.held)
    (build : Build) : Lockable build m.version ∧ m.version.deleted = false := by
  have hcalm := (h.rest.node ha).calm
  rw [he] at hcalm
  have hmarks : m.version.marks.Calm := by cases m <;> exact hcalm
  refine ⟨⟨?_, fun _ => ⟨hmarks.inserting, hmarks.splitting⟩⟩, hmarks.deleted⟩
  by_contra hl
  exact hfree ((mem_held hm).mpr (by simpa using hl))

/-- An internode finds its place below its parent. -/
theorem Upright.findsPlace {env : Env} (h : Upright rank F) (hF : mem.Holds F) {o : Internode}
    (ha : F a = some e)
    (he : e = (Node.internode o).entry e.data.retired) (hheld : mem.held ⊆ {a}) :
    FindsPlace env mem a o := by
  by_cases hp : o.parent = 0
  · refine Or.inl ⟨hp, ?_⟩
    have hnone : e.parent = none := by
      rw [he]
      exact link_eq_none.mpr hp
    have hroot := (h.rest.node ha).root hnone
    rw [he] at hroot
    exact hroot
  · have hlink : e.parent = some o.parent := by
      rw [he]
      exact link_eq_some.mpr ⟨rfl, hp⟩
    have hpa : o.parent ≠ a := fun hpa => h.rest.linked.irrefl ha (hpa ▸ hlink)
    obtain ⟨y, z, hz, -, hy, hyz, -, hmem, hkeys⟩ := h.parent hF ha hlink
    obtain ⟨hlock, hdel⟩ := h.lockable hz hy hyz (fun hheld' => hpa (hheld hheld')) env.build
    refine Or.inr ⟨hp, hpa, y, hy, hlock, hdel, fun _ => ?_, ?_⟩
    · exact (upperBoundBy_le (Nat.zero_le _)).trans hkeys
    · obtain ⟨posi, hposi⟩ := exists_childPosition (o.ikey0 0) hmem
      rw [hposi]
      rfl

end Layers

/-! ### Internodes -/

section Internodes

variable {env : Env} {fuel : ℕ} {rank : Addr → ℕ} {mem : Mem} {F : Forest Addr Info} {S : Set Addr}
  {p : Addr} {x : Forest.Entry Addr Info} {t : NodeMemType}

/-- The internode at `p` is not at depth 1, or is not to be moved to remote memory. -/
def DepthOk (mem : Mem) (p : Addr) (t : NodeMemType) : Prop :=
  t = .remote → ∀ o, mem.node? p = some (.internode o) → o.sidleMeta.depth ≠ 1

theorem isSome_updateLocalMemoryUsage (h : env.build.sidleCheck = false) (g : Global)
    (t : NodeMemType) (depth : ℕ) (size : ℤ) (isMigration isLeaf : Bool) :
    (g.updateLocalMemoryUsage env.build.sidleCheck env.checkMemoryUsage t depth size isMigration
      isLeaf).isSome = true := by
  simp [Global.updateLocalMemoryUsage, h]

/-- An internode that has been deleted, or is of the type already, is unlocked. -/
theorem run_internodeMigration_refused (env : Env) (fuel : ℕ) {o : Internode}
    (ho : mem.node? p = some (.internode o)) (hl : o.version.locked = true)
    (hno : o.version.deleted = true ∨ o.sidleMeta.type = t) :
    ∃ mem', machine.run (internodeMigration env fuel p t false) mem = done 0 mem' := by
  have hl' : (Node.internode o).version.locked = true := hl
  rw [internodeMigration_eq, machine.run_bind_of_done (run_readVersion ho),
    machine.run_bind_of_done (run_assert fun _ => hl'),
      machine.run_bind_of_done (run_readInternode ho),
    if_pos (by simpa [Node.version] using hno), machine.run_bind_of_done (run_unlock ho hl)]
  exact ⟨_, rfl⟩

/-- The migration of a locked internode returns. -/
theorem exists_run_internodeMigration (hcheck : env.build.sidleCheck = false)
    (ht : t = .local_ ∨ t = .remote) (h : Upright rank F) (hF : mem.Holds F) (hb : mem.Bounded S)
    (hp : F p = some x) (hleaf : x.data.leaf = false) (hheld : mem.held = {p})
    (hdepth : DepthOk mem p t) :
    ∃ q mem', machine.run (internodeMigration env (fuel + 2) p t false) mem = done q mem' := by
  obtain ⟨o, ho, hx, hall⟩ := h.attached hF hb hp hleaf
  have hl : o.version.locked = true := (mem_held ho.node).mp (hheld ▸ rfl)
  have hdel : o.version.deleted = false := by
    have hcalm := (h.rest.node hp).calm.deleted
    rw [hx] at hcalm
    exact hcalm
  by_cases htype : o.sidleMeta.type = t
  · obtain ⟨mem', hrun⟩ := run_internodeMigration_refused env (fuel + 2) ho.node hl (Or.inr htype)
    exact ⟨0, mem', hrun⟩
  · have hstarts : Starts env mem o t := by
      refine ⟨hdel, htype, fun _ => ?_, isSome_updateLocalMemoryUsage hcheck _ _ _ _ _ _⟩
      exact ht.elim Or.inr fun hr => Or.inl (hdepth hr o ho.node)
    have hmigrates : Migrates env mem p o t false :=
      ⟨nofun, hstarts, h.findsPlace hF hp hx hheld.subset⟩
    obtain ⟨q, mem', hrun, -⟩ := exists_run_locked ho hl fuel hmigrates hall
    exact ⟨q, mem', hrun⟩

/-- What the migration of the internode `p` with the entry `x` comes to. -/
def Moved (F : Forest Addr Info) (p : Addr) (x : Forest.Entry Addr Info) (t : NodeMemType)
    (q : Addr)
    (mem' : Mem) : Prop :=
  (q = 0 ∧ x.data.type = t ∧ mem'.Holds F) ∨
    (x.parent = link q ∧ ∃ new_, F new_ = none ∧
      mem'.Holds (F.replace p new_ { x.data with type := t }))

/-- **The migration of an internode returns**, and has locked the parent, or nothing. -/
theorem returns_internodeMigration (hcheck : env.build.sidleCheck = false)
    (ht : t = .local_ ∨ t = .remote) (h : Upright rank F) (hF : mem.Holds F) (hb : mem.Bounded S)
    (hp : F p = some x) (hleaf : x.data.leaf = false) (isNew : Bool)
    (hheld : mem.held = if isNew then ∅ else {p}) (hdepth : DepthOk mem p t) :
    machine.Returns (internodeMigration env (fuel + 2) p t isNew) mem fun q mem' =>
      Moved F p x t q mem' ∧ mem'.Bounded S ∧ HandsOn q mem'.held := by
  have hrun : ∃ q mem', machine.run (internodeMigration env (fuel + 2) p t isNew) mem =
      done q mem' := by
    cases isNew with
    | false => exact exists_run_internodeMigration hcheck ht h hF hb hp hleaf hheld hdepth
    | true =>
      obtain ⟨o, ho, hx, -⟩ := h.attached hF hb hp hleaf
      have hfree : p ∉ mem.held := by simp [hheld]
      have hlock := run_lock (fuel + 1) ho.node (h.lockable hp ho.node hx hfree env.build).1
      obtain ⟨hb₁, -, hheld₁⟩ := tracks_lock mem hb hheld _ _ hlock
      rw [internodeMigration_isNew, machine.run_bind_of_done hlock]
      refine exists_run_internodeMigration hcheck ht h
        (hF.quiet (keeps_lock env.build p _ mem _ _ hlock))
        hb₁ hp hleaf ?_ fun hr o' ho' => ?_
      · exact hheld₁.trans (by rw [if_pos rfl, insert_empty_eq])
      · obtain rfl := Node.internode.inj (Option.some.inj ((node?_setNode ho.node).symm.trans ho'))
        exact hdepth hr o ho.node
  obtain ⟨q, mem', hrun⟩ := hrun
  exact returns_of_run hrun ⟨holds_internodeMigration hF h.rest hp isNew q mem' hrun,
    tracks_internodeMigration isNew mem hb hheld q mem' hrun⟩

/-- `need_continue_migrate` returns where no place is empty.  A demotion goes on over nodes below
depth 1 only. -/
theorem returns_needContinueMigrate_of_attached (ht : t = .local_ ∨ t = .remote) {o : Internode}
    (ho : mem.Attached p o) (hall : ∀ i ≤ o.nkeys, o.child i ≠ 0) (k : ℕ) :
    machine.Returns (needContinueMigrate (masstreeOps env fuel) p t k) mem fun s mem' =>
      mem' = mem ∧ (s = .proceed → DepthOk mem p t) := by
  rcases ht with rfl | rfl
  · have hmeta : machine.run ((masstreeOps env fuel).nodeMetadata p) mem = done o.sidleMeta mem :=
      machine.run_bind_of_done (run_readInternode ho.node)
    refine returns_ite (fun h0 => absurd h0 ho.ne_zero) fun _ => returns_bind_of_run hmeta ?_
    exact returns_ret ⟨rfl, fun _ => nofun⟩
  · have hgo := (goesOn_needContinueMigrate env fuel ho k).1
    by_cases hstop : o.sidleMeta.depth ≤ mem.global.threshold.demotionDepthThreshold ∨
      o.sidleMeta.depth = 1
    · rw [if_pos hstop] at hgo
      exact returns_of_run hgo ⟨rfl, nofun⟩
    · rw [if_neg hstop] at hgo
      have hchild (i : ℕ) (hi : i < 0 + (o.nkeys + 1)) := hall i (by omega)
      obtain ⟨b, hvisit, -⟩ := exists_run_visitChildren env fuel (o.nkeys + 1) 0
        (fun i _ hi => ho.child i (by omega)) fun i _ hi _ => hchild i hi
      rw [machine.run_bind_of_done hvisit] at hgo
      refine returns_of_run hgo ⟨rfl, fun _ _ o' ho' => ?_⟩
      obtain rfl := Node.internode.inj (Option.some.inj (ho.node.symm.trans ho'))
      exact fun h1 => hstop (Or.inr h1)

/-- **`need_continue_migrate` returns.** -/
theorem returns_needContinueMigrate (ht : t = .local_ ∨ t = .remote) (h : Upright rank F)
    (hF : mem.Holds F) (hb : mem.Bounded S) (hp : F p = some x)
    (hleaf : x.data.leaf = false) (k : ℕ) :
    machine.Returns (needContinueMigrate (masstreeOps env fuel) p t k) mem fun s mem' =>
      mem' = mem ∧ (s = .proceed → DepthOk mem p t) := by
  obtain ⟨o, ho, -, hall⟩ := h.attached hF hb hp hleaf
  exact returns_needContinueMigrate_of_attached ht ho hall k

end Internodes

/-! ### Climbs -/

section Climbs

variable {env : Env} {fuel : ℕ} {rank : Addr → ℕ} {mem : Mem} {F : Forest Addr Info} {S : Set Addr}
  {p q : Addr} {x : Forest.Entry Addr Info} {t : NodeMemType}

/-- A node that is there can be unlocked if it is locked. -/
theorem returns_masstreeUnlock (hp : mem.blocks p ≠ none) :
    machine.Returns (masstreeUnlock env p) mem fun _ _ => True := by
  obtain ⟨b, hb⟩ := Option.ne_none_iff_exists'.mp hp
  have hn : mem.node? p = some b.node := by simp [Mem.node?, hb]
  refine returns_ite (fun _ => returns_ret trivial)
    fun _ => returns_bind_of_run (run_readVersion hn) ?_
  exact returns_ite (fun hl => returns_of_run (run_unlock hn hl) trivial)
    fun _ => returns_ret trivial

theorem returns_addDelayed (node : Addr) :
    machine.Returns (addDelayed (masstreeOps env fuel) node) mem fun _ _ => True := by
  have hadd : machine.Returns (access some fun _ mem =>
      ((), { mem with demotionQueue := mem.demotionQueue ++ [node] })) mem fun _ _ => True :=
    returns_of_run (run_access rfl) trivial
  exact returns_ite (fun h => by cases h) fun _ => hadd

theorem run_sidleCheck (hcheck : env.build.sidleCheck = false) (b : Bool) :
    machine.run ((masstreeOps env fuel).sidleCheck b) mem = done () mem := by
  change machine.run (if _ then _ else _) mem = _
  rw [if_neg (by simp [hcheck])]
  rfl

theorem Mem.Bounded.all (h : mem.Bounded S) : mem.Bounded {a | mem.blocks a ≠ none} :=
  ⟨h.null, h.lt, fun _ ha => ha⟩

/-- A step of a climb, where the rest of it returns. -/
theorem returns_climbStep (hcheck : env.build.sidleCheck = false) (ht : t = .local_ ∨ t = .remote)
    (ti : Addr) (steps k : ℕ) (isNew : Bool)
    (hnext : ∀ {rank mem F q y S}, Upright rank F → mem.Holds F → mem.Bounded S → F q = some y →
      y.data.leaf = false → rank q < steps → mem.held = {q} → DepthOk mem q t →
      machine.Returns (migrateInternode (masstreeOps env (fuel + 2)) steps q t ti (k + 1)) mem
        fun _ _ => True)
    (h : Upright rank F) (hF : mem.Holds F) (hb : mem.Bounded S) (hp : F p = some x)
    (hleaf : x.data.leaf = false) (hsteps : rank p < steps + 1)
    (hheld : mem.held = if isNew then ∅ else {p}) (hdepth : DepthOk mem p t) :
    machine.Returns (do
      let parent ← (masstreeOps env (fuel + 2)).internodeMigration p t isNew
      if parent = 0 then pure ()
      else do
        let state ← needContinueMigrate (masstreeOps env (fuel + 2)) parent t (k + 1)
        continueWith (masstreeOps env (fuel + 2)) parent t
          (migrateInternode (masstreeOps env (fuel + 2)) steps parent t ti (k + 1)) state
        (masstreeOps env (fuel + 2)).unlock parent) mem fun _ _ => True := by
  refine (returns_internodeMigration hcheck ht h hF hb hp hleaf isNew hheld hdepth).bind
    fun q mem₁ h₁ => ?_
  obtain ⟨hmoved, hb₁, hheld₁⟩ := h₁
  refine returns_ite (fun _ => returns_ret trivial) fun hq => ?_
  obtain ⟨hparent, new_, hnew, hF₁⟩ := hmoved.resolve_left fun h => hq h.1
  have hq' : x.parent = some q := hparent.trans (link_eq_some.mpr ⟨rfl, hq⟩)
  have h₁ := h.replace hp hnew t
  have hself := h.rest.linked.replace_self (d := { x.data with type := t }) hp hnew
  obtain ⟨e, he, hmem⟩ := h₁.rest.parent hself hq'
  have heleaf := leaf_eq_false hF₁ he hmem
  -- the rank of the parent is what it was
  have hrank : Function.update rank new_ (rank p) q < steps := by
    obtain ⟨z, hz, -⟩ := h.rest.parent hp hq'
    rw [Function.update_of_ne]
    · exact (h.rank hp hq').trans_le (Nat.lt_succ_iff.mp hsteps)
    · rintro rfl
      rw [hnew] at hz
      cases hz
  have hheldq : mem₁.held = {q} := (hheld₁.resolve_left fun h => hq h.1).2
  refine (returns_needContinueMigrate ht h₁ hF₁ hb₁ he heleaf (k + 1)).bind fun s mem₂ h₂ => ?_
  obtain ⟨rfl, hgo⟩ := h₂
  have hcontinue : machine.Returns (continueWith (masstreeOps env (fuel + 2)) q t
      (migrateInternode (masstreeOps env (fuel + 2)) steps q t ti (k + 1)) s) mem₂
        fun _ _ => True := by
    cases s with
    | proceed => exact hnext h₁ hF₁ hb₁ he heleaf hrank hheldq (hgo rfl)
    | stop => exact returns_ret trivial
    | delay => exact returns_bind_of_run (run_sidleCheck hcheck _) (returns_addDelayed q)
  -- the parent is still there, under the old address at least
  have hq₁ : mem₂.blocks q ≠ none := by
    obtain ⟨m, hm, -⟩ := h₁.node hF₁ he
    intro hnone
    rw [Mem.node?, hnone] at hm
    cases hm
  refine (hcontinue.and (tracks_continueWith ti steps k s mem₂ hb₁.all hheldq)).bind
    fun _ mem₃ h₃ => ?_
  exact returns_masstreeUnlock (h₃.2.1.kept q hq₁)

/-- **Every climb returns.**  The induction is on its length, which the rank bounds. -/
theorem returns_migrateInternode (hcheck : env.build.sidleCheck = false)
    (ht : t = .local_ ∨ t = .remote) (ti : Addr) (steps k : ℕ)
    (hk : (k == 0 && t == .remote) = false)
    (h : Upright rank F) (hF : mem.Holds F) (hb : mem.Bounded S) (hp : F p = some x)
    (hleaf : x.data.leaf = false) (hsteps : rank p < steps) (hheld : mem.held = {p})
    (hdepth : DepthOk mem p t) :
    machine.Returns (migrateInternode (masstreeOps env (fuel + 2)) steps p t ti k) mem
      fun _ _ => True := by
  induction steps generalizing rank mem F p x k S with
  | zero => exact absurd hsteps (Nat.not_lt_zero _)
  | succ steps ih =>
    refine returns_bind_of_run (run_sidleCheck hcheck _) ?_
    rw [hk]
    refine returns_bind_of_run rfl (returns_ite (fun h => by cases h) fun _ => ?_)
    exact returns_climbStep hcheck ht ti steps k false
      (fun h hF hb hq hleaf => ih (k + 1) rfl h hF hb hq hleaf)
      h hF hb hp hleaf hsteps hheld hdepth

/-- An internode that was popped from the queue. -/
theorem returns_migratePopped (hcheck : env.build.sidleCheck = false) (ti : Addr) (steps : ℕ)
    (h : Upright rank F) (hF : mem.Holds F) (hb : mem.Bounded S) (hp : F p = some x)
    (hleaf : x.data.leaf = false) (hsteps : rank p < steps) (hheld : mem.held = ∅) :
    machine.Returns (migrateInternode (masstreeOps env (fuel + 2)) steps p .remote ti 0) mem
      fun _ _ => True := by
  obtain ⟨steps, rfl⟩ : ∃ m, steps = m + 1 := ⟨steps - 1, by omega⟩
  refine returns_bind_of_run (run_sidleCheck hcheck _) ?_
  have hstops : machine.Returns (stopsPopped (masstreeOps env (fuel + 2)) true p .remote 0) mem
      fun stopped mem' => mem' = mem ∧ (stopped = false → DepthOk mem p .remote) := by
    refine ((returns_needContinueMigrate (Or.inr rfl) h hF hb hp hleaf 0).and
      (ensures_needContinueMigrate hF hp 0)).bind
        fun s mem₁ h₁ => returns_ret ⟨h₁.1.1, fun hs => ?_⟩
    cases s with
    | proceed => exact h₁.1.2 rfl
    | stop => cases hs
    | delay => exact absurd rfl (h₁.2.2.2.2 rfl)
  refine hstops.bind fun stopped mem₁ h₁ => ?_
  obtain ⟨rfl, hdepth⟩ := h₁
  refine returns_ite (fun _ => returns_ret trivial) fun hs => ?_
  refine returns_climbStep hcheck (Or.inr rfl) ti steps 0 true
    (fun h hF hb hq hleaf hsteps hheld hdepth => ?_)
    h hF hb hp hleaf hsteps hheld (hdepth (by simpa using hs))
  exact returns_migrateInternode hcheck (Or.inr rfl) ti steps 1 rfl h hF hb hq hleaf hsteps
    hheld hdepth

end Climbs

/-! ### Leaves -/

/-- The leaf `l` at `a` as it stands in the list of leaves: the leaf after it and the one before it
are there, that one knows it, and so is its bag of suffixes. -/
structure Listed (mem : Mem) (a : Addr) (l : Leaf) : Prop where
  unmarked : isMarked l.next = false
  next : l.next ≠ 0 → l.next ≠ a ∧ ∃ r, mem.node? l.next = some (.leaf r)
  prev : l.prev ≠ 0 → l.prev ≠ a ∧ ∃ r, mem.node? l.prev = some (.leaf r) ∧ r.next = a
  bag : l.ksuf ≠ 0 → ∃ b, mem.bag? l.ksuf = some b

section Links

variable {mem : Mem} {fuel : ℕ} {n nn next prev b : Addr} {l m k : Leaf}

/-- Of the leaves at most the links have changed. -/
structure LinksOnly (mem mem' : Mem) : Prop where
  leaf : ∀ ⦃a l⦄, mem.node? a = some (.leaf l) →
    ∃ l', mem'.node? a = some (.leaf l') ∧ l'.version = l.version ∧ l'.ksuf = l.ksuf
  bag : ∀ a, mem'.bag? a = mem.bag? a

instance : IsPreorder Mem LinksOnly where
  refl _ := ⟨fun _ l h => ⟨l, h, rfl, rfl⟩, fun _ => rfl⟩
  trans _ _ _ h h' := by
    refine ⟨fun a l hl => ?_, fun a => (h'.bag a).trans (h.bag a)⟩
    obtain ⟨l₁, hl₁, hv₁, hk₁⟩ := h.leaf hl
    obtain ⟨l₂, hl₂, hv₂, hk₂⟩ := h'.leaf hl₁
    exact ⟨l₂, hl₂, hv₂.trans hv₁, hk₂.trans hk₁⟩

theorem linksOnly_setNode (hm : mem.node? b = some (.leaf m)) (hv : k.version = m.version)
    (hk : k.ksuf = m.ksuf) : LinksOnly mem (mem.setNode b (.leaf k)) := by
  refine ⟨fun a l hl => ?_, fun _ => rfl⟩
  rw [node?_setNode_eq hm]
  split
  · rename_i hab
    rw [hab, hm] at hl
    cases hl
    exact ⟨k, rfl, hv, hk⟩
  · exact ⟨l, hl, rfl, rfl⟩

theorem linksOnly_writeNext (v : ℕ) :
    machine.Keeps LinksOnly (writeLeaf n fun l => { l with next := v }) :=
  keeps_access fun _ _ hl => linksOnly_setNode (leaf?_eq_some.mp hl) rfl rfl

theorem linksOnly_writePrev (v : Addr) :
    machine.Keeps LinksOnly (writeLeaf n fun l => { l with prev := v }) :=
  keeps_access fun _ _ hl => linksOnly_setNode (leaf?_eq_some.mp hl) rfl rfl

theorem linksOnly_casNext (expected desired : ℕ) :
    machine.Keeps LinksOnly (casNext n expected desired) := keeps_access fun mem l hl => by
  split
  · exact linksOnly_setNode (k := { l with next := desired }) (leaf?_eq_some.mp hl) rfl rfl
  · exact refl_of LinksOnly mem

theorem linksOnly_lockNext (fuel : ℕ) : machine.Keeps LinksOnly (lockNext n fuel) := by
  induction fuel with
  | zero => exact keeps_diverge
  | succ fuel ih =>
    refine keeps_read.bind fun l => keeps_ite keeps_ret ?_
    exact keeps_join keeps_ret (linksOnly_casNext _ _) fun _ => keeps_ite keeps_ret ih

theorem linksOnly_lockPrev (fuel : ℕ) : machine.Keeps LinksOnly (lockPrev n true fuel) := by
  induction fuel with
  | zero => exact keeps_diverge
  | succ fuel ih =>
    refine keeps_read.bind fun l => keeps_ite keeps_ret ?_
    exact (linksOnly_casNext _ _).bind fun _ => keeps_ite keeps_ret ih

theorem linksOnly_changeLink (fuel : ℕ) : machine.Keeps LinksOnly (changeLink fuel n nn) := by
  refine (linksOnly_lockNext fuel).bind fun next => (linksOnly_writeNext next).bind fun _ => ?_
  have hset : machine.Keeps LinksOnly (setPrevOf next nn) :=
    keeps_ite (linksOnly_writePrev nn) keeps_ret
  refine hset.bind fun _ => (linksOnly_lockPrev fuel).bind fun prev => ?_
  exact keeps_ite ((linksOnly_writeNext nn).bind fun _ => linksOnly_writePrev prev) keeps_ret

/-- The leaves that `change_link` comes to while it has not yet told the one before. -/
structure Linking (n nn next prev : Addr) (mem : Mem) : Prop where
  node : ∃ l, mem.node? n = some (.leaf l) ∧ l.prev = prev
  copy : ∃ r, mem.node? nn = some (.leaf r)
  next : next ≠ 0 → ∃ r, mem.node? next = some (.leaf r)
  prev : prev ≠ 0 → ∃ r, mem.node? prev = some (.leaf r) ∧ r.next = n

/-- A store to a leaf, of the one link that the others do not need. -/
theorem Linking.setNode (h : Linking n nn next prev mem) (hm : mem.node? b = some (.leaf m))
    (hprev : b = n → k.prev = m.prev) (hnext : b = prev → k.next = m.next) :
    Linking n nn next prev (mem.setNode b (.leaf k)) := by
  have hleaf {c : Addr} (hc : ∃ r, mem.node? c = some (.leaf r)) :
      ∃ r, (mem.setNode b (.leaf k)).node? c = some (.leaf r) := by
    obtain ⟨r, hr⟩ := hc
    rw [node?_setNode_eq hm]
    split
    · exact ⟨k, rfl⟩
    · exact ⟨r, hr⟩
  refine ⟨?_, hleaf h.copy, fun h0 => hleaf (h.next h0), fun h0 => ?_⟩
  · obtain ⟨l, hl, hlp⟩ := h.node
    rw [node?_setNode_eq hm]
    split
    · rename_i hnb
      rw [hnb, hm] at hl
      cases hl
      exact ⟨k, rfl, (hprev hnb.symm).trans hlp⟩
    · exact ⟨l, hl, hlp⟩
  · obtain ⟨r, hr, hrn⟩ := h.prev h0
    rw [node?_setNode_eq hm]
    split
    · rename_i hpb
      rw [hpb, hm] at hr
      cases hr
      exact ⟨k, rfl, (hnext hpb.symm).trans hrn⟩
    · exact ⟨r, hr, hrn⟩

theorem Linking.run_lockNext (h : Linking n nn l.next prev mem) (hl : mem.node? n = some (.leaf l))
    (hmark : isMarked l.next = false) (hpn : prev ≠ n) (fuel : ℕ) :
    machine.Returns (lockNext n (fuel + 1)) mem fun next mem' =>
      next = l.next ∧ Linking n nn l.next prev mem' := by
  refine returns_bind_of_run (run_readLeaf hl)
    (returns_ite (fun h0 => returns_ret ⟨h0.symm, h⟩) fun _ => ?_)
  rw [hmark]
  have hcas : machine.run (casNext n l.next (mark l.next)) mem =
      done true (mem.setNode n (.leaf { l with next := mark l.next })) := by
    unfold casNext
    rw [run_access (leaf?_eq_some.mpr hl), if_pos rfl]
  refine returns_ite (fun h0 => by cases h0) fun _ => returns_bind_of_run hcas ?_
  refine returns_ite (fun _ => returns_ret ⟨rfl, ?_⟩) fun hno => absurd rfl hno
  exact h.setNode (k := { l with next := mark l.next }) hl (fun _ => rfl)
    fun hnp => absurd hnp.symm hpn

theorem Linking.run_lockPrev (h : Linking n nn next prev mem) (fuel : ℕ) :
    machine.Returns (lockPrev n true (fuel + 1)) mem fun p mem' => p = prev ∧
      (p ≠ 0 → ∃ r, mem'.node? p = some (.leaf r)) ∧ ∃ r, mem'.node? nn = some (.leaf r) := by
  obtain ⟨l, hl, rfl⟩ := h.node
  refine returns_bind_of_run (run_readLeaf hl) (returns_ite (fun h0 => ?_) fun h0 => ?_)
  · have hprev : l.prev = 0 := by simpa using h0
    exact returns_ret ⟨hprev.symm, fun h => absurd rfl h, h.copy⟩
  · obtain ⟨r, hr, hrn⟩ := h.prev (by simpa using h0)
    have hcas : machine.run (casNext l.prev n (mark n)) mem =
        done true (mem.setNode l.prev (.leaf { r with next := mark n })) := by
      unfold casNext
      rw [run_access (leaf?_eq_some.mpr hr), if_pos hrn]
    refine returns_bind_of_run hcas (returns_ite (fun _ => returns_ret ⟨rfl, fun _ => ?_, ?_⟩)
      fun hno => absurd rfl hno)
    · exact ⟨_, node?_setNode hr⟩
    · obtain ⟨c, hc⟩ := h.copy
      rw [node?_setNode_eq hr]
      split
      · exact ⟨_, rfl⟩
      · exact ⟨c, hc⟩

/-- `change_link` returns. -/
theorem returns_changeLink (hl : mem.node? n = some (.leaf l)) (hlisted : Listed mem n l)
    (hnn : ∃ r, mem.node? nn = some (.leaf r)) (hne : nn ≠ n) (hprev : l.prev ≠ nn)
    (hn0 : n ≠ 0) (fuel : ℕ) :
    machine.Returns (changeLink (fuel + 1) n nn) mem fun _ mem' => LinksOnly mem mem' := by
  have hstart : Linking n nn l.next l.prev mem :=
    ⟨⟨l, hl, rfl⟩, hnn, fun h0 => (hlisted.next h0).2, fun h0 => (hlisted.prev h0).2⟩
  have hpn : l.prev ≠ n := by
    by_cases h0 : l.prev = 0
    · exact h0 ▸ hn0.symm
    · exact (hlisted.prev h0).1
  have hrun : machine.Returns (changeLink (fuel + 1) n nn) mem fun _ _ => True := by
    refine (hstart.run_lockNext hl hlisted.unmarked hpn fuel).bind fun next mem₁ h₁ => ?_
    obtain ⟨rfl, h₁⟩ := h₁
    obtain ⟨r, hr⟩ := h₁.copy
    refine returns_bind_of_run (run_writeLeaf hr) ?_
    have h₂ := h₁.setNode (k := { r with next := l.next }) hr (fun h => absurd h hne)
      fun h => absurd h.symm hprev
    have hset : machine.Returns (setPrevOf l.next nn)
      (mem₁.setNode nn (.leaf { r with next := l.next }))
        fun _ mem' => Linking n nn l.next l.prev mem' := by
      refine returns_ite (fun h0 => ?_) fun _ => returns_ret h₂
      obtain ⟨q, hq⟩ := h₂.next h0
      exact returns_of_run (run_writeLeaf hq) (h₂.setNode (k := { q with prev := nn }) hq
        (fun h => absurd h (hlisted.next h0).1) fun _ => rfl)
    refine hset.bind fun _ mem₃ h₃ => (h₃.run_lockPrev fuel).bind fun p mem₄ h₄ => ?_
    obtain ⟨-, hp, c, hc⟩ := h₄
    refine returns_ite (fun h0 => ?_) fun _ => returns_ret trivial
    obtain ⟨q, hq⟩ := hp h0
    refine returns_bind_of_run (run_writeLeaf hq) ?_
    obtain ⟨c', hc'⟩ : ∃ c', (mem₄.setNode p (.leaf { q with next := nn })).node? nn =
        some (.leaf c') := by
      rw [node?_setNode_eq hq]
      split
      · exact ⟨_, rfl⟩
      · exact ⟨c, hc⟩
    exact returns_of_run (run_writeLeaf hc') trivial
  exact (hrun.and (linksOnly_changeLink _ mem)).imp fun _ _ h => h.2

end Links

section Leaves

variable {env : Env} {fuel : ℕ} {rank : Addr → ℕ} {mem : Mem} {F : Forest Addr Info} {S : Set Addr}
  {a new_ : Addr} {l : Leaf} {e : Forest.Entry Addr Info} {t : NodeMemType}

/-- The parent of the leaf `l` at `a`, as a migration needs it. -/
structure HasParent (build : Build) (mem : Mem) (a : Addr) (l : Leaf) (y : Internode) : Prop where
  ne_zero : l.parent ≠ 0
  ne : l.parent ≠ a
  node : mem.node? l.parent = some (.internode y)
  lockable : Lockable build y.version
  deleted : y.version.deleted = false
  isleaf : y.version.isleaf = false
  nkeys : y.nkeys ≤ width

/-- The unlock of a node that is there. -/
theorem run_unlockLocked (env : Env) {m : Node} (hm : mem.node? a = some m) : ∃ mem',
    machine.run (unlockLocked env a) mem = done () mem' ∧ ∀ b,
      b ≠ a → mem'.node? b = mem.node? b := by
  unfold unlockLocked
  rw [machine.run_bind_of_done (run_readVersion hm)]
  cases hl : m.version.locked with
  | true => exact ⟨_, run_unlock hm hl, fun b hb => node?_setNode_of_ne hb⟩
  | false => exact ⟨mem, rfl, fun _ _ => rfl⟩

theorem run_deallocateLeaf (hl : mem.node? a = some (.leaf l))
    (hbag : l.ksuf ≠ 0 → ∃ b, mem.bag? l.ksuf = some b) : ∃ mem',
    machine.run (deallocateLeaf a) mem = done () mem' ∧ ∀ b, mem'.node? b = mem.node? b := by
  unfold deallocateLeaf
  rw [machine.run_bind_of_done (run_readLeaf hl)]
  by_cases h0 : l.ksuf = 0
  · rw [if_neg (by simp [h0])]
    exact ⟨_, run_retireBlock hl, fun _ => node?_retire⟩
  · obtain ⟨b, hb⟩ := hbag h0
    have hretire : machine.run (retireBag l.ksuf) mem = done () (mem.retireBag l.ksuf) :=
      run_access hb
    rw [if_pos h0, machine.run_bind_of_done hretire]
    exact ⟨_, run_retireBlock (show (mem.retireBag l.ksuf).node? a = _ from hl),
      fun _ => node?_retire⟩

/-- The nodes are unlocked. -/
theorem exists_run_giveUp {b p : Addr} {m n : Node} (ha : mem.node? a = some m)
    (hla : m.version.locked = true) (hb : mem.node? b = some n) (hlb : n.version.locked = true)
    (hab : a ≠ b) (hp : p ≠ 0 → p ≠ a ∧ p ≠ b ∧ ∃ k, mem.node? p = some k ∧
      k.version.locked = true) :
    ∃ mem', machine.run (giveUp env a b p) mem = done 0 mem' := by
  have hb₁ := (node?_setNode_of_ne hab.symm (n := m.setVersion m.version.unlock)).trans hb
  unfold giveUp
  rw [machine.run_bind_of_done (run_unlock ha hla), machine.run_bind_of_done (run_unlock hb₁ hlb)]
  by_cases h0 : p = 0
  · rw [if_neg (by simp [h0])]
    exact ⟨_, rfl⟩
  · obtain ⟨hpa, hpb, k, hk, hlk⟩ := hp h0
    have hk₁ := (node?_setNode_of_ne hpa (n := m.setVersion m.version.unlock)).trans hk
    have hk₂ := (node?_setNode_of_ne hpb (n := n.setVersion n.version.unlock)).trans hk₁
    rw [if_pos h0, machine.run_bind_of_done (run_unlock hk₂ hlk)]
    exact ⟨_, rfl⟩

/-- The replacement of a leaf by its copy returns. -/
theorem exists_run_replaceLeaf (fuel : ℕ) {y : Internode} (hl : mem.node? a = some (.leaf l))
    (hlocked : l.version.locked = true) (hlisted : Listed mem a l) (ha0 : a ≠ 0)
    (hnew : ∃ r, mem.node? new_ = some (.leaf r) ∧ r.version.locked = true) (hne : new_ ≠ a)
    (hprev : l.prev ≠ new_) (hparent : HasParent env.build mem a l y) :
    ∃ q mem', machine.run (replaceLeaf env (fuel + 2) a new_) mem = done q mem' := by
  obtain ⟨r, hr, hrlocked⟩ := hnew
  have hpnew : l.parent ≠ new_ := by
    intro hp
    have hy := hparent.node
    rw [hp, hr] at hy
    cases hy
  let y₁ : Internode := { y with version := y.version.lock }
  let s₁ := mem.setNode l.parent (.internode y₁)
  have hlock : machine.run (lockedParent env.build a (fuel + 2)) mem = done l.parent s₁ :=
    run_lockedParent hl hlocked hparent.ne_zero hparent.node (fun _ => hparent.isleaf) fuel
      hparent.lockable
  have hy₁ : s₁.node? l.parent = some (.internode y₁) := node?_setNode hparent.node
  have hl₁ : s₁.node? a = some (.leaf l) := (node?_setNode_of_ne hparent.ne.symm).trans hl
  have hr₁ : s₁.node? new_ = some (.leaf r) := (node?_setNode_of_ne hpnew.symm).trans hr
  have hdel : (Node.internode y₁).version.deleted = false :=
    (NodeVersion.deleted_setFlag _ (by decide)).trans hparent.deleted
  have hupper : y₁.upper (l.ikey0 0) ≤ width :=
    (upperBoundBy_le (Nat.zero_le _)).trans hparent.nkeys
  have hsearch : machine.run (replaceLeaf env (fuel + 2) a new_) mem = machine.run
      ((y₁.childPosition (l.ikey0 0) a).elim (giveUp env a new_ l.parent) fun posi => do
        assignCopy l.parent posi new_
        changeLink (fuel + 2) a new_
        markLocked env.build a NodeVersion.markDeleted
        deallocateLeaf a
        unlockLocked env a
        unlockLocked env new_
        pure l.parent) s₁ := by
    unfold replaceLeaf
    rw [machine.run_bind_of_done hlock, machine.run_bind_of_done (run_readVersion hl₁),
      if_neg (by simp [hparent.ne_zero]), machine.run_bind_of_done (run_readVersion hy₁), hdel]
    rw [pure_eq_ret, ret_bind]
    simp only [Bool.false_eq_true, if_false]
    rw [machine.run_bind_of_done (run_readLeaf hl₁),
      machine.run_bind_of_done (run_readInternode hy₁)]
    refine (machine.run_bind_of_done (run_assert fun _ => by simpa using hupper)).trans ?_
    cases y₁.childPosition (l.ikey0 0) a <;> rfl
  rw [hsearch]
  cases hposi : y₁.childPosition (l.ikey0 0) a with
  | none =>
    -- the parent does not know the leaf
    have hylocked : (Node.internode y₁).version.locked = true := flag_setFlag (by decide) _
    obtain ⟨mem', hrun⟩ : ∃ mem', machine.run (giveUp env a new_ l.parent) s₁ = done 0 mem' :=
      exists_run_giveUp hl₁ hlocked hr₁ hrlocked hne.symm
        fun _ => ⟨hparent.ne, hpnew, _, hy₁, hylocked⟩
    exact ⟨0, mem', hrun⟩
  | some posi =>
    -- the copy is hung up below the parent
    let s₂ := s₁.setNode new_ (.leaf { r with parent := l.parent })
    have hy₂ : s₂.node? l.parent = some (.internode y₁) := (node?_setNode_of_ne hpnew).trans hy₁
    let y₃ : Internode := { y₁ with child := Function.update y₁.child posi new_ }
    let s₃ := s₂.setNode l.parent (.internode y₃)
    have hassign : machine.run (assignCopy l.parent posi new_) s₁ = done () s₃ := by
      unfold assignCopy
      rw [machine.run_bind_of_done (run_setParent hr₁)]
      exact run_writeInternode hy₂
    have hkept {b : Addr} {m : Leaf} (hb : b ≠ new_) (hm : mem.node? b = some (.leaf m)) :
        s₃.node? b = some (.leaf m) := by
      have hbp : b ≠ l.parent := by
        rintro rfl
        rw [hparent.node] at hm
        cases hm
      rw [node?_setNode_of_ne hbp, node?_setNode_of_ne hb, node?_setNode_of_ne hbp, hm]
    have hr₃ : s₃.node? new_ = some (.leaf { r with parent := l.parent }) :=
      (node?_setNode_of_ne hpnew.symm).trans (node?_setNode hr₁)
    have hl₃ := hkept hne.symm hl
    have hlisted₃ : Listed s₃ a l := by
      refine ⟨hlisted.unmarked, fun h0 => ⟨(hlisted.next h0).1, ?_⟩,
        fun h0 => ⟨(hlisted.prev h0).1, ?_⟩,
        hlisted.bag⟩
      · obtain ⟨-, q, hq⟩ := hlisted.next h0
        by_cases hqn : l.next = new_
        · exact ⟨_, hqn ▸ hr₃⟩
        · exact ⟨q, hkept hqn hq⟩
      · obtain ⟨-, q, hq, hqa⟩ := hlisted.prev h0
        exact ⟨q, hkept hprev hq, hqa⟩
    obtain ⟨_, s₄, hchange, hlinks⟩ :=
      returns_changeLink hl₃ hlisted₃ ⟨_, hr₃⟩ hne hprev ha0 (fuel + 1)
    obtain ⟨l₄, hl₄, hv₄, hk₄⟩ := hlinks.leaf hl₃
    obtain ⟨r₄, hr₄, -⟩ := hlinks.leaf hr₃
    have hlocked₄ : l₄.version.locked = true := (congrArg _ hv₄).trans hlocked
    -- the original is retired, and the two nodes are unlocked
    let l₅ : Leaf := { l₄ with version := l₄.version.markDeleted }
    let s₅ := s₄.setNode a (.leaf l₅)
    have hmark : machine.run (markLocked env.build a NodeVersion.markDeleted) s₄ = done () s₅ :=
      run_markLocked hl₄ hlocked₄
    have hl₅ : s₅.node? a = some (.leaf l₅) := node?_setNode hl₄
    obtain ⟨s₆, hdealloc, hs₆⟩ := run_deallocateLeaf hl₅ fun h0 => by
      obtain ⟨b, hb⟩ := hlisted.bag (hk₄ ▸ h0)
      refine ⟨b, ?_⟩
      change s₄.bag? l₄.ksuf = some b
      rw [hlinks.bag, hk₄]
      exact hb
    obtain ⟨s₇, hunlock, hs₇⟩ := run_unlockLocked env ((hs₆ a).trans hl₅)
    have hr₇ : s₇.node? new_ = some (.leaf r₄) := by
      rw [hs₇ new_ hne, hs₆, node?_setNode_of_ne hne, hr₄]
    obtain ⟨s₈, hunlock', -⟩ := run_unlockLocked env hr₇
    refine ⟨l.parent, s₈, ?_⟩
    rw [Option.elim_some, machine.run_bind_of_done hassign, machine.run_bind_of_done hchange,
      machine.run_bind_of_done hmark, machine.run_bind_of_done hdealloc,
      machine.run_bind_of_done hunlock, machine.run_bind_of_done hunlock']
    rfl

/-- The loop ends at once where nobody else changes the version. -/
theorem run_waitUnchanged {m : Node} (hm : mem.node? a = some m) (fuel : ℕ) :
    machine.run (waitUnchanged a (fuel + 1)) mem = done () mem := by
  have hchanged : machine.run (hasChanged a m.version true) mem = done false mem := by
    unfold hasChanged
    rw [machine.run_bind_of_done (run_readVersion hm)]
    simp
  rw [waitUnchanged, machine.run_bind_of_done (run_readVersion hm),
    machine.run_bind_of_done hchanged]
  rfl

/-- A new leaf is made where there was none. -/
theorem run_makeLeaf {ksufsize depth : ℕ} (accessTime : ℕ)
    (h : (mem.global.updateLocalMemoryUsage env.build.sidleCheck env.checkMemoryUsage t depth
      (Leaf.allocationSize ksufsize) true true).isSome = true) :
    ∃ mem' r, machine.run (makeLeaf env ksufsize depth t accessTime true) mem =
      done mem.fresh mem' ∧
      mem'.node? mem.fresh = some (.leaf r) ∧ (∀ b, b ≠ mem.fresh → mem'.node? b = mem.node? b) ∧
      ∀ b, mem'.bag? b = mem.bag? b := by
  let sz := Leaf.allocationSize ksufsize
  let r := Leaf.make sz t depth accessTime
  obtain ⟨g, hg⟩ := Option.isSome_iff_exists.mp h
  let s₁ : Mem := { mem.alloc sz (.leaf r) with global := g }
  have hglobal : machine.run (updateLocalMemoryUsage env t depth sz true true)
    (mem.alloc sz (.leaf r)) =
      done () s₁ := run_updateLocalMemoryUsage hg
  refine ⟨s₁, r, ?_, ?_, fun b hb => ?_, fun _ => rfl⟩
  · unfold makeLeaf poolAllocate
    rw [machine.run_bind_of_done (run_access rfl), machine.run_bind_of_done hglobal]
    rfl
  · simp [s₁, node?_alloc]
  · simp [s₁, node?_alloc, hb]

/-- The bag of suffixes that the leaf points to. -/
def bagOf (mem : Mem) (l : Leaf) : Option Stringbag :=
  if l.ksuf ≠ 0 then mem.bag? l.ksuf else some (Stringbag.external 0)

theorem run_externalBag {b : Stringbag} (h : bagOf mem l = some b) :
    machine.run (externalBag l) mem = done b mem := by
  unfold externalBag
  unfold bagOf at h
  by_cases h0 : l.ksuf = 0
  · rw [if_neg (by simp [h0])] at h ⊢
    cases h
    rfl
  · rw [if_pos h0] at h ⊢
    exact run_access h

theorem Listed.bagOf (h : Listed mem a l) : ∃ b, bagOf mem l = some b := by
  unfold Masstree.bagOf
  by_cases h0 : l.ksuf = 0
  · exact ⟨_, if_neg (by simp [h0])⟩
  · rw [if_pos h0]
    exact h.bag h0

/-- The accounting takes the copy of the leaf. -/
def TakesCopy (env : Env) (mem : Mem) (l : Leaf) (t : NodeMemType) : Prop :=
  ∀ b, bagOf mem l = some b → (mem.global.updateLocalMemoryUsage env.build.sidleCheck
    env.checkMemoryUsage t l.metadata.depth (Leaf.allocationSize (l.ksufUsedCapacity b)) true
      true).isSome = true

theorem takesCopy (hcheck : env.build.sidleCheck = false) (mem : Mem) (l : Leaf) (t : NodeMemType) :
    TakesCopy env mem l t := fun _ _ => isSome_updateLocalMemoryUsage hcheck _ _ _ _ _ _

/-- The leaf at `a`, which was `l` in `mem`, has been locked and marked, and there is a copy. -/
structure CopyMade (mem : Mem) (a : Addr) (l l' : Leaf) (s : Mem) : Prop where
  node : s.node? a = some (.leaf l')
  version : l'.version = l.version.lock.markMigration
  parent : l'.parent = l.parent
  listed : Listed s a l'
  prev : l'.prev ≠ mem.fresh
  copy : ∃ r, s.node? mem.fresh = some (.leaf r) ∧ r.version.locked = true
  kept : ∀ ⦃b m⦄, b ≠ a → mem.node? b = some m → s.node? b = some m

theorem CopyMade.locked {l' : Leaf} {s : Mem} (h : CopyMade mem a l l' s) :
    l'.version.locked = true := by
  rw [h.version, locked_markMigration]
  exact flag_setFlag (by decide) _

theorem CopyMade.hasParent {l' : Leaf} {s : Mem} {y : Internode} (h : CopyMade mem a l l' s)
    (hparent : HasParent env.build mem a l y) : HasParent env.build s a l' y := by
  have hp := h.parent
  exact { hparent with
    ne_zero := hp ▸ hparent.ne_zero
    ne := hp ▸ hparent.ne
    node := hp ▸ h.kept hparent.ne hparent.node }

/-- The leaf is not moved if it has been deleted, is of the type already, or is being changed. -/
def Leaf.Stays (l : Leaf) (t : NodeMemType) : Prop :=
  l.version.deleted = true ∨ l.metadata.type = t ∨
    (l.version.migrating || l.version.inserting || l.version.splitting) = true

/-- A leaf that stays is only read. -/
theorem goesOn_leafMigration_of_stays (fuel : ℕ) (parent : Addr)
    (hl : mem.node? a = some (.leaf l)) (ha0 : a ≠ 0) (h : l.Stays t) :
    GoesOn (leafMigration env fuel a parent t) mem (pure 0) mem := by
  unfold leafMigration
  rw [if_neg ha0]
  refine (goesOn_bind (nonNull_node ha0).nullSafe (run_readVersion hl)).trans ?_
  refine (goesOn_bind (nonNull_leaf ha0).nullSafe (run_readLeaf hl)).trans ?_
  by_cases hstop : ((Node.leaf l).version.deleted || l.metadata.type == t) = true
  · rw [if_pos hstop]
    exact GoesOn.refl _ _
  · rw [if_neg hstop]
    refine (goesOn_bind (nonNull_node ha0).nullSafe (run_readVersion hl)).trans ?_
    rw [if_pos]
    · exact GoesOn.refl _ _
    · simp only [Bool.or_eq_true, beq_iff_eq, not_or] at hstop
      rcases h with h | h | h
      · exact absurd h hstop.1
      · exact absurd h hstop.2
      · exact h

/-- A leaf that does not stay is to be copied. -/
theorem goesOn_copyLeaf (fuel : ℕ) (parent : Addr) (hl : mem.node? a = some (.leaf l))
    (ha0 : a ≠ 0) (hgo : ¬l.Stays t) {b : Stringbag} (hbag : bagOf mem l = some b) :
    GoesOn (leafMigration env (fuel + 1) a parent t) mem (do
      let new_ ← makeLeaf env (l.ksufUsedCapacity b) l.metadata.depth t l.accessTime true
      let _ ← lock env.build (fuel + 1) a
      memcpyLeaf new_ a
      writeLeaf new_ fun r => { r with metadata := { r.metadata with type := t } }
      writeVersion a NodeVersion.markMigration
      replaceLeaf env (fuel + 1) a new_) mem := by
  simp only [Leaf.Stays, not_or, Bool.not_eq_true] at hgo
  obtain ⟨hdel, htype, hbusy⟩ := hgo
  have hstop : ¬((Node.leaf l).version.deleted || l.metadata.type == t) = true := by
    simp [Node.version, hdel, htype]
  have hbusy' : ¬((Node.leaf l).version.migrating || (Node.leaf l).version.inserting ||
      (Node.leaf l).version.splitting) = true := Bool.eq_false_iff.mp hbusy
  unfold leafMigration
  rw [if_neg ha0]
  refine (goesOn_bind (nonNull_node ha0).nullSafe (run_readVersion hl)).trans ?_
  refine (goesOn_bind (nonNull_leaf ha0).nullSafe (run_readLeaf hl)).trans ?_
  rw [if_neg hstop]
  refine (goesOn_bind (nonNull_node ha0).nullSafe (run_readVersion hl)).trans ?_
  rw [if_neg hbusy']
  refine (goesOn_bind (nonNull_waitUnchanged ha0).nullSafe (run_waitUnchanged hl _)).trans ?_
  refine (goesOn_bind (nonNull_leaf ha0).nullSafe (run_readLeaf hl)).trans ?_
  exact goesOn_bind (nonNull_externalBag l).nullSafe (run_externalBag hbag)

/-- **A leaf that does not stay is copied**, and the copy is to replace it. -/
theorem goesOn_leafMigration (fuel : ℕ) (parent : Addr) (hb : mem.Bounded S)
    (hl : mem.node? a = some (.leaf l)) (hlock : Lockable env.build l.version)
    (hlisted : Listed mem a l) (hgo : ¬l.Stays t) (htakes : TakesCopy env mem l t) :
    ∃ s l', CopyMade mem a l l' s ∧ GoesOn (leafMigration env (fuel + 2) a parent t) mem
      (replaceLeaf env (fuel + 2) a mem.fresh) s := by
  have ha0 : a ≠ 0 := by
    rintro rfl
    rw [node?_zero hb.null] at hl
    cases hl
  have hfresh {b : Addr} {m : Node} (hm : mem.node? b = some m) : b ≠ mem.fresh := by
    rintro rfl
    rw [Mem.node?, hb.fresh] at hm
    cases hm
  have hfa : mem.fresh ≠ a := (hfresh hl).symm
  have hf0 : mem.fresh ≠ 0 := fresh_ne_zero
  obtain ⟨bag, hbag⟩ := hlisted.bagOf
  obtain ⟨s₁, r, hmake, hr₁, hrest₁, hbag₁⟩ := run_makeLeaf l.accessTime (htakes bag hbag)
  have hl₁ : s₁.node? a = some (.leaf l) := (hrest₁ a hfa.symm).trans hl
  -- the leaf is locked and copied, and gets its mark
  let l₂ : Leaf := { l with version := l.version.lock }
  let s₂ := s₁.setNode a (.leaf l₂)
  have hlocks : machine.run (lock env.build (fuel + 2) a) s₁ = done l₂.version s₂ :=
    run_lock (fuel + 1) hl₁ hlock
  have hl₂ : s₂.node? a = some (.leaf l₂) := node?_setNode hl₁
  have hr₂ : s₂.node? mem.fresh = some (.leaf r) := (node?_setNode_of_ne hfa).trans hr₁
  let r₃ : Leaf := { l₂ with iksuf := r.iksuf }
  let s₃ := s₂.setNode mem.fresh (.leaf r₃)
  have hr₃ : s₃.node? mem.fresh = some (.leaf r₃) := node?_setNode hr₂
  have hcopy : machine.run (memcpyLeaf mem.fresh a) s₂ = done () s₃ := by
    unfold memcpyLeaf
    rw [machine.run_bind_of_done (run_readLeaf hl₂)]
    exact run_writeLeaf hr₂
  let r₄ : Leaf := { r₃ with metadata := { r₃.metadata with type := t } }
  let s₄ := s₃.setNode mem.fresh (.leaf r₄)
  have hl₄ : s₄.node? a = some (.leaf l₂) :=
    (node?_setNode_of_ne hfa.symm).trans ((node?_setNode_of_ne hfa.symm).trans hl₂)
  let l₅ : Leaf := { l₂ with version := l₂.version.markMigration }
  let s₅ := s₄.setNode a (.leaf l₅)
  have hl₅ : s₅.node? a = some (.leaf l₅) := node?_setNode hl₄
  have hr₅ : s₅.node? mem.fresh = some (.leaf r₄) :=
    (node?_setNode_of_ne hfa).trans (node?_setNode hr₃)
  have hkept ⦃b : Addr⦄ ⦃m : Node⦄ (hba : b ≠ a) (hm : mem.node? b = some m) :
      s₅.node? b = some m := by
    have hbf := hfresh hm
    rw [node?_setNode_of_ne hba, node?_setNode_of_ne hbf, node?_setNode_of_ne hbf,
      node?_setNode_of_ne hba, hrest₁ b hbf, hm]
  have hlisted₅ : Listed s₅ a l₅ := by
    refine ⟨hlisted.unmarked, fun h0 => ⟨(hlisted.next h0).1, ?_⟩,
      fun h0 => ⟨(hlisted.prev h0).1, ?_⟩,
      fun h0 => ?_⟩
    · obtain ⟨hne, q, hq⟩ := hlisted.next h0
      exact ⟨q, hkept hne hq⟩
    · obtain ⟨hne, q, hq, hqa⟩ := hlisted.prev h0
      exact ⟨q, hkept hne hq, hqa⟩
    · obtain ⟨b, hbb⟩ := hlisted.bag h0
      exact ⟨b, (hbag₁ _).trans hbb⟩
  have hprev : l₅.prev ≠ mem.fresh := by
    by_cases h0 : l.prev = 0
    · exact fun h => fresh_ne_zero (h.symm.trans h0)
    · obtain ⟨-, q, hq, -⟩ := hlisted.prev h0
      exact hfresh hq
  have hlocked : r₄.version.locked = true := flag_setFlag (by decide) _
  refine ⟨s₅, l₅, ⟨hl₅, rfl, rfl, hlisted₅, hprev, ⟨r₄, hr₅, hlocked⟩, hkept⟩, ?_⟩
  refine (goesOn_copyLeaf (fuel + 1) parent hl ha0 hgo hbag).trans ?_
  refine (goesOn_bind nonNull_makeLeaf.nullSafe hmake).trans ?_
  refine (goesOn_bind (nonNull_lock ha0).nullSafe hlocks).trans ?_
  refine (goesOn_bind (nonNull_memcpyLeaf hf0 ha0).nullSafe hcopy).trans ?_
  refine (goesOn_bind (nonNull_leaf hf0).nullSafe (run_writeLeaf hr₃)).trans ?_
  exact goesOn_bind (nonNull_node ha0).nullSafe (run_writeVersion hl₄)

/-- The migration of a leaf that is at rest and not locked returns. -/
theorem exists_run_leafMigration (fuel : ℕ) (t : NodeMemType)
    (hcheck : env.build.sidleCheck = false) {y : Internode} (parent : Addr)
    (hb : mem.Bounded S) (hl : mem.node? a = some (.leaf l)) (hlock : Lockable env.build l.version)
    (hlisted : Listed mem a l) (hparent : HasParent env.build mem a l y) :
    ∃ q mem', machine.run (leafMigration env (fuel + 2) a parent t) mem = done q mem' := by
  have ha0 : a ≠ 0 := by
    rintro rfl
    rw [node?_zero hb.null] at hl
    cases hl
  by_cases hstays : l.Stays t
  · exact ⟨0, mem, (goesOn_leafMigration_of_stays (fuel + 2) parent hl ha0 hstays).1⟩
  obtain ⟨s, l', hmade, hgoes⟩ := goesOn_leafMigration fuel parent hb hl hlock hlisted hstays
    (takesCopy hcheck mem l t)
  have hfresh {b : Addr} {m : Node} (hm : mem.node? b = some m) : b ≠ mem.fresh := by
    rintro rfl
    rw [Mem.node?, hb.fresh] at hm
    cases hm
  obtain ⟨q, mem', hrun⟩ := exists_run_replaceLeaf fuel hmade.node hmade.locked hmade.listed ha0
    hmade.copy (hfresh hl).symm hmade.prev (hmade.hasParent hparent)
  exact ⟨q, mem', hgoes.1.trans hrun⟩

/-- **The migration of a leaf returns**, and has locked the parent, or nothing. -/
theorem returns_leafMigration (hcheck : env.build.sidleCheck = false) (h : Upright rank F)
    (hF : mem.Holds F) (hb : mem.Bounded S) (hheld : mem.held = ∅) (ha : F a = some e)
    (hleaf : e.data.leaf = true) (hlisted : ∀ l, mem.node? a = some (.leaf l) → Listed mem a l)
    (parent : Addr) :
    machine.Returns (leafMigration env (fuel + 2) a parent t) mem fun q mem' =>
      ((q = 0 ∧ e.data.type = t ∧ mem'.Holds F) ∨
        (q ≠ 0 ∧ e.parent = some q ∧ ∃ new_, F new_ = none ∧
        mem'.Holds (F.replace a new_ { e.data with type := t }))) ∧
      mem'.Bounded S ∧ HandsOn q mem'.held := by
  obtain ⟨m, hm, he, -⟩ := h.node hF ha
  cases m with
  | internode o =>
    rw [he] at hleaf
    cases hleaf
  | leaf l =>
    have hlink : e.parent = link l.parent := by
      rw [he]
      rfl
    have hp0 : l.parent ≠ 0 :=
      fun h0 => (h.rest.node ha).leaf hleaf (hlink.trans (link_eq_none.mpr h0))
    have hparent := hlink.trans (link_eq_some.mpr ⟨rfl, hp0⟩)
    obtain ⟨y, z, hz, -, hy, hyz, htag, -, hkeys⟩ := h.parent hF ha hparent
    have hfree (b : Addr) : b ∉ mem.held := by simp [hheld]
    obtain ⟨hlock, hdel⟩ := h.lockable hz hy hyz (hfree _) env.build
    have hpar : HasParent env.build mem a l y :=
      ⟨hp0, fun hpa => h.rest.linked.irrefl ha (hpa ▸ hparent), hy, hlock, hdel, htag, hkeys⟩
    obtain ⟨q, mem', hrun⟩ := exists_run_leafMigration fuel t hcheck parent hb hm
      (h.lockable ha hm he (hfree _) env.build).1 (hlisted l hm) hpar
    exact returns_of_run hrun ⟨holds_leafMigration parent hF h.rest ha hleaf q mem' hrun,
      tracks_leafMigration parent mem hb hheld q mem' hrun⟩

end Leaves

/-! ### Tasks -/

/-- The memory holds the layer `F`, which is at rest, with all its leaves in their list, and no node
of the memory is locked. -/
structure Quiescent (mem : Mem) (F : Forest Addr Info) : Prop where
  holds : mem.Holds F
  upright : ∃ rank, Upright rank F
  bounded : mem.Bounded ∅
  free : mem.held = ∅
  listed : ∀ ⦃a l⦄, F a ≠ none → mem.node? a = some (.leaf l) → Listed mem a l

/-- A leaf that is not in the tree any more, or none. -/
def StaleLeaf (mem : Mem) (a : Addr) : Prop :=
  a = 0 ∨ ∃ l, mem.node? a = some (.leaf l) ∧ l.version.deleted = true

/-- An internode that is not in the tree any more, with what it still points to, or none. -/
def StaleInternode (build : Build) (mem : Mem) (a : Addr) : Prop :=
  a = 0 ∨ ∃ o, mem.Attached a o ∧ Lockable build o.version ∧ o.version.deleted = true ∧
    ∀ i ≤ o.nkeys, o.child i ≠ 0

/-- The task is about a leaf or an internode of the layer, or about one that has left it. -/
def MigrationTask.Executable (build : Build) (mem : Mem) (F : Forest Addr Info) :
    MigrationTask → Prop
  | .promoteLeaf leaf _ _ | .demoteLeaf leaf _ _ =>
    StaleLeaf mem leaf ∨ ∃ x, F leaf = some x ∧ x.data.leaf = true
  | .demoteInternode node _ =>
    StaleInternode build mem node ∨ ∃ x, F node = some x ∧ x.data.leaf = false

section Tasks

variable {env : Env} {fuel : ℕ} {rank : Addr → ℕ} {mem : Mem} {F : Forest Addr Info} {S : Set Addr}
  {a : Addr} {e : Forest.Entry Addr Info} {t : NodeMemType}

/-- The migration of a leaf and the climb from there return. -/
theorem returns_migrateLeaf (hcheck : env.build.sidleCheck = false) (ht : t = .local_ ∨ t = .remote)
    (h : Upright rank F) (hF : mem.Holds F) (hb : mem.Bounded S) (hheld : mem.held = ∅)
    (ha : F a = some e) (hleaf : e.data.leaf = true)
    (hlisted : ∀ l, mem.node? a = some (.leaf l) → Listed mem a l) (parent ti : Addr)
    (hfuel : rank a < fuel + 2) :
    machine.Returns (migrateLeaf (masstreeOps env (fuel + 2)) (fuel + 2) a parent t ti) mem
      fun _ _ => True := by
  refine (returns_leafMigration hcheck h hF hb hheld ha hleaf hlisted parent).bind
    fun q mem₁ h₁ => ?_
  obtain ⟨hmoved, hb₁, hheld₁⟩ := h₁
  refine returns_ite (fun _ => returns_ret trivial) fun hq => ?_
  obtain ⟨-, hq', new_, hnew, hF₁⟩ := hmoved.resolve_left fun h => hq h.1
  have h₁ := h.replace ha hnew t
  have hself := h.rest.linked.replace_self (d := { e.data with type := t }) ha hnew
  obtain ⟨y, hy, hmem⟩ := h₁.rest.parent hself hq'
  have hyleaf := leaf_eq_false hF₁ hy hmem
  have hrank := h₁.rank hself hq'
  rw [Function.update_self] at hrank
  have hheldq : mem₁.held = {q} := (hheld₁.resolve_left fun h => hq h.1).2
  have hclimb (hdepth : DepthOk mem₁ q t) : machine.Returns (migrateInternode
      (masstreeOps env (fuel + 2)) (fuel + 2) q t ti 1) mem₁ fun _ _ => True :=
    returns_migrateInternode hcheck ht ti (fuel + 2) 1 rfl h₁ hF₁ hb₁ hy hyleaf (hrank.trans hfuel)
      hheldq hdepth
  refine returns_ite (fun hremote => ?_) fun hlocal => hclimb fun hr => absurd hr hlocal
  refine (returns_needContinueMigrate ht h₁ hF₁ hb₁ hy hyleaf 1).bind fun s mem₂ h₂ => ?_
  obtain ⟨rfl, hgo⟩ := h₂
  refine returns_ite (fun hs => hclimb (hgo hs)) fun _ => ?_
  have hq₁ : mem₂.blocks q ≠ none := by
    obtain ⟨m, hm, -⟩ := h₁.node hF₁ hy
    intro hnone
    rw [Mem.node?, hnone] at hm
    cases hm
  refine returns_ite (fun _ => ?_) fun _ => returns_masstreeUnlock hq₁
  refine ((returns_addDelayed q).and (blind_addDelayed q mem₂.held mem₂ hb₁.all rfl)).bind
    fun _ mem₃ h₃ => ?_
  exact returns_masstreeUnlock (h₃.2.1.kept q hq₁)

/-- A leaf that has been replaced or removed is not moved. -/
theorem run_migrateLeaf_of_stale (h : StaleLeaf mem a) (parent ti : Addr) :
    machine.run (migrateLeaf (masstreeOps env fuel) fuel a parent t ti) mem = done () mem := by
  have hstop : machine.run (leafMigration env fuel a parent t) mem = done 0 mem := by
    by_cases ha0 : a = 0
    · unfold leafMigration
      rw [if_pos ha0]
      rfl
    · obtain ⟨l, hl, hdel⟩ := h.resolve_left ha0
      exact (goesOn_leafMigration_of_stays fuel parent hl ha0 (Or.inl hdel)).1
  exact machine.run_bind_of_done hstop

/-- An internode that has been replaced is unlocked again. -/
theorem returns_migrateInternode_of_stale (hcheck : env.build.sidleCheck = false)
    (h : StaleInternode env.build mem a) (ti : Addr) (steps : ℕ) :
    machine.Returns (migrateInternode (masstreeOps env (fuel + 2)) (steps + 1) a .remote ti 0) mem
      fun _ _ => True := by
  refine returns_bind_of_run (run_sidleCheck hcheck _) ?_
  rcases h with rfl | ⟨o, ho, hlock, hdel, hall⟩
  · exact returns_of_run rfl trivial
  · have hstops : machine.Returns (stopsPopped (masstreeOps env (fuel + 2)) true a .remote 0) mem
        fun _ mem' => mem' = mem :=
      (returns_needContinueMigrate_of_attached (Or.inr rfl) ho hall 0).bind fun s mem₁ h₁ =>
        returns_ret h₁.1
    refine hstops.bind fun stopped mem₁ h₁ => ?_
    subst h₁
    refine returns_ite (fun _ => returns_ret trivial) fun _ => ?_
    have hlocks : machine.run (lock env.build (fuel + 2) a) mem₁ =
        done o.locked.version (mem₁.setNode a (.internode o.locked)) :=
          run_lock (fuel + 1) ho.node hlock
    obtain ⟨mem', hrefused⟩ := run_internodeMigration_refused (t := .remote) env (fuel + 2)
      (node?_setNode (n := .internode o.locked) ho.node) (flag_setFlag (by decide) _)
      (Or.inl ((NodeVersion.deleted_setFlag _ (by decide)).trans hdel))
    have hrun : machine.run (internodeMigration env (fuel + 2) a .remote true) mem₁ =
        done 0 mem' := by
      rw [internodeMigration_isNew, machine.run_bind_of_done hlocks, hrefused]
    exact returns_bind_of_run hrun (returns_of_run rfl trivial)

/-- **A task returns** once the fuel exceeds the rank of the node that it is about. -/
theorem returns_task (hcheck : env.build.sidleCheck = false) (h : Quiescent mem F)
    {task : MigrationTask}
    (htask : task.Executable env.build mem F) :
    ∃ N, ∀ fuel ≥ N, machine.Returns (task.run env fuel) mem fun _ _ => True := by
  obtain ⟨rank, hup⟩ := h.upright
  have hleaf {leaf parent ti : Addr} {t : NodeMemType} (ht : t = .local_ ∨ t = .remote)
      (hon : StaleLeaf mem leaf ∨ ∃ x, F leaf = some x ∧ x.data.leaf = true) : ∃ N, ∀ fuel ≥ N,
      machine.Returns (migrateLeaf (masstreeOps env fuel) fuel leaf parent t ti) mem
        fun _ _ => True := by
    rcases hon with hstale | ⟨x, hx, hxleaf⟩
    · exact ⟨0, fun fuel _ => returns_of_run (run_migrateLeaf_of_stale hstale parent ti) trivial⟩
    · refine ⟨rank leaf + 2, fun fuel hfuel => ?_⟩
      obtain ⟨n, rfl⟩ : ∃ n, fuel = n + 2 := ⟨fuel - 2, by omega⟩
      exact returns_migrateLeaf hcheck ht hup h.holds h.bounded h.free hx hxleaf
        (fun l hl => h.listed (by simp [hx]) hl) parent ti (by omega)
  cases task with
  | promoteLeaf leaf parent ti => exact hleaf (Or.inl rfl) htask
  | demoteLeaf leaf parent ti => exact hleaf (Or.inr rfl) htask
  | demoteInternode node ti =>
    refine ⟨rank node + 2, fun fuel hfuel => ?_⟩
    obtain ⟨n, rfl⟩ : ∃ n, fuel = n + 2 := ⟨fuel - 2, by omega⟩
    rcases htask with hstale | ⟨x, hx, hxleaf⟩
    · exact returns_migrateInternode_of_stale hcheck hstale ti (n + 1)
    · exact returns_migratePopped hcheck ti (n + 2) hup h.holds h.bounded hx hxleaf
        (by omega) h.free

/-- **The locks of a task balance.** -/
theorem held_of_task (hcheck : env.build.sidleCheck = false) (h : Quiescent mem F)
    {task : MigrationTask}
    (htask : task.Executable env.build mem F) :
    ∃ N, ∀ fuel ≥ N, machine.Returns (task.run env fuel) mem fun _ mem' => mem'.held = ∅ := by
  obtain ⟨N, hN⟩ := returns_task hcheck h htask
  exact ⟨N, fun fuel hfuel => ((hN fuel hfuel).and (tracks_task task mem h.bounded h.free)).imp
    fun _ _ h => h.2.2⟩

end Tasks

section Example

/-- Two leaves below a root, at rest. -/
theorem longKeyMem_quiescent (t : NodeMemType) : Quiescent (longKeyMem t) (longKeyForest t) := by
  have hblock {a : Addr} (h : (longKeyMem t).blocks a ≠ none) : a = 8 ∨ a = 16 ∨ a = 24 := by
    by_contra hne
    push Not at hne
    exact h (by simp [longKeyMem, hne])
  have hnode {a : Addr} {n : Node} (h : (longKeyMem t).node? a = some n) :
      a = 8 ∨ a = 16 ∨ a = 24 :=
    hblock fun hnone => by simp [Mem.node?, hnone] at h
  refine ⟨longKeyMem_holds t, ⟨fun a => if a = 24 then 0 else 1, ?_⟩,
    ⟨rfl, fun a h => ?_, by simp⟩, ?_,
    fun a l _ hl => ?_⟩
  · refine ⟨longKeyForest_atRest t, fun a e ha => ?_, fun a e ha => ?_, fun a e p ha hp => ?_⟩
    · rcases longKeyForest_eq_some ha with rfl | rfl | rfl <;> cases ha <;> rfl
    · rcases longKeyForest_eq_some ha with rfl | rfl | rfl <;> cases ha <;> simp [width]
    · rcases longKeyForest_eq_some ha with rfl | rfl | rfl <;> cases ha <;> cases hp <;> decide
  · have hfresh : (longKeyMem t).fresh = 32 := rfl
    rw [hfresh]
    rcases hblock h with rfl | rfl | rfl <;> decide
  · refine Set.eq_empty_iff_forall_notMem.mpr fun a ha => ?_
    obtain ⟨n, hn, hlocked⟩ := ha
    have hleaf : (NodeVersion.make true).locked = false := by decide
    have hroot : NodeVersion.locked (setFlag 30 (NodeVersion.make false)) = false := by decide
    rcases hnode hn with rfl | rfl | rfl <;> cases hn
    · exact Bool.false_ne_true (hleaf.symm.trans hlocked)
    · exact Bool.false_ne_true (hleaf.symm.trans hlocked)
    · exact Bool.false_ne_true (hroot.symm.trans hlocked)
  · rcases hnode hl with rfl | rfl | rfl
    · cases hl
      exact ⟨show isMarked 16 = false by decide, fun _ => ⟨show 16 ≠ 8 by decide, _, rfl⟩,
        fun h => absurd rfl h, fun h => absurd rfl h⟩
    · cases hl
      exact ⟨show isMarked 0 = false by decide, fun h => absurd rfl h,
        fun _ => ⟨show 8 ≠ 16 by decide, _, rfl, rfl⟩, fun h => absurd rfl h⟩
    · cases hl

end Example

end Sidle.Masstree
