import Sidle.Masstree.LeafCopy
import Sidle.Masstree.Relocate

/-!
# Migrations keep the layout

In a layer where every local node has a local parent a promotion climbs from its leaf as long
as the parents are not local, and a demotion climbs only over nodes all of whose children have
left local memory.  Whatever the task was, every local node has a local parent again in the end.

## Main definitions

* `LocalParents` — every local node has a local parent.
* `Ready` — what holds of the layer when a climb reaches a node.
* `MigrationTask` — the tasks of the executors.

## Main results

* `ensures_needContinueMigrate` — when a climb goes on.
* `ensures_migrateInternode` — what a climb comes to, by induction on its length.
* `localParents_of_task` — every task keeps the layout.
-/

namespace Sidle.Masstree

open Art (Build Fault)
open Prog Machine Word Worker

/-! ### The layout -/

/-- Every local node has a local parent. -/
def LocalParents (F : Forest Addr Info) : Prop :=
  F.Edges fun child parent => child.type = .local_ → parent.type = .local_

/-- When a climb reaches the node `n`, only the children of `n` may be local without a local
parent if nodes are moved to local memory, and no child of `n` is local if they are moved to
remote memory. -/
def Ready (t : NodeMemType) (F : Forest Addr Info) (n : Addr) : Prop :=
  ∀ ⦃c p y x⦄, F c = some y → F p = some x → y.parent = some p →
    (p ≠ n → y.data.type = .local_ → x.data.type = .local_) ∧
      (t = .remote → p = n → y.data.type ≠ .local_)

/-- The data of a node that may have been moved. -/
def Retyped (t : NodeMemType) (d d' : Info) : Prop := d' = d ∨ d' = { d with type := t }

theorem Retyped.refl (t : NodeMemType) (d : Info) : Retyped t d d := Or.inl rfl

theorem Retyped.trans {t : NodeMemType} (d d' d'' : Info) (h : Retyped t d d')
    (h' : Retyped t d' d'') : Retyped t d d'' := by
  rcases h with rfl | rfl
  · exact h'
  · rcases h' with rfl | rfl <;> exact Or.inr rfl

section Steps

variable {t : NodeMemType} {F : Forest Addr Info} {n n' p : Addr} {x : Forest.Entry Addr Info}

/-- Where the climb ends at a node that has the right type already. -/
theorem Ready.localParents (h : Ready t F n) (ht : t = .local_ ∨ t = .remote) (hn : F n = some x)
    (hx : x.data.type = t) : LocalParents F := by
  intro c p y z hc hp hyp hlocal
  by_cases hpn : p = n
  · subst hpn
    obtain rfl : x = z := Option.some.inj (hn.symm.trans hp)
    rcases ht with rfl | rfl
    · exact hx
    · exact absurd hlocal ((h hc hp hyp).2 rfl rfl)
  · exact (h hc hp hyp).1 hpn hlocal

theorem LocalParents.ready (h : LocalParents F)
    (hch : t = .remote → ∀ ⦃c y⦄, F c = some y → y.parent = some n → y.data.type ≠ .local_) :
    Ready t F n := fun _ _ _ _ hc hp hyp =>
  ⟨fun _ => h hc hp hyp, fun ht hpn => hch ht hc (hpn ▸ hyp)⟩

/-- The node `n'` has been moved: only its own link to a parent may be wrong, and not that
either if it is remote now. -/
def Shifted (t : NodeMemType) (F : Forest Addr Info) (n' : Addr) : Prop :=
  ∀ ⦃c p y z⦄, F c = some y → F p = some z → y.parent = some p →
    c ≠ n' ∨ t = .remote → y.data.type = .local_ → z.data.type = .local_

theorem Ready.replace (h : Ready t F n) (ht : t = .local_ ∨ t = .remote) (hrest : AtRest F)
    (hn : F n = some x) (hn' : F n' = none) :
    Shifted t (F.replace n n' { x.data with type := t }) n' := by
  intro c p y z hc hp hyp hcond hlocal
  obtain ⟨c₀, p₀, y₀, z₀, hc₀, hp₀, hyp₀, rfl, rfl, hy, hz⟩ :=
    Forest.exists_link_of_replace hrest.linked hn hn' hc hp hyp
  rw [hy] at hlocal
  rw [hz]
  have hlink := h hc₀ hp₀ hyp₀
  by_cases hcn : c₀ = n
  · -- the link of the node itself
    rw [if_pos hcn] at hlocal
    rcases hcond with hne | rfl
    · exact absurd (by rw [Forest.moved, if_pos hcn]) hne
    · cases hlocal
  · rw [if_neg hcn] at hlocal
    by_cases hpn : p₀ = n
    · rw [if_pos hpn]
      rcases ht with rfl | rfl
      · rfl
      · exact absurd hlocal (hlink.2 rfl hpn)
    · rw [if_neg hpn]
      exact hlink.1 hpn hlocal

/-- Where the climb ends below a node that is local, or at a root. -/
theorem Shifted.localParents (h : Shifted t F n') (ht : t = .local_ ∨ t = .remote)
    (hn' : F n' = some x) (hparent : t = .local_ → ∀ ⦃p z⦄, x.parent = some p → F p = some z →
      z.data.type = .local_) : LocalParents F := by
  intro c p y z hc hp hyp hlocal
  by_cases hcn : c = n'
  · subst hcn
    obtain rfl : x = y := Option.some.inj (hn'.symm.trans hc)
    rcases ht with rfl | rfl
    · exact hparent rfl hyp hp
    · exact h hc hp hyp (Or.inr rfl) hlocal
  · exact h hc hp hyp (Or.inl hcn) hlocal

/-- Where the climb goes on. -/
theorem Shifted.ready (h : Shifted t F n') (hn' : F n' = some x) (hparent : x.parent = some p)
    (hch : t = .remote → ∀ ⦃c y⦄, F c = some y → y.parent = some p → y.data.type ≠ .local_) :
    Ready t F p := by
  refine fun c q y z hc hq hyq => ⟨fun hqp => h hc hq hyq (Or.inl fun hcn => ?_), fun ht hqp =>
    hch ht hc (hqp ▸ hyq)⟩
  subst hcn
  obtain rfl : x = y := Option.some.inj (hn'.symm.trans hc)
  exact hqp (Option.some.inj (hyq.symm.trans hparent))

end Steps

/-! ### When a climb goes on -/

section Climbs

variable {env : Env} {fuel : ℕ} {mem : Mem} {F : Forest Addr Info} {p : Addr}
  {x : Forest.Entry Addr Info} {t : NodeMemType}

/-- The type of a node is read off its metadata. -/
theorem ensures_isLocalChild (child : Addr) :
    machine.Ensures (isLocalChild (masstreeOps env fuel) child) mem fun b mem' =>
      mem' = mem ∧ ∀ e, mem.forest child = some e → (b = true ↔ e.data.type = .local_) := by
  have hleaf : machine.Keeps Eq ((masstreeOps env fuel).isLeaf child) :=
    keeps_ite keeps_ret (keeps_read.bind fun _ => keeps_ret)
  refine hleaf.then fun leaf _ h => ?_
  subst h
  refine ensures_ite (fun _ => ?_) fun _ => ?_
  · refine ensures_bind.mpr (ensures_read.bind fun l mem₁ hl => ?_)
    obtain ⟨rfl, l', hl, rfl⟩ := hl
    refine ensures_ret.mpr (ensures_ret.mpr ⟨rfl, fun e he => ?_⟩)
    rw [eq_entry (leaf?_eq_some.mp hl) he]
    simp [Node.entry]
  · refine ensures_bind.mpr (ensures_read.bind fun xi mem₁ hxi => ?_)
    obtain ⟨rfl, xi', hxi, rfl⟩ := hxi
    refine ensures_ret.mpr (ensures_ret.mpr ⟨rfl, fun e he => ?_⟩)
    rw [eq_entry (internode?_eq_some.mp hxi) he]
    simp [Node.entry]

/-- A traversal that no callback stops has visited all children. -/
theorem ensures_visitChildren {xi : Internode} {cb : Addr → MtM Bool} {P : Addr → Prop}
    (hcb : ∀ c, machine.Ensures (cb c) mem fun b mem' => mem' = mem ∧ (b = true → P c)) (n i : ℕ) :
    machine.Ensures (visitChildren xi cb n i) mem fun b mem' =>
      mem' = mem ∧ (b = true → ∀ j, i ≤ j → j < i + n → P (xi.child j)) := by
  induction n generalizing i with
  | zero => exact ensures_ret.mpr ⟨rfl, fun _ j hj hji => by omega⟩
  | succ n ih =>
    refine (hcb (xi.child i)).bind fun goOn mem₁ h₁ => ?_
    obtain ⟨rfl, hP⟩ := h₁
    refine ensures_ite (fun hgo => ?_) fun _ => ensures_ret.mpr ⟨rfl, fun h => by cases h⟩
    refine (ih (i + 1)).imp fun b mem₂ h₂ => ⟨h₂.1, fun hb j hj hji => ?_⟩
    by_cases hij : j = i
    · exact hij ▸ hP hgo
    · exact h₂.2 hb j (by omega) (by omega)

/-- What the answer of `need_continue_migrate` says of the node. -/
theorem ensures_needContinueMigrate (hF : mem.Holds F) (hp : F p = some x) (k : ℕ) :
    machine.Ensures (needContinueMigrate (masstreeOps env fuel) p t k) mem fun s mem' =>
      mem' = mem ∧ (s = .proceed → t = .remote → ∀ c ∈ x.children, ∀ e, mem.forest c = some e →
        e.data.type ≠ .local_) ∧ (s ≠ .proceed → t = .local_ → x.data.type = .local_) ∧
        (k = 0 → s ≠ .delay) := by
  have hmeta : machine.Keeps Eq ((masstreeOps env fuel).nodeMetadata p) :=
    keeps_read.bind fun _ => keeps_ret
  refine ensures_ite (fun h0 => absurd h0 (hF.pos hp)) fun _ => ?_
  cases t with
  | remote =>
    refine hmeta.then fun m _ h => ?_
    subst h
    have hthreshold : machine.Keeps Eq
        (onGlobal fun g => some (g.threshold.demotionDepthThreshold, g)) :=
      keeps_onGlobal fun mem b g h => by
        obtain ⟨-, rfl⟩ := Prod.mk.inj (Option.some.inj h)
        rfl
    refine hthreshold.then fun threshold _ h => ?_
    subst h
    refine hmeta.then fun m' _ h => ?_
    subst h
    refine ensures_ite (fun _ => ensures_ret.mpr ⟨rfl, nofun, nofun, nofun⟩) fun _ => ?_
    have hcb (c : Addr) : machine.Ensures (do
          let l ← isLocalChild (masstreeOps env fuel) c
          pure !l) mem fun b mem' => mem' = mem ∧ (b = true →
        ∀ e, mem.forest c = some e → e.data.type ≠ .local_) := by
      refine (ensures_isLocalChild c).bind fun l mem₁ h₁ => ensures_ret.mpr ⟨h₁.1, ?_⟩
      intro hl e he hlocal
      rw [(h₁.2 e he).mpr hlocal] at hl
      cases hl
    have htraverse : machine.Ensures (internodeTraverse p fun c => do
          let l ← isLocalChild (masstreeOps env fuel) c
          pure !l) mem fun b mem' => mem' = mem ∧ (b = true →
        ∀ c ∈ x.children, ∀ e, mem.forest c = some e → e.data.type ≠ .local_) := by
      refine ensures_read.bind fun xi mem₁ hxi => ?_
      obtain ⟨rfl, xi', hxi, rfl⟩ := hxi
      refine (ensures_visitChildren hcb (xi.nkeys + 1) 0).imp
        fun b mem₂ h₂ => ⟨h₂.1, fun hb c hc => ?_⟩
      rw [eq_entry (internode?_eq_some.mp hxi) (hF.sub hp)] at hc
      obtain ⟨i, hi, rfl⟩ := mem_children.mp hc
      exact h₂.2 hb i (Nat.zero_le _) (by omega)
    refine htraverse.bind fun noLocal mem₁ h₁ => ensures_ret.mpr ⟨h₁.1, fun hs _ => ?_, nofun, ?_⟩
    · cases noLocal with
      | true => exact h₁.2 rfl
      | false =>
        simp only [Bool.false_eq_true, if_false] at hs
        split at hs <;> cases hs
    · intro hk
      subst hk
      cases noLocal <;> simp
  | local_ =>
    refine ensures_bind.mpr (ensures_read.bind fun xi mem₁ hxi => ensures_ret.mpr ?_)
    obtain ⟨rfl, xi', hxi, rfl⟩ := hxi
    have hx := eq_entry (internode?_eq_some.mp hxi) (hF.sub hp)
    refine ensures_ret.mpr ⟨rfl, nofun, fun hs _ => ?_, fun _ => ?_⟩
    · rw [hx]
      by_contra hne
      exact hs (if_pos hne)
    · split <;> simp
  | unknown => exact ensures_ret.mpr ⟨rfl, nofun, nofun, nofun⟩
  | debug => exact ensures_ret.mpr ⟨rfl, nofun, nofun, nofun⟩

/-- The unlock of any node leaves the layer as it was. -/
theorem holds_unlockLocked (hF : mem.Holds F) (hrest : AtRest F) (a : Addr) :
    machine.Ensures (unlockLocked env a) mem fun _ mem' => mem'.Holds F := by
  cases ha : F a with
  | none => exact ((beside_unlockLocked env) mem).imp fun _ _ h => hF.beside h ha
  | some e =>
    exact (ensures_unlockLocked_of_calm (hF.sub ha) (hrest.node ha).calm).imp
      fun _ _ h => hF.quiet h

theorem holds_masstreeUnlock (hF : mem.Holds F) (hrest : AtRest F) (a : Addr) :
    machine.Ensures (masstreeUnlock env a) mem fun _ mem' => mem'.Holds F :=
  ensures_ite (fun _ => ensures_ret.mpr hF) fun _ => holds_unlockLocked hF hrest a

/-- A task that is put off leaves the layer as it was. -/
theorem holds_addDelayed (hF : mem.Holds F) (a : Addr) :
    machine.Ensures (addDelayed (masstreeOps env fuel) a) mem fun _ mem' => mem'.Holds F := by
  have hadd : machine.Ensures (access some fun _ mem =>
      ((), { mem with demotionQueue := mem.demotionQueue ++ [a] })) mem
        fun _ mem' => mem'.Holds F :=
    ensures_access fun _ _ => hF.congr (fun _ _ h => hF.sub h) le_rfl
  exact ensures_ite (fun h => by cases h) fun _ => hadd

theorem keeps_sidleCheck (b : Bool) : machine.Keeps Eq ((masstreeOps env fuel).sidleCheck b) :=
  keeps_ite keeps_fail keeps_ret

/-- What a climb comes to: the layer has the nodes it had, some of them moved, and every local
node has a local parent. -/
def LaidOut (t : NodeMemType) (F : Forest Addr Info) (mem' : Mem) : Prop :=
  ∃ ρ F', F.Renames (Retyped t) ρ F' ∧ mem'.Holds F' ∧ AtRest F' ∧ LocalParents F'

theorem LaidOut.of_renames {F₁ : Forest Addr Info} {ρ : Addr → Addr}
    (hren : F.Renames (Retyped t) ρ F₁) (h : LaidOut t F₁ mem) : LaidOut t F mem := by
  obtain ⟨ρ', F', hren', hrest⟩ := h
  exact ⟨ρ' ∘ ρ, F', hren.trans Retyped.trans hren', hrest⟩

theorem LaidOut.unlock (h : LaidOut t F mem) (a : Addr) :
    machine.Ensures (masstreeUnlock env a) mem fun _ mem' => LaidOut t F mem' := by
  obtain ⟨ρ, F', hren, hF', hrest, hlocal⟩ := h
  exact (holds_masstreeUnlock hF' hrest a).imp fun _ _ h' => ⟨ρ, F', hren, h', hrest, hlocal⟩

/-- A step of a climb, where the rest of it does what it should. -/
theorem ensures_climbStep (ht : t = .local_ ∨ t = .remote) (ti : Addr) (steps k : ℕ) (isNew : Bool)
    (hnext : ∀ {mem F p x}, mem.Holds F → AtRest F → F p = some x → Ready t F p →
      machine.Ensures (migrateInternode (masstreeOps env fuel) steps p t ti (k + 1)) mem
        fun _ mem' => LaidOut t F mem')
    (hF : mem.Holds F) (hrest : AtRest F) (hp : F p = some x) (hready : Ready t F p) :
    machine.Ensures (do
      let parent ← (masstreeOps env fuel).internodeMigration p t isNew
      if parent = 0 then pure ()
      else do
        let state ← needContinueMigrate (masstreeOps env fuel) parent t (k + 1)
        continueWith (masstreeOps env fuel) parent t
          (migrateInternode (masstreeOps env fuel) steps parent t ti (k + 1)) state
        (masstreeOps env fuel).unlock parent) mem fun _ mem' => LaidOut t F mem' := by
  refine (holds_internodeMigration hF hrest hp isNew).bind fun q mem₁ h₁ => ?_
  rcases h₁ with ⟨rfl, htype, hF₁⟩ | ⟨hparent, new_, hnew, hF₁⟩
  · refine ensures_ite (fun _ => ensures_ret.mpr ?_) fun h => absurd rfl h
    exact ⟨id, F, .refl (Retyped.refl t) F, hF₁, hrest, hready.localParents ht hp htype⟩
  · have hren := Forest.renames_replace (Retyped.refl t) hp hnew (Or.inr rfl : Retyped t _ _)
    have hrest₁ := hrest.replace hp hnew t
    have hshift := hready.replace ht hrest hp hnew
    have hself : F.replace p new_ { x.data with type := t } new_ = some
        { x with data := { x.data with type := t } } := hrest.linked.replace_self hp hnew
    refine ensures_ite (fun hq => ensures_ret.mpr ?_) fun hq => ?_
    · refine ⟨_, _, hren, hF₁, hrest₁, hshift.localParents ht hself fun _ z w hz => ?_⟩
      rw [hparent, link_eq_none.mpr hq] at hz
      cases hz
    · have hq' : x.parent = some q := hparent.trans (link_eq_some.mpr ⟨rfl, hq⟩)
      obtain ⟨e, he, hmem⟩ := hrest₁.parent hself hq'
      refine (ensures_needContinueMigrate hF₁ he (k + 1)).bind fun s mem₂ h₂ => ?_
      obtain ⟨rfl, hproceed, hstop, -⟩ := h₂
      have hlaid (hs : s ≠ .proceed) :
          LocalParents (F.replace p new_ { x.data with type := t }) := by
        refine hshift.localParents ht hself fun hlocal q' z hz hqz => ?_
        obtain rfl : q = q' := Option.some.inj (hq'.symm.trans hz)
        obtain rfl : e = z := Option.some.inj (he.symm.trans hqz)
        exact hstop hs hlocal
      have hcontinue : machine.Ensures (continueWith (masstreeOps env fuel) q t
          (migrateInternode (masstreeOps env fuel) steps q t ti (k + 1)) s) mem₂
          fun _ mem' => LaidOut t F mem' := by
        cases s with
        | proceed =>
          refine (hnext hF₁ hrest₁ he (hshift.ready hself hq' fun hremote c y hc hy => ?_)).imp
            fun _ _ h => h.of_renames hren
          exact hproceed rfl hremote c ((hrest₁.linked.mem_children_iff he hc).mpr hy) y
            (hF₁.sub hc)
        | stop => exact ensures_ret.mpr ⟨_, _, hren, hF₁, hrest₁, hlaid nofun⟩
        | delay =>
          refine (keeps_sidleCheck _).then fun _ _ h => ?_
          subst h
          exact (holds_addDelayed hF₁ q).imp fun _ _ h => ⟨_, _, hren, h, hrest₁, hlaid nofun⟩
      exact hcontinue.bind fun _ mem₃ h₃ => h₃.unlock q

/-- **A climb restores the layout.**  The induction is on the length of the climb; the layer at
each node is `Ready`. -/
theorem ensures_migrateInternode (ht : t = .local_ ∨ t = .remote) (ti : Addr) (steps k : ℕ)
    (hk : (k == 0 && t == .remote) = false) (hF : mem.Holds F) (hrest : AtRest F)
    (hp : F p = some x) (hready : Ready t F p) :
    machine.Ensures (migrateInternode (masstreeOps env fuel) steps p t ti k) mem fun _ mem' =>
      LaidOut t F mem' := by
  induction steps generalizing mem F p x k with
  | zero => exact ensures_diverge
  | succ steps ih =>
    refine (keeps_sidleCheck _).then fun _ _ h => ?_
    subst h
    rw [hk]
    refine ensures_bind.mpr (ensures_ret.mpr ?_)
    refine ensures_ite (fun h => by cases h) fun _ => ?_
    exact ensures_climbStep ht ti steps k false (ih (k + 1) rfl) hF hrest hp hready

/-- An internode that was popped from the queue is moved only if it has no local child. -/
theorem ensures_migratePopped (ti : Addr) (steps : ℕ) (hF : mem.Holds F) (hrest : AtRest F)
    (hlocal : LocalParents F) (hp : F p = some x) :
    machine.Ensures (migrateInternode (masstreeOps env fuel) steps p .remote ti 0) mem
      fun _ mem' => LaidOut .remote F mem' := by
  cases steps with
  | zero => exact ensures_diverge
  | succ steps =>
    refine (keeps_sidleCheck _).then fun _ _ h => ?_
    subst h
    have hstops : machine.Ensures (stopsPopped (masstreeOps env fuel) true p .remote 0) mem
        fun stopped mem' => mem' = mem ∧ (stopped = false → ∀ c ∈ x.children, ∀ e,
          mem.forest c = some e → e.data.type ≠ .local_) := by
      refine (ensures_needContinueMigrate hF hp 0).bind fun s mem₁ h₁ => ?_
      refine ensures_ret.mpr ⟨h₁.1, fun hs => ?_⟩
      cases s with
      | proceed => exact h₁.2.1 rfl rfl
      | stop => cases hs
      | delay => exact absurd rfl (h₁.2.2.2 rfl)
    refine hstops.bind fun stopped mem₁ h₁ => ?_
    obtain ⟨rfl, hch⟩ := h₁
    refine ensures_ite (fun _ => ensures_ret.mpr ?_) fun hs => ?_
    · exact ⟨id, F, .refl (Retyped.refl _) F, hF, hrest, hlocal⟩
    · have hready : Ready .remote F p := hlocal.ready fun _ c y hc hy => by
        have hmem := (hrest.linked.mem_children_iff hp hc).mpr hy
        exact hch (by simpa using hs) c hmem y (hF.sub hc)
      refine ensures_climbStep (Or.inr rfl) ti steps 0 true (fun hF hrest hp hready => ?_)
        hF hrest hp
        hready
      exact ensures_migrateInternode (Or.inr rfl) ti steps 1 rfl hF hrest hp hready

/-- A leaf has no children. -/
theorem children_of_leaf (hF : mem.Holds F) (hp : F p = some x) (hleaf : x.data.leaf = true) :
    x.children = [] := by
  obtain ⟨m, -, hm⟩ := node?_of_forest (hF.sub hp)
  rw [hm] at hleaf ⊢
  cases m with
  | leaf => rfl
  | internode => cases hleaf

/-- The migration of a leaf and the climb from there. -/
theorem ensures_migrateLeaf (ht : t = .local_ ∨ t = .remote) (parent ti : Addr) (hF : mem.Holds F)
    (hrest : AtRest F) (hlocal : LocalParents F) (hp : F p = some x) (hleaf : x.data.leaf = true) :
    machine.Ensures (migrateLeaf (masstreeOps env fuel) fuel p parent t ti) mem fun _ mem' =>
      ∃ ρ F', F.Renames (Retyped t) ρ F' ∧ mem'.Holds F' ∧ AtRest F' ∧ LocalParents F' ∧
        ∀ y, F' (ρ p) = some y → y.data.type = t := by
  refine (holds_leafMigration parent hF hrest hp hleaf).bind fun q mem₁ h₁ => ?_
  rcases h₁ with ⟨rfl, htype, hF₁⟩ | ⟨hq, hparent, new_, hnew, hF₁⟩
  · refine ensures_ite (fun _ => ensures_ret.mpr ?_) fun h => absurd rfl h
    refine ⟨id, F, .refl (Retyped.refl t) F, hF₁, hrest, hlocal, fun y hy => ?_⟩
    obtain rfl : x = y := Option.some.inj (hp.symm.trans hy)
    exact htype
  · have hren := Forest.renames_replace (Retyped.refl t) hp hnew (Or.inr rfl : Retyped t _ _)
    have hrest₁ := hrest.replace hp hnew t
    have hready : Ready t F p := hlocal.ready fun _ c y hc hy => by
      have hmem := (hrest.linked.mem_children_iff hp hc).mpr hy
      rw [children_of_leaf hF hp hleaf] at hmem
      cases hmem
    have hshift := hready.replace ht hrest hp hnew
    have hself : F.replace p new_ { x.data with type := t } new_ = some
        { x with data := { x.data with type := t } } := hrest.linked.replace_self hp hnew
    obtain ⟨e, he, hmem⟩ := hrest₁.parent hself hparent
    -- the leaf keeps the type that it was moved to
    have hkeep {mem' : Mem} (h : LaidOut t (F.replace p new_ { x.data with type := t }) mem') :
        ∃ ρ F', F.Renames (Retyped t) ρ F' ∧ mem'.Holds F' ∧ AtRest F' ∧ LocalParents F' ∧
          ∀ y, F' (ρ p) = some y → y.data.type = t := by
      obtain ⟨ρ, F', hren', hF', hrest', hlocal'⟩ := h
      refine ⟨_, F', hren.trans Retyped.trans hren', hF', hrest', hlocal', fun y hy => ?_⟩
      obtain ⟨d, hd, hd'⟩ := hren'.node hself
      rw [Function.comp_apply, Forest.moved, if_pos rfl, hd'] at hy
      cases hy
      rcases hd with rfl | rfl <;> rfl
    have hlaid {mem' : Mem} (h : LocalParents (F.replace p new_ { x.data with type := t }))
        (hF' : mem'.Holds (F.replace p new_ { x.data with type := t })) :
        LaidOut t (F.replace p new_ { x.data with type := t }) mem' :=
      ⟨id, _, .refl (Retyped.refl t) _, hF', hrest₁, h⟩
    refine ensures_ite (fun h => absurd h hq) fun _ => ?_
    refine ensures_ite (fun hremote => ?_) fun hremote => ?_
    · refine (ensures_needContinueMigrate hF₁ he 1).bind fun s mem₂ h₂ => ?_
      obtain ⟨rfl, hproceed, -, -⟩ := h₂
      refine ensures_ite (fun hs => ?_) fun hs => ?_
      · refine (ensures_migrateInternode ht ti fuel 1 rfl hF₁ hrest₁ he
          (hshift.ready hself hparent fun hr c y hc hy => ?_)).imp fun _ _ h => hkeep h
        exact hproceed hs hr c ((hrest₁.linked.mem_children_iff he hc).mpr hy) y (hF₁.sub hc)
      · have hend := hshift.localParents ht hself fun h => by rw [hremote] at h; cases h
        refine ensures_ite (fun _ => ?_) fun _ => ?_
        · refine (holds_addDelayed hF₁ q).bind fun _ mem₃ h₃ => ?_
          exact ((hlaid hend h₃).unlock q).imp fun _ _ h => hkeep h
        · exact ((hlaid hend hF₁).unlock q).imp fun _ _ h => hkeep h
    · refine (ensures_migrateInternode ht ti fuel 1 rfl hF₁ hrest₁ he
        (hshift.ready hself hparent fun hr => absurd hr hremote)).imp fun _ _ h => hkeep h

end Climbs

/-! ### The tasks of the executors -/

/-- A task of the promotion or of the demotion executor. -/
inductive MigrationTask
  /-- `migrate_leaf(leaf, parent, local, ti)`. -/
  | promoteLeaf (leaf parent ti : Addr)
  /-- `migrate_leaf(leaf, parent, remote, ti)`. -/
  | demoteLeaf (leaf parent ti : Addr)
  /-- `migrate_internode(node, remote, ti, 0)`. -/
  | demoteInternode (node ti : Addr)
  deriving DecidableEq, Repr

namespace MigrationTask

/-- The execution of the task. -/
def run (env : Env) (fuel : ℕ) : MigrationTask → MtM Unit
  | promoteLeaf leaf parent ti => migrateLeaf (masstreeOps env fuel) fuel leaf parent .local_ ti
  | demoteLeaf leaf parent ti => migrateLeaf (masstreeOps env fuel) fuel leaf parent .remote ti
  | demoteInternode node ti => migrateInternode (masstreeOps env fuel) fuel node .remote ti 0

/-- The memory that the task moves nodes to. -/
def target : MigrationTask → NodeMemType
  | promoteLeaf .. => .local_
  | demoteLeaf .. | demoteInternode .. => .remote

/-- The task is about a node of the layer. -/
def On (F : Forest Addr Info) : MigrationTask → Prop
  | promoteLeaf leaf _ _ | demoteLeaf leaf _ _ => ∃ x, F leaf = some x ∧ x.data.leaf = true
  | demoteInternode node _ => ∃ x, F node = some x

end MigrationTask

/-- **Migrations keep the layout.**  When a task on a layer at rest has been executed, the memory
holds the layer, some of its nodes moved to the memory that the task is for, and again every local
node has a local parent.  After a promotion the leaf and all its ancestors are local. -/
theorem localParents_of_task {env : Env} {fuel : ℕ} {task : MigrationTask} {mem mem' : Mem}
    {F : Forest Addr Info} (hF : mem.Holds F) (hrest : AtRest F) (hlocal : LocalParents F)
    (htask : task.On F) (hrun : machine.run (task.run env fuel) mem = .done () mem') :
    ∃ ρ F', F.Renames (Retyped task.target) ρ F' ∧ mem'.Holds F' ∧ AtRest F' ∧ LocalParents F' ∧
      ∀ leaf parent ti, task = .promoteLeaf leaf parent ti →
        ∀ a y, F' a = some y → a = ρ leaf ∨ Relation.TransGen F'.IsParent (ρ leaf) a →
          y.data.type = .local_ := by
  cases task with
  | promoteLeaf leaf parent ti =>
    obtain ⟨x, hx, hleaf⟩ := htask
    obtain ⟨ρ, F', hren, hF', hrest', hlocal', htype⟩ :=
      ensures_migrateLeaf (Or.inl rfl) parent ti hF hrest hlocal hx hleaf () mem' hrun
    refine ⟨ρ, F', hren, hF', hrest', hlocal', fun leaf' _ _ heq a y hy hanc => ?_⟩
    cases heq
    rcases hanc with rfl | hanc
    · exact htype y hy
    · obtain ⟨d, -, hd⟩ := hren.node hx
      exact hlocal'.of_ancestor hanc hd hy (htype _ hd)
  | demoteLeaf leaf parent ti =>
    obtain ⟨x, hx, hleaf⟩ := htask
    obtain ⟨ρ, F', hren, hF', hrest', hlocal', -⟩ :=
      ensures_migrateLeaf (Or.inr rfl) parent ti hF hrest hlocal hx hleaf () mem' hrun
    exact ⟨ρ, F', hren, hF', hrest', hlocal', nofun⟩
  | demoteInternode node ti =>
    obtain ⟨x, hx⟩ := htask
    obtain ⟨ρ, F', hren, hF', hrest', hlocal'⟩ :=
      ensures_migratePopped ti fuel hF hrest hlocal hx () mem' hrun
    exact ⟨ρ, F', hren, hF', hrest', hlocal', nofun⟩

section Example

/-- Two leaves below a root, all of type `t`. -/
def longKeyForest (t : NodeMemType) : Forest Addr Info := fun a =>
  if a = 8 then
    some ⟨some 24, [], ⟨true, t, 0, ⟨false, false, false, false, false, true⟩, false⟩⟩
  else if a = 16 then
    some ⟨some 24, [], ⟨true, t, 0, ⟨false, false, false, false, false, true⟩, false⟩⟩
  else if a = 24 then
    some ⟨none, [8, 16], ⟨false, t, 1, ⟨false, false, false, false, true, false⟩, false⟩⟩
  else none

theorem longKeyMem_forest (t : NodeMemType) : (longKeyMem t).forest = longKeyForest t := by
  have hleaf : NodeVersion.marks (NodeVersion.make true) =
      ⟨false, false, false, false, false, true⟩ := by decide
  have hroot : NodeVersion.marks (setFlag 30 (NodeVersion.make false)) =
      ⟨false, false, false, false, true, false⟩ := by decide
  funext a
  simp only [Mem.forest, longKeyMem, longKeyForest]
  split
  · simp [Node.entry, longKeyLeaf, Leaf.make, NodeMetadata.make, hleaf, link]
  · split
    · simp [Node.entry, Leaf.make, NodeMetadata.make, hleaf, link]
    · split
      · simp [Node.entry, Internode.make, Internode.children, NodeMetadata.make, hroot, link,
          List.range_succ]
      · rfl

theorem longKeyForest_eq_some {t : NodeMemType} {a : Addr} {e : Forest.Entry Addr Info}
    (h : longKeyForest t a = some e) : a = 8 ∨ a = 16 ∨ a = 24 := by
  unfold longKeyForest at h
  split at h
  · exact Or.inl ‹_›
  · split at h
    · exact Or.inr (Or.inl ‹_›)
    · split at h
      · exact Or.inr (Or.inr ‹_›)
      · cases h

theorem longKeyForest_atRest (t : NodeMemType) : AtRest (longKeyForest t) := by
  refine ⟨⟨fun p x c hp hc => ?_, fun c y p hc hp => ?_, fun p x hp => ?_, fun p x hp => ?_⟩,
    fun a e ha => ?_⟩
  · rcases longKeyForest_eq_some hp with rfl | rfl | rfl <;> cases hp
    · cases hc
    · cases hc
    · rcases List.mem_pair.mp hc with rfl | rfl
      · exact ⟨_, rfl, rfl⟩
      · exact ⟨_, rfl, rfl⟩
  · rcases longKeyForest_eq_some hc with rfl | rfl | rfl <;> cases hc <;> cases hp
    · exact ⟨_, rfl, by simp⟩
    · exact ⟨_, rfl, by simp⟩
  · rcases longKeyForest_eq_some hp with rfl | rfl | rfl <;> cases hp <;> simp
  · rcases longKeyForest_eq_some hp with rfl | rfl | rfl <;> cases hp <;> simp
  · rcases longKeyForest_eq_some ha with rfl | rfl | rfl <;> cases ha <;>
      exact ⟨⟨rfl, rfl, rfl, rfl⟩, rfl, by simp, by simp⟩

theorem longKeyMem_holds (t : NodeMemType) : (longKeyMem t).Holds (longKeyForest t) := by
  refine ⟨fun a e ha => by rw [longKeyMem_forest]; exact ha, fun a e ha => ?_, fun a e ha => ?_⟩
  · rcases longKeyForest_eq_some ha with rfl | rfl | rfl <;> decide
  · have hfresh : (longKeyMem t).fresh = 32 := rfl
    rw [hfresh]
    rcases longKeyForest_eq_some ha with rfl | rfl | rfl <;> decide

theorem localParents_of_task_longKey :
    ∃ mem' ρ F', machine.run ((MigrationTask.promoteLeaf 8 0 0).run plainEnv 9)
      (longKeyMem .remote) =
        .done () mem' ∧
      (longKeyForest .remote).Renames (Retyped .local_) ρ F' ∧ mem'.Holds F' ∧ AtRest F' ∧
      LocalParents F' ∧ ∀ a y, F' a = some y → a = ρ 8 ∨ Relation.TransGen F'.IsParent (ρ 8) a →
        y.data.type = .local_ := by
  obtain ⟨mem', -, hrun⟩ := Outcome.eq_done_of_answer
    (show (machine.run ((MigrationTask.promoteLeaf 8 0 0).run plainEnv 9)
      (longKeyMem .remote)).answer? = some () by decide +kernel)
  have hlocal : LocalParents (longKeyForest .remote) := fun c p y x hc _ _ h => by
    rcases longKeyForest_eq_some hc with rfl | rfl | rfl <;> cases hc <;> cases h
  have htask : (MigrationTask.promoteLeaf 8 0 0).On (longKeyForest .remote) := ⟨_, rfl, rfl⟩
  obtain ⟨ρ, F', hren, hF', hrest, hlocal', hanc⟩ := localParents_of_task (longKeyMem_holds .remote)
    (longKeyForest_atRest .remote) hlocal htask hrun
  exact ⟨mem', ρ, F', hrun, hren, hF', hrest, hlocal', hanc 8 0 0 rfl⟩

end Example

end Sidle.Masstree
