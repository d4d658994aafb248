import Sidle.Worker.System

/-!
# The switches of the workers

Three flags switch the trigger and the executors on and off.  The threshold adjuster
writes all three while it handles a shortage of local memory, and every allocation may
switch the demotion off while the adjuster is at work.

## Main definitions

* `Idle` — the adjuster waits and nobody has asked for it.
* `AllEnabled` — all three switches are on.
* `Disables`, `Reenables` — the store of an allocation that switches the demotion off, and
  the store of the adjuster that switches it on.

## Main results

* `switches_of_run` — where the switches can be off.
* `idle_enabled_iff` — when an idle adjuster has left all workers enabled.
* `demotion_left_disabled` — an adjustment after which the demotion stays off.
-/

namespace Sidle.Worker

open Trace

/-- The adjuster is idle and has not been woken. -/
def Idle (w : Workers) : Prop := w.adjuster = .idle ∧ w.flags.needAdjustThreshold = false

instance : DecidablePred Idle := fun _ => inferInstanceAs (Decidable (_ ∧ _))

/-- The trigger and both executors may run. -/
def AllEnabled (w : Workers) : Prop :=
  w.flags.canTrigger = true ∧ w.flags.canPromote = true ∧ w.flags.canDemote = true

instance : DecidablePred AllEnabled := fun _ => inferInstanceAs (Decidable (_ ∧ _ ∧ _))

/-- `update_local_memory_usage` switches the demotion off. -/
def Disables (_ : Workers) (e : Event) (_ : Workers) : Prop := e = .finishUpdate

/-- Step 6 of `handle_local_mem_shortage` switches the demotion on. -/
def Reenables (w : Workers) (e : Event) (_ : Workers) : Prop :=
  (∃ status, e = .adjuster status) ∧ ∃ times, w.adjuster = .allowDemotion times

namespace AdjusterPc

/-- Between the stores of steps 3 and 6 to `can_trigger_`. -/
def stopsTrigger : AdjusterPc → Bool
  | .stopDemotion _ => true
  | .awaitDemotion _ => true
  | .allowTrigger _ => true
  | _ => false

/-- Between the stores of steps 3 and 6 to `can_demote_`. -/
def stopsDemotion : AdjusterPc → Bool
  | .awaitDemotion _ => true
  | .allowTrigger _ => true
  | .allowDemotion _ => true
  | _ => false

/-- Between the first and the last store of `handle_local_mem_shortage`. -/
def stopsPromotion : AdjusterPc → Bool
  | .idle => false
  | .awake => false
  | .shortage => false
  | .ending => false
  | .stopped => false
  | _ => true

end AdjusterPc

/-! ### One step -/

/-- The adjuster and the switches are as before. -/
structure SwitchesKept (w u : Workers) : Prop where
  adjuster : u.adjuster = w.adjuster
  canTrigger : u.flags.canTrigger = w.flags.canTrigger
  canPromote : u.flags.canPromote = w.flags.canPromote
  canDemote : u.flags.canDemote = w.flags.canDemote

theorem SwitchesKept.refl (w : Workers) : SwitchesKept w w := ⟨rfl, rfl, rfl, rfl⟩

theorem SwitchesKept.trans {w u x : Workers} (h : SwitchesKept w u) (h' : SwitchesKept u x) :
    SwitchesKept w x :=
  ⟨h'.adjuster.trans h.adjuster, h'.canTrigger.trans h.canTrigger,
    h'.canPromote.trans h.canPromote, h'.canDemote.trans h.canDemote⟩

theorem switchesKept_setNeed (w : Workers) (type : TaskType) (b : Bool) :
    SwitchesKept w { w with flags := w.flags.setNeed type b } := by
  cases type <;> exact ⟨rfl, rfl, rfl, rfl⟩

theorem switchesKept_checkExecute (w : Workers) (type : TaskType) :
    SwitchesKept w (w.checkExecute type) := by
  unfold Workers.checkExecute
  split
  · exact switchesKept_setNeed w type true
  · exact .refl w

theorem switchesKept_act (w : Workers) (type : TaskType) (task : Task) (v : Verdict) :
    SwitchesKept w (w.act type task v) := by
  cases v <;> exact ⟨rfl, rfl, rfl, rfl⟩

theorem switchesKept_stepExecutor {cfg : Config} {type : TaskType} {r : Reading} {w u : Workers}
    (h : stepExecutor cfg type r w = some u) : SwitchesKept w u := by
  unfold stepExecutor at h
  cases hpc : w.executor type with
  | waiting =>
    simp only [hpc] at h
    cases h
    exact (switchesKept_setNeed w type true).trans ⟨rfl, rfl, rfl, rfl⟩
  | taking =>
    simp only [hpc] at h
    split at h
    · obtain ⟨⟨task, q⟩, -, rfl⟩ := Option.map_eq_some_iff.mp h
      exact SwitchesKept.trans (u := { w with queue := q }) ⟨rfl, rfl, rfl, rfl⟩
        (switchesKept_act _ _ _ _)
    · obtain ⟨⟨task, q⟩, -, rfl⟩ := Option.map_eq_some_iff.mp h
      exact SwitchesKept.trans (u := { w with queue := q }) ⟨rfl, rfl, rfl, rfl⟩
        (switchesKept_act _ _ _ _)
  | leaving =>
    simp only [hpc] at h
    cases h
    exact (switchesKept_setNeed w type false).trans ⟨rfl, rfl, rfl, rfl⟩
  | clearing =>
    simp only [hpc] at h
    split at h
    · obtain ⟨⟨task, q⟩, -, rfl⟩ := Option.map_eq_some_iff.mp h
      exact ⟨rfl, rfl, rfl, rfl⟩
    · obtain ⟨⟨task, q⟩, -, rfl⟩ := Option.map_eq_some_iff.mp h
      exact ⟨rfl, rfl, rfl, rfl⟩
  | ending =>
    simp only [hpc] at h
    cases h
    cases type <;> exact ⟨rfl, rfl, rfl, rfl⟩
  | stopped => simp [hpc] at h
  | failed => simp [hpc] at h
  | _ =>
    simp only [hpc] at h
    cases h
    exact ⟨rfl, rfl, rfl, rfl⟩

theorem switchesKept_triggerMigrationCb (cfg : Config) (v : Visit) (w : Workers) :
    SwitchesKept w (triggerMigrationCb cfg v w) := by
  have hadd (type : TaskType) : SwitchesKept w (w.addCandidate cfg type v) := by
    unfold Workers.addCandidate
    split <;> exact ⟨rfl, rfl, rfl, rfl⟩
  unfold triggerMigrationCb
  split
  · split
    · exact ⟨rfl, rfl, rfl, rfl⟩
    · exact (hadd .promotion).trans (switchesKept_checkExecute _ _)
  · split
    · split
      · exact ⟨rfl, rfl, rfl, rfl⟩
      · exact (hadd .demotion).trans (switchesKept_checkExecute _ _)
    · exact .refl w

theorem switchesKept_stepTrigger {cfg : Config} {timeout : Bool} {visit : Option Visit}
    {w u : Workers} (h : stepTrigger cfg timeout visit w = some u) : SwitchesKept w u := by
  unfold stepTrigger at h
  cases hpc : w.trigger with
  | waiting =>
    simp only [hpc, wakeTrigger] at h
    split at h
    · cases h
    · split at h
      · cases h
        exact ⟨rfl, rfl, rfl, rfl⟩
      · split at h <;> cases h <;> exact ⟨rfl, rfl, rfl, rfl⟩
  | traversing =>
    rw [hpc] at h
    cases visit with
    | none =>
      cases h
      exact ⟨rfl, rfl, rfl, rfl⟩
    | some v =>
      cases h
      exact switchesKept_triggerMigrationCb cfg v w
  | checkPromotion =>
    simp only [hpc] at h
    cases h
    split
    · exact SwitchesKept.trans (u := { w with trigger := .checkDemotion }) ⟨rfl, rfl, rfl, rfl⟩
        (switchesKept_checkExecute _ _)
    · exact ⟨rfl, rfl, rfl, rfl⟩
  | checkDemotion =>
    simp only [hpc] at h
    cases h
    split
    · exact SwitchesKept.trans (u := { w with trigger := .ending }) ⟨rfl, rfl, rfl, rfl⟩
        (switchesKept_checkExecute _ _)
    · exact ⟨rfl, rfl, rfl, rfl⟩
  | ending =>
    simp only [hpc] at h
    cases h
    exact ⟨rfl, rfl, rfl, rfl⟩
  | stopped => simp [hpc] at h
  | failed => simp [hpc] at h

/-- Only the adjuster and `update_local_memory_usage` touch the switches. -/
theorem step_switches {cfg : Config} {w u : Workers} {e : Event} (h : step cfg w e = some u) :
    (∃ status, e = .adjuster status ∧ stepAdjuster status w = some u) ∨
      (e = .finishUpdate ∧ SwitchesKept { w with flags := { w.flags with canDemote := false } } u) ∨
      SwitchesKept w u := by
  cases e with
  | addMultiTask type data =>
    cases h
    exact Or.inr (Or.inr ⟨rfl, rfl, rfl, rfl⟩)
  | addTask type data =>
    cases h
    exact Or.inr (Or.inr ⟨rfl, rfl, rfl, rfl⟩)
  | executor type r => exact Or.inr (Or.inr (switchesKept_stepExecutor h))
  | trigger timeout visit => exact Or.inr (Or.inr (switchesKept_stepTrigger h))
  | adjuster status => exact Or.inl ⟨status, rfl, h⟩
  | startUpdate status =>
    cases h
    refine Or.inr (Or.inr ?_)
    unfold startUpdate
    split
    · exact ⟨rfl, rfl, rfl, rfl⟩
    · split <;> exact ⟨rfl, rfl, rfl, rfl⟩
  | finishUpdate =>
    simp only [step, finishUpdate] at h
    split at h <;> cases h
    exact Or.inr (Or.inl ⟨rfl, ⟨rfl, rfl, rfl, rfl⟩⟩)
  | stop =>
    cases h
    exact Or.inr (Or.inr ⟨rfl, rfl, rfl, rfl⟩)

/-- The trigger and the promotion executor are only switched off while the adjuster handles
a shortage. -/
structure SwitchInv (w : Workers) : Prop where
  trigger : w.flags.canTrigger = true ∨ w.adjuster.stopsTrigger = true
  promotion : w.flags.canPromote = true ∨ w.adjuster.stopsPromotion = true

/-- The same of the demotion executor, apart from what allocations do. -/
def DemotionInv (w : Workers) : Prop :=
  w.flags.canDemote = true ∨ w.adjuster.stopsDemotion = true

theorem stepAdjuster_inv {status : MemUsageStatus} {w u : Workers}
    (h : stepAdjuster status w = some u) (hw : SwitchInv w) : SwitchInv u := by
  obtain ⟨ht, hp⟩ := hw
  unfold stepAdjuster at h
  cases hpc : w.adjuster with
  | awaitDemotion times =>
    simp only [hpc] at h
    split at h <;> cases h
    exact ⟨Or.inr rfl, Or.inr rfl⟩
  | stopped => simp [hpc] at h
  | awake =>
    rw [hpc] at h ht hp
    cases h
    constructor
    · exact Or.inl (ht.resolve_right Bool.noConfusion)
    · exact Or.inl (hp.resolve_right Bool.noConfusion)
  | idle =>
    rw [hpc] at h ht hp
    cases h
    constructor
    · exact Or.inl (ht.resolve_right Bool.noConfusion)
    · exact Or.inl (hp.resolve_right Bool.noConfusion)
  | ending =>
    rw [hpc] at h ht hp
    cases h
    constructor
    · exact Or.inl (ht.resolve_right Bool.noConfusion)
    · exact Or.inl (hp.resolve_right Bool.noConfusion)
  | looping times =>
    rw [hpc] at h ht hp
    cases h
    constructor
    · exact Or.inl (ht.resolve_right Bool.noConfusion)
    · right
      dsimp only
      split <;> rfl
  | recheck times =>
    rw [hpc] at h ht hp
    cases h
    constructor
    · exact Or.inl (ht.resolve_right Bool.noConfusion)
    · right
      dsimp only
      split <;> rfl
  | restore =>
    rw [hpc] at h ht hp
    cases h
    exact ⟨Or.inl (ht.resolve_right Bool.noConfusion), Or.inl rfl⟩
  | stopTrigger times =>
    rw [hpc] at h ht hp
    cases h
    exact ⟨Or.inr rfl, Or.inr rfl⟩
  | stopDemotion times =>
    rw [hpc] at h ht hp
    cases h
    exact ⟨Or.inr rfl, Or.inr rfl⟩
  | allowTrigger times =>
    rw [hpc] at h ht hp
    cases h
    exact ⟨Or.inl rfl, Or.inr rfl⟩
  | _ =>
    rw [hpc] at h ht hp
    cases h
    exact ⟨Or.inl (ht.resolve_right Bool.noConfusion), Or.inr rfl⟩

theorem stepAdjuster_demotionInv {status : MemUsageStatus} {w u : Workers}
    (h : stepAdjuster status w = some u) (hw : DemotionInv w) : DemotionInv u := by
  unfold DemotionInv at hw
  unfold stepAdjuster at h
  cases hpc : w.adjuster with
  | awaitDemotion times =>
    simp only [hpc] at h
    split at h <;> cases h
    exact Or.inr rfl
  | stopped => simp [hpc] at h
  | stopDemotion times =>
    rw [hpc] at h
    cases h
    exact Or.inr rfl
  | allowTrigger times =>
    rw [hpc] at h
    cases h
    exact Or.inr rfl
  | allowDemotion times =>
    rw [hpc] at h
    cases h
    exact Or.inl rfl
  | _ =>
    rw [hpc] at h hw
    cases h
    exact Or.inl (hw.resolve_right Bool.noConfusion)

/-- The adjuster switches the demotion on in step 6 only. -/
theorem stepAdjuster_canDemote {status : MemUsageStatus} {w u : Workers}
    (h : stepAdjuster status w = some u) (hoff : w.flags.canDemote = false)
    (hpc : ∀ times, w.adjuster ≠ .allowDemotion times) : u.flags.canDemote = false := by
  unfold stepAdjuster at h
  cases hpc' : w.adjuster with
  | awaitDemotion times =>
    simp only [hpc'] at h
    split at h <;> cases h
    exact hoff
  | allowDemotion times => exact absurd hpc' (hpc times)
  | stopped => simp [hpc'] at h
  | stopDemotion times =>
    rw [hpc'] at h
    cases h
    rfl
  | _ =>
    rw [hpc'] at h
    cases h
    exact hoff

/-! ### Runs -/

/-- Where the switches of the trigger and of the promotion can be off, in every state of
every run. -/
theorem switches_of_run (cfg : Config) (es : List Event) :
    Always (step cfg) SwitchInv .initial es := by
  apply always_of_step
  · exact ⟨Or.inl rfl, Or.inl rfl⟩
  · intro w e u hw hstep
    rcases step_switches hstep with ⟨status, -, hadj⟩ | ⟨-, hkept⟩ | hkept
    · exact stepAdjuster_inv hadj hw
    · exact ⟨by rw [hkept.canTrigger, hkept.adjuster]; exact hw.trigger,
        by rw [hkept.canPromote, hkept.adjuster]; exact hw.promotion⟩
    · exact ⟨by rw [hkept.canTrigger, hkept.adjuster]; exact hw.trigger,
        by rw [hkept.canPromote, hkept.adjuster]; exact hw.promotion⟩

/-- The demotion is only switched off between steps 3 and 6 of a shortage, or when an
allocation has switched it off and step 6 has not come since. -/
theorem demotion_on_or_since {cfg : Config} {es : List Event} {w : Workers}
    (h : run (step cfg) .initial es = some w) :
    DemotionInv w ∨ Since (step cfg) Disables Reenables .initial es := by
  apply or_since_of_run (J := DemotionInv) (Or.inl rfl) _ _ h
  · intro w e u hstep hw
    rcases step_switches hstep with ⟨status, -, hadj⟩ | ⟨he, -⟩ | hkept
    · exact Or.inl (stepAdjuster_demotionInv hadj hw)
    · exact Or.inr he
    · left
      unfold DemotionInv at *
      rw [hkept.canDemote, hkept.adjuster]
      exact hw
  · intro w e u hstep hre
    obtain ⟨⟨status, rfl⟩, times, hpc⟩ := hre
    simp only [step, stepAdjuster, hpc] at hstep
    cases hstep
    exact Or.inl rfl

theorem demotion_off_of_since {cfg : Config} {es : List Event} {w : Workers}
    (h : run (step cfg) .initial es = some w)
    (hsince : Since (step cfg) Disables Reenables .initial es) : w.flags.canDemote = false := by
  apply of_since (K := fun w : Workers => w.flags.canDemote = false) _ _ hsince h
  · intro w e u hstep he
    cases he
    simp only [step, finishUpdate] at hstep
    split at hstep <;> cases hstep
    rfl
  · intro w e u hstep hoff hre
    rcases step_switches hstep with ⟨status, rfl, hadj⟩ | ⟨-, hkept⟩ | hkept
    · exact stepAdjuster_canDemote hadj hoff fun times hpc => hre ⟨⟨status, rfl⟩, times, hpc⟩
    · exact hkept.canDemote
    · rw [hkept.canDemote]
      exact hoff

/-- **An idle adjuster has left all workers enabled**, in every state of a run, exactly when
it is never idle after an allocation has switched the demotion off and before step 6 of a
shortage has switched it on again. -/
theorem idle_enabled_iff (cfg : Config) (es : List Event) :
    Always (step cfg) (fun w => Idle w → AllEnabled w) .initial es ↔
      ∀ (before after : List Event) (w : Workers), es = before ++ after →
        run (step cfg) .initial before = some w →
        Since (step cfg) Disables Reenables .initial before → ¬ Idle w := by
  constructor
  · intro h before after w hes hrun hsince hidle
    have hon := (h before after w hes hrun hidle).2.2
    rw [demotion_off_of_since hrun hsince] at hon
    cases hon
  · intro h before after w hes hrun hidle
    have hinv := switches_of_run cfg es before after w hes hrun
    refine ⟨?_, ?_, ?_⟩
    · exact hinv.trigger.resolve_right (by rw [hidle.1]; exact Bool.noConfusion)
    · exact hinv.promotion.resolve_right (by rw [hidle.1]; exact Bool.noConfusion)
    · cases demotion_on_or_since hrun with
      | inl hdem => exact hdem.resolve_right (by rw [hidle.1]; exact Bool.noConfusion)
      | inr hsince => exact absurd hidle (h before after w hes hrun hsince)

/-- The adjuster wakes up by its timeout, an allocation with little memory in use switches
the demotion off, and the adjuster, which handles no shortage, goes to sleep again. -/
theorem demotion_left_disabled :
    ¬ Always (step ⟨.art, true⟩) (fun w => Idle w → AllEnabled w) .initial
      [.adjuster .sufficient, .startUpdate .sufficient, .finishUpdate, .adjuster .sufficient,
        .adjuster .sufficient] := by
  decide

end Sidle.Worker
