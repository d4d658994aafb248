import Sidle.Prog.Trace
import Sidle.Worker.Cooling

/-!
# Hotness and accesses

A leaf that is accessed more often should not look colder.  Halving and counting both respect
the order of the counts, so this is so as long as the 16-bit count does not wrap around;
`update_access` does nothing to prevent that.

## Main definitions

* `LeafStep` — an access or a cooling of one leaf.
* `Extends` — the same steps with more accesses between them.
* `Overflows` — an access that wraps the count around.

## Main results

* `hotness_mono` — **more accesses never make a leaf colder** in a run without an overflow.
* `hotness_not_mono` — accesses that make a hot leaf cold.
-/

namespace Sidle

open Trace

/-- `update_access` on the count of one leaf, a number of 16 bits. -/
def updateAccess (accessTime : ℕ) : ℕ := (accessTime + 1) % 2 ^ 16

/-- The steps that change the count of a leaf. -/
inductive LeafStep
  | access
  | cool
  deriving DecidableEq, Repr

/-- The count after a step. -/
def LeafStep.apply (accessTime : ℕ) : LeafStep → ℕ
  | .access => updateAccess accessTime
  | .cool => coolDown accessTime

/-- The steps of a leaf as a transition function. -/
def leafStep (accessTime : ℕ) (e : LeafStep) : Option ℕ := some (e.apply accessTime)

/-- The count after a sequence of steps. -/
def accessTimeAfter (accessTime : ℕ) (es : List LeafStep) : ℕ := es.foldl LeafStep.apply accessTime

/-- The second sequence is the first one with accesses put in anywhere. -/
inductive Extends : List LeafStep → List LeafStep → Prop
  | nil : Extends [] []
  | cons (e : LeafStep) {es es' : List LeafStep} (h : Extends es es') : Extends (e :: es) (e :: es')
  | access {es es' : List LeafStep} (h : Extends es es') : Extends es (.access :: es')

/-- The access wraps the count around. -/
def Overflows (accessTime : ℕ) (e : LeafStep) : Prop := e = .access ∧ 2 ^ 16 ≤ accessTime + 1

instance (accessTime : ℕ) (e : LeafStep) : Decidable (Overflows accessTime e) :=
  inferInstanceAs (Decidable (_ ∧ _))

variable {c d : ℕ}

theorem updateAccess_of_not_overflows (h : ¬Overflows c .access) : updateAccess c = c + 1 := by
  apply Nat.mod_eq_of_lt
  by_contra hge
  exact h ⟨rfl, Nat.le_of_not_lt hge⟩

theorem coolDown_mono (h : c ≤ d) : coolDown c ≤ coolDown d := by
  unfold coolDown
  rw [Nat.shiftRight_one, Nat.shiftRight_one]
  exact Nat.div_le_div_right h

/-- The larger count stays the larger one.  The induction is on the way the second sequence
extends the first, with both counts free. -/
theorem accessTimeAfter_mono {es es' : List LeafStep} (h : Extends es es') (hcd : c ≤ d)
    (hstep : EachStep leafStep (fun t e _ => ¬Overflows t e) d es') :
    accessTimeAfter c es ≤ accessTimeAfter d es' := by
  induction h generalizing c d with
  | nil => exact hcd
  | cons e _ ih =>
    obtain ⟨hno, hrest⟩ := eachStep_cons.mp hstep _ rfl
    apply ih _ hrest
    cases e with
    | access =>
      have hd := updateAccess_of_not_overflows hno
      have hc : ¬Overflows c .access := fun ho => hno ⟨rfl, by have := ho.2; omega⟩
      change updateAccess c ≤ updateAccess d
      rw [hd, updateAccess_of_not_overflows hc]
      omega
    | cool => exact coolDown_mono hcd
  | access _ ih =>
    obtain ⟨hno, hrest⟩ := eachStep_cons.mp hstep _ rfl
    apply ih _ hrest
    change c ≤ updateAccess d
    rw [updateAccess_of_not_overflows hno]
    omega

theorem update_hot_iff (h : SidleHistogram) (c : ℕ) :
    (h.update c).1 = .hot ↔ h.hotThreshold < c := by
  unfold SidleHistogram.update
  by_cases hhot : c > h.hotThreshold
  · simp [hhot]
  · by_cases hcold : c < h.coldThreshold
    · simp [hhot, hcold]
    · simp [hhot, hcold]

/-- **More accesses never make a leaf colder** when no access of the longer sequence wraps the
count around. -/
theorem hotness_mono (accessTime : ℕ) (es es' : List LeafStep) (hext : Extends es es')
    (hstep : EachStep leafStep (fun t e _ => ¬Overflows t e) accessTime es') :
    accessTimeAfter accessTime es ≤ accessTimeAfter accessTime es' ∧
      ∀ h : SidleHistogram, (h.update (accessTimeAfter accessTime es)).1 = .hot →
        (h.update (accessTimeAfter accessTime es')).1 = .hot := by
  have hle := accessTimeAfter_mono hext (Nat.le_refl accessTime) hstep
  refine ⟨hle, fun h hhot => ?_⟩
  rw [update_hot_iff] at hhot ⊢
  omega

/-- An access more before a cooling. -/
theorem hotness_mono_of_access :
    accessTimeAfter 200 [.cool, .access] ≤ accessTimeAfter 200 [.access, .cool, .access] ∧
      ∀ h : SidleHistogram, (h.update (accessTimeAfter 200 [.cool, .access])).1 = .hot →
        (h.update (accessTimeAfter 200 [.access, .cool, .access])).1 = .hot :=
  hotness_mono 200 _ _ (.access (.cons _ (.cons _ .nil))) (by decide)

/-! ### Overflow -/

theorem accessTimeAfter_replicate (n c : ℕ) :
    accessTimeAfter (c % 2 ^ 16) (List.replicate n .access) = (c + n) % 2 ^ 16 := by
  induction n generalizing c with
  | zero => rfl
  | succ n ih =>
    have hone : updateAccess (c % 2 ^ 16) = (c + 1) % 2 ^ 16 := Nat.mod_add_mod c (2 ^ 16) 1
    rw [List.replicate_succ, accessTimeAfter, List.foldl_cons]
    change accessTimeAfter (updateAccess (c % 2 ^ 16)) _ = _
    rw [hone, ih]
    congr 1
    omega

theorem extends_replicate (n : ℕ) : Extends [] (List.replicate n .access) := by
  induction n with
  | zero => exact .nil
  | succ n ih => exact .access ih

/-- A fresh leaf that is accessed 129 times is hot at first; 65407 more accesses, and it looks
as if it had never been accessed. -/
theorem hotness_not_mono :
    Extends (List.replicate 129 .access)
      (List.replicate 129 .access ++ List.replicate 65407 .access) ∧
      accessTimeAfter 0 (List.replicate 129 .access ++ List.replicate 65407 .access) <
        accessTimeAfter 0 (List.replicate 129 .access) ∧
      (SidleHistogram.initial.update (accessTimeAfter 0 (List.replicate 129 .access))).1 = .hot ∧
      (SidleHistogram.initial.update (accessTimeAfter 0
        (List.replicate 129 .access ++ List.replicate 65407 .access))).1 = .cold := by
  have hext (n m : ℕ) :
      Extends (List.replicate n .access)
        (List.replicate n .access ++ List.replicate m .access) := by
    induction n with
    | zero => exact extends_replicate m
    | succ n ih => exact .cons .access ih
  have hshort : accessTimeAfter 0 (List.replicate 129 .access) = 129 :=
    accessTimeAfter_replicate 129 0
  have hlong : accessTimeAfter 0
      (List.replicate 129 .access ++ List.replicate 65407 .access) = 0 := by
    rw [← List.replicate_add]
    exact accessTimeAfter_replicate 65536 0
  rw [hshort, hlong]
  exact ⟨hext 129 65407, by decide, by decide, by decide⟩

end Sidle
