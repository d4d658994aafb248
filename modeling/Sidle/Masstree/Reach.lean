import Sidle.Masstree.Insert
import Sidle.Masstree.Runs
import Sidle.Masstree.Shape
import Mathlib.Logic.Relation

/-!
# The way to a leaf

`reach_leaf` climbs from the pointer it is given along the parents until it meets the root bit,
and goes down from there.  What it reads of a node on the way is the node's guide.  As long as
nobody writes it ends exactly where a climb and a descent along the guides do.

## Main definitions

* `Guide`, `Mem.guide` — what `reach_leaf` reads of a node.
* `Climbs`, `Descends` — the two parts of the way.
* `Mem.Reaches` — `reach_leaf` ends, with a given leaf.

## Main results

* `climbs_unique` — there is one root to climb to.
* `reaches_iff` — **the way that `reach_leaf` takes**.
-/

namespace Sidle.Masstree

open Art (Build Fault)
open Prog Machine Outcome Word

/-! ### Guides -/

/-- What `reach_leaf` reads of a node: `next` is the child for a slice. -/
structure Guide where
  leaf : Bool
  parent : Addr
  marks : Marks
  next : ℕ → Addr

/-- `stable` returns from the node. -/
def Guide.Open (g : Guide) : Prop := g.marks.inserting = false ∧ g.marks.splitting = false

/-- What `reach_leaf` reads of the node. -/
def Node.guide : Node → Guide
  | leaf l => ⟨true, l.parent, l.version.marks, fun _ => 0⟩
  | internode x => ⟨false, x.parent, x.version.marks, fun ikey => x.child (x.upper ikey)⟩

/-- What `reach_leaf` reads of the nodes in the memory. -/
def Mem.guide (mem : Mem) (a : Addr) : Option Guide := (mem.node? a).map Node.guide

section Ways

variable (G : Addr → Option Guide)

/-- A step of the climb. -/
def Up (a b : Addr) : Prop :=
  ∃ g, G a = some g ∧ g.Open ∧ g.marks.isRoot = false ∧ g.parent = b ∧ b ≠ 0

/-- The climb ends here. -/
def Top (a : Addr) : Prop := ∃ g, G a = some g ∧ g.Open ∧ g.marks.isRoot = true

/-- The climb from `a` ends at `r`. -/
def Climbs (a r : Addr) : Prop := Relation.ReflTransGen (Up G) a r ∧ Top G r

/-- The descent from an internode ends at the leaf `l`. -/
inductive Descends (ikey : ℕ) : Addr → Addr → Prop
  | leaf {l : Addr} {g : Guide} (hl : G l = some g) (hopen : g.Open) (hleaf : g.leaf = true)
      (htag : g.marks.isleaf = true) : Descends ikey l l
  | step {n l : Addr} {g : Guide} (hn : G n = some g) (hopen : g.Open) (hleaf : g.leaf = false)
      (htag : g.marks.isleaf = false) (hnext : g.next ikey ≠ 0)
      (h : Descends ikey (g.next ikey) l) : Descends ikey n l

end Ways

section Climbs

variable {G : Addr → Option Guide} {a b c r s : Addr}

theorem up_unique (h : Up G a b) (h' : Up G a c) : b = c := by
  obtain ⟨g, hg, -, -, rfl, -⟩ := h
  obtain ⟨g', hg', -, -, rfl, -⟩ := h'
  rw [hg] at hg'
  cases hg'
  rfl

theorem Top.not_up (h : Top G a) : ¬Up G a b := by
  obtain ⟨g, hg, -, hroot⟩ := h
  rintro ⟨g', hg', -, hroot', -⟩
  rw [hg] at hg'
  cases hg'
  rw [hroot] at hroot'
  cases hroot'

/-- Where there is no step to make the climb stays. -/
theorem eq_of_climb (h : Relation.ReflTransGen (Up G) a b) (ha : ∀ c, ¬Up G a c) : b = a := by
  cases Relation.ReflTransGen.cases_head h with
  | inl h => exact h.symm
  | inr h =>
    obtain ⟨c, hc, -⟩ := h
    exact absurd hc (ha c)

/-- A node from which there is no step to make is the end of every climb that comes to it. -/
theorem climb_to_end (h : Relation.ReflTransGen (Up G) a b) (hs : Relation.ReflTransGen (Up G) a s)
    (hend : ∀ c, ¬Up G s c) : Relation.ReflTransGen (Up G) b s := by
  have hunique : Relator.RightUnique (Up G) := fun _ _ _ => up_unique
  cases Relation.ReflTransGen.total_of_right_unique hunique h hs with
  | inl hbs => exact hbs
  | inr hsb => rw [eq_of_climb hsb hend]

/-- There is one root to climb to. -/
theorem climbs_unique (h : Climbs G a r) (h' : Climbs G a s) : r = s :=
  (eq_of_climb (climb_to_end h.1 h'.1 fun _ => h'.2.not_up) fun _ => h.2.not_up).symm

end Climbs

/-! ### The loops -/

section Loops

variable {mem : Mem} {a : Addr} {n : Node}

theorem guide_eq_some {g : Guide} :
    mem.guide a = some g ↔ ∃ n, mem.node? a = some n ∧ n.guide = g :=
  Option.map_eq_some_iff

theorem guide_of_node? (h : mem.node? a = some n) : mem.guide a = some n.guide :=
  guide_eq_some.mpr ⟨n, h, rfl⟩

theorem Node.guide_marks : n.guide.marks = n.version.marks := by cases n <;> rfl

@[simp] theorem Node.guide_isRoot : n.guide.marks.isRoot = n.version.isRoot := by cases n <;> rfl

@[simp] theorem Node.guide_isleaf : n.guide.marks.isleaf = n.version.isleaf := by cases n <;> rfl

theorem Node.guide_open :
    n.guide.Open ↔ n.version.inserting = false ∧ n.version.splitting = false := by
  cases n <;> rfl

@[simp] theorem Node.guide_parent : n.guide.parent = n.parent := by cases n <;> rfl

theorem run_stable (fuel : ℕ) (h : mem.node? a = some n) (hopen : n.guide.Open) :
    machine.run (stable a (fuel + 1)) mem = done n.version mem := by
  obtain ⟨hi, hs⟩ := Node.guide_open.mp hopen
  rw [stable, machine.run_bind_of_done (run_readVersion h), hi, hs]
  rfl

theorem ensures_stable (fuel : ℕ) : machine.Ensures (stable a fuel) mem fun v mem' =>
    mem' = mem ∧ ∃ n, mem.node? a = some n ∧ n.guide.Open ∧ v = n.version := by
  induction fuel with
  | zero => exact ensures_diverge
  | succ fuel ih =>
    refine ensures_read.bind fun v mem₁ hv => ?_
    obtain ⟨rfl, n, hn, rfl⟩ := hv
    refine ensures_ite (fun _ => ih) fun hopen => ensures_ret.mpr ⟨rfl, n, hn, ?_, rfl⟩
    rw [Node.guide_open]
    simpa using hopen

/-- A version that has just been read has not changed. -/
theorem run_hasChanged_self (h : mem.node? a = some n) (readonly : Bool) :
    machine.run (hasChanged a n.version readonly) mem = done false mem := by
  rw [hasChanged, machine.run_bind_of_done (run_readVersion h)]
  simp only [BitVec.xor_self]
  cases readonly <;> rfl

theorem ensures_climbToRoot (fuel : ℕ) :
    machine.Ensures (climbToRoot fuel a) mem fun rv mem' => mem' = mem ∧
      Climbs mem.guide a rv.1 ∧ ∃ n, mem.node? rv.1 = some n ∧ rv.2 = n.version := by
  induction fuel generalizing a with
  | zero => exact ensures_diverge
  | succ fuel ih =>
    refine (ensures_stable fuel).bind fun v mem₁ hv => ?_
    obtain ⟨rfl, n, hn, hopen, rfl⟩ := hv
    refine ensures_ite (fun hroot => ?_) fun hroot => ?_
    · refine ensures_ret.mpr ⟨rfl, ⟨.refl, n.guide, guide_of_node? hn, hopen, ?_⟩, n, hn, rfl⟩
      rwa [Node.guide_isRoot]
    · have hparent : machine.run (maybeParent a) mem₁ =
          done (if n.parent ≠ 0 then n.parent else a) mem₁ :=
        machine.run_bind_of_done (run_readParent hn)
      intro rv mem₂ hrun
      rw [machine.run_bind_of_done hparent] at hrun
      by_cases hp : n.parent = 0
      · -- a node without a parent is asked again
        rw [if_neg (by simp [hp])] at hrun
        exact ih rv mem₂ hrun
      · rw [if_pos hp] at hrun
        obtain ⟨rfl, hclimb, hnode⟩ := ih rv mem₂ hrun
        refine ⟨rfl, ⟨.head ⟨n.guide, guide_of_node? hn, hopen, ?_, by simp, hp⟩ hclimb.1,
          hclimb.2⟩,
          hnode⟩
        simpa using hroot

theorem exists_run_climbToRoot {r : Addr} (h : Climbs mem.guide a r) :
    ∃ n, mem.node? r = some n ∧ ∃ fuel₀, ∀ fuel, fuel₀ ≤ fuel →
      machine.run (climbToRoot fuel a) mem = done (r, n.version) mem := by
  obtain ⟨hup, g, hg, hopen, hroot⟩ := h
  obtain ⟨n, hn, rfl⟩ := guide_eq_some.mp hg
  refine ⟨n, hn, ?_⟩
  induction hup using Relation.ReflTransGen.head_induction_on with
  | refl =>
    refine ⟨2, fun fuel hfuel => ?_⟩
    obtain ⟨fuel, rfl⟩ := Nat.exists_eq_add_of_le' hfuel
    have hroot' : n.version.isRoot = true := by simpa using hroot
    rw [climbToRoot, machine.run_bind_of_done (run_stable fuel hn hopen), hroot', if_pos rfl]
    rfl
  | @head b c hbc _ ih =>
    obtain ⟨g', hg', hopen', hroot', hp, hc⟩ := hbc
    obtain ⟨m, hm, rfl⟩ := guide_eq_some.mp hg'
    obtain ⟨fuel₀, hrun⟩ := ih
    refine ⟨fuel₀ + 2, fun fuel hfuel => ?_⟩
    obtain ⟨fuel, rfl⟩ := Nat.exists_eq_add_of_le' hfuel
    have hroot'' : m.version.isRoot = false := by simpa using hroot'
    have hparent : machine.run (maybeParent b) mem = done c mem := by
      have hmp : m.parent = c := by simpa using hp
      have hrun : machine.run (maybeParent b) mem =
          done (if m.parent ≠ 0 then m.parent else b) mem :=
        machine.run_bind_of_done (run_readParent hm)
      rwa [hmp, if_pos hc] at hrun
    rw [show fuel + (fuel₀ + 2) = (fuel + fuel₀ + 1) + 1 by omega, climbToRoot,
      machine.run_bind_of_done (run_stable _ hm hopen'), hroot'']
    simp only [Bool.false_eq_true, if_false]
    rw [machine.run_bind_of_done hparent]
    exact hrun _ (by omega)

theorem ensures_descend (ka : Key) (fuel : ℕ) (hn : mem.node? a = some n) (hopen : n.guide.Open) :
    machine.Ensures (descend ka fuel a n.version) mem fun found mem' => mem' = mem ∧
      ∀ lv, found = some lv → ∃ m, mem.node? lv.1 = some m ∧ m.guide.Open ∧
        m.version.isleaf = true ∧ (m.guide.leaf = true → Descends mem.guide ka.ikey a lv.1) := by
  induction fuel generalizing a n with
  | zero => exact ensures_diverge
  | succ fuel ih =>
    rw [descend]
    refine ensures_ite (fun htag => ensures_ret.mpr ⟨rfl, fun lv hlv => ?_⟩) fun htag => ?_
    · cases hlv
      exact ⟨n, hn, hopen, htag,
        fun hleaf => .leaf (guide_of_node? hn) hopen hleaf (by simpa using htag)⟩
    refine ensures_read.bind fun x mem₁ hx => ?_
    obtain ⟨rfl, x', hx, rfl⟩ := hx
    obtain rfl : n = .internode x := Option.some.inj (hn.symm.trans (internode?_eq_some.mp hx))
    refine ensures_ite (fun _ => ensures_ret.mpr ⟨rfl, fun lv hlv => by cases hlv⟩) fun h0 => ?_
    refine (ensures_stable fuel).bind fun vc mem₂ hvc => ?_
    obtain ⟨rfl, m, hm, hmopen, rfl⟩ := hvc
    intro found mem₃ hrun
    rw [machine.run_bind_of_done (run_hasChanged_self hn true)] at hrun
    obtain ⟨rfl, hfound⟩ := ih hm hmopen found mem₃ hrun
    refine ⟨rfl, fun lv hlv => ?_⟩
    obtain ⟨k, hk, hkopen, hktag, hdesc⟩ := hfound lv hlv
    refine ⟨k, hk, hkopen, hktag, fun hleaf => ?_⟩
    exact .step (guide_of_node? hn) hopen rfl (by simpa using htag) h0 (hdesc hleaf)

theorem exists_run_descend {ka : Key} {l : Addr} (h : Descends mem.guide ka.ikey a l)
    (hn : mem.node? a = some n) :
    ∃ k, mem.node? l = some (.leaf k) ∧ ∃ fuel₀, ∀ fuel, fuel₀ ≤ fuel →
      machine.run (descend ka fuel a n.version) mem = done (some (l, k.version)) mem := by
  induction h generalizing n with
  | leaf hl hopen hleaf htag =>
    obtain ⟨m, hm, rfl⟩ := guide_eq_some.mp hl
    obtain rfl : n = m := Option.some.inj (hn.symm.trans hm)
    cases n with
    | internode => cases hleaf
    | leaf k =>
      refine ⟨k, hn, 1, fun fuel hfuel => ?_⟩
      obtain ⟨fuel, rfl⟩ := Nat.exists_eq_add_of_le' hfuel
      have htag' : (Node.leaf k).version.isleaf = true := htag
      rw [descend, htag', if_pos rfl]
      rfl
  | step hg hopen hleaf htag hnext hdesc ih =>
    obtain ⟨m, hm, rfl⟩ := guide_eq_some.mp hg
    obtain rfl : n = m := Option.some.inj (hn.symm.trans hm)
    cases n with
    | leaf => cases hleaf
    | internode x =>
      obtain ⟨c, hc, hcopen⟩ : ∃ c,
          mem.node? (x.child (x.upper ka.ikey)) = some c ∧ c.guide.Open := by
        cases hdesc with
        | leaf hl hopen _ _ =>
          obtain ⟨c, hc, rfl⟩ := guide_eq_some.mp hl
          exact ⟨c, hc, hopen⟩
        | step hl hopen _ _ _ _ =>
          obtain ⟨c, hc, rfl⟩ := guide_eq_some.mp hl
          exact ⟨c, hc, hopen⟩
      obtain ⟨k, hk, fuel₀, hrun⟩ := ih hc
      refine ⟨k, hk, fuel₀ + 2, fun fuel hfuel => ?_⟩
      obtain ⟨fuel, rfl⟩ := Nat.exists_eq_add_of_le' hfuel
      have htag' : (Node.internode x).version.isleaf = false := htag
      have hchild : x.child (x.upper ka.ikey) ≠ 0 := hnext
      rw [show fuel + (fuel₀ + 2) = (fuel + fuel₀ + 1) + 1 by omega, descend, htag']
      simp only [Bool.false_eq_true, if_false]
      rw [machine.run_bind_of_done (run_readInternode hn)]
      simp only [if_neg hchild]
      rw [machine.run_bind_of_done (run_stable _ hc hcopen),
        machine.run_bind_of_done (run_hasChanged_self hn true)]
      simp only [Bool.not_false, if_true]
      exact hrun _ (by omega)

end Loops

/-! ### `reach_leaf` -/

section Reach

variable {mem : Mem} {start l : Addr} {ka : Key}

/-- `reach_leaf` ends, with the leaf `l`. -/
def Mem.Reaches (mem : Mem) (start : Addr) (ka : Key) (l : Addr) : Prop :=
  ∃ fuel v mem', machine.run (reachLeaf start ka fuel) mem = done (l, v) mem'

theorem ensures_reachLeaf (fuel : ℕ) :
    machine.Ensures (reachLeaf start ka fuel) mem fun lv _ =>
      ∃ r, Climbs mem.guide start r ∧ Descends mem.guide ka.ikey r lv.1 := by
  induction fuel with
  | zero => exact ensures_diverge
  | succ fuel ih =>
    refine (ensures_climbToRoot fuel).bind fun rv mem₁ hrv => ?_
    obtain ⟨rfl, hclimb, n, hn, hv⟩ := hrv
    obtain ⟨r, v⟩ := rv
    simp only at hclimb hn hv
    subst hv
    obtain ⟨g, hg, hopen, -⟩ := hclimb.2
    obtain rfl : g = n.guide := Option.some.inj (hg.symm.trans (guide_of_node? hn))
    refine (ensures_descend ka fuel hn hopen).bind fun found mem₂ hfound => ?_
    obtain ⟨rfl, hfound⟩ := hfound
    cases found with
    | none => exact ih
    | some lv =>
      obtain ⟨m, hm, -, -, hdesc⟩ := hfound lv rfl
      refine (ensures_access (Q := fun _ _ => m.guide.leaf = true) fun l hl => ?_).bind
        fun _ _ hleaf => ensures_ret.mpr ⟨r, hclimb, hdesc hleaf⟩
      rw [Option.some.inj (hm.symm.trans (leaf?_eq_some.mp hl))]
      rfl

/-- **The way that `reach_leaf` takes** is the climb to the root and the descent from there. -/
theorem reaches_iff : mem.Reaches start ka l ↔
    ∃ r, Climbs mem.guide start r ∧ Descends mem.guide ka.ikey r l := by
  constructor
  · rintro ⟨fuel, v, mem', hrun⟩
    exact ensures_reachLeaf fuel _ _ hrun
  · rintro ⟨r, hclimb, hdesc⟩
    obtain ⟨n, hn, fuel₁, hrun₁⟩ := exists_run_climbToRoot hclimb
    obtain ⟨k, hk, fuel₂, hrun₂⟩ := exists_run_descend hdesc hn
    refine ⟨max fuel₁ fuel₂ + 1, k.version,
      mem.setNode l (.leaf { k with accessTime := (k.accessTime + 1) % 2 ^ 16 }), ?_⟩
    rw [reachLeaf, machine.run_bind_of_done (hrun₁ _ (le_max_left _ _)),
      machine.run_bind_of_done (hrun₂ _ (le_max_right _ _))]
    exact machine.run_bind_of_done (run_writeLeaf hk)

end Reach

end Sidle.Masstree
