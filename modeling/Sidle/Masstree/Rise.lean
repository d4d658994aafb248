import Sidle.Masstree.Halve
import Sidle.Masstree.PageStores

/-!
# The loop of a split

The rounds of `make_split`: the halves are hung up, the left leaf is stripped of what has moved, and
the locks are given back.  A round that has split the parent leaves the next one with the halves of
that, one level above.

## Main definitions

* `Shrank`, `LeavesAfter` — what becomes of the leaf that was split.
* `Rising` — the halves of a node are still to be hung up.
* `RoundDone` — what a round comes to.

## Main results

* `roundDone_splitRound` — a round.
* `rises_splitRounds`, `ensures_splitRounds` — **the loop leaves every node where it is responsible
  for its range.**
-/

namespace Sidle.Masstree

open Art (Build Fault)
open Forest Prog Machine

/-! ### The leaf that was split -/

/-- What becomes of the leaf of the cursor, and where the cursor goes, when the entries that the
leaf `lr` at `child` has taken over are stripped. -/
inductive Shrank (c : Tcursor) (child : Addr) (l lr : Leaf) : ℕ → Tcursor → Leaf → Prop
  | here {l' : Leaf} (h : Leaf.Filled
      { l with permutation := l.permutation.shrunk (l.size - lr.size) }
      (l.permutation.shrunk (l.size - lr.size)).back (.ofStr c.ka.rest 0) false l') :
    Shrank c child l lr 0
      { c with kx := { c.kx with p := some (l.permutation.shrunk (l.size - lr.size)).back } } l'
  | there {splitType : ℕ} (h : splitType ≠ 0) :
    Shrank c child l lr splitType
      { c with
        n := child
        kx := ⟨c.kx.i - (l.size - lr.size), some (c.kx.i - (l.size - lr.size))⟩ }
      { l with permutation := l.permutation.shrunk (l.size - lr.size) }

section Shrinking

variable {env : Env} {x : Scene} {c : Tcursor} {child : Addr} {splitType : ℕ} {f : Face}
  {l lr : Leaf}

theorem Shrank.n {c' : Tcursor} {l' : Leaf} (h : Shrank c child l lr splitType c' l') :
    c'.n = c.n ∨ c'.n = child := by
  cases h with
  | here _ => exact Or.inl rfl
  | there _ => exact Or.inr rfl

/-- **The left leaf is stripped.** -/
theorem seen_shrinkLeft (hf : x.face c.n = some f) (hl : f.node = .leaf l) :
    machine.Tracks sceneView (shrinkLeft env c child splitType) x fun c' y => ∃ lr l',
      x.leaf? child = some lr ∧ y = x.set c.n { f with splitting := true, node := .leaf l' } ∧
        Shrank c child l lr splitType c' l' := by
  refine (seen_readLeaf (Q := fun nl z => z = x ∧ nl.permutation = l.permutation)
    fun f' nl external hf' hn _ _ => ?_).bind fun nl z hz => ?_
  · rw [hf] at hf'
    cases hf'
    rw [hl] at hn
    refine ⟨rfl, ?_⟩
    rw [Node.leaf.inj hn]
    rfl
  obtain ⟨rfl, hnl⟩ := hz
  refine (seen_readLeaf (Q := fun nr y => y = z ∧ ∃ lr, z.leaf? child = some lr ∧
    nr.permutation = lr.permutation) fun f' nr external hf' hn _ _ => ?_).bind fun nr y hy => ?_
  · refine ⟨rfl, nr.bare external, ?_, rfl⟩
    rw [Scene.leaf?_of_face hf', hn]
    rfl
  obtain ⟨rfl, lr, hlr, hnr⟩ := hy
  have hsize : nl.size - nr.size = l.size - lr.size := by
    rw [Leaf.size, Leaf.size, hnl, hnr]
    rfl
  have hperm : (if nl.size ≠ width then (nl.permutation.setSize (nl.size - nr.size)).exchange
      (nl.permutation.setSize (nl.size - nr.size)).size (width - 1)
      else nl.permutation.setSize (nl.size - nr.size)) =
        l.permutation.shrunk (l.size - lr.size) := by
    rw [hsize, Leaf.size, hnl]
    rfl
  simp only [hperm]
  refine (seen_markSplit (Q := fun _ z => z = y.set c.n { f with splitting := true })
    fun d hd => ?_).bind fun _ z hz => ?_
  · rw [hf] at hd
    cases hd
    rfl
  subst hz
  let l₁ : Leaf := { l with permutation := l.permutation.shrunk (l.size - lr.size) }
  refine (seen_writeLeaf (f := fun l => { l with permutation := l₁.permutation })
    (g := fun l => { l with permutation := l₁.permutation })
    (Q := fun _ z => z = y.set c.n { f with splitting := true, node := .leaf l₁ })
    (fun _ => rfl) (fun _ => rfl) (fun _ => rfl) (fun _ => rfl) (fun _ _ => rfl)
    fun d m hd hm => ?_).bind fun _ z hz => ?_
  · rw [Scene.face_set_self] at hd
    cases hd
    rw [hl] at hm
    cases hm
    rw [Scene.set_set]
  subst hz
  refine tracks_ite (fun h0 => ?_) fun h0 => tracks_ret ⟨lr, l₁, hlr, rfl, ?_⟩
  · subst h0
    refine (seen_assign Scene.face_set_self rfl).bind fun _ z hz => tracks_ret ?_
    obtain ⟨l', rfl, hfilled⟩ := hz
    exact ⟨lr, l', hlr, Scene.set_set, .here hfilled⟩
  · have hn : (l.permutation.shrunk (l.size - lr.size)).size = l.size - lr.size :=
      Permuter.size_shrunk
    rw [hn]
    exact .there h0

end Shrinking

/-! ### A round -/

/-- The halves of the round `r` are still to be hung up, and nothing else is amiss. -/
structure Rising (x : Scene) (c : Tcursor) (r : SplitRound) (G M : Places) : Prop where
  shape : Shape x G M
  pending : Pending x G M r.n r.child r.xikey r.height
  calm : Calm x G {r.n}
  cursor : ∃ l, x.leaf? c.n = some l
  node : r.n = c.n ∨
    ∃ f y, x.face r.n = some f ∧ f.node = .internode y ∧ f.splitting = true

/-- What a round does to the leaves. -/
def LeavesAfter (x : Scene) (c : Tcursor) (r : SplitRound) (splitType : ℕ) (c' : Tcursor)
    (y : Scene) : Prop :=
  (r.n ≠ c.n → c' = c ∧ y.leaf? = x.leaf?) ∧ (r.n = c.n → ∃ l lr l', x.leaf? c.n = some l ∧
    x.leaf? r.child = some lr ∧ y.leaf? = Function.update x.leaf? c.n (some l') ∧
      Shrank c r.child l lr splitType c' l')

/-- What a round of the loop comes to. -/
structure RoundDone (x : Scene) (c : Tcursor) (r : SplitRound) (splitType : ℕ) (G : Places)
    (q : Tcursor × Option SplitRound) (y : Scene) (G' M' : Places) : Prop where
  grew : Grew x G G'
  leaves : LeavesAfter x c r splitType q.1 y
  last : q.2 = none → Shape y G' G' ∧ Calm y G' ∅
  more : ∀ r', q.2 = some r' → r'.n ≠ q.1.n ∧ Rising y q.1 r' G' M'

section Rounds

variable {env : Env} {x y z : Scene} {c c' : Tcursor} {r : SplitRound} {G G' M M' : Places}
  {splitType fuel : ℕ} {a p : Addr} {f g : Face} {l : Leaf} {next : Option SplitRound}

theorem seen_unlockIf {build : Build} {C : Prop} [Decidable C] :
    machine.Tracks sceneView (if C then unlock build a else pure ()) x fun _ y =>
      (¬C ∧ y = x) ∨ (C ∧ ∃ f, x.face a = some f ∧ y = x.set a f.unlock) := by
  refine tracks_ite (fun hC => ?_) fun hC => tracks_ret (Or.inl ⟨hC, rfl⟩)
  exact seen_unlock fun f hf => Or.inr ⟨hC, f, hf, rfl⟩

/-- What is kept while the locks of a round are given back. -/
structure Settling (z : Scene) (G' M' : Places) (r : SplitRound) (next : Option SplitRound)
    (T : Set Addr) (w : Scene) : Prop where
  shape : Shape w G' M'
  pending : ∀ r', next = some r' → Pending w G' M' r'.n r'.child r'.xikey r'.height
  calm : Calm w G' T
  other : ∀ a, a ≠ r.n → a ≠ r.child → w.face a = z.face a

theorem Scene.leaf?_set_unlock (hf : x.face a = some f) : (x.set a f.unlock).leaf? = x.leaf? :=
  Scene.leaf?_set_eq hf rfl

/-- A lock is given back. -/
theorem Settling.unlock {w : Scene} {T : Set Addr} (h : Settling z G' M' r next T w)
    (ha : a = r.n ∨ a = r.child) (hf : w.face a = some f) (hp : f.parent ≠ 0)
    (hroot : f.splitting = true ∨ ∀ P, G' a = some P → P.lo ≠ 0) :
    Settling z G' M' r next (T \ {a}) (w.set a f.unlock) := by
  refine ⟨h.shape.set hf (alike_unlock hp), fun r' hr' => (h.pending r' hr').set hf
    (alike_unlock hp), ?_, ?_⟩
  · refine Calm.set (h.calm.mono ?_) (fun _ _ => rfl) ?_
    · rw [Set.insert_sdiff_singleton]
      exact Set.subset_insert a T
    · intro P hP hr _ hlo
      rcases hroot with hs | hne
      · simp only [Face.unlock, hs, Bool.not_true, Bool.and_false] at hr
        cases hr
      · exact absurd hlo (hne P hP)
  · intro b hbn hbc
    have hba : b ≠ a := by
      rintro rfl
      exact ha.elim hbn hbc
    rw [Scene.face_set_of_ne hba]
    exact h.other b hbn hbc

/-- **The left leaf is stripped, and the locks are given back.** -/
theorem roundDone_unlocks (h : Rising x c r G M) (hz : Hoisted x G r p next z G' M')
    (hp : p ≠ 0 → p ≠ r.n ∧ p ≠ r.child) :
    machine.Tracks sceneView (do
      let c' ← if r.n = c.n then shrinkLeft env c r.child splitType else pure c
      if r.n ≠ c'.n then unlock env.build r.n else pure ()
      if r.child ≠ c'.n then unlock env.build r.child else pure ()
      if next.isNone ∧ p ≠ 0 then unlock env.build p else pure ()
      pure (c', next)) z fun q w => RoundDone x c r splitType G q w G' M' := by
  obtain ⟨lc, hlc⟩ := h.cursor
  obtain ⟨layer, lo, hi, hGn, hGc, -⟩ := h.pending.place
  have hsep : ∀ P, G' r.child = some P → P.lo ≠ 0 := by
    intro P hP
    rw [hz.place, hGc] at hP
    cases hP
    exact Nat.ne_of_gt (Nat.zero_le lo |>.trans_lt (h.shape.range hGn).1)
  let T : Set Addr := {a | ∃ r', next = some r' ∧ a = r'.n}
  -- the node that was split is marked, and the cursor has gone where the key goes
  let A (c' : Tcursor) (w : Scene) : Prop :=
    Settling z G' M' r next (insert r.n T) w ∧ LeavesAfter x c r splitType c' w ∧
      (∃ f, w.face r.n = some f ∧ f.parent ≠ 0 ∧ f.splitting = true ∧
        (r.n = c'.n → ∃ l, f.node = .leaf l)) ∧
      (∃ f, w.face r.child = some f ∧ f.parent ≠ 0) ∧ ∃ l, w.leaf? c'.n = some l
  have hcalm : Calm z G' (insert r.n T) := hz.calm
  have hshrink : machine.Tracks sceneView
      (if r.n = c.n then shrinkLeft env c r.child splitType else pure c) z A := by
    refine tracks_ite (fun hrc => ?_) fun hrc => tracks_ret ?_
    · obtain ⟨fx, hfx, hleafx⟩ := Option.bind_eq_some_iff.mp hlc
      obtain ⟨fz, hfz, hpar, hnode, -⟩ := hz.left fx (hrc ▸ hfx)
      obtain ⟨l, hl⟩ : ∃ l, fx.node = .leaf l := by
        cases hn : fx.node with
        | leaf l => exact ⟨l, rfl⟩
        | internode y =>
          rw [hn] at hleafx
          cases hleafx
      rw [hl] at hleafx
      cases hleafx
      have hzl : fz.node = .leaf lc := hnode.trans hl
      refine (seen_shrinkLeft (hrc ▸ hfz) hzl).imp fun c' w hw => ?_
      obtain ⟨lr, l', hlr, rfl, hshrank⟩ := hw
      have halike : fz.Alike { fz with splitting := true, node := .leaf l' } := alike_leaf hzl
      have hfz' : z.face c.n = some fz := hrc ▸ hfz
      have hne : c.n ≠ r.child := hrc ▸ h.pending.ne
      have hleaves : (z.set c.n { fz with splitting := true, node := .leaf l' }).leaf? =
          Function.update x.leaf? c.n (some l') := by
        rw [Scene.leaf?_set, hz.leaves]
        rfl
      obtain ⟨fc, hfc, hfcp⟩ := hz.right
      refine ⟨⟨hz.shape.set hfz' halike, fun r' hr' => (hz.next_ r' hr').2.1.set hfz' halike, ?_,
        ?_⟩, ⟨fun hne => absurd hrc hne, fun _ => ?_⟩, ?_, ?_, ?_⟩
      · rw [hrc] at hcalm ⊢
        exact (hcalm.mono (Set.subset_insert _ _)).set (fun y hy => by cases hy)
          (fun _ _ _ hs => by cases hs)
      · intro a han _
        exact Scene.face_set_of_ne (hrc ▸ han)
      · exact ⟨lc, lr, l', hlc, hz.leaves ▸ hlr, hleaves, hshrank⟩
      · rw [hrc]
        exact ⟨_, Scene.face_set_self, hpar, rfl, fun _ => ⟨l', rfl⟩⟩
      · exact ⟨fc, (Scene.face_set_of_ne hne.symm).trans hfc, hfcp⟩
      · rw [hleaves]
        rcases hshrank.n with hn | hn
        · exact ⟨l', by rw [hn, Function.update_self]⟩
        · refine ⟨lr, ?_⟩
          rw [hn, Function.update_of_ne hne.symm, ← hz.leaves]
          exact hlr
    · rcases h.node with hn | ⟨fx, y₁, hfx, hy₁, hs⟩
      · exact absurd hn hrc
      obtain ⟨fz, hfz, hpar, hnode, hsplit⟩ := hz.left fx hfx
      refine ⟨⟨hz.shape, fun r' hr' => (hz.next_ r' hr').2.1, hcalm, fun _ _ _ => rfl⟩,
        ⟨fun _ => ⟨rfl, hz.leaves⟩, fun hn => absurd hn hrc⟩,
        ⟨fz, hfz, hpar, hsplit.trans hs, fun hn => absurd hn hrc⟩, hz.right, lc, ?_⟩
      rw [hz.leaves, hlc]
  refine tracks_join hshrink fun c' w hw => ?_
  obtain ⟨hset, hleaves, ⟨f, hf, hfp, hfs, hfl⟩, ⟨fc, hfc, hfcp⟩, hcur⟩ := hw
  have hne := h.pending.ne
  -- the node that was split
  have hfirst : machine.Tracks sceneView
      (if r.n ≠ c'.n then unlock env.build r.n else pure ()) w fun _ w₁ =>
        Settling z G' M' r next T w₁ ∧ w₁.leaf? = w.leaf? ∧ w₁.face r.child = some fc := by
    refine seen_unlockIf.imp fun _ w₁ hw₁ => ?_
    rcases hw₁ with ⟨hn, rfl⟩ | ⟨-, f', hf', rfl⟩
    · obtain ⟨l, hl⟩ := hfl (not_not.mp hn)
      refine ⟨⟨hset.shape, hset.pending, ?_, hset.other⟩, rfl, hfc⟩
      rw [← Scene.set_eq_self hf]
      refine Calm.set hset.calm ?_ ?_
      · intro y₁ hy₁
        rw [hl] at hy₁
        cases hy₁
      · intro P _ _ hsf
        rw [hfs] at hsf
        cases hsf
    · rw [hf] at hf'
      cases hf'
      have hdone := hset.unlock (Or.inl rfl) hf hfp (Or.inl hfs)
      refine ⟨⟨hdone.shape, hdone.pending, hdone.calm.mono ?_, hdone.other⟩,
        Scene.leaf?_set_unlock hf, ?_⟩
      · rintro a ⟨ha | ha, hna⟩
        · exact absurd ha hna
        · exact ha
      · rw [Scene.face_set_of_ne hne.symm, hfc]
  refine tracks_join hfirst fun _ w₁ hw₁ => ?_
  obtain ⟨hset₁, hleaf₁, hfc₁⟩ := hw₁
  have hsecond : machine.Tracks sceneView
      (if r.child ≠ c'.n then unlock env.build r.child else pure ()) w₁ fun _ w₂ =>
        Settling z G' M' r next T w₂ ∧ w₂.leaf? = w.leaf? := by
    refine seen_unlockIf.imp fun _ w₂ hw₂ => ?_
    rcases hw₂ with ⟨-, rfl⟩ | ⟨-, f', hf', rfl⟩
    · exact ⟨hset₁, hleaf₁⟩
    · rw [hfc₁] at hf'
      cases hf'
      have hdone := hset₁.unlock (Or.inr rfl) hfc₁ hfcp (Or.inr hsep)
      exact ⟨⟨hdone.shape, hdone.pending, hdone.calm.mono Set.sdiff_subset, hdone.other⟩,
        (Scene.leaf?_set_unlock hfc₁).trans hleaf₁⟩
  refine tracks_join hsecond fun _ w₂ hw₂ => ?_
  obtain ⟨hset₂, hleaf₂⟩ := hw₂
  have hthird : machine.Tracks sceneView
      (if next.isNone ∧ p ≠ 0 then unlock env.build p else pure ()) w₂ fun _ w₃ => w₃ = w₂ := by
    refine tracks_ite (fun hC => ?_) fun _ => tracks_ret rfl
    obtain ⟨hnone, h0⟩ := hC
    refine unseen_unlock fun d hd => ?_
    rw [hset₂.other p (hp h0).1 (hp h0).2] at hd
    exact (hz.done_ (Option.isNone_iff_eq_none.mp hnone)).2 h0 d hd
  refine tracks_join hthird fun _ w₃ hw₃ => tracks_ret ?_
  subst hw₃
  refine ⟨hz.grew, ?_, ?_, ?_⟩
  · refine ⟨fun hn => ⟨(hleaves.1 hn).1, hleaf₂.trans (hleaves.1 hn).2⟩, fun hn => ?_⟩
    obtain ⟨l, lr, l', hl, hlr, hupdate, hshrank⟩ := hleaves.2 hn
    exact ⟨l, lr, l', hl, hlr, hleaf₂.trans hupdate, hshrank⟩
  · rintro rfl
    obtain ⟨rfl, -⟩ := hz.done_ rfl
    refine ⟨hset₂.shape, hset₂.calm.mono ?_⟩
    rintro a ⟨r', hr', -⟩
    cases hr'
  · rintro r' rfl
    obtain ⟨hr'n, -, fp, yp, hfp', hyp, hps⟩ := hz.next_ r' rfl
    have hp0 : p ≠ 0 := by
      rintro rfl
      obtain ⟨la, lo', hi', hG', -⟩ := (hset₂.pending r' rfl).place
      rw [hr'n, hset₂.shape.null] at hG'
      cases hG'
    have hface : w₃.face r'.n = some fp := by
      rw [hr'n, hset₂.other p (hp hp0).1 (hp hp0).2, hfp']
    rw [← hleaf₂] at hcur
    refine ⟨fun heq => ?_, hset₂.shape, hset₂.pending r' rfl, hset₂.calm.mono ?_, hcur,
      Or.inr ⟨fp, yp, hface, hyp, hps⟩⟩
    · obtain ⟨l, hl⟩ := hcur
      rw [← heq, Scene.leaf?_of_face hface, hyp] at hl
      cases hl
    · rintro a ⟨r'', hr'', ha⟩
      cases hr''
      exact ha

/-- **A round of the loop** hangs up the right half, or it splits the parent and leaves the half of
that to the next round. -/
theorem roundDone_splitRound (h : Rising x c r G M) :
    machine.Tracks sceneView (splitRound env fuel c splitType r) x fun q y =>
      ∃ G' M', RoundDone x c r splitType G q y G' M' := by
  refine unseen_read.then fun _ => unseen_read.then fun _ => (unseen_assert _ _).then fun _ => ?_
  refine unseen_lockedParent.bind fun p y hy => ?_
  obtain ⟨rfl, f, hf, hfp⟩ := hy
  have hne : p ≠ 0 → p ≠ r.n ∧ p ≠ r.child := by
    intro h0
    obtain ⟨Q, y₀, -, hy₀, hheight, -⟩ := h.shape.beside h.pending hf hfp h0
    exact h.pending.ne_parent hy₀ hheight
  extract_lets jp jp'
  have hjp (next : Option SplitRound) (z : Scene) (hz : ∃ G' M', Hoisted y G r p next z G' M') :
      machine.Tracks sceneView (jp next) z
        fun q w => ∃ G' M', RoundDone y c r splitType G q w G' M' := by
    obtain ⟨G', M', hz⟩ := hz
    exact (roundDone_unlocks h hz hne).imp fun q w hw => ⟨G', M', hw⟩
  refine tracks_ite (fun h0 => ?_) fun h0 => ?_
  · obtain ⟨Q, y₀, hQ, ⟨g, hg, hn⟩, hheight, -⟩ := h.shape.beside h.pending hf hfp h0
    refine (seen_readInternode (Q := fun xp z => z = y ∧ xp.bare = y₀) fun g' xp hg' hn' => ?_).bind
      fun xp z hz => ?_
    · rw [hg] at hg'
      cases hg'
      rw [hn] at hn'
      exact ⟨rfl, (Node.internode.inj hn').symm⟩
    obtain ⟨rfl, rfl⟩ := hz
    refine unseen_markInsert.then fun _ => ?_
    refine tracks_ite (fun hgap => ?_) fun _ => tracks_ite (fun hfull => ?_) fun hroom => ?_
    · change xp.height = r.height + 1 at hheight
      exact absurd (of_decide_eq_true hgap) (by omega)
    · have hle := of_decide_eq_true hfull
      exact hoisted_splitParent h.shape h.pending h.calm hf hfp h0 hg hn hle hjp
    · have hlt : xp.bare.nkeys < width :=
        Nat.lt_of_not_le fun hle => hroom (decide_eq_true hle)
      exact (hung_insertChild h.shape h.pending h.calm hf hfp h0 hg hn hlt).bind fun _ w hw =>
        hjp none w hw
  · have hp0 : p = 0 := not_not.mp h0
    subst hp0
    have hhang : machine.Tracks sceneView (hangNewParent env r 0 0) y
        fun _ z => ∃ G' M', Hoisted y G r 0 none z G' M' :=
      hung_hangNewParent h.shape h.pending h.calm hf hfp
    have hdone := hhang.bind fun _ z hz => hjp none z hz
    exact hdone

theorem Grew.trans {G'' : Places} (h : Grew x G G') (h' : Grew y G' G'')
    (hxy : ∀ a l, x.leaf? a = some l → ∃ l', y.leaf? a = some l') : Grew x G G'' := by
  refine ⟨fun a l hl => ?_, fun a layer hi ha => ?_, fun a P ha => ?_⟩
  · obtain ⟨l', hl'⟩ := hxy a l hl
    rw [h'.leaf hl', h.leaf hl]
  · obtain ⟨hi', ha'⟩ := h.edge ha
    exact h'.edge ha'
  · obtain ⟨b, Q, hb, hQ⟩ := h'.layer ha
    obtain ⟨b', Q', hb', hQ'⟩ := h.layer hb
    exact ⟨b', Q', hb', hQ'.trans hQ⟩

/-- The leaf of the cursor stays one, and no other is touched. -/
theorem LeavesAfter.exists_leaf (h : LeavesAfter x c r splitType c' y) {a : Addr} {l : Leaf}
    (hl : x.leaf? a = some l) : ∃ l', y.leaf? a = some l' := by
  by_cases hrc : r.n = c.n
  · obtain ⟨lc, lr, l', -, -, hupdate, -⟩ := h.2 hrc
    by_cases hac : a = c.n
    · exact ⟨l', by rw [hupdate, hac, Function.update_self]⟩
    · exact ⟨l, by rw [hupdate, Function.update_of_ne hac, hl]⟩
  · exact ⟨l, by rw [(h.1 hrc).2, hl]⟩

/-- **The loop of `make_split`** hangs up what has been split, however far it has to climb: in the
end every internode hands its range down to its children again. -/
theorem rises_splitRounds {rounds : ℕ} (h : Rising x c r G M) :
    machine.Tracks sceneView (splitRounds env fuel splitType rounds c r) x fun c' y =>
      ∃ G', Shape y G' G' ∧ Calm y G' ∅ ∧ Grew x G G' ∧ LeavesAfter x c r splitType c' y := by
  induction rounds generalizing x c r G M with
  | zero => exact tracks_diverge
  | succ rounds ih =>
    refine (roundDone_splitRound h).bind fun q y hy => ?_
    obtain ⟨c', next⟩ := q
    obtain ⟨G', M', hgrew, hleaves, hlast, hmore⟩ := hy
    cases next with
    | none =>
      obtain ⟨hshape, hcalm⟩ := hlast rfl
      exact tracks_ret ⟨G', hshape, hcalm, hgrew, hleaves⟩
    | some r' =>
      -- in the later rounds the node that was split is an internode, and no leaf is touched
      obtain ⟨hne, hrise⟩ := hmore r' rfl
      refine (ih hrise).imp fun c'' z hz => ?_
      obtain ⟨G'', hshape, hcalm, hgrew', hleaves'⟩ := hz
      refine ⟨G'', hshape, hcalm, hgrew.trans hgrew' fun a l hl => hleaves.exists_leaf hl, ?_⟩
      obtain ⟨rfl, hsame⟩ := hleaves'.1 hne
      refine ⟨fun hrc => ⟨(hleaves.1 hrc).1, hsame.trans (hleaves.1 hrc).2⟩, fun hrc => ?_⟩
      obtain ⟨l, lr, l', hl, hlr, hupdate, hshrank⟩ := hleaves.2 hrc
      exact ⟨l, lr, l', hl, hlr, hsame.trans hupdate, hshrank⟩

/-- A leaf for the slices from `1` on has been split off the root, and is still to be hung up. -/
def memOfHalves : Mem where
  blocks a :=
    if a = 8 then some ⟨.leaf { Leaf.make 0 .unknown 0 0 with
      version := NodeVersion.lock (Word.setFlag 30 (NodeVersion.make true)) }, 0, false⟩
    else if a = 16 then some ⟨.leaf { Leaf.make 0 .unknown 0 0 with
      version := NodeVersion.lock (NodeVersion.make true) }, 0, false⟩
    else none
  bags _ := none
  allocated := 2
  root := 8
  callbacks := []
  demotionQueue := []
  global := default

/-- Where the halves stand. -/
def placesOfHalves : Places := fun a =>
  if a = 8 then some ⟨[], 0, 1⟩ else if a = 16 then some ⟨[], 1, 2 ^ 64⟩ else none

/-- Where they are taken to stand. -/
def placesOfWhole : Places := fun a => if a = 8 then some ⟨[], 0, 2 ^ 64⟩ else none

theorem node?_memOfHalves {a : Addr} {n : Node} (h : memOfHalves.node? a = some n) :
    ∃ l, n = .leaf l ∧ l.ksuf = 0 ∧ l.parent = 0 ∧ l.version.isleaf = true ∧
      l.version.migrating = false ∧
        (a = 8 ∧ l.version.isRoot = true ∨ a = 16 ∧ l.version.isRoot = false) := by
  by_cases h8 : a = 8
  · subst h8
    cases h
    exact ⟨_, rfl, rfl, rfl, by decide, by decide, Or.inl ⟨rfl, by decide⟩⟩
  · by_cases h16 : a = 16
    · subst h16
      cases h
      exact ⟨_, rfl, rfl, rfl, by decide, by decide, Or.inr ⟨rfl, by decide⟩⟩
    · rw [Mem.node?, memOfHalves] at h
      simp only [if_neg h8, if_neg h16] at h
      cases h

theorem tidy_memOfHalves : memOfHalves.Tidy where
  null := rfl
  lt a ha := by
    by_cases h8 : a = 8
    · subst h8
      decide
    · by_cases h16 : a = 16
      · subst h16
        decide
      · rw [memOfHalves] at ha
        simp only [if_neg h8, if_neg h16] at ha
        exact absurd rfl ha
  bag_lt _ h := absurd rfl h
  genuine a n hn := by
    obtain ⟨l, rfl, hk, -, hleaf, hmig, -⟩ := node?_memOfHalves hn
    exact ⟨hleaf, hmig, fun h => absurd hk h⟩
  bag a n k hn hk h0 := by
    obtain ⟨l, rfl, hksuf, -⟩ := node?_memOfHalves hn
    obtain rfl : l.ksuf = k := Option.some.inj hk
    exact absurd hksuf h0
  own a b m n k hm _ hk _ h0 := by
    obtain ⟨l, rfl, hksuf, -⟩ := node?_memOfHalves hm
    obtain rfl : l.ksuf = k := Option.some.inj hk
    exact absurd hksuf h0

theorem rising_memOfHalves : Rising memOfHalves.scene ⟨8, Key.ofStr [65], ⟨0, none⟩, 8, 2⟩
    ⟨8, 16, 1, 0⟩ placesOfHalves placesOfWhole := by
  have hface {a : Addr} {f : Face} (hf : memOfHalves.scene.face a = some f) :
      ∃ l, f.node = .leaf l ∧ f.parent = 0 ∧ (a = 8 ∧ f.root = true ∨ a = 16 ∧ f.root = false) := by
    obtain ⟨n, hn, rfl⟩ := face_scene_eq_some.mp hf
    obtain ⟨l, rfl, -, hp, -, -, hroot⟩ := node?_memOfHalves hn
    exact ⟨_, rfl, hp, hroot⟩
  have hinternode (a : Addr) (y : Internode) : ¬memOfHalves.scene.InternodeAt a y := by
    rintro ⟨f, hf, hn⟩
    obtain ⟨l, hl, -⟩ := hface hf
    rw [hl] at hn
    cases hn
  have hplace {a : Addr} {P : Place} (h : placesOfHalves a = some P) :
      a = 8 ∧ P = ⟨[], 0, 1⟩ ∨ a = 16 ∧ P = ⟨[], 1, 2 ^ 64⟩ := by
    by_cases h8 : a = 8
    · subst h8
      cases h
      exact Or.inl ⟨rfl, rfl⟩
    · by_cases h16 : a = 16
      · subst h16
        cases h
        exact Or.inr ⟨rfl, rfl⟩
      · rw [placesOfHalves, if_neg h8, if_neg h16] at h
        cases h
  have hwhole {a : Addr} {P : Place} (h : placesOfWhole a = some P) :
      a = 8 ∧ P = ⟨[], 0, 2 ^ 64⟩ := by
    by_cases h8 : a = 8
    · subst h8
      cases h
      exact ⟨rfl, rfl⟩
    · rw [placesOfWhole, if_neg h8] at h
      cases h
  refine ⟨⟨rfl, ?_, ?_, ?_, ?_, ?_, ⟨1, rfl⟩⟩, ⟨⟨[], 0, 2 ^ 64, rfl, rfl, rfl⟩, rfl, ?_, ?_, ?_⟩,
    ⟨?_, ?_⟩, ⟨_, rfl⟩, Or.inl rfl⟩
  · intro a P ha
    rcases hplace ha with ⟨rfl, -⟩ | ⟨rfl, -⟩
    · exact ⟨_, rfl⟩
    · exact ⟨_, rfl⟩
  · intro a P ha
    rcases hplace ha with ⟨-, rfl⟩ | ⟨-, rfl⟩
    · exact ⟨by decide, by decide⟩
    · exact ⟨by decide, by decide⟩
  · intro a P ha
    rcases hplace ha with ⟨-, rfl⟩ | ⟨-, rfl⟩
    · exact dvd_zero _
    · exact dvd_zero _
  · intro a P y _ hy
    exact absurd hy (hinternode a y)
  · intro a P f ha hf
    obtain ⟨rfl, rfl⟩ := hwhole ha
    obtain ⟨l, -, hp, ⟨-, hroot⟩ | ⟨h16, -⟩⟩ := hface hf
    · exact Or.inl ⟨hp, hroot, rfl, rfl⟩
    · cases h16
  · intro a h8 h16
    rw [placesOfWhole, placesOfHalves, if_neg h8, if_neg h8, if_neg h16]
  · exact ⟨_, rfl, rfl⟩
  · exact ⟨_, rfl, rfl⟩
  · intro a P f y _ _ hf hn
    exact absurd ⟨f, hf, hn⟩ (hinternode a y)
  · intro a P f ha _ hf hr _ _
    obtain ⟨l, -, -, ⟨h8, -⟩ | ⟨-, hroot⟩⟩ := hface hf
    · exact absurd h8 ha
    · rw [hroot] at hr
      cases hr

end Rounds

end Sidle.Masstree
