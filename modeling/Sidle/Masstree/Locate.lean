import Sidle.Masstree.NewLayer

/-!
# The search that takes the lock

`find_locked` goes down to the leaf where its key belongs and locks it, in whatever layer that is.
A layer whose root has grown is entered by its new root, and the entry for it is put right.

## Main definitions

* `Located` — what the cursor of a locked search says.
* `SearchDone` — what such a search has done.

## Main results

* `Standing.up` — the parent of the first node of a layer is its root, or nearer to it.
* `ensures_findLocked` — **the cursor is where the key belongs**, and the tree holds what it held.
-/

namespace Sidle.Masstree

open Art (Build Fault)
open Forest Prog Machine

/-! ### The search that takes the lock -/

section Versions

variable {mem mem' : Mem} {a root : Addr} {v : NodeVersion} {m : Node} {build : Build} {fuel : ℕ}
  {ka : Key}

theorem xor_lock_le : (v ^^^ v.lock).toNat ≤ 1 := by
  have hand : v ^^^ v.lock = (v ^^^ v.lock) &&& Word.bit 32 0 := by
    apply BitVec.eq_of_getLsbD_eq
    intro i hi
    rw [BitVec.getLsbD_and, BitVec.getLsbD_xor, NodeVersion.lock, Word.getLsbD_setFlag,
      Word.getLsbD_bit]
    by_cases h0 : i = 0
    · simp [h0]
    · simp [h0]
  rw [hand, BitVec.toNat_and]
  exact Nat.and_le_right

/-- Nothing but the lock has changed. -/
theorem ensures_hasChanged_lock (hv : mem.version? a = some v.lock) :
    machine.Ensures (hasChanged a v false) mem fun b mem' => mem' = mem ∧ b = false := by
  refine ensures_read.bind fun w mem' hw => ?_
  obtain ⟨rfl, m, hm, rfl⟩ := hw
  rw [Mem.version?, hm] at hv
  have hlock : m.version = v.lock := Option.some.inj hv
  refine ensures_ret.mpr ⟨rfl, ?_⟩
  rw [hlock]
  exact decide_eq_false (Nat.not_lt.mpr xor_lock_le)

theorem ensures_lockFrom (hm : mem.node? a = some m) :
    machine.Ensures (lockFrom build a fuel m.version) mem fun _ mem' =>
      mem' = mem.setNode a (m.setVersion m.version.lock) := by
  intro w mem' hrun
  have hlock : machine.run (lock build fuel a) mem = .done w mem' :=
    (machine.run_bind_of_done (run_readVersion hm)).trans hrun
  exact (ensures_lock fuel hm w mem' hlock).2.2

theorem ensures_any {α : Type} {p : MtM α} : machine.Ensures p mem fun _ _ => True :=
  fun _ _ _ => trivial

theorem ensures_climbToRoot_version : machine.Ensures (climbToRoot fuel a) mem fun r _ =>
    r.2.splitting = false := by
  induction fuel generalizing a mem with
  | zero => exact ensures_diverge
  | succ fuel ih =>
    refine ensures_stable_version.bind fun v mem' hv => ?_
    refine ensures_ite (fun _ => ensures_ret.mpr hv.2.2) fun _ => ?_
    exact ensures_any.bind fun _ _ _ => ih

/-- The version that a descent answers with is that of a node that is not being split. -/
theorem ensures_descend_version (hv : v.splitting = false) :
    machine.Ensures (descend ka fuel a v) mem fun r _ =>
      ∀ n w, r = some (n, w) → w.splitting = false := by
  induction fuel generalizing a v mem with
  | zero => exact ensures_diverge
  | succ fuel ih =>
    refine ensures_ite (fun _ => ensures_ret.mpr fun n w hr => ?_) fun _ => ?_
    · cases hr
      exact hv
    · refine ensures_any.bind fun y mem₁ _ => ?_
      refine ensures_ite (fun _ => ensures_ret.mpr fun _ _ hr => by cases hr) fun _ => ?_
      refine ensures_stable_version.bind fun vc mem₂ hvc => ensures_any.bind fun b mem₃ _ => ?_
      refine ensures_ite (fun _ => ih hvc.2.2) fun _ => ?_
      refine ensures_stable_version.bind fun v' mem₄ hv' => ?_
      extract_lets jp
      have hjp (b : Bool) (mem : Mem) : machine.Ensures (jp b) mem fun r _ =>
          ∀ n w, r = some (n, w) → w.splitting = false :=
        ensures_ite (fun _ => ensures_ret.mpr fun _ _ hr => by cases hr) fun _ => ih hv'.2.2
      exact ensures_ite (fun _ => ensures_any.bind fun _ _ _ => ensures_any.bind fun _ _ _ =>
        hjp _ _) fun _ => ensures_any.bind fun _ _ _ => hjp _ _

/-- **The search arrives** at a leaf that is not being split. -/
theorem ensures_reachLeaf_version : machine.Ensures (reachLeaf root ka fuel) mem fun r _ =>
    r.2.splitting = false := by
  induction fuel generalizing mem with
  | zero => exact ensures_diverge
  | succ fuel ih =>
    refine ensures_climbToRoot_version.bind fun r mem' hr => ?_
    obtain ⟨n, v⟩ := r
    refine (ensures_descend_version hr).bind fun r mem'' hr => ?_
    cases r with
    | none => exact ih
    | some nv =>
      obtain ⟨n, w⟩ := nv
      exact ensures_any.bind fun _ _ _ => ensures_ret.mpr (hr n w rfl)

end Versions

section Search

variable {mem mem' : Mem} {G : Places} {x : Scene} {a b n root : Addr} {v : NodeVersion} {m : Node}
  {build : Build} {fuel k : ℕ} {ka : Key} {c c' : Tcursor} {P : Place} {f : Face} {l l' : Leaf}
  {whole key : Str} {w ikey : ℕ}

/-- The parent of the node at the left edge of its layer is there too. -/
theorem Standing.up (h : Standing x G) (hP : G a = some P) (hlo : P.lo = 0)
    (hf : x.face a = some f) :
    ∃ hi, G (if f.parent ≠ 0 then f.parent else a) = some ⟨P.layer, 0, hi⟩ := by
  split
  · rename_i h0
    rcases h.shape.parent hP hf with ⟨hzero, -⟩ | ⟨-, Q, y, hQ, hlayer, hy, hmem⟩
    · exact absurd hzero h0
    · have hcover := (h.shape.cover hQ hy).2
      obtain ⟨j, hj⟩ := List.mem_iff_getElem?.mp hmem
      obtain ⟨lo, hi, hcarried, hQlo, -⟩ := hcover.piece (fun _ _ _ hc => hc.lt) hj
      obtain rfl : P = ⟨Q.layer, lo, hi⟩ := Option.some.inj (hP.symm.trans hcarried.place)
      have hstart : Q.lo = 0 := Nat.le_zero.mp (hlo ▸ hQlo)
      refine ⟨Q.hi, hQ.trans ?_⟩
      rw [← hstart]
  · refine ⟨P.hi, hP.trans ?_⟩
    rw [← hlo]

/-- The cursor has the lock of the leaf `l`, at the place `P`, where what is left of the key `whole`
belongs, and knows where to look for it there. -/
structure Located (x : Scene) (G : Places) (whole : Str) (c : Tcursor) (P : Place) (f : Face)
    (l : Leaf) : Prop where
  place : G c.n = some P
  face : x.face c.n = some f
  splitting : f.splitting = false
  leaf : f.node = .leaf l
  range : P.lo ≤ c.ka.ikey ∧ c.ka.ikey < P.hi
  layer : P.layer = c.ka.shifted
  rest : c.ka.shifted ≠ [] → c.ka.rest ≠ []
  key : c.ka.shifted ++ c.ka.rest = whole
  finding : Finding l.page c.ka c.kx.i (c.kx.p.map l.entry) c.state
  slot : ∀ p, c.kx.p = some p → p = l.permutation.slot c.kx.i
  state : 0 ≤ c.state

/-- An entry leads to another root of its layer. -/
theorem Standing.set_layer (h : Standing x G) (hP : G n = some P) (hf : x.face n = some f)
    (hl : f.node = .leaf l) (hk : l.page[k]? = some (.layer ikey a))
    (hb : ∃ hi, G b = some ⟨P.layer ++ slice ikey, 0, hi⟩)
    (hl' : l' = { l with lv := Function.update l.lv (l.permutation.slot k) b }) :
    Standing (x.set n { f with node := .leaf l' }) G ∧
      ∀ key v, Stored (x.set n { f with node := .leaf l' }) G key v ↔ Stored x G key v := by
  have hleaf : x.leaf? n = some l := Scene.leafAt_iff.mp ⟨f, hf, hl⟩
  have hfull := h.leaves.full hP ⟨f, hf, hl⟩
  have hok := h.leaves.ok hP (Scene.page_eq_some.mpr ⟨l, ⟨f, hf, hl⟩, rfl⟩)
  obtain ⟨hlt, hentry⟩ := Leaf.getElem?_page_eq_some.mp hk
  obtain ⟨hkl, hkl'⟩ := List.getElem?_eq_some_iff.mp hk
  have hpage : l'.page = l.page.set k (.layer ikey b) := by
    rw [hl', Leaf.page_setValue hfull hlt, hentry]
    rfl
  have hcase {e : Entry} (he : e ∈ l.page.set k (.layer ikey b)) :
      e ∈ l.page ∨ e = .layer ikey b := List.mem_or_eq_of_mem_set he
  have hkeep {e : Entry} (he : e ∈ l.page) (hne : e ≠ .layer ikey a) :
      e ∈ l.page.set k (.layer ikey b) := by
    obtain ⟨i, hi⟩ := List.mem_iff_getElem?.mp he
    have hik : k ≠ i := by
      rintro rfl
      rw [hk] at hi
      exact hne (Option.some.inj hi).symm
    exact List.mem_of_getElem? ((List.getElem?_set_ne hik).trans hi)
  have hself : .layer ikey b ∈ l.page.set k (.layer ikey b) :=
    List.mem_of_getElem? (List.getElem?_set_self hkl)
  refine ⟨h.set_leaf hP hf hl (hl' ▸ hfull) ?_ fun i d hd => ?_, fun key v => ?_⟩
  · rw [hpage]
    refine ⟨hok.sorted.set hk rfl (Nat.le_refl _) (fun _ => rfl) Entry.known_layer,
      fun e he => ?_, fun e he => ?_⟩
    · rcases hcase he with he | rfl
      · exact hok.range e he
      · have hrange := hok.range _ (List.mem_of_getElem? hk)
        exact hrange
    · rcases hcase he with he | rfl
      · exact hok.entry e he
      · obtain ⟨hi, hb⟩ := hb
        exact Or.inr ⟨ikey, b, hi, rfl, hb⟩
  · rw [hpage]
    by_cases heq : Entry.layer i d = .layer ikey a
    · cases heq
      exact ⟨b, hself⟩
    · exact ⟨d, hkeep hd heq⟩
  · rw [stored_set_iff (N := fun _ _ => False) hP hleaf Scene.leaf?_set_leaf fun s v => ?_]
    · simp
    · rw [hpage, or_false]
      constructor
      · intro hs
        exact (hcase hs).resolve_right fun heq => Entry.ofStr_ne_layer heq
      · intro hs
        exact hkeep hs fun heq => Entry.ofStr_ne_layer heq

theorem Leaf.slot_of_lower {p : ℕ} (h : (l.lower ka).p = some p) :
    p = l.permutation.slot (l.lower ka).i := by
  have heq : lowerBoundBy l.permutation (l.compareKey ka) l.size 0 l.size =
      ⟨(l.lower ka).i, some p⟩ := by
    rw [← h]
    rfl
  exact (lowerBoundBy_some heq).2.1

end Search

section Search

variable {mem mem' : Mem} {G : Places} {x y : Scene} {n root : Addr} {build : Build} {fuel : ℕ}
  {c : Tcursor} {P : Place} {whole : Str} {env : Env} {value : ℕ}

/-- What a search that takes the lock has done. -/
def SearchDone (x : Scene) (G : Places) (whole : Str) (c' : Tcursor) (y : Scene) : Prop :=
  Standing y G ∧ (∀ key v, Stored y G key v ↔ Stored x G key v) ∧
    ∃ P f l, Located y G whole c' P f l

/-- What leads on is an entry for a layer. -/
theorem Finding.layer_of_neg {es : Page} {ka : Key} {i : ℕ} {p : Option Entry} {s : ℤ}
    (h : Finding es ka i p s) (hneg : s < 0) : ∃ a, es[i]? = some (.layer ka.ikey a) ∧
      p = some (.layer ka.ikey a) ∧ ikeySize < ka.length ∧ (-s).toNat = ikeySize := by
  cases h with
  | entry _ => exact absurd hneg (by decide)
  | layer hk hlong => exact ⟨_, hk, rfl, hlong, rfl⟩
  | other _ _ _ _ _ => exact absurd hneg (by decide)
  | none _ _ _ => exact absurd hneg (by decide)

theorem seen_maybeParent {a : Addr} : machine.Tracks sceneView (maybeParent a) x fun p y =>
    y = x ∧ ∃ g, x.face a = some g ∧ p = if g.parent ≠ 0 then g.parent else a := by
  refine (seen_readParent (Q := fun p y => y = x ∧ ∃ g, x.face a = some g ∧ p = g.parent)
    fun g hg => ⟨rfl, g, hg, rfl⟩).bind fun p y hy => ?_
  obtain ⟨rfl, g, hg, rfl⟩ := hy
  exact tracks_ret ⟨rfl, g, hg, rfl⟩

/-- **The search that takes the lock** ends where the key belongs. -/
theorem ensures_findLocked (h : Standing mem.scene G) (htidy : mem.Tidy) (ha : G root = some P)
    (hlo : P.lo = 0) (hP : P.layer = c.ka.shifted) (hrest : c.ka.shifted ≠ [] → c.ka.rest ≠ [])
    (hkey : c.ka.shifted ++ c.ka.rest = whole) (hroot : ∃ hi, G c.root = some ⟨[], 0, hi⟩) :
    machine.Ensures (findLocked build fuel root c none) mem fun c' mem' =>
      mem'.Tidy ∧ SearchDone mem.scene G whole c' mem'.scene := by
  induction fuel generalizing mem root c P with
  | zero => exact ensures_diverge
  | succ fuel ih =>
    refine ((ensures_arrives h htidy ha hlo).and ensures_reachLeaf_version).bind
      fun nv mem₁ hnv => ?_
    obtain ⟨n, v⟩ := nv
    obtain ⟨⟨hvisited, harrived⟩, hvsplit⟩ := hnv
    change v.splitting = false at hvsplit
    have h₁ : Standing mem₁.scene G := hvisited.scene ▸ h
    have htidy₁ := hvisited.tidy htidy
    -- to go on from another scene with the same entries is to go on from the start
    have hagain {mem₂ : Mem} {root : Addr} {c₂ : Tcursor} {P : Place} (h₂ : Standing mem₂.scene G)
        (htidy₂ : mem₂.Tidy)
        (hstored : ∀ key v, Stored mem₂.scene G key v ↔ Stored mem₁.scene G key v)
        (ha : G root = some P) (hlo : P.lo = 0) (hP : P.layer = c₂.ka.shifted)
        (hrest : c₂.ka.shifted ≠ [] → c₂.ka.rest ≠ [])
        (hkey : c₂.ka.shifted ++ c₂.ka.rest = whole) (hroot₂ : c₂.root = c.root) :
        machine.Ensures (findLocked build fuel root c₂ none) mem₂ fun c' mem' =>
          mem'.Tidy ∧ SearchDone mem.scene G whole c' mem'.scene := by
      refine (ih h₂ htidy₂ ha hlo hP hrest hkey (hroot₂ ▸ hroot)).imp fun c' mem' hr => ?_
      refine ⟨hr.1, hr.2.1, fun key v => ?_, hr.2.2.2⟩
      rw [hr.2.2.1, hstored, hvisited.scene]
    refine ensures_ite (fun _ => hagain h₁ htidy₁ (fun _ _ => Iff.rfl) ha hlo hP hrest hkey rfl)
      fun _ => ?_
    refine ensures_read.bind fun l mem₂ hl => ?_
    obtain ⟨rfl, l', hl, rfl⟩ := hl
    have hm := leaf?_eq_some.mp hl
    refine ensures_externalBag.bind fun b mem₃ hb => ?_
    obtain ⟨rfl, hb⟩ := hb
    have hfinding := harrived.finding h₁ hm c.ka
    obtain ⟨Q, hn, hQ, hQlo, hQhi⟩ := harrived.place
    have hface := face_scene hm
    have hsplit : (mem₃.look (.leaf l)).splitting = false := by
      have hversion := harrived.version
      rw [Mem.version?, hm] at hversion
      have hv : l.version = v := Option.some.inj hversion
      change l.version.splitting = false
      rw [hv, hvsplit]
    have hok := h₁.leaves.ok hn (leafAt_scene.mpr ⟨_, hm, rfl⟩).page
    have hQ' : Q.layer = c.ka.shifted := hQ.trans hP
    extract_lets kx state jp
    have hstate : Finding (l.bare (mem₃.externalBag l)).page c.ka kx.i
        (kx.p.map (l.bare (mem₃.externalBag l)).entry) state := by
      have hsame : l.ksufMatches (mem₃.externalBag l) = l.ksufMatches b := by
        funext p ka
        simp only [Leaf.ksufMatches, hb]
      rw [hsame] at hfinding
      exact hfinding
    have hlv : l.version = v := by
      have hversion := harrived.version
      rw [Mem.version?, hm] at hversion
      exact Option.some.inj hversion
    have hslot (q : ℕ) (hq : kx.p = some q) : q = l.permutation.slot kx.i := Leaf.slot_of_lower hq
    have hlayer (hneg : state < 0) : ∃ q, kx.p = some q ∧
        (l.bare (mem₃.externalBag l)).page[kx.i]? = some (.layer c.ka.ikey (l.lv q)) ∧
          ikeySize < c.ka.length ∧ (-state).toNat = ikeySize := by
      obtain ⟨a, hk, hp, hlong, hs⟩ := hstate.layer_of_neg hneg
      obtain ⟨q, hq, hentry⟩ := Option.map_eq_some_iff.mp hp
      have ha : l.lv q = a := congrArg Entry.lv hentry
      exact ⟨q, hq, ha ▸ hk, hlong, hs⟩
    have hjp (down : Bool) (hdown : down = true → state < 0) :
        machine.Ensures (jp down) mem₃ fun c' mem' =>
          mem'.Tidy ∧ SearchDone mem.scene G whole c' mem'.scene := by
      refine ensures_ite (fun hd => ?_) fun _ => ?_
      · obtain ⟨q, hq, hk, hlong, hs⟩ := hlayer (hdown hd)
        obtain ⟨⟨hi, hc⟩, hne, hkey'⟩ := hok.shift hk hlong hQ'
        rw [hq, hs]
        exact hagain h₁ htidy₁ (fun _ _ => Iff.rfl) hc rfl rfl (fun _ => hne) (hkey'.trans hkey) rfl
      · subst hlv
        refine ((ensures_lockFrom hm).and (unseen_lockFrom _ _ mem₃ htidy₁ rfl)).bind
          fun _ mem₄ hmem₄ => ?_
        obtain ⟨heq, htidy₄, hscene₄⟩ := hmem₄
        change mem₄.scene = mem₃.scene at hscene₄
        have hn₄ : mem₄.node? n = some ((Node.leaf l).setVersion l.version.lock) := by
          rw [heq, node?_setNode_eq hm, if_pos rfl]
          rfl
        have hversion₄ : mem₄.version? n = some l.version.lock := by
          rw [Mem.version?, hn₄]
          rfl
        refine (ensures_hasChanged_lock hversion₄).bind fun changed mem₅ hchanged => ?_
        obtain ⟨rfl, rfl⟩ := hchanged
        refine ensures_read.bind fun l₅ mem₅ hl₅ => ?_
        obtain ⟨rfl, l', hl', rfl⟩ := hl₅
        have hl₅ : l₅ = { l with version := l.version.lock } := by
          have hnode := (leaf?_eq_some.mp hl').symm.trans hn₄
          exact Node.leaf.inj (Option.some.inj hnode)
        subst hl₅
        refine ensures_ite (fun hc => ?_) fun _ => ?_
        · have hc' : (false || (l.permutation != l.permutation)) = true := hc
          rw [bne_self_eq_false] at hc'
          cases hc'
        have hstanding : Standing mem₅.scene G := hscene₄ ▸ h₁
        have hface₅ : mem₅.scene.face n = some (mem₃.look (.leaf l)) := hscene₄ ▸ hface
        have hsplit₅ (d : Face) (hd : mem₅.scene.face n = some d) : d.splitting = false := by
          rw [hface₅] at hd
          cases hd
          exact hsplit
        have hsame (key : Str) (v : ℕ) : Stored mem₅.scene G key v ↔ Stored mem₃.scene G key v := by
          rw [hscene₄]
        refine ensures_ite (fun hneg => ?_) fun hneg => ?_
        · obtain ⟨q, hq, hk, hlong, hs⟩ := hlayer hneg
          obtain ⟨⟨hi, hc⟩, hne, hkey'⟩ := hok.shift hk hlong hQ'
          rw [hq, hs]
          obtain ⟨hi', hc'⟩ := hok.layer_place (List.mem_of_getElem? hk)
          have hlayers : Q.layer ++ slice c.ka.ikey = (c.ka.shiftBy ikeySize).shifted := by
            rw [hc'] at hc
            exact congrArg Place.layer (Option.some.inj hc)
          refine (seen_maybeParent mem₅ htidy₄ rfl).bind fun p mem₆ h₆ => ?_
          obtain ⟨htidy₆, hscene₆, g, hg, hp⟩ := h₆
          change mem₆.scene = mem₅.scene at hscene₆
          have hup := hstanding.up hc' rfl hg
          have hp' : p = if g.parent ≠ 0 then g.parent else l.lv q := hp
          rw [← hp'] at hup
          have hslotq : q = (l.bare (mem₃.externalBag l)).permutation.slot kx.i := hslot q hq
          let l₂ : Leaf := { l.bare (mem₃.externalBag l) with
            lv := Function.update (l.bare (mem₃.externalBag l)).lv q p }
          have hl₂ : l₂ = { l.bare (mem₃.externalBag l) with
              lv := Function.update (l.bare (mem₃.externalBag l)).lv
                ((l.bare (mem₃.externalBag l)).permutation.slot kx.i) p } := by rw [← hslotq]
          obtain ⟨hset, hstored⟩ := hstanding.set_layer hn hface₅ rfl hk hup hl₂
          refine (seen_writeLeaf (f := fun l => { l with lv := Function.update l.lv q p })
            (g := fun l => { l with lv := Function.update l.lv q p })
            (Q := fun _ z => z = mem₅.scene.set n { mem₃.look (.leaf l) with node := .leaf l₂ })
            (fun _ => rfl) (fun _ => rfl) (fun _ => rfl) (fun _ => rfl) (fun _ _ => rfl)
            (fun d m hd hm => ?_) mem₆ htidy₆ rfl).bind fun _ mem₇ h₇ => ?_
          · change mem₆.scene.face n = some d at hd
            rw [hscene₆, hface₅] at hd
            cases hd
            cases hm
            change mem₆.scene.set n _ = _
            rw [hscene₆]
          obtain ⟨htidy₇, hscene₇⟩ := h₇
          change mem₇.scene = _ at hscene₇
          have hsplit₇ (d : Face) (hd : mem₇.scene.face n = some d) : d.splitting = false := by
            rw [hscene₇, Scene.face_set_self] at hd
            cases hd
            exact hsplit
          refine (unseen_unlock hsplit₇ mem₇ htidy₇ rfl).bind fun _ mem₈ h₈ => ?_
          have hscene₈ : mem₈.scene = mem₇.scene := h₈.2
          rw [hscene₇] at hscene₈
          obtain ⟨hi₂, hup⟩ := hup
          refine hagain (hscene₈ ▸ hset) h₈.1 (fun key v => ?_) hup rfl hlayers (fun _ => hne)
            (hkey'.trans hkey) rfl
          rw [hscene₈, hstored]
          exact hsame key v
        · refine ensures_ite (fun _ => ?_) fun _ => ensures_ret.mpr ?_
          · refine (unseen_unlock hsplit₅ mem₅ htidy₄ rfl).bind fun _ mem₆ h₆ => ?_
            have hscene₆ : mem₆.scene = mem₅.scene := h₆.2
            obtain ⟨hi, hroot'⟩ := hroot
            refine hagain (hscene₆ ▸ hstanding) h₆.1 (fun key v => ?_) hroot' rfl rfl
              (fun hne => absurd rfl hne) hkey rfl
            rw [hscene₆]
            exact hsame key v
          · refine ⟨htidy₄, hstanding, fun key v => ?_, Q, _, _, hn, hface₅, hsplit, rfl,
              ⟨hQlo, hQhi⟩, hQ', hrest, hkey, hstate, hslot, not_lt.mp hneg⟩
            rw [hscene₄, hvisited.scene]
    refine ensures_ite (fun hneg => ?_) fun _ => ?_
    · refine (ensures_hasChanged harrived.version false).bind fun changed mem₄ hchanged => ?_
      obtain ⟨rfl, rfl⟩ := hchanged
      refine ensures_ite (fun hc => by cases hc) fun _ => ?_
      refine ensures_read.bind fun vl mem₅ hvl => ?_
      obtain ⟨rfl, -⟩ := hvl
      exact hjp _ fun _ => hneg
    · exact hjp false fun hd => by cases hd

end Search

end Sidle.Masstree
