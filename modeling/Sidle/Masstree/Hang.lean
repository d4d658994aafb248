import Sidle.Masstree.Standing

/-!
# A half is hung up

A node that has been split leaves a right half without a parent.  It is hung up beside the left one,
in the parent if that has room, else in one of the two halves of the parent, and if there is no
parent, below a new root.  Each time the children of the internodes that change cover the ranges
that these are responsible for.

## Main definitions

* `Pending` — the right half of a node is still to be hung up.
* `Face.Alike` — two faces of a node that differ in nothing that a place depends on.

## Main results

* `Shape.beside` — where the right half goes.
* `Shape.inserted`, `Shape.halved`, `Shape.topped` — **the tree after it has been hung up**.
-/

namespace Sidle.Masstree

open Forest

/-- The node `n`, of the height `k`, has been split at `sep`, and its right half `child` is still to
be hung up. -/
structure Pending (x : Scene) (G M : Places) (n child : Addr) (sep k : ℕ) : Prop where
  place : ∃ layer lo hi, G n = some ⟨layer, lo, sep⟩ ∧ G child = some ⟨layer, sep, hi⟩ ∧
    M n = some ⟨layer, lo, hi⟩
  unhung : M child = none
  other : ∀ a, a ≠ n → a ≠ child → M a = G a
  left : ∃ f, x.face n = some f ∧ f.node.level = k
  right : ∃ f, x.face child = some f ∧ f.node.level = k

/-- The child `c` of the internode `p`, or the one that is still to be hung up there, is responsible
for its range. -/
structure Belongs (x : Scene) (G : Places) (child p : Addr) (layer : Str) (h : ℕ) (c : Addr)
    (lo hi : ℕ) : Prop where
  lt : lo < hi
  place : G c = some ⟨layer, lo, hi⟩
  face : ∃ f, x.face c = some f ∧ (c ≠ child → f.parent = p) ∧ f.node.level + 1 = h

section Hang

variable {x y : Scene} {G G' M M' : Places} {n child p q a : Addr} {sep k lo hi : ℕ} {f g : Face}
  {P Q : Place} {y₀ y₁ yl yr : Internode} {layer : Str}

theorem Scene.InternodeAt.unique (h : x.InternodeAt a y₀) (h' : x.InternodeAt a y₁) : y₀ = y₁ := by
  obtain ⟨f, hf, hn⟩ := h
  obtain ⟨f', hf', hn'⟩ := h'
  rw [hf] at hf'
  cases hf'
  rw [hn] at hn'
  exact Node.internode.inj hn'

theorem carried_lt {h : ℕ} : ∀ c a b, Carried x M p layer h c a b → a < b := fun _ _ _ hc => hc.lt

theorem carried_fun {h : ℕ} : ∀ c a b a' b', Carried x M p layer h c a b →
    Carried x M p layer h c a' b' → a = a' ∧ b = b' := by
  intro c a b a' b' hc hc'
  have heq := hc.place.symm.trans hc'.place
  cases heq
  exact ⟨rfl, rfl⟩

/-- What is changed are the internodes of `R` and which parents the nodes have. -/
theorem Shape.rework {R : Addr → Prop} (h : Shape x G M) (hroot : y.root = x.root)
    (hG : ∀ a, ¬R a → G' a = G a)
    (hface : ∀ a f, ¬R a → x.face a = some f → ∃ f', y.face a = some f' ∧ f'.node = f.node)
    (hback : ∀ a f', ¬R a → y.face a = some f' → ∃ f, x.face a = some f ∧ f'.node = f.node)
    (hplace : ∀ a P, R a → G' a = some P → (∃ f, y.face a = some f) ∧ P.lo < P.hi ∧
      P.hi ≤ 2 ^ 64 ∧ ikeySize ∣ P.layer.length)
    (hkeep : ∀ a P layer h c lo hi, ¬R a → G a = some P → Carried x M a layer h c lo hi →
      Carried y M' a layer h c lo hi)
    (hcover : ∀ a P y₁, R a → G' a = some P → y.InternodeAt a y₁ → y₁.nkeys ≤ width ∧
      Cover (Carried y M' a P.layer y₁.height) P.lo y₁.keys P.hi y₁.children)
    (hparent : ∀ a P f, M' a = some P → y.face a = some f →
      (f.parent = 0 ∧ f.root = true ∧ P.lo = 0 ∧ P.hi = 2 ^ 64) ∨
        f.parent ≠ 0 ∧ ∃ Q y₁, G' f.parent = some Q ∧ Q.layer = P.layer ∧
          y.InternodeAt f.parent y₁ ∧ a ∈ y₁.children)
    (hnull : ¬R 0) (htable : ∃ hi, G' x.root = some ⟨[], 0, hi⟩) : Shape y G' M' := by
  refine ⟨(hG 0 hnull).trans h.null, ?_, ?_, ?_, ?_, hparent, hroot ▸ htable⟩
  · intro a P ha
    by_cases hR : R a
    · exact (hplace a P hR ha).1
    · rw [hG a hR] at ha
      obtain ⟨f, hf⟩ := h.face ha
      obtain ⟨f', hf', -⟩ := hface a f hR hf
      exact ⟨f', hf'⟩
  · intro a P ha
    by_cases hR : R a
    · obtain ⟨-, hlt, hle, -⟩ := hplace a P hR ha
      exact ⟨hlt, hle⟩
    · exact h.range (hG a hR ▸ ha)
  · intro a P ha
    by_cases hR : R a
    · exact (hplace a P hR ha).2.2.2
    · exact h.layer (hG a hR ▸ ha)
  · intro a P y₁ ha hy
    by_cases hR : R a
    · exact hcover a P y₁ hR ha hy
    · obtain ⟨f', hf', hn'⟩ := hy
      obtain ⟨f, hf, hn⟩ := hback a f' hR hf'
      obtain ⟨hk, hcov⟩ := h.cover (hG a hR ▸ ha) ⟨f, hf, hn ▸ hn'⟩
      exact ⟨hk, hcov.imp fun _ c lo hi _ hc =>
        hkeep a P P.layer y₁.height c lo hi hR (hG a hR ▸ ha) hc⟩

theorem Pending.ne (hp : Pending x G M n child sep k) : n ≠ child := by
  rintro rfl
  obtain ⟨layer, lo, hi, -, -, hM⟩ := hp.place
  rw [hp.unhung] at hM
  cases hM

/-- What a place is in the eyes of the parent. -/
theorem Pending.place_eq (hp : Pending x G M n child sep k) (ha : G a = some P) (hac : a ≠ child) :
    ∃ P', M a = some P' ∧ P'.layer = P.layer ∧ (a ≠ n → P' = P) := by
  by_cases han : a = n
  · obtain ⟨layer, lo, hi, hn, -, hM⟩ := hp.place
    rw [han, hn] at ha
    cases ha
    exact ⟨⟨layer, lo, hi⟩, han ▸ hM, rfl, fun h => absurd han h⟩
  · exact ⟨P, (hp.other a han hac).trans ha, rfl, fun _ => rfl⟩

/-- **The right half goes beside the left one**, into the parent. -/
theorem Shape.beside (h : Shape x G M) (hp : Pending x G M n child sep k) (hf : x.face n = some f)
    (hfp : f.parent = p) (hp0 : p ≠ 0) : ∃ Q y₀, G p = some Q ∧ x.InternodeAt p y₀ ∧
      y₀.height = k + 1 ∧ n ∈ y₀.children ∧ (∃ P, G child = some P ∧ P.layer = Q.layer) ∧
        y₀.nkeys ≤ width ∧ y₀.upper sep ≤ y₀.nkeys ∧
          Cover (Belongs x G child p Q.layer y₀.height) Q.lo
            (y₀.keys.insertIdx (y₀.upper sep) sep) Q.hi
              (y₀.children.insertIdx (y₀.upper sep + 1) child) := by
  subst hfp
  obtain ⟨layer, lo, hi, hn, hchild, hM⟩ := hp.place
  have hlt := (h.range hn).1
  have hgt := (h.range hchild).1
  rcases h.parent hM hf with ⟨h0, -⟩ | ⟨-, Q, y₀, hQ, rfl, hy₀, hmem⟩
  · exact absurd h0 hp0
  obtain ⟨hk, hcover⟩ := h.cover hQ hy₀
  obtain ⟨j, hj⟩ := List.mem_iff_getElem?.mp hmem
  obtain ⟨a, b, hcarried, -⟩ := hcover.piece carried_lt hj
  have hcn := hcarried.place
  rw [hM] at hcn
  cases hcn
  -- the separator turns to the left half
  have hturn : Turn y₀.keys sep j := hcover.turn carried_lt carried_fun hj hcarried hlt.le hgt
  have hasc (i l : ℕ) (hil : i < l) (hl : l < y₀.nkeys) : y₀.ikey0 i < y₀.ikey0 l := by
    refine hcover.ascending carried_lt hil ?_ ?_
    · rw [Internode.getElem?_keys, if_pos (hil.trans hl)]
    · rw [Internode.getElem?_keys, if_pos hl]
  have hupper : y₀.upper sep = j := (Internode.upper_turn hasc).unique hturn
  have hlevel : y₀.height = k + 1 := by
    obtain ⟨f', hf', -, hl⟩ := hcarried.face
    obtain ⟨f'', hf'', hl'⟩ := hp.left
    rw [hf'] at hf''
    cases hf''
    rw [← hl, hl']
  have hjle : j ≤ y₀.nkeys := by
    have := hturn.1
    rwa [Internode.length_keys] at this
  refine ⟨Q, y₀, hQ, hy₀, hlevel, hmem, ⟨_, hchild, rfl⟩, hk, hupper ▸ hjle, ?_⟩
  rw [hupper]
  refine hcover.insert (by rwa [Internode.length_keys]) ?_ ?_
  · intro c a b hc hcab
    rw [hj] at hc
    cases hc
    obtain ⟨f', hf', hpar, hl⟩ := hcab.face
    have hplace := hcab.place
    rw [hM] at hplace
    cases hplace
    refine ⟨⟨hlt, hn, f', hf', fun _ => hpar, hl⟩, ⟨hgt, hchild, ?_⟩⟩
    obtain ⟨fc, hfc, hlc⟩ := hp.right
    exact ⟨fc, hfc, fun hne => absurd rfl hne, by rw [hlc, hlevel]⟩
  · intro i c a b hij hc hcab
    have hcn : c ≠ n := by
      rintro rfl
      have hnodup := hcover.nodup carried_lt carried_fun
      obtain ⟨hi, hci⟩ := List.getElem?_eq_some_iff.mp hc
      obtain ⟨hj', hcj⟩ := List.getElem?_eq_some_iff.mp hj
      exact hij ((List.Nodup.getElem_inj_iff hnodup).mp (hci.trans hcj.symm))
    have hcc : c ≠ child := by
      rintro rfl
      have hplace := hcab.place
      rw [hp.unhung] at hplace
      cases hplace
    obtain ⟨f', hf', hpar, hl⟩ := hcab.face
    exact ⟨hcab.lt, (hp.other c hcn hcc).symm.trans hcab.place, f', hf', fun _ => hpar, hl⟩

/-- Which nodes the insertion is about. -/
theorem Pending.ne_parent (hp : Pending x G M n child sep k) (hy : x.InternodeAt p y₀)
    (hk : y₀.height = k + 1) : p ≠ n ∧ p ≠ child := by
  obtain ⟨g, hg, hn⟩ := hy
  have hlevel : g.node.level = k + 1 := by
    rw [hn]
    exact hk
  constructor
  · rintro rfl
    obtain ⟨f, hf, hl⟩ := hp.left
    rw [hg] at hf
    cases hf
    omega
  · rintro rfl
    obtain ⟨f, hf, hl⟩ := hp.right
    rw [hg] at hf
    cases hf
    omega

theorem Internode.length_children : y₀.children.length = y₀.nkeys + 1 := by
  simp [Internode.children]

/-- **The right half has gone into the parent.** -/
theorem Shape.inserted (h : Shape x G M) (hp : Pending x G M n child sep k)
    (hf : x.face n = some f) (hfp : f.parent = p) (hp0 : p ≠ 0) (hg : x.face p = some g)
    (hn : g.node = .internode y₀) (hroom : y₀.nkeys < width) (hroot : y.root = x.root)
    (hyp : y.face p = some { g with node := .internode (y₀.withChild (y₀.upper sep) sep child) })
    (hyc : ∃ fc, x.face child = some fc ∧ y.face child = some { fc with parent := p })
    (hother : ∀ a, a ≠ p → a ≠ child → y.face a = x.face a) : Shape y G G := by
  obtain ⟨Q, y₀', hQ, hy₀, hheight, hmem, ⟨Pc, hPc, hlayer⟩, -, hu, hcover⟩ :=
    h.beside hp hf hfp hp0
  obtain rfl := hy₀.unique ⟨g, hg, hn⟩
  obtain ⟨hpn, hpc⟩ := hp.ne_parent hy₀ hheight
  obtain ⟨fc, hfc, hyc⟩ := hyc
  let y₁ := y₀'.withChild (y₀'.upper sep) sep child
  have hyp' : y.InternodeAt p y₁ := ⟨_, hyp, rfl⟩
  have hkeys : y₁.keys = y₀'.keys.insertIdx (y₀'.upper sep) sep := Internode.keys_withChild hu
  have hchildren : y₁.children = y₀'.children.insertIdx (y₀'.upper sep + 1) child :=
    Internode.children_withChild hu
  have hsub : ∀ c ∈ y₀'.children, c ∈ y₁.children := by
    intro c hc
    rw [hchildren]
    exact List.subset_insertIdx _ _ _ hc
  have hcmem : child ∈ y₁.children := by
    rw [hchildren, List.mem_insertIdx (by
      rw [Internode.length_children]
      exact Nat.succ_le_succ hu)]
    exact Or.inl rfl
  -- a node keeps its parent, and its level
  have hkept (a : Addr) (hac : a ≠ child) (f : Face) (hf : x.face a = some f) :
      ∃ f', y.face a = some f' ∧ f'.parent = f.parent ∧ f'.root = f.root ∧
        f'.node.level = f.node.level := by
    by_cases hap : a = p
    · subst hap
      rw [hg] at hf
      cases hf
      refine ⟨_, hyp, rfl, rfl, ?_⟩
      rw [hn]
      rfl
    · exact ⟨f, (hother a hap hac).trans hf, rfl, rfl, rfl⟩
  refine h.rework (R := (· = p)) hroot (fun _ _ => rfl) ?_ ?_ ?_ ?_ ?_ ?_ hp0.symm h.root
  · intro a f hap hf
    by_cases hac : a = child
    · subst hac
      rw [hfc] at hf
      cases hf
      exact ⟨_, hyc, rfl⟩
    · exact ⟨f, (hother a hap hac).trans hf, rfl⟩
  · intro a f' hap hf'
    by_cases hac : a = child
    · subst hac
      rw [hyc] at hf'
      cases hf'
      exact ⟨fc, hfc, rfl⟩
    · exact ⟨f', (hother a hap hac).symm.trans hf', rfl⟩
  · rintro a P rfl hP
    exact ⟨⟨_, hyp⟩, (h.range hP).1, (h.range hP).2, h.layer hP⟩
  · intro a _ layer h' c lo hi hap _ hc
    obtain ⟨fc', hfc', hpar, hl⟩ := hc.face
    have hcc : c ≠ child := by
      rintro rfl
      have hplace := hc.place
      rw [hp.unhung] at hplace
      cases hplace
    have hcn : c ≠ n := by
      rintro rfl
      rw [hf] at hfc'
      cases hfc'
      exact hap (hpar.symm.trans hfp)
    obtain ⟨f', hf', hpar', -, hl'⟩ := hkept c hcc fc' hfc'
    exact ⟨hc.lt, (hp.other c hcn hcc).symm.trans hc.place, f', hf', hpar'.trans hpar,
      by rw [hl', hl]⟩
  · rintro a P y₁' rfl hP hy₁'
    obtain rfl := hy₁'.unique hyp'
    rw [hQ] at hP
    cases hP
    refine ⟨hroom, ?_⟩
    rw [hkeys, hchildren]
    refine hcover.imp fun j c a b _ hc => ?_
    obtain ⟨fc', hfc', hpar, hl⟩ := hc.face
    refine ⟨hc.lt, hc.place, ?_⟩
    by_cases hcc : c = child
    · subst hcc
      rw [hfc] at hfc'
      cases hfc'
      exact ⟨_, hyc, rfl, hl⟩
    · obtain ⟨f', hf', hpar', -, hl'⟩ := hkept c hcc fc' hfc'
      refine ⟨f', hf', hpar'.trans (hpar hcc), ?_⟩
      rw [hl', hl]
      rfl
  · intro a P f' hP hf'
    by_cases hac : a = child
    · subst hac
      rw [hyc] at hf'
      cases hf'
      rw [hPc] at hP
      cases hP
      exact Or.inr ⟨hp0, Q, y₁, hQ, hlayer.symm, hyp', hcmem⟩
    · obtain ⟨P', hM, hlayer', hsame⟩ := hp.place_eq hP hac
      obtain ⟨f, hf₀⟩ : ∃ f, x.face a = some f := by
        by_cases hap : a = p
        · exact ⟨g, hap ▸ hg⟩
        · exact ⟨f', (hother a hap hac).symm.trans hf'⟩
      obtain ⟨f'', hf'', hpar, hrt, -⟩ := hkept a hac f hf₀
      rw [hf'] at hf''
      cases hf''
      rcases h.parent hM hf₀ with ⟨h0, htrue, hlo, hhi⟩ | ⟨h0, Q', y₂, hQ', hl, hy₂, hin⟩
      · -- the left half has a parent
        have han : a ≠ n := by
          rintro rfl
          rw [hf] at hf₀
          cases hf₀
          exact hp0 (hfp.symm.trans h0)
        rw [hsame han] at hlo hhi
        exact Or.inl ⟨hpar.trans h0, hrt.trans htrue, hlo, hhi⟩
      · refine Or.inr ⟨hpar ▸ h0, Q', ?_⟩
        rw [hpar]
        by_cases hb : f.parent = p
        · rw [hb] at hQ' hy₂ ⊢
          obtain rfl := hy₂.unique hy₀
          exact ⟨y₁, hQ', hl.trans hlayer', hyp', hsub a hin⟩
        · refine ⟨y₂, hQ', hl.trans hlayer', ?_, hin⟩
          obtain ⟨fb, hfb, hnb⟩ := hy₂
          by_cases hbc : f.parent = child
          · rw [hbc, hfc] at hfb
            cases hfb
            rw [hbc]
            exact ⟨_, hyc, hnb⟩
          · exact ⟨fb, (hother _ hb hbc).trans hfb, hnb⟩

/-- The places when the internode `p`, at `Q`, has been split at `s`. -/
def Places.halve (G : Places) (p q : Addr) (Q : Place) (s : ℕ) : Places :=
  Function.update (Function.update G q (some ⟨Q.layer, s, Q.hi⟩)) p (some ⟨Q.layer, Q.lo, s⟩)

/-- What the parent of `p` takes them to be. -/
def Places.unhalved (G : Places) (p q : Addr) (Q : Place) : Places :=
  Function.update (Function.update G q none) p (some Q)

/-- **The parent has been split** for the right half to go in, and now its right half is to be hung
up. -/
theorem Shape.halved {s : ℕ} (h : Shape x G M) (hp : Pending x G M n child sep k)
    (hf : x.face n = some f) (hfp : f.parent = p) (hp0 : p ≠ 0) (hQ : G p = some Q)
    (hg : x.face p = some g) (hn : g.node = .internode y₀) (hq : x.face q = none) (hq0 : q ≠ 0)
    (hroot : y.root = x.root)
    (hkeys : yl.keys ++ s :: yr.keys = y₀.keys.insertIdx (y₀.upper sep) sep)
    (hchildren : yl.children ++ yr.children = y₀.children.insertIdx (y₀.upper sep + 1) child)
    (hl : yl.height = y₀.height) (hr : yr.height = y₀.height) (hlk : yl.nkeys ≤ width)
    (hrk : yr.nkeys ≤ width) (hyp : ∃ g', y.face p = some g' ∧ g'.parent = g.parent ∧
      g'.root = g.root ∧ g'.node = .internode yl)
    (hyq : ∃ g', y.face q = some g' ∧ g'.node = .internode yr)
    (hyl : ∀ c ∈ yl.children, ∀ fc, x.face c = some fc → y.face c = some { fc with parent := p })
    (hyr : ∀ c ∈ yr.children, ∀ fc, x.face c = some fc → y.face c = some { fc with parent := q })
    (hother : ∀ a, a ≠ p → a ≠ q → a ∉ yl.children → a ∉ yr.children → y.face a = x.face a) :
    Shape y (G.halve p q Q s) (G.unhalved p q Q) ∧
      Pending y (G.halve p q Q s) (G.unhalved p q Q) p q s (k + 1) := by
  obtain ⟨Q', y₀', hQ', hy₀, hheight, hmem, ⟨Pc, hPc, hlayer⟩, -, hu, hcover⟩ :=
    h.beside hp hf hfp hp0
  obtain rfl := hy₀.unique ⟨g, hg, hn⟩
  rw [hQ] at hQ'
  cases hQ'
  obtain ⟨hpn, hpc⟩ := hp.ne_parent hy₀ hheight
  obtain ⟨gp, hyp, hgp, hgr, hgn⟩ := hyp
  obtain ⟨gq, hyq, hqn⟩ := hyq
  have hpq : p ≠ q := by
    rintro rfl
    rw [hg] at hq
    cases hq
  -- the two covers
  rw [← hkeys, ← hchildren] at hcover
  obtain ⟨cl, cr, hcs, hcl, hcr⟩ := cover_append.mp hcover
  have hlen : yl.children.length = cl.length := by
    rw [hcl.length, Internode.length_children, Internode.length_keys]
  obtain ⟨rfl, rfl⟩ := List.append_inj hcs hlen
  have hlt {c a b} (hc : Belongs x G child p Q.layer y₀'.height c a b) : a < b := hc.lt
  have hdvd : ikeySize ∣ Q.layer.length := h.layer hQ
  have hlo : Q.lo < s := (hcl.separators fun _ _ _ => hlt).1
  have hhi : s < Q.hi := (hcr.separators fun _ _ _ => hlt).1
  have hchild : child ∈ yl.children ∨ child ∈ yr.children := by
    rw [← List.mem_append, hchildren, List.mem_insertIdx (by
      rw [Internode.length_children]
      exact Nat.succ_le_succ hu)]
    exact Or.inl rfl
  have hsub {c} (hc : c ∈ y₀'.children) : c ∈ yl.children ∨ c ∈ yr.children := by
    rw [← List.mem_append, hchildren]
    exact List.subset_insertIdx _ _ _ hc
  -- what a child is
  have hbelongs {c} (hc : c ∈ yl.children ∨ c ∈ yr.children) :
      ∃ a b, Belongs x G child p Q.layer y₀'.height c a b := by
    rcases hc with hc | hc
    · obtain ⟨j, hj⟩ := List.mem_iff_getElem?.mp hc
      obtain ⟨a, b, hab, -⟩ := hcl.piece (fun _ _ _ => hlt) hj
      exact ⟨a, b, hab⟩
    · obtain ⟨j, hj⟩ := List.mem_iff_getElem?.mp hc
      obtain ⟨a, b, hab, -⟩ := hcr.piece (fun _ _ _ => hlt) hj
      exact ⟨a, b, hab⟩
  have hcp {c} (hc : c ∈ yl.children ∨ c ∈ yr.children) : c ≠ p ∧ c ≠ q := by
    obtain ⟨a, b, hab⟩ := hbelongs hc
    obtain ⟨fc, hfc, -, hlevel⟩ := hab.face
    constructor
    · rintro rfl
      rw [hg] at hfc
      cases hfc
      rw [hn] at hlevel
      exact absurd hlevel (Nat.succ_ne_self _)
    · rintro rfl
      rw [hq] at hfc
      cases hfc
  have hpar {c fc} (hc : c ∈ yl.children ∨ c ∈ yr.children) (hfc : x.face c = some fc)
      (hcc : c ≠ child) : fc.parent = p := by
    obtain ⟨a, b, hab⟩ := hbelongs hc
    obtain ⟨fc', hfc', hpar, -⟩ := hab.face
    rw [hfc] at hfc'
    cases hfc'
    exact hpar hcc
  -- the places
  have hGp : G.halve p q Q s p = some ⟨Q.layer, Q.lo, s⟩ := Function.update_self ..
  have hGq : G.halve p q Q s q = some ⟨Q.layer, s, Q.hi⟩ := by
    rw [Places.halve, Function.update_of_ne hpq.symm, Function.update_self]
  have hG {a} (hap : a ≠ p) (haq : a ≠ q) : G.halve p q Q s a = G a := by
    rw [Places.halve, Function.update_of_ne hap, Function.update_of_ne haq]
  have hMp : G.unhalved p q Q p = some Q := Function.update_self ..
  have hMq : G.unhalved p q Q q = none := by
    rw [Places.unhalved, Function.update_of_ne hpq.symm, Function.update_self]
  have hM {a} (hap : a ≠ p) (haq : a ≠ q) : G.unhalved p q Q a = G a := by
    rw [Places.unhalved, Function.update_of_ne hap, Function.update_of_ne haq]
  have hyp' : y.InternodeAt p yl := ⟨gp, hyp, hgn⟩
  have hyq' : y.InternodeAt q yr := ⟨gq, hyq, hqn⟩
  have hface {a fa} (hap : a ≠ p) (haq : a ≠ q) (hfa : x.face a = some fa) :
      ∃ f', y.face a = some f' ∧ f'.node = fa.node ∧ f'.root = fa.root ∧
        (a ∉ yl.children → a ∉ yr.children → f' = fa) := by
    by_cases hal : a ∈ yl.children
    · exact ⟨_, hyl a hal fa hfa, rfl, rfl, fun h => absurd hal h⟩
    · by_cases har : a ∈ yr.children
      · exact ⟨_, hyr a har fa hfa, rfl, rfl, fun _ h => absurd har h⟩
      · exact ⟨fa, (hother a hap haq hal har).trans hfa, rfl, rfl, fun _ _ => rfl⟩
  have hpiece {c a b} (p' : Addr) (hc : Belongs x G child p Q.layer y₀'.height c a b)
      (hcm : c ∈ yl.children ∨ c ∈ yr.children)
      (hfc : ∀ fc, x.face c = some fc → y.face c = some { fc with parent := p' }) :
      Carried y (G.unhalved p q Q) p' Q.layer y₀'.height c a b := by
    obtain ⟨fc, hfc', -, hlevel⟩ := hc.face
    exact ⟨hc.lt, (hM (hcp hcm).1 (hcp hcm).2).trans hc.place, _, hfc fc hfc', rfl, hlevel⟩
  constructor
  · refine h.rework (R := fun a => a = p ∨ a = q) hroot ?_ ?_ ?_ ?_ ?_ ?_ ?_ (by
      rintro (h | h)
      · exact hp0 h.symm
      · exact hq0 h.symm) ?_
    · intro a ha
      exact hG (fun h => ha (Or.inl h)) fun h => ha (Or.inr h)
    · intro a fa ha hfa
      obtain ⟨f', hf', hn', -⟩ := hface (fun h => ha (Or.inl h)) (fun h => ha (Or.inr h)) hfa
      exact ⟨f', hf', hn'⟩
    · intro a f' ha hf'
      cases hfa : x.face a with
      | none =>
        have hno {c} (hc : c ∈ yl.children ∨ c ∈ yr.children) : c ≠ a := by
          rintro rfl
          obtain ⟨_, _, hab⟩ := hbelongs hc
          obtain ⟨fc, hfc, -⟩ := hab.face
          rw [hfa] at hfc
          cases hfc
        rw [hother a (fun h => ha (Or.inl h)) (fun h => ha (Or.inr h))
          (fun h => hno (Or.inl h) rfl) (fun h => hno (Or.inr h) rfl), hfa] at hf'
        cases hf'
      | some fa =>
        obtain ⟨f'', hf'', hn', -⟩ := hface (fun h => ha (Or.inl h)) (fun h => ha (Or.inr h)) hfa
        rw [hf'] at hf''
        cases hf''
        exact ⟨fa, rfl, hn'⟩
    · rintro a P (rfl | rfl) hP
      · rw [hGp] at hP
        cases hP
        exact ⟨⟨gp, hyp⟩, hlo, hhi.le.trans (h.range hQ).2, hdvd⟩
      · rw [hGq] at hP
        cases hP
        exact ⟨⟨gq, hyq⟩, hhi, (h.range hQ).2, hdvd⟩
    · intro a _ layer h' c lo hi ha _ hc
      obtain ⟨fc, hfc, hpa, hlevel⟩ := hc.face
      have hcc : c ≠ child := by
        rintro rfl
        have hplace := hc.place
        rw [hp.unhung] at hplace
        cases hplace
      have hno : ¬(c ∈ yl.children ∨ c ∈ yr.children) := fun hmem =>
        ha (Or.inl (hpa.symm.trans (hpar hmem hfc hcc)))
      have hcn : c ≠ n := by
        rintro rfl
        exact hno (hsub hmem)
      have hcq : c ≠ q := by
        rintro rfl
        rw [hq] at hfc
        cases hfc
      have hplace := (hp.other c hcn hcc).symm.trans hc.place
      by_cases hcp : c = p
      · subst hcp
        rw [hQ] at hplace
        rw [hg] at hfc
        cases hfc
        refine ⟨hc.lt, hMp.trans hplace, gp, hyp, hgp.trans hpa, ?_⟩
        rw [hgn, ← hlevel, hn]
        exact congrArg (· + 1) hl
      · obtain ⟨f', hf', hn', -, hsame⟩ := hface hcp hcq hfc
        obtain rfl := hsame (fun h => hno (Or.inl h)) fun h => hno (Or.inr h)
        exact ⟨hc.lt, (hM hcp hcq).trans hplace, f', hf', hpa, hlevel⟩
    · rintro a P y₁ (rfl | rfl) hP hy₁
      · rw [hGp] at hP
        cases hP
        obtain rfl := hy₁.unique hyp'
        rw [hl]
        refine ⟨hlk, hcl.imp fun j c a b hj hc => ?_⟩
        have hcm := List.mem_of_getElem? hj
        exact hpiece _ hc (Or.inl hcm) (hyl c hcm)
      · rw [hGq] at hP
        cases hP
        obtain rfl := hy₁.unique hyq'
        rw [hr]
        refine ⟨hrk, hcr.imp fun j c a b hj hc => ?_⟩
        have hcm := List.mem_of_getElem? hj
        exact hpiece _ hc (Or.inr hcm) (hyr c hcm)
    · intro a P f' hP hf'
      by_cases haq : a = q
      · rw [haq, hMq] at hP
        cases hP
      by_cases hal : a ∈ yl.children
      · obtain ⟨b₁, b₂, hab⟩ := hbelongs (Or.inl hal)
        rw [hM (hcp (Or.inl hal)).1 haq, hab.place] at hP
        cases hP
        obtain ⟨fc, hfc, -⟩ := hab.face
        rw [hyl a hal fc hfc] at hf'
        cases hf'
        exact Or.inr ⟨hp0, _, yl, hGp, rfl, hyp', hal⟩
      by_cases har : a ∈ yr.children
      · obtain ⟨b₁, b₂, hab⟩ := hbelongs (Or.inr har)
        rw [hM (hcp (Or.inr har)).1 haq, hab.place] at hP
        cases hP
        obtain ⟨fc, hfc, -⟩ := hab.face
        rw [hyr a har fc hfc] at hf'
        cases hf'
        exact Or.inr ⟨hq0, _, yr, hGq, rfl, hyq', har⟩
      -- the others have the parents they had
      have hac : a ≠ child := by
        rintro rfl
        rcases hchild with hc | hc
        · exact hal hc
        · exact har hc
      have han : a ≠ n := by
        rintro rfl
        rcases hsub hmem with hc | hc
        · exact hal hc
        · exact har hc
      obtain ⟨fa, hfa, hpar', hrt', hMa⟩ : ∃ fa, x.face a = some fa ∧ f'.parent = fa.parent ∧
          f'.root = fa.root ∧ M a = some P := by
        by_cases hap : a = p
        · subst hap
          rw [hyp] at hf'
          cases hf'
          rw [hMp] at hP
          cases hP
          exact ⟨g, hg, hgp, hgr, (hp.other _ hpn hpc).trans hQ⟩
        · rw [hM hap haq] at hP
          have hsame := hother a hap haq hal har
          exact ⟨f', hsame.symm.trans hf', rfl, rfl, (hp.other a han hac).trans hP⟩
      rw [hpar', hrt']
      rcases h.parent hMa hfa with hroot' | ⟨h0, Q', y₂, hQ', hl', hy₂, hin⟩
      · exact Or.inl hroot'
      · have hb : fa.parent ≠ p := by
          intro hb
          rw [hb] at hy₂
          obtain rfl := hy₂.unique hy₀
          rcases hsub hin with hc | hc
          · exact hal hc
          · exact har hc
        obtain ⟨fb, hfb, hnb⟩ := hy₂
        have hbq : fa.parent ≠ q := by
          intro hb
          rw [hb, hq] at hfb
          cases hfb
        obtain ⟨fb', hfb', hnb', -⟩ := hface hb hbq hfb
        exact Or.inr ⟨h0, Q', y₂, (hG hb hbq).trans hQ', hl', ⟨fb', hfb', hnb'.trans hnb⟩, hin⟩
    · obtain ⟨hi, hroot'⟩ := h.root
      by_cases hxp : x.root = p
      · rw [hxp, hQ] at hroot'
        cases hroot'
        exact ⟨s, hxp ▸ hGp⟩
      · have hxq : x.root ≠ q := by
          rintro hxq
          obtain ⟨fr, hfr⟩ := h.face hroot'
          rw [hxq, hq] at hfr
          cases hfr
        exact ⟨hi, (hG hxp hxq).trans hroot'⟩
  · refine ⟨⟨Q.layer, Q.lo, Q.hi, hGp, hGq, hMp⟩, hMq, ?_, ⟨gp, hyp, ?_⟩, ⟨gq, hyq, ?_⟩⟩
    · intro a hap haq
      rw [hM hap haq, hG hap haq]
    · rw [hgn, ← hheight]
      exact hl
    · rw [hqn, ← hheight]
      exact hr

/-- **The two halves have a new root above them.** -/
theorem Shape.topped (h : Shape x G M) (hp : Pending x G M n child sep k) (hf : x.face n = some f)
    (hf0 : f.parent = 0) (hq : x.face q = none) (hq0 : q ≠ 0) (hroot : y.root = x.root)
    (hyq : y.face q = some ⟨true, false, 0, .internode y₁⟩) (hk : y₁.nkeys = 1)
    (hheight : y₁.height = k + 1) (hkeys : y₁.keys = [sep]) (hchildren : y₁.children = [n, child])
    (hyn : y.face n = some { f with parent := q })
    (hyc : ∃ fc, x.face child = some fc ∧ y.face child = some { fc with parent := q })
    (hother : ∀ a, a ≠ q → a ≠ n → a ≠ child → y.face a = x.face a) : ∃ layer,
      Shape y (Function.update G q (some ⟨layer, 0, 2 ^ 64⟩))
        (Function.update G q (some ⟨layer, 0, 2 ^ 64⟩)) := by
  obtain ⟨layer, lo, hi, hn, hchild, hMn⟩ := hp.place
  obtain ⟨fc, hfc, hyc⟩ := hyc
  have hlt := (h.range hn).1
  have hgt := h.range hchild
  have hdvd : ikeySize ∣ layer.length := h.layer hn
  rcases h.parent hMn hf with ⟨-, -, rfl, rfl⟩ | ⟨h0, -⟩
  swap
  · exact absurd hf0 h0
  refine ⟨layer, ?_⟩
  have hnq : n ≠ q := by
    rintro rfl
    rw [hf] at hq
    cases hq
  have hcq : child ≠ q := by
    rintro rfl
    rw [hfc] at hq
    cases hq
  have hG {a} (haq : a ≠ q) : Function.update G q (some ⟨layer, 0, 2 ^ 64⟩) a = G a :=
    Function.update_of_ne haq ..
  have hGq : Function.update G q (some ⟨layer, 0, 2 ^ 64⟩) q = some ⟨layer, 0, 2 ^ 64⟩ :=
    Function.update_self ..
  have hyq' : y.InternodeAt q y₁ := ⟨_, hyq, rfl⟩
  have hface {a fa} (haq : a ≠ q) (hfa : x.face a = some fa) : ∃ f', y.face a = some f' ∧
      f'.node = fa.node ∧ f'.root = fa.root ∧ (a ≠ n → a ≠ child → f' = fa) := by
    by_cases han : a = n
    · subst han
      rw [hf] at hfa
      cases hfa
      exact ⟨_, hyn, rfl, rfl, fun h => absurd rfl h⟩
    · by_cases hac : a = child
      · subst hac
        rw [hfc] at hfa
        cases hfa
        exact ⟨_, hyc, rfl, rfl, fun _ h => absurd rfl h⟩
      · exact ⟨fa, (hother a haq han hac).trans hfa, rfl, rfl, fun _ _ => rfl⟩
  obtain ⟨fn, hfn, hln⟩ := hp.left
  rw [hf] at hfn
  cases hfn
  obtain ⟨fc', hfc', hlc⟩ := hp.right
  rw [hfc] at hfc'
  cases hfc'
  refine h.rework (R := (· = q)) hroot (fun a haq => hG haq) ?_ ?_ ?_ ?_ ?_ ?_ hq0.symm ?_
  · intro a fa haq hfa
    obtain ⟨f', hf', hn', -⟩ := hface haq hfa
    exact ⟨f', hf', hn'⟩
  · intro a f' haq hf'
    cases hfa : x.face a with
    | none =>
      have han : a ≠ n := by
        rintro rfl
        rw [hf] at hfa
        cases hfa
      have hac : a ≠ child := by
        rintro rfl
        rw [hfc] at hfa
        cases hfa
      rw [hother a haq han hac, hfa] at hf'
      cases hf'
    | some fa =>
      obtain ⟨f'', hf'', hn', -⟩ := hface haq hfa
      rw [hf'] at hf''
      cases hf''
      exact ⟨fa, rfl, hn'⟩
  · rintro a P rfl hP
    rw [hGq] at hP
    cases hP
    exact ⟨⟨_, hyq⟩, Nat.two_pow_pos 64, le_rfl, hdvd⟩
  · intro a Pa layer' h' c lo hi' haq ha hc
    obtain ⟨fa, hfa, hpa, hlevel⟩ := hc.face
    have hcc : c ≠ child := by
      rintro rfl
      have hplace := hc.place
      rw [hp.unhung] at hplace
      cases hplace
    have hcn : c ≠ n := by
      rintro rfl
      rw [hf] at hfa
      cases hfa
      rw [← hpa, hf0, h.null] at ha
      cases ha
    have hcq' : c ≠ q := by
      rintro rfl
      rw [hq] at hfa
      cases hfa
    obtain ⟨f', hf', -, -, hsame⟩ := hface hcq' hfa
    obtain rfl := hsame hcn hcc
    exact ⟨hc.lt, (hG hcq').trans ((hp.other c hcn hcc).symm.trans hc.place), f', hf', hpa, hlevel⟩
  · rintro a P y₂ rfl hP hy₂
    rw [hGq] at hP
    cases hP
    obtain rfl := hy₂.unique hyq'
    rw [hkeys, hchildren, hk]
    refine ⟨by decide, .cons ⟨hlt, ?_, _, hyn, rfl, ?_⟩ (.last ⟨hgt.1, ?_, _, hyc, rfl, ?_⟩)⟩
    · rw [hG hnq, hn]
    · rw [hheight]
      exact congrArg (· + 1) hln
    · rw [hG hcq, hchild]
    · rw [hheight]
      exact congrArg (· + 1) hlc
  · intro a P f' hP hf'
    by_cases haq : a = q
    · subst haq
      rw [hyq] at hf'
      cases hf'
      rw [hGq] at hP
      cases hP
      exact Or.inl ⟨rfl, rfl, rfl, rfl⟩
    rw [hG haq] at hP
    by_cases han : a = n
    · subst han
      rw [hyn] at hf'
      cases hf'
      rw [hn] at hP
      cases hP
      refine Or.inr ⟨hq0, _, y₁, hGq, rfl, hyq', ?_⟩
      rw [hchildren]
      exact List.mem_cons_self
    by_cases hac : a = child
    · subst hac
      rw [hyc] at hf'
      cases hf'
      rw [hchild] at hP
      cases hP
      refine Or.inr ⟨hq0, _, y₁, hGq, rfl, hyq', ?_⟩
      rw [hchildren]
      exact List.mem_cons_of_mem _ List.mem_cons_self
    have hfa := (hother a haq han hac).symm.trans hf'
    rcases h.parent ((hp.other a han hac).trans hP) hfa with
      hroot' | ⟨h0, Q', y₂, hQ', hl', hy₂, hin⟩
    · exact Or.inl hroot'
    · obtain ⟨fb, hfb, hnb⟩ := hy₂
      have hbq : f'.parent ≠ q := by
        intro hb
        rw [hb, hq] at hfb
        cases hfb
      obtain ⟨fb', hfb', hnb', -⟩ := hface hbq hfb
      exact Or.inr ⟨h0, Q', y₂, (hG hbq).trans hQ', hl', ⟨fb', hfb', hnb'.trans hnb⟩, hin⟩
  · obtain ⟨hi', hroot'⟩ := h.root
    have hxq : x.root ≠ q := by
      rintro hxq
      obtain ⟨fr, hfr⟩ := h.face hroot'
      rw [hxq, hq] at hfr
      cases hfr
    exact ⟨hi', (hG hxq).trans hroot'⟩

end Hang

/-! ### What does not matter -/

/-- The two faces differ at most in what is in a leaf, in whether the node is being split, and in
the root flag of a node that has a parent. -/
structure Face.Alike (f g : Face) : Prop where
  parent : g.parent = f.parent
  root : g.parent = 0 → g.root = f.root
  level : g.node.level = f.node.level
  internode : ∀ y, g.node = .internode y ↔ f.node = .internode y

section Alike

variable {x : Scene} {G M : Places} {S : Set Addr} {a b n child : Addr} {f g : Face}
  {y : Internode} {sep k : ℕ} {l : Leaf}

theorem internodeAt_set_iff (hf : x.face a = some f) (h : f.Alike g) :
    (x.set a g).InternodeAt b y ↔ x.InternodeAt b y := by
  by_cases hb : b = a
  · subst hb
    constructor
    · rintro ⟨g', hg, hn⟩
      rw [Scene.face_set_self] at hg
      cases hg
      exact ⟨f, hf, (h.internode y).mp hn⟩
    · rintro ⟨f', hf', hn⟩
      rw [hf] at hf'
      cases hf'
      exact ⟨g, Scene.face_set_self, (h.internode y).mpr hn⟩
  · rw [Scene.InternodeAt, Scene.face_set_of_ne hb]
    rfl

/-- A node is seen behind a store as it was, but for what does not matter. -/
theorem face_set_alike (hf : x.face a = some f) (h : f.Alike g) {c : Face}
    (hc : (x.set a g).face b = some c) : ∃ c', x.face b = some c' ∧ c'.Alike c := by
  by_cases hb : b = a
  · subst hb
    rw [Scene.face_set_self] at hc
    cases hc
    exact ⟨f, hf, h⟩
  · rw [Scene.face_set_of_ne hb] at hc
    exact ⟨c, hc, rfl, fun _ => rfl, rfl, fun _ => Iff.rfl⟩

theorem set_face_alike (hf : x.face a = some f) (h : f.Alike g) {c : Face}
    (hc : x.face b = some c) : ∃ c', (x.set a g).face b = some c' ∧ c.Alike c' := by
  by_cases hb : b = a
  · subst hb
    rw [hf] at hc
    cases hc
    exact ⟨g, Scene.face_set_self, h⟩
  · refine ⟨c, ?_, rfl, fun _ => rfl, rfl, fun _ => Iff.rfl⟩
    rw [Scene.face_set_of_ne hb, hc]

/-- **The tree stands as before.** -/
theorem Shape.set (h : Shape x G M) (hf : x.face a = some f) (hfg : f.Alike g) :
    Shape (x.set a g) G M := by
  refine ⟨h.null, ?_, h.range, h.layer, ?_, ?_, h.root⟩
  · intro b P hb
    obtain ⟨c, hc⟩ := h.face hb
    obtain ⟨c', hc', -⟩ := set_face_alike hf hfg hc
    exact ⟨c', hc'⟩
  · intro b P y hb hy
    obtain ⟨hk, hcover⟩ := h.cover hb ((internodeAt_set_iff hf hfg).mp hy)
    refine ⟨hk, hcover.imp fun _ c lo hi _ hc => ?_⟩
    obtain ⟨d, hd, hpar, hl⟩ := hc.face
    obtain ⟨d', hd', halike⟩ := set_face_alike hf hfg hd
    exact ⟨hc.lt, hc.place, d', hd', halike.parent.trans hpar, by rw [halike.level, hl]⟩
  · intro b P c hb hc
    obtain ⟨c', hc', halike⟩ := face_set_alike hf hfg hc
    rcases h.parent hb hc' with ⟨h0, hroot, hrest⟩ | ⟨h0, Q, y, hQ, hl, hy, hmem⟩
    · have hp : c.parent = 0 := halike.parent.trans h0
      exact Or.inl ⟨hp, (halike.root hp).trans hroot, hrest⟩
    · rw [← halike.parent] at h0 hQ hy
      exact Or.inr ⟨h0, Q, y, hQ, hl, (internodeAt_set_iff hf hfg).mpr hy, hmem⟩

theorem Pending.set (h : Pending x G M n child sep k) (hf : x.face a = some f) (hfg : f.Alike g) :
    Pending (x.set a g) G M n child sep k := by
  have hlevel {b : Addr} (hb : ∃ c, x.face b = some c ∧ c.node.level = k) :
      ∃ c, (x.set a g).face b = some c ∧ c.node.level = k := by
    obtain ⟨c, hc, hl⟩ := hb
    obtain ⟨c', hc', halike⟩ := set_face_alike hf hfg hc
    exact ⟨c', hc', halike.level.trans hl⟩
  exact ⟨h.place, h.unhung, h.other, hlevel h.left, hlevel h.right⟩

/-- What is known of the other nodes stays known, and of the node at `a` all is. -/
theorem Calm.set (h : Calm x G (insert a S)) (hnode : ∀ y, g.node = .internode y →
    g.splitting = false) (hroot : ∀ P, G a = some P → g.root = true → g.splitting = false →
      P.lo = 0 → P.hi = 2 ^ 64) : Calm (x.set a g) G S := by
  constructor
  · intro b P c y hb hP hc hn
    by_cases hba : b = a
    · subst hba
      rw [Scene.face_set_self] at hc
      cases hc
      exact hnode y hn
    · rw [Scene.face_set_of_ne hba] at hc
      exact h.internode (fun hmem => hmem.elim hba hb) hP hc hn
  · intro b P c hb hP hc
    by_cases hba : b = a
    · subst hba
      rw [Scene.face_set_self] at hc
      cases hc
      exact hroot P hP
    · rw [Scene.face_set_of_ne hba] at hc
      exact h.root (fun hmem => hmem.elim hba hb) hP hc

theorem Calm.mono {T : Set Addr} (h : Calm x G S) (hST : S ⊆ T) : Calm x G T :=
  ⟨fun _ _ _ _ ha => h.internode fun hS => ha (hST hS),
    fun _ _ _ ha => h.root fun hS => ha (hST hS)⟩

theorem alike_unlock (h : f.parent ≠ 0) : f.Alike f.unlock :=
  ⟨rfl, fun h0 => absurd h0 h, rfl, fun _ => Iff.rfl⟩

/-- What is in a leaf does not matter. -/
theorem alike_leaf {l' : Leaf} {s : Bool} (h : f.node = .leaf l) :
    f.Alike { f with splitting := s, node := .leaf l' } := by
  refine ⟨rfl, fun _ => rfl, ?_, fun y => ⟨fun hy => ?_, fun hy => ?_⟩⟩
  · rw [h]
    rfl
  · cases hy
  · rw [h] at hy
    cases hy

end Alike

end Sidle.Masstree
