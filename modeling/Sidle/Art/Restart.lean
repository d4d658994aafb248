import Sidle.Art.Continues
import Sidle.Art.Reader
import Sidle.Prog.Rely

/-!
# The offset of a lookup that starts a round again

Whenever a lookup comes back to the label `begin`, its offset has to be that of the node
behind its slot: the round compares the two and starts again when they differ.  Insertions
may replace that node or cut its prefix, and keep its offset.  The last `goto begin` keeps an
offset that has moved over the prefix; it is only right when the prefix was empty.

## Main definitions

* `Seen`, `Below`, `BeginOk` — what the reader knows of the nodes it has looked at.
* `ReaderInv` — the invariant of a run.
* `RestartRight` — the offset at `begin` is the right one, and the lookup terminates from there
  when nobody inserts any more.

## Main results

* `ReaderInv.step` — what one step preserves.
* `restart_right_of_run` — **a run that never starts again behind a prefix is right**.
* `restart_wrong` — a run that does.
-/

namespace Sidle.Art

open Prog Machine Outcome

/-- The memory holds a trie of keys of length `L`. -/
def HoldsTrie (L : ℕ) (env : Env) (s : Mem) : Prop := ∃ t : Tree L, Represents env s t

/-- What the insertions do, and the lookup. -/
def Writes (L : ℕ) (env : Env) (s s' : Mem) : Prop :=
  HoldsTrie L env s → HoldsTrie L env s' ∧ Continues s s'

instance (L : ℕ) (env : Env) : IsPreorder Mem (Writes L env) where
  refl s hs := ⟨hs, .refl s⟩
  trans s s' s'' h h' hs := by
    obtain ⟨hs', hc⟩ := h hs
    obtain ⟨hs'', hc'⟩ := h' hs'
    exact ⟨hs'', hc.trans hc'⟩

variable {L : ℕ} {env : Env} {key : Key} {s s' : Mem} {an parent : Addr} {ptr : Slot} {off : ℕ}
  {v1 : Version} {n : ArtNode} {b : UInt8} {i : ℕ}

/-- A reachable node of a trie has all that a node needs. -/
theorem HoldsTrie.ok (hs : HoldsTrie L env s) (hn : s.node? an = some n) (hr : Reachable s an) :
    n.Ok := by
  obtain ⟨t, h⟩ := hs
  obtain ⟨n', hn', hrep⟩ := h.node an ((h.reachable_iff an).mp hr)
  obtain rfl := Option.some.inj (hn.symm.trans hn')
  exact hrep.ok

/-! ### What the reader knows -/

/-- The node at `an` has been `n`, and if it is still in the tree, it is a later state of `n`. -/
def Seen (s : Mem) (an : Addr) (n : ArtNode) : Prop :=
  ∃ nd, s.node? an = some nd ∧ (Reachable s an → n.Ok ∧ n.Continues nd)

/-- The child for the byte `b` is in the slot `i`, if the node is still in the tree. -/
def SlotSeen (s : Mem) (an : Addr) (b : UInt8) (i : ℕ) : Prop :=
  ∃ nd, s.node? an = some nd ∧ (Reachable s an → nd.slotOf b = some i)

/-- The prefix of `an` has been passed at the offset `off`, with the version `v1`. -/
def Below (s : Mem) (an : Addr) (v1 : Version) (off : ℕ) : Prop :=
  ∃ n, n.version = v1 ∧ Seen s an n ∧ (Reachable s an → getOffset v1 = off)

/-- The offset `off` is that of the slot, if the node with the slot is still in the tree. -/
def BeginOk (s : Mem) (parent : Addr) (ptr : Slot) (off : ℕ) : Prop :=
  (ptr = .root ∧ parent = 0 ∧ off = 0) ∨ ∃ b i, ptr = .child parent i ∧ SlotSeen s parent b i ∧
    ∀ nd, s.node? parent = some nd → Reachable s parent →
      getOffset nd.version + getPrefixLen nd.version + 1 = off

theorem Seen.mono (h : Seen s an n) (hc : Continues s s') : Seen s' an n := by
  obtain ⟨nd, hnd, hr⟩ := h
  obtain ⟨nd', hnd', hr'⟩ := hc an nd hnd
  refine ⟨nd', hnd', fun hx => ?_⟩
  obtain ⟨hx, hcn⟩ := hr' hx
  obtain ⟨hok, hn⟩ := hr hx
  exact ⟨hok, hn.trans hcn⟩

theorem SlotSeen.mono (h : SlotSeen s an b i) (hc : Continues s s') : SlotSeen s' an b i := by
  obtain ⟨nd, hnd, hr⟩ := h
  obtain ⟨nd', hnd', hr'⟩ := hc an nd hnd
  refine ⟨nd', hnd', fun hx => ?_⟩
  obtain ⟨hx, hcn⟩ := hr' hx
  exact hcn.slot b i (hr hx)

/-- A node that is in the tree later has been there before. -/
theorem Seen.reachable (h : Seen s an n) (hc : Continues s s') (hx : Reachable s' an) :
    Reachable s an := by
  obtain ⟨nd, hnd, -⟩ := h
  obtain ⟨nd', -, hr'⟩ := hc an nd hnd
  exact (hr' hx).1

theorem Below.mono (h : Below s an v1 off) (hc : Continues s s') : Below s' an v1 off := by
  obtain ⟨n, hv, hn, hoff⟩ := h
  exact ⟨n, hv, hn.mono hc, fun hx => hoff (hn.reachable hc hx)⟩

theorem BeginOk.mono (h : BeginOk s parent ptr off) (hc : Continues s s') :
    BeginOk s' parent ptr off := by
  rcases h with h | ⟨b, i, hptr, hslot, hoff⟩
  · exact Or.inl h
  refine Or.inr ⟨b, i, hptr, hslot.mono hc, fun nd' hnd' hx => ?_⟩
  obtain ⟨nd, hnd, -⟩ := hslot
  obtain ⟨nd'', hnd'', hr⟩ := hc parent nd hnd
  obtain rfl := Option.some.inj (hnd'.symm.trans hnd'')
  obtain ⟨hx, hcn⟩ := hr hx
  rw [hcn.length, hoff nd hnd hx]

/-- The node that has just been loaded. -/
theorem seen_of_node? (hs : HoldsTrie L env s) (hn : s.node? an = some n) : Seen s an n :=
  ⟨n, hn, fun hx => ⟨hs.ok hn hx, .refl n⟩⟩

/-! ### Accesses among insertions -/

variable {β : Type}

/-- A field of a node, at the moment at which it is loaded. -/
theorem relies_load (hs : HoldsTrie L env s) {f : NodeField β} {Q : β → Mem → Prop}
    (hQ : ∀ s₁ n s₂, Continues s s₁ → HoldsTrie L env s₁ → s₁.node? an = some n →
      f.InBounds n.layout → Continues s₁ s₂ → HoldsTrie L env s₂ → Q (f.get n) s₂) :
    env.machine.Relies (Writes L env) (Writes L env) (load an f) s Q := by
  refine relies_lift fun s₁ b s₂ hR hexec => ?_
  obtain ⟨hs₁, hc₁⟩ := hR hs
  change env.exec (.load an f) s₁ = .ok (b, s₂) at hexec
  simp only [Env.exec] at hexec
  cases hn : s₁.node? an with
  | none => simp [hn] at hexec
  | some n =>
    simp only [hn] at hexec
    split at hexec
    · cases hexec
      refine ⟨refl_of (Writes L env) s₁, fun s₃ hR₃ => ?_⟩
      obtain ⟨hs₃, hc₃⟩ := hR₃ hs₁
      exact hQ s₁ n s₃ hc₁ hs₁ hn ‹_› hc₃ hs₃
    · cases hexec

/-- An access that reads only. -/
theorem guards_load (f : NodeField β) : env.machine.Guards (Writes L env) (load an f) :=
  guards_lift fun s b s' hexec => by
    change env.exec (.load an f) s = .ok (b, s') at hexec
    simp only [Env.exec] at hexec
    split at hexec
    · split at hexec
      · cases hexec
        exact refl_of (Writes L env) s
      · cases hexec
    · cases hexec

theorem guards_loadLeaf {a : Addr} (f : LeafField β) :
    env.machine.Guards (Writes L env) (loadLeaf a f) :=
  guards_lift fun s b s' hexec => by
    change env.exec (.loadLeaf a f) s = .ok (b, s') at hexec
    simp only [Env.exec] at hexec
    split at hexec
    · split at hexec
      · cases hexec
        exact refl_of (Writes L env) s
      · cases hexec
    · cases hexec

theorem guards_loadSlot (ptr : Slot) : env.machine.Guards (Writes L env) (loadSlot ptr) := by
  cases ptr with
  | root =>
    refine guards_lift fun s b s' hexec => ?_
    cases hexec
    exact refl_of (Writes L env) s
  | child an i => exact guards_load _

/-- The access time is not part of the trie. -/
theorem guards_storeLeaf_accessTime {a : Addr} (x : ℕ) :
    env.machine.Guards (Writes L env) (storeLeaf a .accessTime x) :=
  guards_lift fun s b s' hexec => by
    change env.exec (.storeLeaf a .accessTime x) s = .ok (b, s') at hexec
    simp only [Env.exec] at hexec
    cases hl : s.leaf? a with
    | none => simp [hl] at hexec
    | some l =>
      simp only [hl] at hexec
      split at hexec
      · cases hexec
        rintro ⟨t, h⟩
        have hnode {m : Addr} {md : ArtNode} (hm : s.node? m = some md) :
            (s.setLeaf a (LeafField.accessTime.set x l)).node? m = some md :=
          (Mem.node?_setLeaf_of_ne _ _ (Mem.ne_of_node?_of_leaf? hm hl)).trans hm
        have hk : LeavesKept s (s.setLeaf a (LeafField.accessTime.set x l)) := by
          intro c lc hc
          by_cases hca : c = a
          · subst hca
            obtain rfl := Option.some.inj (hc.symm.trans hl)
            exact ⟨_, Mem.leaf?_setLeaf_self .., rfl, rfl⟩
          · exact ⟨lc, (Mem.leaf?_setLeaf_of_ne _ _ hca).trans hc, rfl, rfl⟩
        have h' : Represents env (s.setLeaf a (LeafField.accessTime.set x l)) t :=
          h.of_kept (h.fresh.setLeaf (h.fresh.exists_addr_of_leaf? hl) _) h.usage rfl hk
            fun m md _ hmd hrep => ⟨md, hnode hmd, hrep.transfer hk rfl (fun _ => rfl) hrep.place⟩
        refine ⟨⟨t, h'⟩, fun m md hmd => ⟨md, hnode hmd, fun hx => ⟨?_, .refl md⟩⟩⟩
        exact (h.reachable_iff m).mpr ((h'.reachable_iff m).mp hx)
      · cases hexec

/-- A program of such accesses keeps what is known. -/
theorem relies_keep {F : Mem → Prop} (hF : ∀ s s', Continues s s' → F s → F s') {p : ArtM β}
    (hp : env.machine.Guards (Writes L env) p) (hs : HoldsTrie L env s) (h : F s) :
    env.machine.Relies (Writes L env) (Writes L env) p s fun _ s' => HoldsTrie L env s' ∧ F s' := by
  have hkeep (s s' : Mem) (hw : Writes L env s s') (hk : HoldsTrie L env s ∧ F s) :
      HoldsTrie L env s' ∧ F s' := by
    obtain ⟨hs', hc⟩ := hw hk.1
    exact ⟨hs', hF s s' hc hk.2⟩
  exact hp.relies hkeep hkeep ⟨hs, h⟩

/-- An answer of which something is known that the insertions keep. -/
theorem relies_pure {F : Mem → Prop} (hF : ∀ s s', Continues s s' → F s → F s') {a : β}
    (hs : HoldsTrie L env s) (h : F s) :
    env.machine.Relies (Writes L env) (Writes L env) (pure a : ArtM β) s
      fun x s' => x = a ∧ HoldsTrie L env s' ∧ F s' := by
  intro s' hw
  obtain ⟨hs', hc⟩ := hw hs
  exact ⟨rfl, hs', hF s s' hc h⟩

/-! ### The programs of a round -/

theorem guards_keyAt (key : Key) (off : ℕ) : env.machine.Guards (Writes L env) (keyAt key off) := by
  unfold keyAt
  cases key[off]? with
  | none => exact guards_fail
  | some c => exact guards_pure

theorem guards_prefixCompareLoop (an : Addr) (key : Key) (k i off : ℕ) :
    env.machine.Guards (Writes L env) (prefixCompareLoop an key k i off) := by
  induction k generalizing i off with
  | zero => exact guards_pure
  | succ k ih =>
    refine guards_ite ((guards_load _).bind fun b => (guards_keyAt key off).bind fun c => ?_)
      guards_pure
    exact guards_ite guards_pure (ih (i + 1) (off + 1))

theorem guards_leafCompareLoop (leaf : Addr) (l1 : ℕ) (key : Key) (k i : ℕ) :
    env.machine.Guards (Writes L env) (leafCompareLoop leaf l1 key k i) := by
  induction k generalizing i with
  | zero => exact guards_pure
  | succ k ih =>
    refine guards_ite ((guards_loadLeaf _).bind fun b => (guards_keyAt key i).bind fun c => ?_)
      guards_pure
    exact guards_ite (ih (i + 1)) guards_pure

theorem guards_getAtLeaf (p : Ptr) (key : Key) (off : ℕ) :
    env.machine.Guards (Writes L env) (getAtLeaf p key off) := by
  refine (guards_loadLeaf _).bind fun len => (guards_leafCompareLoop ..).bind fun i => ?_
  refine guards_ite (Guards.bind ?_ fun _ => guards_pure) guards_pure
  exact (guards_loadLeaf _).bind fun t => guards_storeLeaf_accessTime _

/-- A stable version is that of the node at some moment. -/
theorem relies_stableVersion (fuel : ℕ) (hs : HoldsTrie L env s) :
    env.machine.Relies (Writes L env) (Writes L env) (artNodeGetStableExpandVersion fuel an) s
      fun v s' => HoldsTrie L env s' ∧ ∃ n, n.version = v ∧ Seen s' an n := by
  induction fuel generalizing s with
  | zero => exact relies_diverge
  | succ fuel ih =>
    have hload : env.machine.Relies (Writes L env) (Writes L env) (artNodeGetVersionUnsafe an) s
        fun v s' => HoldsTrie L env s' ∧ ∃ n, n.version = v ∧ Seen s' an n :=
      relies_load hs fun s₁ n s₂ _ hs₁ hn _ hc₂ hs₂ =>
        ⟨hs₂, n, rfl, (seen_of_node? hs₁ hn).mono hc₂⟩
    refine hload.bind fun v s₁ h₁ => ?_
    obtain ⟨hs₁, n, hv, hn⟩ := h₁
    refine relies_ite (fun _ => ih hs₁) fun _ => ?_
    refine (relies_pure (F := fun s => Seen s an n) (fun _ _ hc h => h.mono hc) hs₁ hn).imp ?_
    rintro _ s₂ ⟨rfl, hs₂, hn₂⟩
    exact ⟨hs₂, n, hv, hn₂⟩

/-- A prefix that has not been cut since is where it was. -/
theorem ArtNode.Continues.offset_of_vexpand {n n' : ArtNode} (h : n.Continues n')
    (hexp : getVexpand n.version = getVexpand n'.version) :
    getOffset n'.version = getOffset n.version ∧ getPrefixLen n'.version =
      getPrefixLen n.version := by
  obtain ⟨k, hk, hle, hzero⟩ := h.expand
  have hlt := getPrefixLen_lt n.version
  have hlt' := getVexpand_lt n.version
  have hk0 : k = 0 := by omega
  have hlen := hzero hk0
  have hsum := h.length
  exact ⟨by omega, hlen⟩

/-- What the first part of a round that begins at the offset `off` has found out. -/
def CompareOk (L : ℕ) (env : Env) (off : ℕ) (c : Compared) (s : Mem) : Prop :=
  HoldsTrie L env s ∧ ∀ an v1, c = .below an v1 → Below s an v1 off

/-- A first part that has not come behind a prefix. -/
theorem relies_compared {c : Compared} (hc : ∀ an v1, c ≠ .below an v1) (hs : HoldsTrie L env s) :
    env.machine.Relies (Writes L env) (Writes L env) (pure c : ArtM Compared) s
      (CompareOk L env off) := by
  refine (relies_pure (F := fun _ => True) (fun _ _ _ h => h) hs trivial).imp ?_
  rintro _ s₁ ⟨rfl, hs₁, -⟩
  exact ⟨hs₁, fun an v1 h => absurd h (hc an v1)⟩

/-- What an access answers that does not matter. -/
theorem relies_any {β : Type} {p : ArtM β} (hp : env.machine.Guards (Writes L env) p)
    (hs : HoldsTrie L env s) :
    env.machine.Relies (Writes L env) (Writes L env) p s fun _ s' => HoldsTrie L env s' :=
  (relies_keep (F := fun _ => True) (fun _ _ _ h => h) hp hs trivial).imp fun _ _ h => h.1

theorem guards_parentIsOld (first : Bool) (parent : Addr) :
    env.machine.Guards (Writes L env) (parentIsOld first parent) :=
  guards_ite guards_pure ((guards_load _).bind fun _ => guards_pure)

/-- **The first part of a round** ends behind a prefix that begins at the offset of the round. -/
theorem relies_getCompare (key : Key) (fuel : ℕ) (first : Bool) (parent : Addr)
    (ptr : Slot) (off : ℕ)
    (hs : HoldsTrie L env s) :
    env.machine.Relies (Writes L env) (Writes L env) (getCompare key fuel first parent ptr off) s
      (CompareOk L env off) := by
  refine (relies_any (guards_parentIsOld first parent) hs).bind fun stale s₁ hs₁ => ?_
  refine relies_ite (fun _ => relies_compared nofun hs₁) fun _ => ?_
  refine (relies_any (guards_loadSlot ptr) hs₁).bind fun an s₂ hs₂ => ?_
  refine relies_ite (fun _ => ?_) fun _ => ?_
  · exact (relies_any (guards_getAtLeaf an key off) hs₂).bind
      fun res s₃ hs₃ => relies_compared nofun hs₃
  refine (relies_stableVersion fuel hs₂).bind fun v s₃ h₃ => ?_
  obtain ⟨hs₃, n, rfl, hn⟩ := h₃
  refine relies_ite (fun _ => relies_compared nofun hs₃) fun hoff => ?_
  refine relies_ite (fun _ => relies_compared nofun hs₃) fun _ => ?_
  have hcompare := relies_keep (F := fun s => Seen s an n) (fun _ _ hc h => h.mono hc)
    (guards_prefixCompareLoop an key (getPrefixLen n.version) 0 off) hs₃ hn
  refine hcompare.bind fun p s₄ h₄ => ?_
  obtain ⟨hs₄, hn₄⟩ := h₄
  -- the second look at the version
  have hload : env.machine.Relies (Writes L env) (Writes L env) (artNodeGetVersion an) s₄
      fun v1 s' =>
        HoldsTrie L env s' ∧ ∃ m, m.version = v1 ∧ Seen s' an m ∧
          (Reachable s' an → n.Continues m) := by
    refine relies_load hs₄ fun s₅ m s₆ hc₅ hs₅ hm _ hc₆ hs₆ => ?_
    have hseen := seen_of_node? hs₅ hm
    refine ⟨hs₆, m, rfl, hseen.mono hc₆, fun hx => ?_⟩
    obtain ⟨m', hm', hcn⟩ := hn₄.mono hc₅
    obtain rfl := Option.some.inj (hm.symm.trans hm')
    exact (hcn (hseen.reachable hc₆ hx)).2
  refine hload.bind fun v1 s₅ h₅ => ?_
  obtain ⟨hs₅, m, rfl, hm, hcn⟩ := h₅
  refine relies_ite (fun _ => relies_compared nofun hs₅) fun hsame => ?_
  refine relies_ite (fun _ => relies_compared nofun hs₅) fun _ => ?_
  have hbelow : Below s₅ an m.version off := by
    refine ⟨m, rfl, hm, fun hx => ?_⟩
    simp only [artNodeVersionCompareExpand, Bool.or_eq_true, bne_iff_ne, not_or, not_not] at hsame
    rw [((hcn hx).offset_of_vexpand hsame.2.2).1]
    simpa using hoff
  refine (relies_pure (F := fun s => Below s an m.version off) (fun _ _ hc h => h.mono hc) hs₅
    hbelow).imp ?_
  rintro _ s₆ ⟨rfl, hs₆, h₆⟩
  refine ⟨hs₆, fun an' v1 heq => ?_⟩
  cases heq
  exact h₆

/-- What the search of the next child has found. -/
def SearchOk (L : ℕ) (env : Env) (an : Addr) (next : Option Slot) (s : Mem) : Prop :=
  HoldsTrie L env s ∧ ∀ slot, next = some slot → ∃ b i, slot = .child an i ∧ SlotSeen s an b i

theorem relies_searched {next : Option Slot}
    (h : ∀ slot, next = some slot → ∃ b i, slot = .child an i ∧ SlotSeen s an b i)
    (hs : HoldsTrie L env s) :
    env.machine.Relies (Writes L env) (Writes L env) (pure next : ArtM (Option Slot)) s
      (SearchOk L env an) := by
  intro s' hw
  obtain ⟨hs', hc⟩ := hw hs
  refine ⟨hs', fun slot hslot => ?_⟩
  obtain ⟨b, i, heq, hseen⟩ := h slot hslot
  exact ⟨b, i, heq, hseen.mono hc⟩

/-- A field of a node that has been seen, and what it says of the slots. -/
theorem relies_load_slot {β : Type} (hs : HoldsTrie L env s) (hn : Seen s an n) (f : NodeField β) :
    env.machine.Relies (Writes L env) (Writes L env) (load an f) s fun x s' =>
      HoldsTrie L env s' ∧ Seen s' an n ∧
        ∀ b i, (∀ m : ArtNode, n.Ok → m.Ok → n.Continues m → f.get m = x → m.slotOf b = some i) →
          SlotSeen s' an b i := by
  refine relies_load hs fun s₁ m s₂ hc₁ hs₁ hm _ hc₂ hs₂ => ?_
  have hn₁ := hn.mono hc₁
  refine ⟨hs₂, hn₁.mono hc₂, fun b i hslot => SlotSeen.mono ⟨m, hm, fun hx => ?_⟩ hc₂⟩
  obtain ⟨m', hm', hr⟩ := hn₁
  obtain rfl := Option.some.inj (hm.symm.trans hm')
  obtain ⟨hok, hcn⟩ := hr hx
  exact hslot m hok (hs₁.ok hm hx) hcn rfl

theorem relies_findKey (hlayout : getNodeType n.version = .node4) (byte : UInt8) (k i : ℕ)
    (hk : i + k ≤ getCount n.version) (hs : HoldsTrie L env s) (hn : Seen s an n) :
    env.machine.Relies (Writes L env) (Writes L env) (findKey an byte k i) s
      (SearchOk L env an) := by
  induction k generalizing s i with
  | zero => exact relies_searched nofun hs
  | succ k ih =>
    refine (relies_load_slot hs hn (.key i)).bind fun x s₁ h₁ => ?_
    obtain ⟨hs₁, hn₁, hslot⟩ := h₁
    refine relies_ite (fun hx => relies_searched (fun slot heq => ?_) hs₁) fun _ =>
      ih (i + 1) (by omega) hs₁ hn₁
    obtain rfl := Option.some.inj heq
    refine ⟨byte, i, rfl, hslot byte i fun m hok hmok hcn hget => ?_⟩
    have hm : m.layout.Keyed := Or.inl (hcn.layout.trans (hok.type.symm.trans hlayout))
    have hcount := hcn.count
    exact (ArtNode.slotOf_keyed_eq_some hmok hm).mpr ⟨by omega, hget.trans hx⟩

/-- **The search of a child** finds the slot for the byte. -/
theorem relies_getSearch (key : Key) (hs : HoldsTrie L env s) (hbelow : Below s an v1 off)
    (off' : ℕ) :
    env.machine.Relies (Writes L env) (Writes L env) (getSearch key an v1 off') s
      (SearchOk L env an) := by
  have hbyte : env.machine.Guards (Writes L env) (keyByte key off') :=
    guards_ite guards_pure (guards_keyAt key off')
  refine (relies_keep (F := fun s => Below s an v1 off) (fun _ _ hc h => h.mono hc) hbyte hs
    hbelow).bind
    fun byte s₁ h₁ => ?_
  obtain ⟨hs₁, n, rfl, hn, -⟩ := h₁
  unfold artNodeFindChild
  cases ht : getNodeType n.version with
  | node4 => exact relies_findKey ht byte _ 0 (by omega) hs₁ hn
  | node16 =>
    refine (relies_load_slot hs₁ hn .keys).bind fun keys s₂ h₂ => ?_
    obtain ⟨hs₂, -, hslot⟩ := h₂
    refine relies_searched (fun slot heq => ?_) hs₂
    obtain ⟨i, hi, rfl⟩ := Option.map_eq_some_iff.mp heq
    refine ⟨byte, i, rfl, hslot byte i fun m hok hmok hcn hget => ?_⟩
    have hm : m.layout.Keyed := Or.inr (hcn.layout.trans (hok.type.symm.trans ht))
    have hcount := hcn.count
    have hmem := List.mem_of_find?_eq_some hi
    have hbeq := List.find?_some hi
    simp only [List.mem_range] at hmem
    refine (ArtNode.slotOf_keyed_eq_some hmok hm).mpr ⟨by omega, ?_⟩
    have hkey : m.key i = keys i := congrFun hget i
    exact hkey.trans (by simpa using hbeq)
  | node48 =>
    refine (relies_load_slot hs₁ hn (.index byte)).bind fun x s₂ h₂ => ?_
    obtain ⟨hs₂, -, hslot⟩ := h₂
    refine relies_searched (fun slot heq => ?_) hs₂
    by_cases hx : x ≠ 0
    · rw [if_pos hx, Option.some.injEq] at heq
      subst heq
      refine ⟨byte, x.toNat - 1, rfl, hslot byte _ fun m hok hmok hcn hget => ?_⟩
      have hm : m.layout = .node48 := hcn.layout.trans (hok.type.symm.trans ht)
      have hidx : m.index byte = x := hget
      rw [ArtNode.slotOf_node48 hm, hidx, if_pos hx]
    · rw [if_neg hx] at heq
      cases heq
  | node256 =>
    refine (relies_load_slot hs₁ hn (.child byte.toNat)).bind fun x s₂ h₂ => ?_
    obtain ⟨hs₂, -, hslot⟩ := h₂
    refine relies_searched (fun slot heq => ?_) hs₂
    by_cases hx : x ≠ 0
    · rw [if_pos hx, Option.some.injEq] at heq
      subst heq
      refine ⟨byte, byte.toNat, rfl, hslot byte _ fun m hok hmok hcn hget => ?_⟩
      have hm : m.layout = .node256 := hcn.layout.trans (hok.type.symm.trans ht)
      have hchild : m.child byte.toNat = x := hget
      rw [ArtNode.slotOf_node256 hm, hchild, if_pos hx]
    · rw [if_neg hx] at heq
      cases heq

/-! ### The invariant -/

/-- What the reader knows wherever it is. -/
def PcOk (L : ℕ) (env : Env) (mem : Mem) : ReaderPc → Prop
  | .begin _ parent ptr off => BeginOk mem parent ptr off
  | .comparing parent ptr off p =>
    BeginOk mem parent ptr off ∧
      env.machine.Relies (Writes L env) (Writes L env) p mem (CompareOk L env off)
  | .searching parent ptr an v1 off p =>
    ∃ off₀, off = off₀ + getPrefixLen v1 ∧ BeginOk mem parent ptr off₀ ∧ Below mem an v1 off₀ ∧
      env.machine.Relies (Writes L env) (Writes L env) p mem (SearchOk L env an)
  | .checking parent ptr an v1 off next =>
    ∃ off₀, off = off₀ + getPrefixLen v1 ∧ BeginOk mem parent ptr off₀ ∧ Below mem an v1 off₀ ∧
      SearchOk L env an next mem
  | .returned _ => True

/-- The invariant of a run. -/
structure ReaderInv (L : ℕ) (env : Env) (s : ReaderState) : Prop where
  trie : HoldsTrie L env s.mem
  pc : PcOk L env s.mem s.pc

/-- The reader takes its last look at a node that has become old, behind a prefix that was not
empty. -/
def OldBehindPrefix (s : ReaderState) : ReaderEvent → Prop
  | .access =>
    match s.pc with
    | .checking _ _ an v1 _ _ =>
      (∃ n, s.mem.node? an = some n ∧ isOld n.version = true) ∧ getPrefixLen v1 ≠ 0
    | _ => False
  | _ => False

instance : (s : ReaderState) → (e : ReaderEvent) → Decidable (OldBehindPrefix s e)
  | ⟨.checking _ _ an v1 _ _, mem⟩, .access =>
    decidable_of_iff ((mem.node? an).any (fun n => isOld n.version) = true ∧ getPrefixLen v1 ≠ 0)
      (and_congr_left' (Option.any_eq_true ..))
  | ⟨.begin .., _⟩, .access | ⟨.comparing .., _⟩, .access | ⟨.searching .., _⟩, .access
  | ⟨.returned _, _⟩, .access | _, .start _ | _, .proceed | _, .put _ _ => isFalse id

theorem SearchOk.mono {next : Option Slot} (h : SearchOk L env an next s) (hs' : HoldsTrie L env s')
    (hc : Continues s s') : SearchOk L env an next s' := by
  refine ⟨hs', fun slot hslot => ?_⟩
  obtain ⟨b, i, heq, hseen⟩ := h.2 slot hslot
  exact ⟨b, i, heq, hseen.mono hc⟩

/-- An insertion does not disturb the reader. -/
theorem PcOk.mono {pc : ReaderPc} (h : PcOk L env s pc) (hs : HoldsTrie L env s)
    (hw : Writes L env s s') : PcOk L env s' pc := by
  obtain ⟨hs', hc⟩ := hw hs
  cases pc with
  | begin first parent ptr off => exact BeginOk.mono h hc
  | comparing parent ptr off p => exact ⟨h.1.mono hc, h.2.stable hw⟩
  | searching parent ptr an v1 off p =>
    obtain ⟨off₀, hoff, hbegin, hbelow, hp⟩ := h
    exact ⟨off₀, hoff, hbegin.mono hc, hbelow.mono hc, hp.stable hw⟩
  | checking parent ptr an v1 off next =>
    obtain ⟨off₀, hoff, hbegin, hbelow, hnext⟩ := h
    exact ⟨off₀, hoff, hbegin.mono hc, hbelow.mono hc, hnext.mono hs' hc⟩
  | returned res => trivial

/-- The length of the label of a node that has been seen. -/
theorem Below.label (h : Below s an v1 off) {nd : ArtNode} (hnd : s.node? an = some nd)
    (hx : Reachable s an) :
    getOffset nd.version + getPrefixLen nd.version = off + getPrefixLen v1 := by
  obtain ⟨n, rfl, ⟨nd', hnd', hr⟩, hoff⟩ := h
  obtain rfl := Option.some.inj (hnd.symm.trans hnd')
  rw [(hr hx).2.length, hoff hx]

/-- The labels of the nodes are shorter than the keys. -/
theorem HoldsTrie.label_lt (hs : HoldsTrie L env s) {nd : ArtNode} (hnd : s.node? an = some nd)
    (hx : Reachable s an) : getOffset nd.version + getPrefixLen nd.version < L := by
  obtain ⟨t, h⟩ := hs
  have hlive := (h.reachable_iff an).mp hx
  obtain ⟨nd', hnd', hrep⟩ := h.node an hlive
  obtain rfl := Option.some.inj (hnd.symm.trans hnd')
  rw [hrep.length]
  exact t.label_length an hlive

/-- After the last look at the version the reader stands at a label `begin` that is right. -/
theorem pcOk_afterCheck (hkey : key.length = L) {off₀ : ℕ} {next : Option Slot}
    (hbegin : BeginOk s parent ptr off₀) (hbelow : Below s an v1 off₀)
    (hnext : SearchOk L env an next s)
    {v2 : Version} (hold : isOld v2 = true → getPrefixLen v1 = 0) :
    PcOk L env s (.afterCheck key parent ptr an (off₀ + getPrefixLen v1) next v2) := by
  unfold ReaderPc.afterCheck
  split
  · rw [hold ‹_›]
    exact hbegin
  cases hslot : next with
  | none => trivial
  | some slot =>
    obtain ⟨b, i, rfl, hseen⟩ := hnext.2 slot hslot
    refine Or.inr ⟨b, i, rfl, hseen, fun nd' hnd' hx => ?_⟩
    have hlabel := hbelow.label hnd' hx
    have hlt := hnext.1.label_lt hnd' hx
    rw [if_pos (by omega)]
    omega

/-- A whole insertion is one of the things that the insertions do. -/
theorem writes_put (hb : env.build.assertions = true) (hL : L ≤ 8) {k : Key} (hk : k.length = L)
    {fuel : ℕ} {r : ℤ} (hput : env.machine.run (adaptiveRadixTreePut env k fuel) s = done r s') :
    Writes L env s s' := by
  rintro ⟨t, h⟩
  obtain ⟨o, ho, -, hkeep, hset⟩ := h.settles_adaptiveRadixTreePut hb hL hk
  obtain rfl := Machine.Converges.eq_of_settles _ (adaptiveRadixTreePut_le_succ env k)
    ⟨fuel, hput⟩ hset
  cases ho with
  | done hrep => exact ⟨⟨_, hrep⟩, hkeep r s' rfl⟩

/-- An access of the reader. -/
theorem relies_access {β γ : Type} {o : ArtOp β} {k : β → ArtM γ} {Q : γ → Mem → Prop} {x : β}
    (h : env.machine.Relies (Writes L env) (Writes L env) (.op o k) s Q)
    (hexec : env.exec o s = .ok (x, s')) :
    Writes L env s s' ∧ env.machine.Relies (Writes L env) (Writes L env) (k x) s' Q :=
  h s (refl_of (Writes L env) s) x s' hexec

/-- What one access of the reader preserves. -/
theorem ReaderInv.access (hkey : key.length = L) {st st' : ReaderState} (h : ReaderInv L env st)
    (hstep : readerStep env key st .access = some st') (hold : ¬ OldBehindPrefix st .access) :
    ReaderInv L env st' := by
  obtain ⟨hs, hpc⟩ := h
  obtain ⟨pc, mem⟩ := st
  cases pc with
  | begin | returned => simp [readerStep] at hstep
  | comparing parent ptr off p =>
    obtain ⟨hbegin, hp⟩ := hpc
    cases p with
    | ret | fail | diverge => simp [readerStep] at hstep
    | op o k =>
      simp only [readerStep] at hstep
      cases hexec : env.exec o mem with
      | error e => simp [hexec] at hstep
      | ok bs =>
        simp only [hexec, Option.some.injEq] at hstep
        subst hstep
        obtain ⟨hw, hk⟩ := relies_access hp hexec
        obtain ⟨hs', hc⟩ := hw hs
        exact ⟨hs', hbegin.mono hc, hk⟩
  | searching parent ptr an v1 off p =>
    obtain ⟨off₀, hoff, hbegin, hbelow, hp⟩ := hpc
    cases p with
    | ret | fail | diverge => simp [readerStep] at hstep
    | op o k =>
      simp only [readerStep] at hstep
      cases hexec : env.exec o mem with
      | error e => simp [hexec] at hstep
      | ok bs =>
        simp only [hexec, Option.some.injEq] at hstep
        subst hstep
        obtain ⟨hw, hk⟩ := relies_access hp hexec
        obtain ⟨hs', hc⟩ := hw hs
        exact ⟨hs', off₀, hoff, hbegin.mono hc, hbelow.mono hc, hk⟩
  | checking parent ptr an v1 off next =>
    obtain ⟨off₀, rfl, hbegin, hbelow, hnext⟩ := hpc
    simp only [readerStep, Option.map_eq_some_iff] at hstep
    obtain ⟨nd, hnd, rfl⟩ := hstep
    refine ⟨hs, pcOk_afterCheck hkey hbegin hbelow hnext fun hnold => ?_⟩
    by_contra hlen
    exact hold ⟨⟨nd, hnd, hnold⟩, hlen⟩

/-- What the reader preserves when it goes on with what it has found. -/
theorem ReaderInv.proceed {st st' : ReaderState} (h : ReaderInv L env st)
    (hstep : readerStep env key st .proceed = some st') : ReaderInv L env st' := by
  obtain ⟨hs, hpc⟩ := h
  obtain ⟨pc, mem⟩ := st
  have hrefl := refl_of (Writes L env) mem
  cases pc with
  | begin | checking => simp [readerStep] at hstep
  | comparing parent ptr off p =>
    obtain ⟨hbegin, hp⟩ := hpc
    cases p with
    | op | fail | diverge => simp [readerStep] at hstep
    | ret c =>
      cases c with
      | goBegin | returned =>
        simp only [readerStep, Option.some.injEq] at hstep
        subst hstep
        first | exact ⟨hs, hbegin⟩ | exact ⟨hs, trivial⟩
      | below an v1 =>
        simp only [readerStep, Option.some.injEq] at hstep
        subst hstep
        have hbelow := (relies_ret.mp hp mem hrefl).2 an v1 rfl
        exact ⟨hs, off, rfl, hbegin, hbelow, relies_getSearch key hs hbelow _⟩
  | searching parent ptr an v1 off p =>
    obtain ⟨off₀, hoff, hbegin, hbelow, hp⟩ := hpc
    cases p with
    | op | fail | diverge => simp [readerStep] at hstep
    | ret next =>
      simp only [readerStep, Option.some.injEq] at hstep
      subst hstep
      exact ⟨hs, off₀, hoff, hbegin, hbelow, relies_ret.mp hp mem hrefl⟩
  | returned res =>
    cases res with
    | null | found => simp [readerStep] at hstep
    | retry =>
      simp only [readerStep, Option.some.injEq] at hstep
      subst hstep
      exact ⟨hs, Or.inl ⟨rfl, rfl, rfl⟩⟩

/-- **What one step preserves.** -/
theorem ReaderInv.step (hb : env.build.assertions = true) (hL : L ≤ 8) (hkey : key.length = L)
    {st st' : ReaderState} {e : ReaderEvent} (h : ReaderInv L env st)
    (hstep : readerStep env key st e = some st') (hold : ¬ OldBehindPrefix st e) :
    ReaderInv L env st' := by
  cases e with
  | start fuel =>
    obtain ⟨hs, hpc⟩ := h
    obtain ⟨pc, mem⟩ := st
    cases pc <;> simp only [readerStep, reduceCtorEq, Option.some.injEq] at hstep
    subst hstep
    exact ⟨hs, hpc, relies_getCompare key fuel _ _ _ _ hs⟩
  | access => exact h.access hkey hstep hold
  | proceed => exact h.proceed hstep
  | put k fuel =>
    simp only [readerStep] at hstep
    by_cases hk : k.length = key.length
    · rw [if_pos hk] at hstep
      cases hrun : env.machine.run (adaptiveRadixTreePut env k fuel) st.mem with
      | fault | diverged => simp [hrun] at hstep
      | done r mem =>
        simp only [hrun, Option.some.injEq] at hstep
        subst hstep
        have hw := writes_put hb hL (hk.trans hkey) hrun
        exact ⟨(hw h.trie).1, h.pc.mono h.trie hw⟩
    · simp [hk] at hstep

/-! ### A lookup that nobody disturbs -/

/-- What the slot holds. -/
def Mem.slot? (s : Mem) : Slot → Option Ptr
  | .root => some s.root
  | .child an i => (s.node? an).map (·.child i)

/-- The slot is that of the root, or of a node that is in the tree. -/
def SlotLive (s : Mem) : Slot → Prop
  | .root => True
  | .child an _ => Reachable s an

/-- **A lookup that starts a round again is right.**  Its offset is that of every internal node that
is not old in its slot, and it terminates when nobody inserts any more. -/
def RestartRight (env : Env) (key : Key) (s : ReaderState) : Prop :=
  ∀ first parent ptr off, s.pc = .begin first parent ptr off → SlotLive s.mem ptr →
    (∀ p n, s.mem.slot? ptr = some p → isLeaf p = false → s.mem.node? p = some n →
      isOld n.version = false → getOffset n.version = off) ∧
    (s.mem.slot? ptr ≠ some 0 → ∃ res mem', env.machine.Converges
      (fun fuel => _adaptiveRadixTreeGet key fuel first parent ptr off) s.mem res mem')

section Undisturbed

variable {t : Tree L} (h : Represents env s t)

include h

/-- A slot of the tree is the slot of a place, whose path is as long as the offset. -/
theorem exists_place (hbegin : BeginOk s parent ptr off) (hlive : SlotLive s ptr)
    (h0 : s.slot? ptr ≠ some 0) : ∃ q r p, t.IsPlace q ∧ t.get q = some r ∧ SlotAt s q ptr ∧
      (t.path q).length = off ∧ owner q = parent ∧ s.slot? ptr = some p ∧ Refers s r p := by
  rcases hbegin with ⟨rfl, rfl, rfl⟩ | ⟨b, i, rfl, ⟨nd, hnd, hslot⟩, hoff⟩
  · have hroot := h.root
    cases hr : t.root with
    | none =>
      rw [hr] at hroot
      exact absurd (congrArg some hroot) h0
    | some r =>
      rw [hr] at hroot
      exact ⟨.root, r, s.root, trivial, hr, rfl, rfl, rfl, rfl, hroot⟩
  · have hx : Reachable s parent := hlive
    have hplace := (h.reachable_iff parent).mp hx
    obtain ⟨nd', hnd', hrep⟩ := h.node parent hplace
    obtain rfl := Option.some.inj (hnd.symm.trans hnd')
    have hchild : nd.childAt b = some (nd.child i) := ArtNode.childAt_eq_some.mpr ⟨i, hslot hx, rfl⟩
    obtain ⟨r, hr, href⟩ := Represents.edge_of_childAt hrep hchild
    refine ⟨.edge parent b, r, nd.child i, hplace, hr, ⟨nd, i, hnd, hslot hx, rfl⟩, ?_,
      rfl, ?_, href⟩
    · rw [Trie.path_edge, List.length_append, ← hrep.length]
      exact hoff nd hnd hx
    · simp [Mem.slot?, hnd]

/-- At the beginning of a round a node of the tree is not old. -/
theorem run_get_first {q : Place Addr UInt8} (hq : t.IsPlace q) (first : Bool) (fuel : ℕ) :
    env.machine.run (_adaptiveRadixTreeGet key (fuel + 1) first (owner q) ptr off) s =
      env.machine.run (_adaptiveRadixTreeGet key (fuel + 1) true (owner q) ptr off) s := by
  cases first with
  | true => rfl
  | false =>
    have hstale : env.machine.run (parentIsOld false (owner q)) s = done false s := by
      cases q with
      | root => rfl
      | edge m b =>
        obtain ⟨nd, hnd, hrep⟩ := h.node m hq
        have h0 : ¬ (false || m == 0) = true := by simpa using h.ne_zero hq
        refine (congrArg (fun p => env.machine.run p s) (if_neg h0)).trans ?_
        refine (env.machine.run_bind_of_done (run_artNodeGetVersion hnd)).trans ?_
        rw [hrep.old]
        rfl
    have hfirst : env.machine.run (parentIsOld true (owner q)) s = done false s := rfl
    simp only [_adaptiveRadixTreeGet]
    rw [env.machine.run_bind_of_done hstale, env.machine.run_bind_of_done hfirst]

variable (env) in
omit h in
/-- The end of a lookup at a leaf. -/
theorem exists_run_getAtLeaf {a : Addr} {l : LeafNode} (hl : s.leaf? a = some l)
    (ha : getLeaf (a + 1) = a) (hlen : getLeafLen l.keyLength = l.key.length) (key : Key)
    (off : ℕ) :
    ∃ res s', env.machine.run (getAtLeaf (a + 1) key off) s = done res s' := by
  have hcmp : env.machine.run (leafCompareLoop a l.key.length key (key.length - off) off) s = _ :=
    run_leafCompareLoop hl key _ _
  unfold getAtLeaf
  rw [ha, env.machine.run_bind_of_done (run_loadLeaf (f := .keyLength) hl trivial)]
  simp only [LeafField.get, hlen]
  rw [env.machine.run_bind_of_done hcmp]
  split
  · rw [env.machine.run_bind_of_done (run_updateAccess hl)]
    exact ⟨_, _, rfl⟩
  · exact ⟨_, _, rfl⟩

/-- A lookup from any place of the tree terminates, whatever its key is.  The induction is on the
part of the key that is left. -/
theorem converges_get (hL : L ≤ 8) (hkey : key.length = L) {q : Place Addr UInt8}
    {r : Ref Addr UInt8}
    (hq : t.IsPlace q) (hget : t.get q = some r) (hslot : SlotAt s q ptr) (parent : Addr) :
    ∃ res s', env.machine.Converges
      (fun fuel => _adaptiveRadixTreeGet key fuel true parent ptr (t.path q).length) s res s' := by
  induction hd : L - (t.path q).length using Nat.strong_induction_on generalizing q r ptr
    parent with
  | _ d ih =>
    cases r with
    | leaf k =>
      obtain ⟨p, hload, href⟩ := h.run_loadSlot hq hget hslot
      obtain ⟨a, l, rfl, hl, rfl, hlen⟩ := href.of_leaf
      obtain ⟨j, -, hj⟩ := h.fresh.exists_addr_of_leaf? hl
      have hal : 8 ∣ a := hj ▸ env.addr_aligned j
      obtain ⟨res, s', hrun⟩ := exists_run_getAtLeaf env hl (getLeaf_succ hal) hlen key
        (t.path q).length
      exact ⟨res, s', 1, (run_get_slot hload (isLeaf_succ hal) key 0 parent _).trans hrun⟩
    | node c =>
      have hc := Trie.live_of_place hq hget
      obtain ⟨nd, hnd, hrep⟩ := h.node c hc
      have hstart := h.run_get_compare key (h.shortPrefixes hL) hq hget hnd hrep hslot parent
      have hlt : (t.label c).length < key.length := hkey ▸ t.label_length c hc
      by_cases hp : prefixMatch nd key (t.path q).length = getPrefixLen nd.version
      · have hdown := h.run_get_below (h.shortPrefixes hL) hq hget hnd hrep hslot hlt hp parent
        cases hi : nd.slotOf key[(t.label c).length] with
        | none => exact ⟨.null, s, 2, by rw [hdown, hi]; rfl⟩
        | some i =>
          -- the walk goes on with the child
          obtain ⟨r, hr, -⟩ := Represents.edge_of_childAt hrep
            (ArtNode.childAt_eq_some.mpr ⟨i, hi, rfl⟩)
          have hle := (Trie.path_prefix_word hq hget).length_le
          simp only [Ref.word_node] at hle
          obtain ⟨res, s', m, hm⟩ := ih (L - (t.path (.edge c key[(t.label c).length])).length)
            (by simp only [Trie.path_edge, List.length_append, List.length_singleton]; omega)
            (q := .edge c key[(t.label c).length]) hc hr ⟨nd, i, hnd, hi, rfl⟩ c rfl
          cases m with
          | zero => cases hm
          | succ fuel =>
            refine ⟨res, s', fuel + 2, ?_⟩
            rw [hdown, hi]
            simpa using hm
      · exact ⟨.null, s, 2, by rw [hstart, if_pos hp]; rfl⟩

/-- What the reader knows at the label `begin` makes it right. -/
theorem restart_right_of_begin (hL : L ≤ 8) (hkey : key.length = L)
    (hbegin : BeginOk s parent ptr off)
    (hlive : SlotLive s ptr) (first : Bool) :
    (∀ p n, s.slot? ptr = some p → isLeaf p = false → s.node? p = some n →
      isOld n.version = false → getOffset n.version = off) ∧
    (s.slot? ptr ≠ some 0 → ∃ res mem', env.machine.Converges
      (fun fuel => _adaptiveRadixTreeGet key fuel first parent ptr off) s res mem') := by
  constructor
  · intro p n hp hl hn _
    have h0 : s.slot? ptr ≠ some 0 := by
      rw [hp]
      rintro ⟨⟩
      rw [h.fresh.node?_zero] at hn
      cases hn
    obtain ⟨q, r, p', hq, hget, -, hoff, -, hp', href⟩ := exists_place h hbegin hlive h0
    obtain rfl := Option.some.inj (hp.symm.trans hp')
    cases r with
    | leaf k => exact absurd href.1 (by simp [hl])
    | node c =>
      obtain rfl : p = c := href
      obtain ⟨n', hn', hrep⟩ := h.node p (Trie.live_of_place hq hget)
      obtain rfl := Option.some.inj (hn.symm.trans hn')
      rw [(hrep.place q hq hget).2, hoff]
  · intro h0
    obtain ⟨q, r, p, hq, hget, hslot, rfl, rfl, -, -⟩ := exists_place h hbegin hlive h0
    obtain ⟨res, s', m, hm⟩ := converges_get h hL hkey hq hget hslot (owner q)
    cases m with
    | zero => cases hm
    | succ fuel => exact ⟨res, s', fuel + 1, (run_get_first h hq first fuel).trans hm⟩

end Undisturbed

/-! ### The main results -/

theorem ReaderInv.restartRight (hL : L ≤ 8) (hkey : key.length = L) {st : ReaderState}
    (h : ReaderInv L env st) : RestartRight env key st := by
  intro first parent ptr off hpc hlive
  obtain ⟨t, hrep⟩ := h.trie
  have hbegin : PcOk L env st.mem st.pc := h.pc
  rw [hpc] at hbegin
  exact restart_right_of_begin hrep hL hkey hbegin hlive first

/-- **A lookup that starts a round again is right**, in every run in which the reader never finds,
behind a prefix that was not empty, that the node has become old. -/
theorem restart_right_of_run (hb : env.build.assertions = true) (hL : L ≤ 8) {ks : List (Key × ℤ)}
    {mem : Mem} (h : PutRun env L ks mem) (hkey : key.length = L) {es : List ReaderEvent}
    (hes : Trace.EachStep (readerStep env key) (fun s e _ => ¬ OldBehindPrefix s e)
    (.initial mem) es) :
    Trace.Always (readerStep env key) (RestartRight env key) (.initial mem) es := by
  obtain ⟨t, hrep, -⟩ := h.represents hb hL
  have hinit : ReaderInv L env (.initial mem) := ⟨⟨t, hrep⟩, Or.inl ⟨rfl, rfl, rfl⟩⟩
  refine (Trace.always_of_eachStep hinit
    (fun t e u hi hstep hold => hi.step hb hL hkey hstep hold) hes).imp fun st hst => ?_
  exact hst.restartRight hL hkey

/-! ### A lookup behind a prefix -/

/-- Four keys that share two bytes fill a `node4`. -/
def fullNode : Mem :=
  ((((Mem.init default).afterPut sampleEnv [1, 1, 1] 6).afterPut sampleEnv [1, 1, 2] 6).afterPut
    sampleEnv [1, 1, 3] 6).afterPut sampleEnv [1, 1, 4] 6

theorem exists_putRun_fullNode : ∃ ks, PutRun sampleEnv 3 ks fullNode := by
  have h₀ : PutRun sampleEnv 3 [] (Mem.init default) := .init (Int.le_refl 0)
  have h₁ : PutRun sampleEnv 3 _ ((Mem.init default).afterPut sampleEnv [1, 1, 1] 6) :=
    h₀.afterPut rfl (r := 0) (by decide +kernel)
  have h₂ : PutRun sampleEnv 3 _ (Mem.afterPut sampleEnv [1, 1, 2] 6 _) :=
    h₁.afterPut rfl (r := 0) (by decide +kernel)
  have h₃ : PutRun sampleEnv 3 _ (Mem.afterPut sampleEnv [1, 1, 3] 6 _) :=
    h₂.afterPut rfl (r := 0) (by decide +kernel)
  have h₄ : PutRun sampleEnv 3 _ fullNode := h₃.afterPut rfl (r := 0) (by decide +kernel)
  exact ⟨_, h₄⟩

/-- The reader has found the child in the full node, and the node grows before its last look. -/
def growsBehindPrefix : List ReaderEvent :=
  [.start 1, .access, .access, .access, .access, .access, .proceed, .access, .access, .proceed,
    .put [1, 1, 5] 6, .access]

/-- The node grows before the lookup begins, which then finds its key. -/
theorem restart_right_of_fullNode : ∃ ks, PutRun sampleEnv 3 ks fullNode ∧
    Trace.Always (readerStep sampleEnv [1, 1, 2]) (RestartRight sampleEnv [1, 1, 2])
      (.initial fullNode)
      [.put [1, 1, 5] 6, .start 1, .access, .access, .access, .access, .access, .proceed, .access,
        .proceed, .access] := by
  obtain ⟨ks, hks⟩ := exists_putRun_fullNode
  exact ⟨ks, hks, restart_right_of_run rfl (by decide) hks rfl (by decide +kernel)⟩

/-- The reader is at the label `begin`, with another offset than that of the root. -/
def ReaderState.staleOffset (s : ReaderState) : Bool :=
  match s.pc, s.mem.node? s.mem.root with
  | .begin _ 0 .root off, some n =>
    !isLeaf s.mem.root && !isOld n.version && !isExpanding n.version && getOffset n.version != off
  | _, _ => false

theorem ReaderState.staleOffset_eq_true {st : ReaderState} (h : st.staleOffset = true) :
    ∃ first off n, st.pc = .begin first 0 .root off ∧ st.mem.node? st.mem.root = some n ∧
      isLeaf st.mem.root = false ∧ isOld n.version = false ∧ isExpanding n.version = false ∧
      getOffset n.version ≠ off := by
  unfold ReaderState.staleOffset at h
  split at h
  · rename_i first off n hpc hn
    simp only [Bool.and_eq_true, Bool.not_eq_true', bne_iff_ne] at h
    exact ⟨first, off, n, hpc, hn, h.1.1.1, h.1.1.2, h.1.2, h.2⟩
  · cases h

/-- With another offset than that of the root a lookup goes round for ever. -/
theorem run_get_stale (key : Key) (hn : s.node? s.root = some n) (hl : isLeaf s.root = false)
    (he : isExpanding n.version = false) (hoff : getOffset n.version ≠ off) (first : Bool)
    (fuel : ℕ) :
    env.machine.run (_adaptiveRadixTreeGet key fuel first 0 .root off) s = diverged := by
  induction fuel generalizing first with
  | zero => rfl
  | succ fuel ih =>
    have hfirst : env.machine.run (parentIsOld first 0) s = done false s := by cases first <;> rfl
    have hload : env.machine.run (loadSlot .root) s = done s.root s := rfl
    unfold _adaptiveRadixTreeGet
    refine (env.machine.run_bind_of_done hfirst).trans
      ((env.machine.run_bind_of_done hload).trans ?_)
    rw [if_neg (by simp [hl])]
    cases fuel with
    | zero => exact env.machine.run_bind_of_diverged rfl
    | succ fuel =>
      refine (env.machine.run_bind_of_done
        (run_artNodeGetStableExpandVersion hn he fuel)).trans ?_
      rw [if_pos hoff]
      exact ih false

/-- **A lookup that starts again behind a prefix** has the wrong offset: it goes round for ever. -/
theorem restart_wrong : ∃ ks mem es, PutRun sampleEnv 3 ks mem ∧
    ∃ st first off, Trace.run (readerStep sampleEnv [1, 1, 2]) (.initial mem) es = some st ∧
      st.pc = .begin first 0 .root off ∧
      (∀ fuel, sampleEnv.machine.run
        (_adaptiveRadixTreeGet [1, 1, 2] fuel first 0 .root off) st.mem =
        diverged) ∧
      ¬ Trace.Always (readerStep sampleEnv [1, 1, 2]) (RestartRight sampleEnv [1, 1, 2])
        (.initial mem)
        es := by
  obtain ⟨ks, hks⟩ := exists_putRun_fullNode
  have hany : (Trace.run (readerStep sampleEnv [1, 1, 2]) (.initial fullNode) growsBehindPrefix).any
      ReaderState.staleOffset = true := by
    decide +kernel
  obtain ⟨st, hrun, hst⟩ := (Option.any_eq_true ..).mp hany
  obtain ⟨first, off, n, hpc, hn, hl, hold, he, hoff⟩ := ReaderState.staleOffset_eq_true hst
  refine ⟨ks, fullNode, growsBehindPrefix, hks, st, first, off, hrun, hpc,
    run_get_stale _ hn hl he hoff first, fun hall => ?_⟩
  have hright := (hall growsBehindPrefix [] st (List.append_nil _).symm hrun) first 0 .root off
    hpc trivial
  exact hoff (hright.1 st.mem.root n rfl hl hn hold)

end Sidle.Art
