import Sidle.Art.Lookup
import Sidle.Art.Outcomes
import Sidle.Art.Sequence
import Sidle.Prog.Trace

/-!
# A lookup among insertions

One thread runs `_adaptive_radix_tree_get` access by access, and others insert keys between
any two of its accesses.  A round of the lookup is cut at the places where it matters which
local variables it keeps: at the label `begin`, behind the comparison of the prefix, and
before the last look at the version.

## Main definitions

* `getCompare`, `getSearch`, `getCheck` — the parts of a round.
* `ReaderPc`, `ReaderState`, `ReaderEvent`, `readerStep` — the transition system.

## Main results

* `_adaptiveRadixTreeGet_succ` — a round is made of its parts.
* `alone_of_get` — **a reader that nobody disturbs is the lookup**.
-/

namespace Sidle.Art

open Prog Machine Outcome

/-- What the first part of a round comes to. -/
inductive Compared
  /-- `goto begin`. -/
  | goBegin
  | returned (res : GetResult)
  /-- The prefix of `an`, which has the version `v1`, agrees with the key. -/
  | below (an : Addr) (v1 : Version)

/-- A round from the label `begin` to `off += prefix_len`. -/
def getCompare (key : Key) (fuel : ℕ) (first : Bool) (parent : Addr) (ptr : Slot) (off : ℕ) :
    ArtM Compared := do
  let stale ← parentIsOld first parent
  if stale then pure (.returned .retry)
  else do
    let an ← loadSlot ptr
    if isLeaf an then do
      let res ← getAtLeaf an key off
      pure (.returned res)
    else do
      let v ← artNodeGetStableExpandVersion fuel an
      if getOffset v ≠ off then pure .goBegin
      else if isOld v then pure .goBegin
      else do
        let p ← artNodePrefixCompare an v key off
        let v1 ← artNodeGetVersion an
        if isOld v1 || artNodeVersionCompareExpand v v1 then pure .goBegin
        else if p ≠ getPrefixLen v1 then pure (.returned .null)
        else pure (.below an v1)

/-- The search for the child of the next byte, with an offset that has moved over the prefix. -/
def getSearch (key : Key) (an : Addr) (v1 : Version) (off : ℕ) : ArtM (Option Slot) := do
  let byte ← keyByte key off
  artNodeFindChild an v1 byte

/-- The end of a round, with what the search has found. -/
def getCheck (goBegin : ℕ → ArtM GetResult) (descend : Slot → ℕ → ArtM GetResult) (an : Addr)
    (key : Key) (off : ℕ) (next : Option Slot) : ArtM GetResult := do
  let v2 ← artNodeGetVersion an
  if isOld v2 then goBegin off
  else
    match next with
    | some slot => descend slot (off + if off ≠ key.length then 1 else 0)
    | none => pure .null

/-- A round of the lookup is made of its parts. -/
theorem _adaptiveRadixTreeGet_succ (key : Key) (fuel : ℕ) (first : Bool) (parent : Addr)
    (ptr : Slot)
    (off : ℕ) : _adaptiveRadixTreeGet key (fuel + 1) first parent ptr off =
      getCompare key fuel first parent ptr off >>= fun
        | .goBegin => _adaptiveRadixTreeGet key fuel false parent ptr off
        | .returned res => pure res
        | .below an v1 =>
          getSearch key an v1 (off + getPrefixLen v1) >>=
            getCheck (_adaptiveRadixTreeGet key fuel false parent ptr)
              (_adaptiveRadixTreeGet key fuel true an) an key (off + getPrefixLen v1) := by
  conv_lhs => unfold _adaptiveRadixTreeGet
  unfold getCompare
  simp only [bind_assoc']
  refine congrArg _ (funext fun stale => ?_)
  cases stale with
  | true => rfl
  | false =>
    simp only [Bool.false_eq_true, if_false, bind_assoc']
    refine congrArg _ (funext fun an => ?_)
    split
    · rw [bind_assoc']
      exact (bind_ret _).symm
    simp only [bind_assoc']
    refine congrArg _ (funext fun v => ?_)
    split
    · rfl
    split
    · rfl
    simp only [bind_assoc']
    refine congrArg _ (funext fun p => congrArg _ (funext fun v1 => ?_))
    split
    · rfl
    split
    · rfl
    · simp only [getDescend, getSearch, pure_eq_ret, ret_bind, bind_assoc']
      rfl

/-! ### The transition system -/

/-- Where the reader is, with its local variables. -/
inductive ReaderPc
  /-- At the label `begin`. -/
  | begin (first : Bool) (parent : Addr) (ptr : Slot) (off : ℕ)
  /-- Before `off += prefix_len`. -/
  | comparing (parent : Addr) (ptr : Slot) (off : ℕ) (p : ArtM Compared)
  /-- Behind it, in `art_node_find_child`. -/
  | searching (parent : Addr) (ptr : Slot) (an : Addr) (v1 : Version) (off : ℕ)
    (p : ArtM (Option Slot))
  /-- Before the last `art_node_get_version`. -/
  | checking (parent : Addr) (ptr : Slot) (an : Addr) (v1 : Version) (off : ℕ) (next : Option Slot)
  | returned (res : GetResult)

/-- The reader and the memory of the tree. -/
structure ReaderState where
  pc : ReaderPc
  mem : Mem

/-- The steps of a run. -/
inductive ReaderEvent
  /-- The reader begins a round, with an unrolling of its loop for a stable version. -/
  | start (fuel : ℕ)
  /-- The reader performs its next access. -/
  | access
  /-- The reader goes on with what it has found. -/
  | proceed
  /-- Another thread inserts a key. -/
  | put (key : Key) (fuel : ℕ)

/-- Where the reader is after its last look at the version `v2` of `an`. -/
def ReaderPc.afterCheck (key : Key) (parent : Addr) (ptr : Slot) (an : Addr) (off : ℕ)
    (next : Option Slot) (v2 : Version) : ReaderPc :=
  if isOld v2 then .begin false parent ptr off
  else
    match next with
    | some slot => .begin true an slot (off + if off ≠ key.length then 1 else 0)
    | none => .returned .null

variable (env : Env) (key : Key)

/-- The transition function, for a lookup of `key`. -/
def readerStep (s : ReaderState) : ReaderEvent → Option ReaderState
  | .start fuel =>
    match s.pc with
    | .begin first parent ptr off =>
      some { s with pc := .comparing parent ptr off (getCompare key fuel first parent ptr off) }
    | _ => none
  | .access =>
    match s.pc with
    | .comparing parent ptr off (.op o k) =>
      match env.exec o s.mem with
      | .ok (b, mem) => some ⟨.comparing parent ptr off (k b), mem⟩
      | .error _ => none
    | .searching parent ptr an v1 off (.op o k) =>
      match env.exec o s.mem with
      | .ok (b, mem) => some ⟨.searching parent ptr an v1 off (k b), mem⟩
      | .error _ => none
    | .checking parent ptr an _ off next =>
      (s.mem.node? an).map fun n =>
        { s with pc := .afterCheck key parent ptr an off next n.version }
    | _ => none
  | .proceed =>
    match s.pc with
    | .comparing parent ptr off (.ret .goBegin) => some { s with pc := .begin false parent ptr off }
    | .comparing _ _ _ (.ret (.returned res)) => some { s with pc := .returned res }
    | .comparing parent ptr off (.ret (.below an v1)) =>
      some
        { s with
          pc := .searching parent ptr an v1 (off + getPrefixLen v1)
            (getSearch key an v1 (off + getPrefixLen v1)) }
    | .searching parent ptr an v1 off (.ret next) =>
      some { s with pc := .checking parent ptr an v1 off next }
    -- the loop of `adaptive_radix_tree_get`
    | .returned .retry => some { s with pc := .begin true 0 .root 0 }
    | _ => none
  | .put k fuel =>
    if k.length = key.length then
      match env.machine.run (adaptiveRadixTreePut env k fuel) s.mem with
      | .done _ mem => some { s with mem := mem }
      | _ => none
    else none

/-- The reader begins at the root. -/
def ReaderState.initial (mem : Mem) : ReaderState := ⟨.begin true 0 .root 0, mem⟩

/-! ### A reader that nobody disturbs -/

variable {env key} {mem mem' : Mem}

/-- The reader comes from `s` to `s'` by steps of its own. -/
def Alone (env : Env) (key : Key) (s s' : ReaderState) : Prop :=
  ∃ es, Trace.run (readerStep env key) s es = some s' ∧ ∀ k fuel, .put k fuel ∉ es

theorem Alone.refl (s : ReaderState) : Alone env key s s := ⟨[], rfl, fun _ _ => List.not_mem_nil⟩

theorem Alone.step {s s' t : ReaderState} {e : ReaderEvent} (he : ∀ k fuel, e ≠ .put k fuel)
    (h : readerStep env key s e = some s') (ht : Alone env key s' t) : Alone env key s t := by
  obtain ⟨es, hrun, hes⟩ := ht
  refine ⟨e :: es, (Trace.run_cons_of_step h es).trans hrun, fun k fuel hmem => ?_⟩
  rcases List.mem_cons.mp hmem with heq | hmem
  · exact he k fuel heq.symm
  · exact hes k fuel hmem

theorem Alone.trans {s s' t : ReaderState} (h : Alone env key s s') (ht : Alone env key s' t) :
    Alone env key s t := by
  obtain ⟨es, hrun, hes⟩ := h
  obtain ⟨fs, hrun', hfs⟩ := ht
  refine ⟨es ++ fs, (Trace.run_append_of_run hrun fs).trans hrun', fun k fuel hmem => ?_⟩
  rcases List.mem_append.mp hmem with hmem | hmem
  · exact hes k fuel hmem
  · exact hfs k fuel hmem

/-- The accesses of a part are performed one after the other. -/
theorem alone_part {α : Type} {x : α} (pc : ArtM α → ReaderPc)
    (hpc : ∀ {β : Type} (o : ArtOp β) (k : β → ArtM α) (mem mem' : Mem) (b : β),
      env.exec o mem = .ok (b, mem') →
        readerStep env key ⟨pc (.op o k), mem⟩ .access = some ⟨pc (k b), mem'⟩)
    {p : ArtM α} (h : env.machine.run p mem = done x mem') :
    Alone env key ⟨pc p, mem⟩ ⟨pc (.ret x), mem'⟩ := by
  induction p generalizing mem with
  | ret =>
    cases h
    exact .refl _
  | fail | diverge => cases h
  | op o k ih =>
    cases hexec : env.exec o mem with
    | error e =>
      rw [env.machine.run_op_error hexec] at h
      cases h
    | ok r =>
      rw [env.machine.run_op_ok hexec] at h
      exact .step (e := .access) (fun _ _ => nofun) (hpc o k mem r.2 r.1 hexec) (ih r.1 h)

/-- **A reader that nobody disturbs is the lookup**: what `_adaptive_radix_tree_get` returns, the
reader returns by steps of its own, with the same memory. -/
theorem alone_of_get {fuel : ℕ} {first : Bool} {parent : Addr} {ptr : Slot} {off : ℕ}
    {res : GetResult} (h : env.machine.run
      (_adaptiveRadixTreeGet key fuel first parent ptr off) mem = done res mem') :
    Alone env key ⟨.begin first parent ptr off, mem⟩ ⟨.returned res, mem'⟩ := by
  -- each unrolling of the lookup is a round of the reader
  induction fuel generalizing first parent ptr off mem with
  | zero => cases h
  | succ fuel ih =>
    rw [_adaptiveRadixTreeGet_succ] at h
    obtain ⟨compared, mem₁, hcompare, h⟩ := env.machine.run_bind_eq_done.mp h
    refine .step (e := .start fuel) (fun _ _ => nofun) rfl ?_
    refine (alone_part (.comparing parent ptr off) (fun o k m m' b hexec => ?_) hcompare).trans ?_
    · simp only [readerStep, hexec]
    cases compared with
    | goBegin => exact .step (e := .proceed) (fun _ _ => nofun) rfl (ih h)
    | returned res' =>
      cases h
      exact .step (e := .proceed) (fun _ _ => nofun) rfl (.refl _)
    | below an v1 =>
      obtain ⟨next, mem₂, hsearch, hcheck⟩ := env.machine.run_bind_eq_done.mp h
      obtain ⟨v2, mem₃, hver, hlast⟩ := env.machine.run_bind_eq_done.mp hcheck
      have hread : env.machine.Ensures (artNodeGetVersion an) mem₂ fun v m =>
          ∃ n, mem₂.node? an = some n ∧ v = n.version ∧ m = mem₂ :=
        ensures_load fun n hn _ => ⟨n, hn, rfl, rfl⟩
      obtain ⟨n, hn, rfl, rfl⟩ := hread v2 mem₃ hver
      refine .step (e := .proceed) (fun _ _ => nofun) rfl ?_
      refine (alone_part (.searching parent ptr an v1 (off + getPrefixLen v1))
        (fun o k m m' b hexec => ?_) hsearch).trans ?_
      · simp only [readerStep, hexec]
      refine .step (e := .proceed) (fun _ _ => nofun) rfl ?_
      refine .step (e := .access) (fun _ _ => nofun) (by simp only [readerStep, hn]; rfl) ?_
      -- the reader is behind its last look at the version
      dsimp only [ReaderPc.afterCheck]
      by_cases hold : isOld n.version = true
      · rw [if_pos hold] at hlast ⊢
        exact ih hlast
      · rw [if_neg hold] at hlast ⊢
        cases next with
        | none =>
          cases hlast
          exact .refl _
        | some slot => exact ih hlast

end Sidle.Art
