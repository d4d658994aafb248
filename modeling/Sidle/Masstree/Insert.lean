import Sidle.Masstree.Split

/-!
# Lookups and inserts

`masstree_get.hh` and `masstree_insert.hh`: the descent to a leaf, the search in it, and the
insertion of a key, which may start a new layer or split the leaf.

## Main definitions

* `reachLeaf`, `advanceToKey` — the descent.
* `findUnlocked`, `findLocked` — the lookups.
* `makeNewLayer`, `findInsert`, `finishInsert` — the insertion.
* `put` — the insertion of a key with a value.
-/

namespace Sidle.Masstree

open Art (Build Fault)
open Prog

/-! ### The descent -/

section Descent

/-- The loop of `reach_leaf` that finds a root. -/
def climbToRoot : ℕ → Addr → MtM (Addr × NodeVersion)
  | 0, _ => diverge
  | fuel + 1, n => do
    let v ← stable n fuel
    if v.isRoot then pure (n, v)
    else do
      let n' ← maybeParent n
      climbToRoot fuel n'

/-- `internode::stable_last_key_compare`. -/
def internodeLastKeyCompare (ka : Key) (n : Addr) : ℕ → NodeVersion → MtM Ordering
  | 0, _ => diverge
  | fuel + 1, v => do
    let x ← readInternode n
    let cmp := if x.nkeys ≠ 0 then compare ka.ikey (x.ikey0 (x.nkeys - 1)) else .gt
    let changed ← hasChanged n v true
    if changed then do
      let v ← stable n fuel
      internodeLastKeyCompare ka n fuel v
    else pure cmp

/-- `leaf::stable_last_key_compare`. -/
def leafLastKeyCompare (ka : Key) (n : Addr) : ℕ → NodeVersion → MtM Ordering
  | 0, _ => diverge
  | fuel + 1, v => do
    let l ← readLeaf n
    let cmp := l.compareKey ka (l.permutation.slot (l.size - 1))
    let changed ← hasChanged n v true
    if changed then do
      let v ← stable n fuel
      leafLastKeyCompare ka n fuel v
    else pure cmp

/-- The loop of `reach_leaf` over the internodes; `none` stands for `goto retry`. -/
def descend (ka : Key) : ℕ → Addr → NodeVersion → MtM (Option (Addr × NodeVersion))
  | 0, _, _ => diverge
  | fuel + 1, n, v =>
    if v.isleaf then pure (some (n, v))
    else do
      let x ← readInternode n
      let child := x.child (x.upper ka.ikey)
      if child = 0 then pure none
      else do
        let vc ← stable child fuel
        let changed ← hasChanged n v true
        if !changed then descend ka fuel child vc
        else do
          let v' ← stable n fuel
          let beyond ←
            if hasSplit v v' then do
              let cmp ← internodeLastKeyCompare ka n fuel v'
              pure (cmp == .gt)
            else pure false
          if beyond then pure none else descend ka fuel n v'

/-- `reach_leaf`. -/
def reachLeaf (root : Addr) (ka : Key) : ℕ → MtM (Addr × NodeVersion)
  | 0 => diverge
  | fuel + 1 => do
    let (n, v) ← climbToRoot fuel root
    let found ← descend ka fuel n v
    match found with
    | some (n, v) => do
      writeLeaf n fun l => { l with accessTime := (l.accessTime + 1) % 2 ^ 16 }
      pure (n, v)
    | none => reachLeaf root ka fuel

/-- The walk of `advance_to_key` along the list of leaves. -/
def walkToKey (ka : Key) : ℕ → Addr → NodeVersion → MtM (Addr × NodeVersion)
  | 0, _, _ => diverge
  | fuel + 1, n, v =>
    if v.deleted then pure (n, v)
    else do
      let l ← readLeaf n
      if l.safeNext = 0 then pure (n, v)
      else do
        let next ← readLeaf l.safeNext
        if ka.ikey < next.ikeyBound then pure (n, v)
        else do
          let v ← stable l.safeNext fuel
          walkToKey ka fuel l.safeNext v

/-- `advance_to_key`. -/
def advanceToKey (fuel : ℕ) (ka : Key) (n : Addr) (oldv : NodeVersion) :
    MtM (Addr × NodeVersion) := do
  let v ← stable n fuel
  if hasSplit v oldv then do
    let cmp ← leafLastKeyCompare ka n fuel v
    if cmp = .gt then walkToKey ka fuel n v else pure (n, v)
  else pure (n, v)

end Descent

/-! ### Lookups -/

section Lookups

variable (build : Build)

/-- `tcursor::find_unlocked`, from `forward` if `at_` says where and else from `retry`: what
`ksuf_matches` says of the entry found, and its word. -/
def findUnlocked : ℕ → Addr → Key → Option (Addr × NodeVersion) → MtM (ℤ × ℕ)
  | 0, _, _, _ => diverge
  | fuel + 1, root, ka, at_ => do
    let (n, v) ← match at_ with
      | some at_ => pure at_
      | none => reachLeaf root ka fuel
    if v.deleted then findUnlocked fuel root ka none
    else do
      let l ← readLeaf n
      let b ← externalBag l
      let kx := l.lower ka
      let found := match kx.p with
        | some p => (l.ksufMatches b p ka, l.lv p)
        | none => (0, 0)
      let changed ← hasChanged n v true
      if changed then do
        let at_ ← advanceToKey fuel ka n v
        findUnlocked fuel root ka (some at_)
      else if found.1 < 0 then
        findUnlocked fuel found.2 (ka.shiftBy (-found.1).toNat) none
      else pure found

/-- `tcursor::find_locked`, from `forward` if `at_` says where and else from `retry`. -/
def findLocked : ℕ → Addr → Tcursor → Option (Addr × NodeVersion) → MtM Tcursor
  | 0, _, _, _ => diverge
  | fuel + 1, root, c, at_ => do
    let (n, v) ← match at_ with
      | some at_ => pure at_
      | none => reachLeaf root c.ka fuel
    if v.deleted then findLocked fuel root c none
    else do
      let l ← readLeaf n
      let b ← externalBag l
      let kx := l.lower c.ka
      let state := match kx.p with
        | some p => l.ksufMatches b p c.ka
        | none => 0
      let down ←
        if state < 0 then do
          let changed ← hasChanged n v false
          if changed then pure false
          else do
            let vl ← readVersion (l.lv (kx.p.getD 0))
            pure vl.isRoot
        else pure false
      if down then
        findLocked fuel (l.lv (kx.p.getD 0)) { c with ka := c.ka.shiftBy (-state).toNat } none
      else do
        let _ ← lockFrom build n fuel v
        let changed ← hasChanged n v false
        let l' ← readLeaf n
        if changed || l'.permutation != l.permutation then do
          unlock build n
          let at_ ← advanceToKey fuel c.ka n v
          findLocked fuel root c (some at_)
        else if state < 0 then do
          let layer ← maybeParent (l'.lv (kx.p.getD 0))
          writeLeaf n fun l => { l with lv := Function.update l.lv (kx.p.getD 0) layer }
          unlock build n
          findLocked fuel layer { c with ka := c.ka.shiftBy (-state).toNat } none
        else if l'.deletedLayer then do
          unlock build n
          findLocked fuel c.root { c with ka := c.ka.unshiftAll } none
        else pure { c with n := n, kx := kx, state := state }

end Lookups

/-- `fix_root`. -/
def fixRoot : MtM Addr := do
  let root ← readRoot
  let v ← readVersion root
  if v.isRoot then pure root
  else do
    let root' ← maybeParent root
    casRoot root root'
    pure root'

/-- The constructor of `tcursor`. -/
def Tcursor.make (root : Addr) (key : Str) : Tcursor := ⟨0, Key.ofStr key, ⟨0, none⟩, root, 0⟩

/-- `get`: the word of the entry for the key, if there is one. -/
def get (fuel : ℕ) (key : Str) : MtM (Option ℕ) := do
  let root ← readRoot
  let found ← findUnlocked fuel root (Key.ofStr key) none
  pure (if found.1 = 0 then none else some found.2)

/-! ### Inserts -/

section Inserts

variable (env : Env)

/-- The loop of `make_new_layer` over the slices that two keys share: a leaf for each, linked
below the one before.  It answers the head and the tail of the twig and the rest of the
keys. -/
def makeTwig (n : Addr) : ℕ → Addr → Addr → Key → Key → MtM (Addr × Addr × Key × Key)
  | 0, _, _, _, _ => diverge
  | fuel + 1, twigHead, twigTail, oka, ka =>
    if oka.compareKey ka = .eq then do
      let nl ← makeRoot env 0 twigTail
      assignInitializeForLayer env.build nl 0 oka
      if twigHead ≠ n then writeLeaf twigTail fun l => { l with lv := Function.update l.lv 0 nl }
      else pure ()
      writeLeaf nl fun l => { l with permutation := Permuter.makeSorted 1 }
      makeTwig n fuel (if twigHead ≠ n then twigHead else nl) nl oka.shift ka.shift
    else pure (twigHead, twigTail, oka, ka)

/-- `make_new_layer`. -/
def makeNewLayer (fuel : ℕ) (c : Tcursor) : MtM Tcursor := do
  let p := c.kx.p.getD 0
  let l ← readLeaf c.n
  let b ← externalBag l
  let (twigHead, twigTail, oka, ka) ←
    makeTwig env c.n fuel c.n c.n (Key.ofStr (l.ksufAt b p)) c.ka.shift
  let kcmp := oka.compareKey ka
  let ksufsize :=
    if ka.hasSuffix || oka.hasSuffix then
      ((max 0 ka.suffixLength + max 0 oka.suffixLength) * (width / 2)).toNat +
        Stringbag.overhead 1
    else 0
  let nl ← makeRoot env ksufsize twigTail
  assign env.build nl 0 (if kcmp = .lt then oka else ka) true
  assign env.build nl 1 (if kcmp = .lt then ka else oka) true
  let l ← readLeaf c.n
  writeLeaf nl fun r =>
    { r with lv := Function.update r.lv (if kcmp = .gt then 1 else 0) (l.lv p) }
  let _ ← lock env.build fuel nl
  writeLeaf nl fun r =>
    { r with
      permutation :=
        if kcmp = .lt then Permuter.makeSorted 1 else (Permuter.makeSorted 2).removeToBack 0 }
  markLocked env.build c.n NodeVersion.markInsert
  if twigTail ≠ c.n then writeLeaf twigTail fun r => { r with lv := Function.update r.lv 0 nl }
  else pure ()
  writeLeaf c.n fun l =>
    { l with lv := Function.update l.lv p (if twigHead ≠ c.n then twigHead else nl) }
  writeLeaf c.n fun l => { l with keylenx := Function.update l.keylenx p layerKeylenx }
  unlock env.build c.n
  let i := if kcmp = .lt then 1 else 0
  pure { c with n := nl, ka := ka, kx := ⟨i, some i⟩ }

/-- The part of `find_insert` that makes room for a key that is not there. -/
def makeRoom (fuel : ℕ) (c : Tcursor) : MtM Tcursor := do
  let l ← readLeaf c.n
  if l.modstate ≠ .insert then do
    masstreeInvariant env.build (l.modstate == .remove)
    markLocked env.build c.n NodeVersion.markInsert
    writeLeaf c.n fun l => { l with modstate := .insert }
  else pure ()
  let p := l.permutation.back
  -- slot 0 holds the bound of the leaf
  if l.size < width ∧ (p ≠ 0 ∨ l.prev = 0 ∨ l.ikeyBound = c.ka.ikey) then do
    assign env.build c.n p c.ka false
    pure { c with kx := { c.kx with p := some p } }
  else makeSplit env fuel c

/-- `find_insert`. -/
def findInsert (fuel : ℕ) (c : Tcursor) : MtM Tcursor := do
  let c ← findLocked env.build fuel c.root c none
  if c.state ≠ 0 then pure c
  else
    let c := { c with state := 2 }
    if c.kx.p.isSome then makeNewLayer env fuel c else makeRoom env fuel c

/-- `finish_insert`. -/
def finishInsert (c : Tcursor) : MtM Unit := do
  let l ← readLeaf c.n
  masstreeInvariant env.build (some l.permutation.back == c.kx.p)
  writeLeaf c.n fun l => { l with permutation := l.permutation.insertFromBack c.kx.i }

/-- `finish(1)`. -/
def finishPut (c : Tcursor) : MtM Unit := do
  if c.state = 2 then finishInsert env c else pure ()
  unlock env.build c.n

/-- `run_replace`: the key gets the value `value`. -/
def put (fuel : ℕ) (key : Str) (value : ℕ) : MtM Unit := do
  let root ← fixRoot
  let c ← findInsert env fuel (Tcursor.make root key)
  writeLeaf c.n fun l => { l with lv := Function.update l.lv (c.kx.p.getD 0) value }
  finishPut env c

/-- `basic_table::initialize`. -/
def initializeTable : MtM Unit := do
  let r ← makeRoot env 0 0
  casRoot 0 r

end Inserts

end Sidle.Masstree
