import Sidle.Masstree.Insert

/-!
# Removals

`masstree_remove.hh`: the removal of a key, of a leaf that has become empty, and of the
internodes above it that have become empty with it.

## Main definitions

* `removeLeaf`, `redirect` — the removal of an empty leaf.
* `finishRemove`, `remove` — the removal of a key.
-/

namespace Sidle.Masstree

open Art (Build Fault)
open Prog

section Removal

variable (build : Build)

/-- The loop of `redirect`.  It has locked `n` itself, but in the first round. -/
def redirectFrom (ikey replacementIkey : ℕ) : ℕ → Addr → Bool → MtM Unit
  | 0, _, _ => diverge
  | fuel + 1, n, first => do
    let p ← lockedParent build n fuel
    if first then pure () else unlock build n
    let x ← readInternode p
    let kp := x.upper ikey
    masstreeInvariant build (x.child kp == n)
    if 0 < kp then
      writeInternode p fun x => { x with ikey0 := Function.update x.ikey0 (kp - 1) replacementIkey }
    else pure ()
    let x ← readInternode p
    if kp = 0 ∨ (kp = 1 ∧ x.child 0 = 0) then redirectFrom ikey replacementIkey fuel p false
    else unlock build p

/-- `redirect`. -/
def redirect (fuel : ℕ) (n : Addr) (ikey replacementIkey : ℕ) : MtM Unit :=
  redirectFrom build ikey replacementIkey fuel n true

/-- The loop of `remove_leaf`: `n` is taken out of its parent, or gives way to
`replacement`. -/
def collapse (redirectFuel : ℕ) : ℕ → Addr → ℕ → Addr → MtM Unit
  | 0, _, _, _ => diverge
  | fuel + 1, n, ikey, replacement => do
    let p ← lockedParent build n redirectFuel
    markLocked build p NodeVersion.markInsert
    let pv ← readVersion p
    masstreeInvariant build (!pv.deleted)
    let x ← readInternode p
    let kp := x.upper ikey
    masstreeInvariant build (decide (kp = 0 ∨ x.ikey0 (kp - 1) ≤ ikey))
    masstreeInvariant build (x.child kp == n)
    writeInternode p fun x => { x with child := Function.update x.child kp replacement }
    if replacement ≠ 0 then setParent replacement p
    else if 0 < kp then do
      writeInternode p fun x => x.shift (kp - 1) kp (x.nkeys - kp)
      writeInternode p fun x => { x with nkeys := x.nkeys - 1 }
    else pure ()
    let x ← readInternode p
    if kp ≤ 1 ∧ 0 < x.nkeys ∧ x.child 0 = 0 then redirect build redirectFuel p ikey (x.ikey0 0)
    else pure ()
    let ikey ←
      if kp ≤ 1 ∧ 0 < x.nkeys ∧ x.child 0 = 0 then do
        let x ← readInternode p
        pure (x.ikey0 0)
      else pure ikey
    unlock build n
    let pv ← readVersion p
    let x ← readInternode p
    if x.nkeys ≠ 0 || pv.isRoot then unlock build p
    else do
      markLocked build p NodeVersion.markDeleted
      retireBlock p
      let x ← readInternode p
      writeInternode p fun x => { x with child := Function.update x.child 0 0 }
      collapse redirectFuel fuel p ikey (x.child 0)

/-- `remove_leaf`; the answer says that the leaf has been removed and unlocked. -/
def removeLeaf (fuel : ℕ) (leaf root : Addr) (before : Str) : MtM Bool := do
  let l ← readLeaf leaf
  if l.prev = 0 then do
    if l.next = 0 ∧ before ≠ [] then rcuRegister root before else pure ()
    pure false
  else do
    markLocked build leaf NodeVersion.markDeleted
    deallocateLeaf leaf
    unlinkLeaf fuel leaf
    let l ← readLeaf leaf
    collapse build fuel fuel leaf l.ikeyBound 0
    pure true

/-- `finish_remove`. -/
def finishRemove (fuel : ℕ) (c : Tcursor) : MtM Bool := do
  let l ← readLeaf c.n
  if l.modstate = .insert then do
    markLocked build c.n NodeVersion.markInsert
    writeLeaf c.n fun l => { l with modstate := .remove }
  else pure ()
  let perm := l.permutation.remove c.kx.i
  writeLeaf c.n fun l => { l with permutation := perm }
  if perm.size ≠ 0 then pure false
  else removeLeaf build fuel c.n c.root c.ka.prefixString

/-- `run_remove`: the key is removed if it is there. -/
def remove (fuel : ℕ) (key : Str) : MtM Unit := do
  let root ← fixRoot
  let c ← findLocked build fuel root (Tcursor.make root key) none
  let removed ← if c.state = 1 then finishRemove build fuel c else pure false
  if removed then pure () else unlock build c.n

end Removal

end Sidle.Masstree
