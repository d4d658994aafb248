import Sidle.Art.Tree

/-!
# More fuel

Every function with a fuel does the same with more of it, except that it gets further.
The lemmas follow the definitions line by line.
-/

namespace Sidle.Art

open Prog

theorem artNodeLock_le_succ (an : Addr) (n : ℕ) : artNodeLock n an ≤ artNodeLock (n + 1) an := by
  induction n with
  | zero => exact diverge_le _
  | succ n ih =>
    refine bind_mono (le_refl _) fun version => ?_
    refine ite_mono ih (ite_mono (le_refl _) ?_)
    exact bind_mono (le_refl _) fun ok => ite_mono (le_refl _) ih

theorem artNodeGetStableExpandVersion_le_succ (an : Addr) (n : ℕ) :
    artNodeGetStableExpandVersion n an ≤ artNodeGetStableExpandVersion (n + 1) an := by
  induction n with
  | zero => exact diverge_le _
  | succ n ih => exact bind_mono (le_refl _) fun version => ite_mono ih (le_refl _)

theorem artNodeGetLockedParent_le_succ (an : Addr) (n : ℕ) :
    artNodeGetLockedParent n an ≤ artNodeGetLockedParent (n + 1) an := by
  induction n with
  | zero => exact diverge_le _
  | succ n ih =>
    refine bind_mono (le_refl _) fun parent => ite_mono (le_refl _) ?_
    refine bind_mono (artNodeLock_le_succ parent n) fun r => ite_mono ih ?_
    refine bind_mono (le_refl _) fun parent' => ite_mono (le_refl _) ?_
    exact bind_mono (le_refl _) fun _ => ih

/-! ### Nodes -/

theorem assertTrue_mono (build : Build) {e e' : ArtM Bool} (h : e ≤ e') :
    assertTrue build e ≤ assertTrue build e' :=
  ite_mono (bind_mono h fun _ => le_refl _) (le_refl _)

/-- `assert(art_node_lock(an) == 0)`. -/
theorem assertLock_le_succ (build : Build) (an : Addr) (n : ℕ) :
    assertTrue build (do
      let r ← artNodeLock n an
      pure (r == 0)) ≤ assertTrue build (do
        let r ← artNodeLock (n + 1) an
        pure (r == 0)) :=
  assertTrue_mono build (bind_mono (artNodeLock_le_succ an n) fun _ => le_refl _)

variable (env : Env)

theorem artNodeGrow_le_succ (an : Addr) (n : ℕ) :
    artNodeGrow env n an ≤ artNodeGrow env (n + 1) an := by
  refine bind_mono (le_refl _) fun version => bind_mono (le_refl _) fun new_ => ?_
  exact bind_mono (assertLock_le_succ env.build new_ n) fun _ => le_refl _

theorem artNodeAddChild_le_succ (an : Addr) (byte : UInt8) (child : Ptr) (wantNew : Bool) (n : ℕ) :
    artNodeAddChild env n an byte child wantNew ≤
      artNodeAddChild env (n + 1) an byte child wantNew := by
  refine bind_mono (le_refl _) fun version => bind_mono (le_refl _) fun next => ?_
  refine ite_mono (le_refl _) (bind_mono (le_refl _) fun full => ?_)
  exact ite_mono (bind_mono (artNodeGrow_le_succ env an n) fun _ => le_refl _) (le_refl _)

theorem artNodeReplaceLeafChild_le_succ (parent : Addr) (an : Ptr) (key : Key) (off n : ℕ) :
    artNodeReplaceLeafChild env n parent an key off ≤
      artNodeReplaceLeafChild env (n + 1) parent an key off := by
  refine bind_mono (le_refl _) fun len => bind_mono (le_refl _) fun i => ?_
  refine ite_mono (le_refl _) (bind_mono (le_refl _) fun new_ => ?_)
  refine bind_mono (le_refl _) fun _ => bind_mono (le_refl _) fun _ => ?_
  refine bind_mono (assertLock_le_succ env.build new_ n) fun _ => ?_
  refine bind_mono (le_refl _) fun _ => bind_mono (le_refl _) fun _ => ?_
  refine bind_mono (le_refl _) fun byte => bind_mono (assertTrue_mono _ ?_) fun _ => ?_
  · exact bind_mono (artNodeAddChild_le_succ env new_ byte an false n) fun _ => le_refl _
  refine bind_mono (le_refl _) fun byte => bind_mono (assertTrue_mono _ ?_) fun _ => le_refl _
  refine bind_mono (le_refl _) fun l => ?_
  exact bind_mono (artNodeAddChild_le_succ env new_ byte l false n) fun _ => le_refl _

theorem artNodeExpandAndInsert_le_succ (parent an : Addr) (key : Key) (off common n : ℕ) :
    artNodeExpandAndInsert env n parent an key off common ≤
      artNodeExpandAndInsert env (n + 1) parent an key off common := by
  refine bind_mono (le_refl _) fun new_ => bind_mono (le_refl _) fun _ => ?_
  refine bind_mono (le_refl _) fun _ => bind_mono (assertLock_le_succ env.build new_ n) fun _ => ?_
  refine bind_mono (le_refl _) fun _ => ?_
  refine ite_mono (bind_mono (le_refl _) fun byte => ?_) (bind_mono (le_refl _) fun byte => ?_)
  all_goals
    refine bind_mono (assertTrue_mono _ (bind_mono (le_refl _) fun l => ?_)) fun _ => ?_
    · exact bind_mono (artNodeAddChild_le_succ env new_ byte l false n) fun _ => le_refl _
    refine bind_mono (le_refl _) fun byte => bind_mono (assertTrue_mono _ ?_) fun _ => le_refl _
    exact bind_mono (artNodeAddChild_le_succ env new_ byte an false n) fun _ => le_refl _

/-! ### Insertion -/

theorem adaptiveRadixTreeReplaceLeaf_le_succ (parent : Addr) (ptr : Slot) (an : Ptr) (key : Key)
    (off n : ℕ) :
    adaptiveRadixTreeReplaceLeaf env n parent ptr an key off ≤
      adaptiveRadixTreeReplaceLeaf env (n + 1) parent ptr an key off := by
  refine bind_mono (artNodeReplaceLeafChild_le_succ env parent an key off n) fun new_ => ?_
  refine ite_mono (le_refl _) (ite_mono ?_ (le_refl _))
  exact bind_mono (artNodeLock_le_succ parent n) fun _ => le_refl _

section Parts

variable {goBegin goBegin' : ArtM ℤ} (hg : goBegin ≤ goBegin')

include hg

theorem putPrefixMismatch_le_succ (ptr : Slot) (an : Addr) (v : Version) (key : Key)
    (off p n : ℕ) :
    putPrefixMismatch env n goBegin ptr an v key off p ≤
      putPrefixMismatch env (n + 1) goBegin' ptr an v key off p := by
  refine bind_mono (artNodeLock_le_succ an n) fun r => ite_mono hg ?_
  refine bind_mono (le_refl _) fun v' => ite_mono (bind_mono (le_refl _) fun _ => hg) ?_
  refine bind_mono (artNodeGetLockedParent_le_succ an n) fun parent => ?_
  exact bind_mono (artNodeExpandAndInsert_le_succ env parent an key off p n) fun _ => le_refl _

variable {descend descend' : Slot → ArtM ℤ} (hd : ∀ slot, descend slot ≤ descend' slot)

include hd

omit hg in
/-- The tail call, if there is one. -/
theorem next_le_succ (next : Option Slot) : (match next with
    | some slot => descend slot
    | none => pure 0) ≤ match next with
    | some slot => descend' slot
    | none => pure 0 := by
  cases next with
  | none => exact le_refl _
  | some slot => exact hd slot

theorem putAddChild_le_succ (ptr : Slot) (an : Addr) (key : Key) (off p n : ℕ) :
    putAddChild env n goBegin descend ptr an key off p ≤
      putAddChild env (n + 1) goBegin' descend' ptr an key off p := by
  refine bind_mono (artNodeLock_le_succ an n) fun r => ite_mono hg ?_
  refine bind_mono (le_refl _) fun byte => bind_mono (le_refl _) fun leaf => ?_
  refine bind_mono (artNodeAddChild_le_succ env an byte leaf true n) fun ⟨next, new_⟩ => ?_
  have hnext := next_le_succ hd next
  refine ite_mono ?_ (bind_mono (le_refl _) fun _ => hnext)
  refine bind_mono (artNodeGetLockedParent_le_succ an n) fun parent => ?_
  refine bind_mono (le_refl _) fun byte => bind_mono (le_refl _) fun _ => ?_
  exact bind_mono (le_refl _) fun _ => hnext

theorem putDescend_le_succ (ptr : Slot) (an : Addr) (v1 : Version) (key : Key) (off p n : ℕ) :
    putDescend env n goBegin descend ptr an v1 key off p ≤
      putDescend env (n + 1) goBegin' descend' ptr an v1 key off p := by
  refine bind_mono (le_refl _) fun byte => bind_mono (le_refl _) fun next => ?_
  refine bind_mono (le_refl _) fun v => ite_mono hg ?_
  cases next with
  | none => exact putAddChild_le_succ env hg hd ptr an key off p n
  | some slot => exact hd slot

end Parts

theorem _adaptiveRadixTreePut_le_succ (key : Key) (n : ℕ) (first : Bool) (parent : Addr)
    (ptr : Slot) (off : ℕ) :
    _adaptiveRadixTreePut env key n first parent ptr off ≤
      _adaptiveRadixTreePut env key (n + 1) first parent ptr off := by
  induction n generalizing first parent ptr off with
  | zero => exact diverge_le _
  | succ n ih =>
    refine bind_mono (le_refl _) fun stale => ite_mono (le_refl _) ?_
    refine bind_mono (le_refl _) fun an => ?_
    refine ite_mono (adaptiveRadixTreeReplaceLeaf_le_succ env parent ptr an key off n) ?_
    refine bind_mono (artNodeGetStableExpandVersion_le_succ an n) fun v => ?_
    refine ite_mono (ih ..) (ite_mono (ih ..) ?_)
    refine bind_mono (le_refl _) fun p => bind_mono (le_refl _) fun v1 => ?_
    refine ite_mono (ih ..) (ite_mono ?_ ?_)
    · exact putPrefixMismatch_le_succ env (ih ..) ptr an v1 key off p n
    · exact putDescend_le_succ env (ih ..) (fun slot => ih ..) ptr an v1 key (off + p) p n

theorem putRetry_le_succ (key : Key) (n : ℕ) : putRetry env key n ≤ putRetry env key (n + 1) := by
  induction n with
  | zero => exact diverge_le _
  | succ n ih =>
    refine bind_mono (_adaptiveRadixTreePut_le_succ env key n ..) fun ret => ?_
    exact ite_mono ih (le_refl _)

/-- More fuel does not change what an insertion returns. -/
theorem adaptiveRadixTreePut_le_succ (key : Key) (n : ℕ) :
    adaptiveRadixTreePut env key n ≤ adaptiveRadixTreePut env key (n + 1) := by
  refine bind_mono (le_refl _) fun root => ite_mono ?_ (putRetry_le_succ env key n)
  refine bind_mono (le_refl _) fun leaf => bind_mono (le_refl _) fun ok => ?_
  exact ite_mono (le_refl _) (putRetry_le_succ env key n)

/-! ### Lookup -/

theorem getDescend_mono {goBegin goBegin' : ℕ → ArtM GetResult}
    {descend descend' : Slot → ℕ → ArtM GetResult} (hg : ∀ off, goBegin off ≤ goBegin' off)
    (hd : ∀ slot off, descend slot off ≤ descend' slot off) (an : Addr) (v1 : Version) (key : Key)
    (off : ℕ) :
    getDescend goBegin descend an v1 key off ≤ getDescend goBegin' descend' an v1 key off := by
  refine bind_mono (le_refl _) fun byte => bind_mono (le_refl _) fun next => ?_
  refine bind_mono (le_refl _) fun v2 => ite_mono (hg _) ?_
  cases next with
  | none => exact le_refl _
  | some slot => exact hd slot _

theorem _adaptiveRadixTreeGet_le_succ (key : Key) (n : ℕ) (first : Bool) (parent : Addr)
    (ptr : Slot) (off : ℕ) :
    _adaptiveRadixTreeGet key n first parent ptr off ≤
      _adaptiveRadixTreeGet key (n + 1) first parent ptr off := by
  induction n generalizing first parent ptr off with
  | zero => exact diverge_le _
  | succ n ih =>
    refine bind_mono (le_refl _) fun stale => ite_mono (le_refl _) ?_
    refine bind_mono (le_refl _) fun an => ite_mono (le_refl _) ?_
    refine bind_mono (artNodeGetStableExpandVersion_le_succ an n) fun v => ?_
    refine ite_mono (ih ..) (ite_mono (ih ..) ?_)
    refine bind_mono (le_refl _) fun p => bind_mono (le_refl _) fun v1 => ?_
    refine ite_mono (ih ..) (ite_mono (le_refl _) ?_)
    exact getDescend_mono (fun off => ih ..) (fun slot off => ih ..) an v1 key _

theorem getRetry_le_succ (key : Key) (n : ℕ) : getRetry key n ≤ getRetry key (n + 1) := by
  induction n with
  | zero => exact diverge_le _
  | succ n ih =>
    refine bind_mono (_adaptiveRadixTreeGet_le_succ key n ..) fun ret => ?_
    exact ite_mono ih (le_refl _)

/-- More fuel does not change what a lookup returns. -/
theorem adaptiveRadixTreeGet_le_succ (key : Key) (n : ℕ) :
    adaptiveRadixTreeGet key n ≤ adaptiveRadixTreeGet key (n + 1) :=
  bind_mono (le_refl _) fun _ => ite_mono (le_refl _) (getRetry_le_succ key n)

end Sidle.Art
