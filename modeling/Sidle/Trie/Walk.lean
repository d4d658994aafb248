import Mathlib.Data.List.Infix
import Sidle.Trie.Basic

/-!
# The walk of a word through a trie

A word walks down a trie along the places whose paths are its prefixes.  The walk ends at
a place that leads to no node, or it ends inside the label of a node.  Which of the two
happens is a matter of the stored words alone.

## Main definitions

* `Trie.LeavesLabel` — the walk of a word ends inside a label.
* `SplitsPrefix` — the condition on the stored words.

## Main results

* `Trie.exists_end` — every walk ends.
* `Trie.leavesLabel_iff` — a walk ends inside a label exactly when the word splits a prefix
  that two stored words share.
-/

variable {ν β : Type} {L : ℕ}

/-- Two words of `S` or more go on after the part `w` of `k`, all of them with the same `b`,
and `k` does not go on with it. -/
def SplitsPrefix (S : List β → Prop) (k : List β) : Prop :=
  ∃ w b, w <+: k ∧ ¬ w ++ [b] <+: k ∧ (∀ x, S x → w <+: x → w ++ [b] <+: x) ∧
    ∃ x y, S x ∧ S y ∧ x ≠ y ∧ w <+: x ∧ w <+: y

theorem SplitsPrefix.congr {S S' : List β → Prop} {k : List β} (h : ∀ x, S x ↔ S' x) :
    SplitsPrefix S k ↔ SplitsPrefix S' k :=
  (funext fun x => propext (h x) : S = S') ▸ Iff.rfl

/-- The condition can be decided for a list of words. -/
instance [DecidableEq β] (S : List (List β)) (k : List β) : Decidable (SplitsPrefix (· ∈ S) k) :=
  decidable_of_iff (∃ w ∈ k.inits, ∃ x ∈ S, ∃ b ∈ x, ¬ w ++ [b] <+: k ∧
      (∀ z ∈ S, w <+: z → w ++ [b] <+: z) ∧ w <+: x ∧ ∃ y ∈ S, x ≠ y ∧ w <+: y) <| by
    constructor
    · rintro ⟨w, hw, x, hx, b, -, hwb, hall, hwx, y, hy, hxy, hwy⟩
      exact ⟨w, b, (List.mem_inits w k).mp hw, hwb, hall, x, y, hx, hy, hxy, hwx, hwy⟩
    · rintro ⟨w, b, hw, hwb, hall, x, y, hx, hy, hxy, hwx, hwy⟩
      exact ⟨w, (List.mem_inits w k).mpr hw, x, hx, b, (hall x hx hwx).subset (by simp), hwb, hall,
        hwx, y, hy, hxy, hwy⟩

/-- A prefix of `m` that `k` shares can be extended as far as `m` and `k` agree. -/
theorem List.IsPrefix.exists_last_agreement {u m k : List β} (hum : u <+: m) (huk : u <+: k)
    (hmk : ¬ m <+: k) :
    ∃ w b, u <+: w ∧ w <+: k ∧ w ++ [b] <+: m ∧ ¬ w ++ [b] <+: k := by
  induction hd : m.length - u.length generalizing u with
  | zero =>
    obtain rfl := hum.eq_of_length_le (by omega)
    exact absurd huk hmk
  | succ d ih =>
    obtain ⟨b, hb⟩ := List.IsPrefix.exists_append_singleton hum (by omega)
    by_cases hbk : u ++ [b] <+: k
    · obtain ⟨w, c, hw, hwk, hwm, hwc⟩ := ih hb hbk (by
        simp only [List.length_append, List.length_singleton]
        omega)
      exact ⟨w, c, List.IsPrefix.left_of_append_singleton hw, hwk, hwm, hwc⟩
    · exact ⟨u, b, List.prefix_refl u, huk, hb, hbk⟩

namespace Trie

variable (t : Trie ν β L)

/-- The walk of `k` comes to a node and ends inside its label. -/
def LeavesLabel (k : List β) : Prop :=
  ∃ q c, t.IsPlace q ∧ t.get q = some (.node c) ∧ t.path q <+: k ∧ ¬ t.label c <+: k

variable {t}

/-- A walk that comes to a place that leads to no node ends inside no label. -/
theorem not_leavesLabel {q : Place ν β} {k : List β} (hq : t.IsPlace q) (hpath : t.path q <+: k)
    (hend : ∀ c, t.get q ≠ some (.node c)) : ¬ t.LeavesLabel k := by
  rintro ⟨p, c, hp, hget, hpk, hc⟩
  have hlive := live_of_place hp hget
  cases q with
  | root =>
    obtain ⟨r, hr, -⟩ := exists_root_node hlive
    exact hend r hr
  | edge n b =>
    have hword : t.path p <+: t.label c := path_prefix_word hp hget
    have hnb : t.label n ++ [b] <+: k := hpath
    rcases Nat.lt_or_ge (t.label n).length (t.path p).length with hlt | hle
    · -- the place is beyond the edge, which then leads to a node
      have hpre : t.label n ++ [b] <+: t.label c :=
        (hnb.append_singleton_prefix hpk hlt).trans hword
      obtain ⟨d, hd, -⟩ := edge_covers hq hlive hpre
      exact hend d hd
    · -- the place is above the node `n`, whose label the word has
      have hpn : t.path p <+: t.label n :=
        List.prefix_of_prefix_length_le hpk hnb.left_of_append_singleton hle
      obtain ⟨d, hd, hdn⟩ := place_covers hp hq hpn
      obtain rfl : c = d := by simpa [hget] using hd
      exact hc (hdn.trans hnb.left_of_append_singleton)

/-- The walk of a word of the right length goes on from any place on its way, and ends. -/
theorem exists_end_below {k : List β} (hk : k.length = L) {q : Place ν β} (hq : t.IsPlace q)
    (hpath : t.path q <+: k) :
    t.LeavesLabel k ∨ ∃ p, t.IsPlace p ∧ t.path p <+: k ∧ ∀ c, t.get p ≠ some (.node c) := by
  induction hd : L - (t.path q).length using Nat.strong_induction_on generalizing q with
  | _ d ih =>
    by_cases hend : ∀ c, t.get q ≠ some (.node c)
    · exact Or.inr ⟨q, hq, hpath, hend⟩
    · push Not at hend
      obtain ⟨c, hget⟩ := hend
      by_cases hc : t.label c <+: k
      · have hlive := live_of_place hq hget
        have hlt := t.label_length c hlive
        have hle := (path_prefix_word hq hget).length_le
        rw [Ref.word_node] at hle
        have hnext : t.path (.edge c k[(t.label c).length]) <+: k :=
          List.append_singleton_prefix_iff.mpr ⟨hc, List.getElem?_eq_getElem (hk ▸ hlt)⟩
        refine ih _ ?_ (q := .edge c k[(t.label c).length]) hlive hnext rfl
        simp only [path_edge, List.length_append, List.length_singleton]
        omega
      · exact Or.inl ⟨q, c, hq, hget, hpath, hc⟩

/-- Every walk ends. -/
theorem exists_end {k : List β} (hk : k.length = L) :
    t.LeavesLabel k ∨ ∃ p, t.IsPlace p ∧ t.path p <+: k ∧ ∀ c, t.get p ≠ some (.node c) :=
  exists_end_below hk (q := .root) trivial List.nil_prefix

/-- Some stored word is at the end of every edge or below it. -/
theorem exists_stored_below (ht : t.Branching) {n : ν} {b : β} (hn : t.live n)
    (hb : t.edge n b ≠ none) : ∃ k, t.Stored k ∧ t.label n ++ [b] <+: k := by
  induction hd : L - (t.label n).length using Nat.strong_induction_on generalizing n b with
  | _ d ih =>
    obtain ⟨r, hr⟩ := Option.ne_none_iff_exists'.mp hb
    have hword := t.edge_word n b r hn hr
    cases r with
    | leaf k => exact ⟨k, ⟨.edge n b, hn, hr⟩, hword⟩
    | node c =>
      have hc := t.edge_node n b c hn hr
      have hlt := length_lt_of_edge hn hr
      have hcL := t.label_length c hc
      obtain ⟨b', -, -, hb', -⟩ := ht c hc
      obtain ⟨k, hk, hck⟩ := ih _ (by omega) hc hb' rfl
      exact ⟨k, hk, List.IsPrefix.trans hword hck.left_of_append_singleton⟩

/-- **Where a walk ends.**  The walk of a word ends inside a label exactly when the word
splits a prefix that two stored words share. -/
theorem leavesLabel_iff (ht : t.Branching) {k : List β} (hk : k.length = L) :
    t.LeavesLabel k ↔ SplitsPrefix t.Stored k := by
  constructor
  · rintro ⟨q, c, hq, hget, hpath, hc⟩
    have hlive := live_of_place hq hget
    -- the part of the label that the word has
    obtain ⟨w, b, hqw, hw, hwb, hwk⟩ : ∃ w b, t.path q <+: w ∧ w <+: k ∧
        w ++ [b] <+: t.label c ∧ ¬ w ++ [b] <+: k :=
      List.IsPrefix.exists_last_agreement (path_prefix_word hq hget) hpath hc
    refine ⟨w, b, hw, hwk, fun x hx hwx => ?_, ?_⟩
    · rcases stored_of_place hq hx (hqw.trans hwx) with h | ⟨d, hd, hdx⟩
      · simp [hget] at h
      · obtain rfl : c = d := by simpa [hget] using hd
        exact hwb.trans hdx
    · obtain ⟨b₁, b₂, hne, h₁, h₂⟩ := ht c hlive
      obtain ⟨x, hx, hcx⟩ := exists_stored_below ht hlive h₁
      obtain ⟨y, hy, hcy⟩ := exists_stored_below ht hlive h₂
      have hwc := hwb.left_of_append_singleton
      refine ⟨x, y, hx, hy, ?_, hwc.trans hcx.left_of_append_singleton,
        hwc.trans hcy.left_of_append_singleton⟩
      rintro rfl
      exact hne (hcx.append_singleton_inj hcy)
  · rintro ⟨w, b, hw, hwk, hall, x, y, hx, hy, hxy, hwx, hwy⟩
    refine (exists_end hk).resolve_right ?_
    rintro ⟨q, hq, hpath, hend⟩
    -- every word on the way to `q` would be the leaf there
    have hleaf {z : List β} (hz : t.Stored z) (hqz : t.path q <+: z) :
        t.get q = some (.leaf z) := by
      rcases stored_of_place hq hz hqz with h | ⟨c, hc, -⟩
      · exact h
      · exact absurd hc (hend c)
    rcases Nat.lt_or_ge w.length (t.path q).length with hlt | hle
    · cases q with
      | root => simp at hlt
      | edge n c =>
        have hnk : t.label n <+: k := List.IsPrefix.left_of_append_singleton hpath
        have hwn : w <+: t.label n := List.prefix_of_prefix_length_le hw hnk (by
          simp only [path_edge, List.length_append, List.length_singleton] at hlt
          omega)
        -- the edges of `n` all begin with the same letter
        have hedge {d : β} (hd : t.edge n d ≠ none) : d = b := by
          obtain ⟨z, hz, hnz⟩ := exists_stored_below ht hq hd
          have hwz := hall z hz (hwn.trans hnz.left_of_append_singleton)
          rcases Nat.eq_or_lt_of_le hwn.length_le with heq | hlt'
          · obtain rfl := hwn.eq_of_length heq
            exact hnz.append_singleton_inj hwz
          · exact absurd ((hwz.append_singleton_prefix hnz.left_of_append_singleton
              hlt').trans hnk) hwk
        obtain ⟨b₁, b₂, hne, h₁, h₂⟩ := ht n hq
        exact hne ((hedge h₁).trans (hedge h₂).symm)
    · have hqw : t.path q <+: w := List.prefix_of_prefix_length_le hpath hw hle
      have h₁ := hleaf hx (hqw.trans hwx)
      rw [hleaf hy (hqw.trans hwy)] at h₁
      simp at h₁
      exact hxy h₁.symm

end Trie
