import Sidle.Word.Field

/-!
# The version word of an internal node

Every internal node of the adaptive radix tree carries one 64-bit word that packs its
offset, the number of its children, the length of its compressed prefix, its layout
and its status bits.  The word is only touched through the macros of `art_def.hh`,
given here on `BitVec 64`.  `Version.view` unpacks a word, and each macro is
described by what it does to the view.

## Main definitions

* `NodeType` — the four layouts, `node4` to `node256`.
* `setOffset`, `getOffset`, …, `incrVexpand` — the macros.
* `View`, `Version.view` — the unpacked word.
-/

namespace Sidle.Art

open Word

/-- The four layouts of an internal node. -/
inductive NodeType
  | node4
  | node16
  | node48
  | node256
  deriving DecidableEq, Repr, Inhabited

/-- The two bits of the version word that record a layout: `node4 = 0x000000`, …,
`node256 = 0x300000`, shifted down to bit 0. -/
def NodeType.code : NodeType → ℕ
  | .node4 => 0
  | .node16 => 1
  | .node48 => 2
  | .node256 => 3

/-- The layout recorded by two bits. -/
def NodeType.ofCode : ℕ → NodeType
  | 0 => .node4
  | 1 => .node16
  | 2 => .node48
  | _ => .node256

@[simp] theorem NodeType.ofCode_code (t : NodeType) : NodeType.ofCode t.code = t := by
  cases t <;> rfl

/-- The version word of an internal node. -/
abbrev Version := BitVec 64

/-! ### The macros -/

/-- `set_offset`: bits 54 to 61. -/
def setOffset (version : Version) (offset : ℕ) : Version :=
  setField 54 8 version (BitVec.ofNat 64 offset)

/-- `get_offset`. -/
def getOffset (version : Version) : ℕ := field 54 8 version

/-- `set_prefix_len`: bits 32 to 39. -/
def setPrefixLen (version : Version) (len : ℕ) : Version :=
  setField 32 8 version (BitVec.ofNat 64 len)

/-- `get_prefix_len`. -/
def getPrefixLen (version : Version) : ℕ := field 32 8 version

/-- `set_count`: bits 40 to 47. -/
def setCount (version : Version) (count : ℕ) : Version :=
  setField 40 8 version (BitVec.ofNat 64 count)

/-- `get_count`. -/
def getCount (version : Version) : ℕ := field 40 8 version

/-- `incr_count`: an addition to the whole word. -/
def incrCount (version : Version) : Version := incrField 40 version

/-- `set_type`: the type bits are or-ed into the word. -/
def setType (version : Version) (type : NodeType) : Version :=
  version ||| (BitVec.ofNat 64 type.code <<< 20)

/-- `get_node_type`: bits 20 and 21. -/
def getNodeType (version : Version) : NodeType := NodeType.ofCode (field 20 2 version)

/-- `is_old`: the test of `OLD_BIT`, bit 19. -/
def isOld (version : Version) : Bool := flag 19 version

/-- `is_locked`: the test of `LOCK_BIT`, bit 18. -/
def isLocked (version : Version) : Bool := flag 18 version

/-- `is_expanding`: the test of `EXPAND_BIT`, bit 16. -/
def isExpanding (version : Version) : Bool := flag 16 version

/-- `set_old`. -/
def setOld (version : Version) : Version := setFlag 19 version

/-- `set_lock`. -/
def setLock (version : Version) : Version := setFlag 18 version

/-- `set_expand`. -/
def setExpand (version : Version) : Version := setFlag 16 version

/-- `unset_lock`. -/
def unsetLock (version : Version) : Version := clearFlag 18 version

/-- `unset_expand`. -/
def unsetExpand (version : Version) : Version := clearFlag 16 version

/-- `get_vexpand`: bits 0 to 7. -/
def getVexpand (version : Version) : ℕ := field 0 8 version

/-- `incr_vexpand`: the lowest byte is incremented, its overflow dropped. -/
def incrVexpand (version : Version) : Version := incrLow 8 version

/-! ### The unpacked word -/

/-- What a version word says. -/
@[ext] structure View where
  offset : ℕ
  count : ℕ
  prefixLen : ℕ
  type : NodeType
  old : Bool
  locked : Bool
  expanding : Bool
  vexpand : ℕ
  deriving DecidableEq, Repr

/-- Unpack a version word. -/
def view (version : Version) : View where
  offset := getOffset version
  count := getCount version
  prefixLen := getPrefixLen version
  type := getNodeType version
  old := isOld version
  locked := isLocked version
  expanding := isExpanding version
  vexpand := getVexpand version

section Macros

variable (version : Version)

@[simp] theorem view_offset : (view version).offset = getOffset version := rfl
@[simp] theorem view_count : (view version).count = getCount version := rfl
@[simp] theorem view_prefixLen : (view version).prefixLen = getPrefixLen version := rfl
@[simp] theorem view_type : (view version).type = getNodeType version := rfl
@[simp] theorem view_old : (view version).old = isOld version := rfl
@[simp] theorem view_locked : (view version).locked = isLocked version := rfl
@[simp] theorem view_expanding : (view version).expanding = isExpanding version := rfl
@[simp] theorem view_vexpand : (view version).vexpand = getVexpand version := rfl

theorem getOffset_lt : getOffset version < 256 := field_lt 54 8 version
theorem getCount_lt : getCount version < 256 := field_lt 40 8 version
theorem getPrefixLen_lt : getPrefixLen version < 256 := field_lt 32 8 version
theorem getVexpand_lt : getVexpand version < 256 := field_lt 0 8 version

private theorem toNat_ofNat_lt {x : ℕ} (hx : x < 256) : (BitVec.ofNat 64 x).toNat < 2 ^ 8 := by
  rw [BitVec.toNat_ofNat, Nat.mod_eq_of_lt (by omega)]
  exact hx

/-- Replacing one of the three counters of the upper half leaves the lower half alone. -/
private theorem view_setField {lo : ℕ} {x : BitVec 64} (hlo : 32 ≤ lo) :
    view (setField lo 8 version x) =
      { view version with
        offset := field 54 8 (setField lo 8 version x)
        count := field 40 8 (setField lo 8 version x)
        prefixLen := field 32 8 (setField lo 8 version x) } := by
  have hd {l k : ℕ} (hk : l + k ≤ 32) : field l k (setField lo 8 version x) = field l k version :=
    field_setField_of_below (by omega) (by omega)
  have hf {k : ℕ} (hk : k < 32) : flag k (setField lo 8 version x) = flag k version :=
    flag_congr (by omega) (hd (by omega))
  ext <;> simp only [view, getOffset, getCount, getPrefixLen, getNodeType, isOld, isLocked,
    isExpanding, getVexpand]
  · rw [hd (by decide)]
  · rw [hf (by decide)]
  · rw [hf (by decide)]
  · rw [hf (by decide)]
  · rw [hd (by decide)]

theorem view_setOffset {offset : ℕ} (h : offset < 256) :
    view (setOffset version offset) = { view version with offset := offset } := by
  have hx := toNat_ofNat_lt h
  rw [setOffset, view_setField version (by decide), field_setField (by decide) hx,
    field_setField_of_apart hx (by decide), field_setField_of_apart hx (by decide),
    BitVec.toNat_ofNat, Nat.mod_eq_of_lt (by omega)]
  rfl

/-- An offset of any size leaves the rest alone. -/
theorem view_setOffset_any (offset : ℕ) : view (setOffset version offset) =
    { view version with offset := getOffset (setOffset version offset) } := by
  have hd {l : ℕ} (hl : l + 8 ≤ 54) :
      field l 8 (setField 54 8 version (BitVec.ofNat 64 offset)) = field l 8 version :=
    field_setField_of_below (by omega) hl
  rw [setOffset, view_setField version (by decide), hd (l := 40) (by decide),
    hd (l := 32) (by decide)]
  rfl

/-- An offset of any size leaves the count and the layout alone. -/
theorem getCount_setOffset (offset : ℕ) : getCount (setOffset version offset) = getCount version :=
  field_setField_of_below (by decide) (by decide)

theorem getNodeType_setOffset (offset : ℕ) :
    getNodeType (setOffset version offset) = getNodeType version :=
  congrArg NodeType.ofCode (field_setField_of_below (by decide) (by decide))

theorem view_setPrefixLen {len : ℕ} (h : len < 256) :
    view (setPrefixLen version len) = { view version with prefixLen := len } := by
  have hx := toNat_ofNat_lt h
  rw [setPrefixLen, view_setField version (by decide), field_setField (by decide) hx,
    field_setField_of_apart hx (by decide), field_setField_of_apart hx (by decide),
    BitVec.toNat_ofNat, Nat.mod_eq_of_lt (by omega)]
  rfl

theorem view_setCount {count : ℕ} (h : count < 256) :
    view (setCount version count) = { view version with count := count } := by
  have hx := toNat_ofNat_lt h
  rw [setCount, view_setField version (by decide), field_setField (by decide) hx,
    field_setField_of_apart hx (by decide), field_setField_of_apart hx (by decide),
    BitVec.toNat_ofNat, Nat.mod_eq_of_lt (by omega)]
  rfl

/-- The addition of `incr_count` does not carry out of the count as long as a node has
fewer than 255 children. -/
theorem view_incrCount (h : getCount version < 255) :
    view (incrCount version) = { view version with count := getCount version + 1 } := by
  have hc : field 40 8 version + 1 < 2 ^ 8 := by unfold getCount at h; omega
  have hf {k : ℕ} (hk : k < 40) : flag k (incrField 40 version) = flag k version :=
    flag_incrField_of_apart (by omega) (by decide) hc (Or.inr (by omega))
  have hd {l k : ℕ} (hk : Apart 40 8 l k) :
      field l k (incrField 40 version) = field l k version :=
    field_incrField_of_apart (by decide) hc hk
  ext <;> simp only [view, getOffset, getCount, getPrefixLen, getNodeType, isOld, isLocked,
    isExpanding, getVexpand, incrCount]
  · rw [hd (by decide)]
  · rw [field_incrField (by decide) hc]
  · rw [hd (by decide)]
  · rw [hd (by decide)]
  · rw [hf (by decide)]
  · rw [hf (by decide)]
  · rw [hf (by decide)]
  · rw [hd (by decide)]

/-- Raising or clearing one of the status bits leaves every other part alone. -/
private theorem view_of_field {w : Version} {k : ℕ} (hk : 16 ≤ k ∧ k < 20)
    (h : ∀ lo len, Apart k 1 lo len → field lo len w = field lo len version) :
    view w =
      { view version with old := isOld w, locked := isLocked w, expanding := isExpanding w } := by
  ext <;> simp only [view, getOffset, getCount, getPrefixLen, getNodeType, getVexpand]
  all_goals rw [h _ _ (by unfold Apart; omega)]

theorem view_setOld : view (setOld version) = { view version with old := true } := by
  have hv : view (setOld version) = _ :=
    view_of_field version (by decide : 16 ≤ 19 ∧ 19 < 20) fun _ _ h =>
    field_setFlag_of_apart version h
  rw [hv]
  simp only [isOld, isLocked, isExpanding, setOld, flag_setFlag (by decide : 19 < 64),
    flag_setFlag_of_ne (by decide : 18 < 64) version (by decide : 18 ≠ 19),
    flag_setFlag_of_ne (by decide : 16 < 64) version (by decide : 16 ≠ 19)]
  rfl

theorem view_setLock : view (setLock version) = { view version with locked := true } := by
  have hv : view (setLock version) = _ :=
    view_of_field version (by decide : 16 ≤ 18 ∧ 18 < 20) fun _ _ h =>
    field_setFlag_of_apart version h
  rw [hv]
  simp only [isOld, isLocked, isExpanding, setLock, flag_setFlag (by decide : 18 < 64),
    flag_setFlag_of_ne (by decide : 19 < 64) version (by decide : 19 ≠ 18),
    flag_setFlag_of_ne (by decide : 16 < 64) version (by decide : 16 ≠ 18)]
  rfl

theorem view_setExpand : view (setExpand version) = { view version with expanding := true } := by
  have hv : view (setExpand version) = _ :=
    view_of_field version (by decide : 16 ≤ 16 ∧ 16 < 20) fun _ _ h =>
    field_setFlag_of_apart version h
  rw [hv]
  simp only [isOld, isLocked, isExpanding, setExpand, flag_setFlag (by decide : 16 < 64),
    flag_setFlag_of_ne (by decide : 19 < 64) version (by decide : 19 ≠ 16),
    flag_setFlag_of_ne (by decide : 18 < 64) version (by decide : 18 ≠ 16)]
  rfl

theorem view_unsetLock : view (unsetLock version) = { view version with locked := false } := by
  have hv : view (unsetLock version) = _ :=
    view_of_field version (by decide : 16 ≤ 18 ∧ 18 < 20) fun _ _ h =>
    field_clearFlag_of_apart version h
  rw [hv]
  simp only [isOld, isLocked, isExpanding, unsetLock, flag_clearFlag (by decide : 18 < 64),
    flag_clearFlag_of_ne (by decide : 19 < 64) version (by decide : 19 ≠ 18),
    flag_clearFlag_of_ne (by decide : 16 < 64) version (by decide : 16 ≠ 18)]
  rfl

theorem view_unsetExpand :
    view (unsetExpand version) = { view version with expanding := false } := by
  have hv : view (unsetExpand version) = _ :=
    view_of_field version (by decide : 16 ≤ 16 ∧ 16 < 20) fun _ _ h =>
    field_clearFlag_of_apart version h
  rw [hv]
  simp only [isOld, isLocked, isExpanding, unsetExpand, flag_clearFlag (by decide : 16 < 64),
    flag_clearFlag_of_ne (by decide : 19 < 64) version (by decide : 19 ≠ 16),
    flag_clearFlag_of_ne (by decide : 18 < 64) version (by decide : 18 ≠ 16)]
  rfl

theorem view_incrVexpand :
    view (incrVexpand version) =
      { view version with vexpand := (getVexpand version + 1) % 256 } := by
  ext <;> simp only [view, getOffset, getCount, getPrefixLen, getNodeType, isOld, isLocked,
    isExpanding, getVexpand, incrVexpand]
  · rw [field_incrLow_of_ge (by decide)]
  · rw [field_incrLow_of_ge (by decide)]
  · rw [field_incrLow_of_ge (by decide)]
  · rw [field_incrLow_of_ge (by decide)]
  · rw [flag_incrLow_of_ge (by decide) (by decide)]
  · rw [flag_incrLow_of_ge (by decide) (by decide)]
  · rw [flag_incrLow_of_ge (by decide) (by decide)]
  · exact field_incrLow (by decide)

/-- The word a new node of the given layout starts from. -/
theorem view_setType_zero (type : NodeType) :
    view (setType 0 type) = ⟨0, 0, 0, type, false, false, false, 0⟩ := by
  cases type <;> decide

end Macros

end Sidle.Art
