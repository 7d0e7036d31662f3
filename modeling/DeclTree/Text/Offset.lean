/-!
# Offsets

Offsets, line numbers and columns are 32-bit words.  Numbers come into words in two ways:
`ofNat?` refuses what does not fit, and `clamp` takes the largest word instead.  On sources
that a compilation unit accepts neither way out is ever taken.
-/

namespace DeclTree.Text.Offset

/-- The largest word. -/
def last : UInt32 := 0xFFFFFFFF

/-- The word with a given value, if the value fits. -/
def ofNat? (n : Nat) : Option UInt32 :=
  if h : n < UInt32.size then some (UInt32.ofNatLT n h) else none

/-- The word with a given value, or the largest word if the value does not fit. -/
def clamp (n : Nat) : UInt32 := (ofNat? n).getD last

theorem toNat_of_ofNat? {n : Nat} {w : UInt32} (h : ofNat? n = some w) : w.toNat = n := by
  unfold ofNat? at h
  split at h
  · cases h
    simp
  · cases h

theorem ofNat?_isSome_iff {n : Nat} : (ofNat? n).isSome = true ↔ n < UInt32.size := by
  unfold ofNat?
  split <;> simp_all

theorem toNat_clamp {n : Nat} (h : n < UInt32.size) : (clamp n).toNat = n := by
  simp [clamp, ofNat?, h]

theorem toNat_pos {w : UInt32} (h : w ≠ 0) : 0 < w.toNat :=
  Nat.pos_of_ne_zero fun hzero => h (UInt32.toNat_inj.mp hzero)

theorem toNat_sub_one {w : UInt32} (h : w ≠ 0) : (w - 1).toNat = w.toNat - 1 :=
  UInt32.toNat_sub_of_le w 1 (UInt32.le_iff_toNat_le.mpr (toNat_pos h))

end DeclTree.Text.Offset
