import Stos.Kernel.Hd.SectorLoc

/-!
# Where an access lies on a disk

The location of an access is right if the end of the access, rounded up to a sector, does not wrap
around; otherwise it is wrong, unless the access begins behind the end of the device.
-/

namespace Stos.Kernel.Hd

open Nat HdMetadata

variable {loc : SectorLoc} {offset size : Nat} {info : AtaDiskInfo} {hd : HdMetadata}

/-! ## Alignment -/

theorem sectorAlignDown_eq {addr k : Nat} (haddr : addr < 2 ^ 32) (hk : k < 32) :
    sectorAlignDown addr (2 ^ k) = addr / 2 ^ k * 2 ^ k := by
  have hpos : 0 < 2 ^ k := Nat.two_pow_pos k
  have hle : 2 ^ k ≤ 2 ^ 31 := Nat.pow_le_pow_right (by decide) (by omega)
  have hmask : 2 ^ 32 - 1 - (2 ^ k + 2 ^ 32 - 1) % 2 ^ 32 = 2 ^ 32 - (2 ^ k - 1 + 1) := by omega
  rw [sectorAlignDown, hmask]
  apply Nat.eq_of_testBit_eq
  intro i
  rw [Nat.testBit_and, Nat.testBit_two_pow_sub_succ (by omega), Nat.testBit_two_pow_sub_one,
    Nat.testBit_mul_two_pow, Nat.testBit_div_two_pow]
  by_cases hi : i < k
  · simp [hi]
  · rw [Nat.sub_add_cancel (by omega)]
    by_cases hi32 : i < 32
    · simp [hi, hi32, not_lt.mp hi]
    · have hzero : addr.testBit i = false :=
        Nat.testBit_lt_two_pow (Nat.lt_of_lt_of_le haddr (Nat.pow_le_pow_right (by decide) (by omega)))
      simp [hzero]

/-- The sector in which the access begins. -/
def lowSector (offset : Nat) (info : AtaDiskInfo) : Nat := offset / info.sectorSize

/-- The sector behind the access, as `hd_calc_sector_loc` computes it. -/
def highSector (offset size : Nat) (info : AtaDiskInfo) : Nat :=
  (offset + size + info.sectorSize - 1) % 2 ^ 32 / info.sectorSize

theorem IsDevice.sectorSize_pos (h : IsDevice info hd) :
    0 < info.sectorSize ∧ info.sectorSize ≤ 2 ^ 15 := by
  obtain ⟨k, hk, hsize⟩ := h.sectorSize
  rw [hsize]
  exact ⟨Nat.two_pow_pos k, Nat.pow_le_pow_right (by decide) (by omega)⟩

theorem IsDevice.sectorAlignDown_eq (h : IsDevice info hd) {addr : Nat} (haddr : addr < 2 ^ 32) :
    sectorAlignDown addr info.sectorSize = addr / info.sectorSize * info.sectorSize := by
  obtain ⟨k, hk, hsize⟩ := h.sectorSize
  rw [hsize]
  exact Hd.sectorAlignDown_eq haddr (by omega)

theorem IsDevice.sectorAlignUp_eq (h : IsDevice info hd) (offset size : Nat) :
    sectorAlignUp ((offset + size) % 2 ^ 32) info.sectorSize =
      highSector offset size info * info.sectorSize := by
  have hpos := h.sectorSize_pos.1
  have hsum : ((offset + size) % 2 ^ 32 + info.sectorSize + 2 ^ 32 - 1) % 2 ^ 32 =
      (offset + size + info.sectorSize - 1) % 2 ^ 32 := by omega
  rw [sectorAlignUp, hsum, h.sectorAlignDown_eq (mod_lt _ (by decide)), highSector]

/-! ## The computed location -/

/-- The location of an access to the sectors from `low` to `high` of a device that has `sectors`
sectors from `first` on, where `low` is in the device. -/
structure Located (loc : SectorLoc) (offset size sectorSize first sectors low high : Nat) : Prop where
  lowLba : loc.lowSectorLba = first + low
  lowest : loc.lowestSectorByte = low * sectorSize
  locSectorSize : loc.sectorSize = sectorSize
  inside : high ≤ sectors → loc.size = size ∧ loc.sectorCount = (high + 2 ^ 32 - low) % 2 ^ 32
  beyond : sectors < high →
    loc.size = (sectors * sectorSize + 2 ^ 32 - offset) % 2 ^ 32 ∧ loc.sectorCount = sectors - low

theorem hdCalcSectorLoc_spec (h : IsDevice info hd) (loc : SectorLoc) (hoffset : offset < 2 ^ 32)
    (size : Nat) :
    (hd.sectors info ≤ lowSector offset info → (hdCalcSectorLoc loc offset size info hd).size = 0) ∧
      (lowSector offset info < hd.sectors info →
        Located (hdCalcSectorLoc loc offset size info hd) offset size info.sectorSize hd.first
          (hd.sectors info) (lowSector offset info) (highSector offset size info)) := by
  have hpos := h.sectorSize_pos.1
  have hcount := h.sectorsCount
  have hinside := h.inside
  have hdown : sectorAlignDown offset info.sectorSize = lowSector offset info * info.sectorSize :=
    h.sectorAlignDown_eq hoffset
  unfold hdCalcSectorLoc
  dsimp only
  rw [h.sectorAlignUp_eq, hdown, Nat.mul_div_cancel _ hpos, Nat.mul_div_cancel _ hpos]
  unfold first sectors at *
  generalize lowSector offset info = low at *
  cases hpart : hd.isPartition with
  | false =>
    simp only [hpart, Bool.not_false, Bool.false_eq_true, if_true, if_false] at hinside ⊢
    split
    · exact ⟨fun _ => rfl, fun hlow => by omega⟩
    split
    · refine ⟨fun hlow => by omega, fun hlow => ⟨by simp, rfl, rfl, fun hle => by omega, fun _ => ⟨rfl, ?_⟩⟩⟩
      dsimp only
      omega
    · exact ⟨fun hlow => by omega,
        fun hlow => ⟨by simp, rfl, rfl, fun _ => ⟨rfl, rfl⟩, fun hgt => by omega⟩⟩
  | true =>
    simp only [hpart, Bool.not_true, Bool.false_eq_true, if_true, if_false] at hinside ⊢
    have hstart : low < hd.partSectorsCount →
        (low + hd.partLbaStart) % 2 ^ 32 = hd.partLbaStart + low := fun hlow => by omega
    split
    · exact ⟨fun _ => rfl, fun hlow => by omega⟩
    split
    · refine ⟨fun hlow => by omega,
        fun hlow => ⟨hstart hlow, rfl, rfl, fun hle => by omega, fun _ => ⟨rfl, ?_⟩⟩⟩
      dsimp only
      omega
    · exact ⟨fun hlow => by omega,
        fun hlow => ⟨hstart hlow, rfl, rfl, fun _ => ⟨rfl, rfl⟩, fun hgt => by omega⟩⟩

/-! ## When the location is right -/

theorem lowSector_add_mod (offset : Nat) (info : AtaDiskInfo) :
    lowSector offset info * info.sectorSize + offset % info.sectorSize = offset := by
  rw [lowSector, mul_comm]
  exact div_add_mod offset info.sectorSize

/-- An access without bytes ends in the sector in which it begins. -/
theorem highSector_zero (h : IsDevice info hd) (offset : Nat) :
    highSector offset 0 info ≤ lowSector offset info + 1 := by
  have hpos := h.sectorSize_pos.1
  have hoffset := lowSector_add_mod offset info
  have hrem := mod_lt offset hpos
  refine le_of_lt_succ ((div_lt_iff_lt_mul hpos).mpr ?_)
  refine lt_of_le_of_lt (mod_le _ _) ?_
  rw [succ_mul, add_mul, one_mul]
  omega

/-- Without a wrap-around the location is right. -/
theorem Located.covers (h : IsDevice info hd)
    (hloc : Located loc offset size info.sectorSize hd.first (hd.sectors info)
      (lowSector offset info) (highSector offset size info))
    (hlow : lowSector offset info < hd.sectors info) (hsize : size ≠ 0)
    (hend : offset + size + info.sectorSize ≤ 2 ^ 32) : loc.Covers offset size info hd := by
  obtain ⟨hpos, hmax⟩ := h.sectorSize_pos
  have hcount := h.sectorsCount
  have hinside := h.inside
  have hoffset := lowSector_add_mod offset info
  have hrem := mod_lt offset hpos
  -- the end, rounded up
  have hround := div_add_mod (offset + size + info.sectorSize - 1) info.sectorSize
  have hrest := mod_lt (offset + size + info.sectorSize - 1) hpos
  have hhigh : highSector offset size info =
      (offset + size + info.sectorSize - 1) / info.sectorSize := by
    rw [highSector, mod_eq_of_lt (by omega)]
  rw [← hhigh, mul_comm] at hround
  have hmono : lowSector offset info < highSector offset size info := by
    by_contra hle
    have := mul_le_mul_right info.sectorSize (not_lt.mp hle)
    omega
  have hnext := mul_le_mul_right info.sectorSize (succ_le_of_lt hlow)
  rw [succ_mul] at hnext
  rcases lt_or_ge (hd.sectors info) (highSector offset size info) with hgt | hle
  · obtain ⟨hlocSize, hlocCount⟩ := hloc.beyond hgt
    have hbound := mul_le_mul_right info.sectorSize (succ_le_of_lt hgt)
    rw [succ_mul] at hbound
    have hexact : loc.size = hd.sectors info * info.sectorSize - offset := by
      omega
    refine ⟨?_, ?_, ?_, ?_⟩
    · rw [hloc.lowLba]
      omega
    · rw [hloc.lowLba, hlocCount]
      omega
    · rw [hloc.lowest, hloc.locSectorSize, hlocCount, hexact, Nat.sub_mul]
      omega
    · omega
  · obtain ⟨hlocSize, hlocCount⟩ := hloc.inside hle
    have hbound := mul_le_mul_right info.sectorSize hle
    have hexact : loc.sectorCount = highSector offset size info - lowSector offset info := by
      omega
    refine ⟨?_, ?_, ?_, ?_⟩
    · rw [hloc.lowLba]
      omega
    · rw [hloc.lowLba, hexact]
      omega
    · rw [hloc.lowest, hloc.locSectorSize, hexact, hlocSize, Nat.sub_mul]
      omega
    · omega

/-- Where the rounded end wraps around, the location has too few sectors or too many. -/
theorem Located.not_covers (h : IsDevice info hd)
    (hloc : Located loc offset size info.sectorSize hd.first (hd.sectors info)
      (lowSector offset info) (highSector offset size info))
    (hlow : lowSector offset info < hd.sectors info) (hsize : size ≠ 0) (hsize32 : size < 2 ^ 32)
    (hoffset32 : offset < 2 ^ 32) (hend : 2 ^ 32 < offset + size + info.sectorSize) :
    loc.size ≠ 0 ∧ ¬ loc.Covers offset size info hd := by
  obtain ⟨hpos, hmax⟩ := h.sectorSize_pos
  have hcount := h.sectorsCount
  have hinside := h.inside
  have hoffset := lowSector_add_mod offset info
  have hrem := mod_lt offset hpos
  have hround : highSector offset size info * info.sectorSize ≤
      offset + size + info.sectorSize - 1 - 2 ^ 32 := by
    have hwrap : (offset + size + info.sectorSize - 1) % 2 ^ 32 ≤
        offset + size + info.sectorSize - 1 - 2 ^ 32 := by omega
    exact le_trans (div_mul_le_self _ _) hwrap
  -- the end has come back to the sector of the beginning at the latest, so nothing is cut
  have hhigh : highSector offset size info ≤ lowSector offset info + 1 := by
    by_contra hgt
    have := mul_le_mul_right info.sectorSize (succ_le_of_lt (not_le.mp hgt))
    rw [succ_mul, add_mul, one_mul] at this
    omega
  obtain ⟨hlocSize, hlocCount⟩ := hloc.inside (by omega)
  refine ⟨by rwa [hlocSize], fun hcovers => ?_⟩
  have hlast := hcovers.last
  have hroom := hcovers.room
  rw [hloc.lowLba, hlocCount] at hlast
  rw [hloc.lowest, hloc.locSectorSize, hlocSize, hlocCount] at hroom
  rcases lt_or_ge (highSector offset size info) (lowSector offset info) with hlt | hge
  · omega
  · have hexact : (highSector offset size info + 2 ^ 32 - lowSector offset info) % 2 ^ 32 =
        highSector offset size info - lowSector offset info := by omega
    rw [hexact, Nat.sub_mul] at hroom
    omega

/-- The location is right just when the end of the access, rounded up to a sector, does not wrap around,
or no location is needed. -/
theorem hdCalcSectorLoc_covers_iff (h : IsDevice info hd) (loc : SectorLoc) (hoffset : offset < 2 ^ 32)
    (hsize : size < 2 ^ 32) :
    ((hdCalcSectorLoc loc offset size info hd).size ≠ 0 →
        (hdCalcSectorLoc loc offset size info hd).Covers offset size info hd) ↔
      AccessFits offset size info hd := by
  obtain ⟨hbehind, hbefore⟩ := hdCalcSectorLoc_spec h loc hoffset size
  rcases lt_or_ge (lowSector offset info) (hd.sectors info) with hlow | hge
  swap
  · exact iff_of_true (fun hne => absurd (hbehind hge) hne) (.inr (.inl hge))
  have hloc := hbefore hlow
  by_cases hzero : size = 0
  · have hhigh := highSector_zero h offset
    rw [← hzero] at hhigh
    obtain ⟨hlocSize, -⟩ := hloc.inside (by omega)
    exact iff_of_true (fun hne => absurd (hlocSize.trans hzero) hne) (.inl hzero)
  · constructor
    · intro hcovers
      refine .inr (.inr ?_)
      by_contra hend
      obtain ⟨hne, hnot⟩ := hloc.not_covers h hlow hzero hsize hoffset (not_le.mp hend)
      exact hnot (hcovers hne)
    · rintro (hzero' | hbehind | hend) hne
      · exact absurd hzero' hzero
      · exact absurd hlow (not_lt.mpr hbehind)
      · exact hloc.covers h hlow hzero hend

/-- The last 100 bytes of a partition of 64 sectors, asked for with a size of 4096. -/
theorem hdCalcSectorLoc_covers_iff_end :
    hdCalcSectorLoc ⟨0, 0, 0, 0, 0⟩ 32668 4096 ⟨2048, 512⟩ ⟨0, true, 100, 64⟩ =
        ⟨100, 163, 1, 32256, 512⟩ ∧
      SectorLoc.Covers ⟨100, 163, 1, 32256, 512⟩ 32668 4096 ⟨2048, 512⟩ ⟨0, true, 100, 64⟩ := by
  have hloc : hdCalcSectorLoc ⟨0, 0, 0, 0, 0⟩ 32668 4096 ⟨2048, 512⟩ ⟨0, true, 100, 64⟩ =
      ⟨100, 163, 1, 32256, 512⟩ := by decide +kernel
  have hdevice : IsDevice ⟨2048, 512⟩ ⟨0, true, 100, 64⟩ := ⟨⟨9, by decide, rfl⟩, by decide, by decide⟩
  have hfits : AccessFits 32668 4096 ⟨2048, 512⟩ ⟨0, true, 100, 64⟩ := .inr (.inr (by decide))
  have hcovers := (hdCalcSectorLoc_covers_iff hdevice ⟨0, 0, 0, 0, 0⟩ (by decide) (by decide)).mpr hfits
  exact ⟨hloc, hcovers (by decide)⟩

/-- A disk of 2048 sectors, read from the second one on with the size 2 ^ 32 - 1: the location has no
sector, and its size is not cut. -/
theorem hdCalcSectorLoc_wraps :
    IsDevice ⟨2048, 512⟩ ⟨0, false, 0, 0⟩ ∧
      hdCalcSectorLoc ⟨0, 0, 0, 0, 0⟩ 512 4294967295 ⟨2048, 512⟩ ⟨0, false, 0, 0⟩ =
        ⟨4294967295, 1, 0, 512, 512⟩ ∧
      ¬ SectorLoc.Covers ⟨4294967295, 1, 0, 512, 512⟩ 512 4294967295 ⟨2048, 512⟩
        ⟨0, false, 0, 0⟩ := by
  refine ⟨⟨⟨9, by decide, rfl⟩, by decide, by decide⟩, by decide +kernel, fun h => ?_⟩
  have hroom := h.room
  dsimp only at hroom
  omega

end Stos.Kernel.Hd
