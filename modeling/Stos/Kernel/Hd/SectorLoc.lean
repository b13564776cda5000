import Mathlib

/-!
# Where an access lies on a disk

`hd_calc_sector_loc` (`kernel/vfs/device/hd/calc_sector_loc.c`). All numbers are `size_t`, of 32 bits.
-/

namespace Stos.Kernel.Hd

/-- The fields of `ata_disk_info_t` that are used. -/
structure AtaDiskInfo where
  sectorsCount : Nat
  sectorSize : Nat
  deriving DecidableEq

/-- The fields of `hd_metadata_t` that say where the device is on its disk. -/
structure HdMetadata where
  diskId : Nat
  isPartition : Bool
  partLbaStart : Nat
  partSectorsCount : Nat
  deriving DecidableEq

/-- `hd_sector_location_t`. -/
structure SectorLoc where
  size : Nat
  lowSectorLba : Nat
  sectorCount : Nat
  lowestSectorByte : Nat
  sectorSize : Nat
  deriving DecidableEq

/-- `sector_align_down` (`calc_sector_loc.c:8-11`). -/
def sectorAlignDown (addr sectorSize : Nat) : Nat :=
  addr &&& (2 ^ 32 - 1 - (sectorSize + 2 ^ 32 - 1) % 2 ^ 32)

/-- `sector_align_up` (`calc_sector_loc.c:13-16`). -/
def sectorAlignUp (addr sectorSize : Nat) : Nat :=
  sectorAlignDown ((addr + sectorSize + 2 ^ 32 - 1) % 2 ^ 32) sectorSize

/-- `hd_calc_sector_loc` (`calc_sector_loc.c:18-72`). Of `*loc`, as it was before, the fields that are
not stored remain. -/
def hdCalcSectorLoc (loc : SectorLoc) (offset size : Nat) (info : AtaDiskInfo) (hd : HdMetadata) :
    SectorLoc :=
  let sectorSize := info.sectorSize
  let lowestSectorByte := sectorAlignDown offset sectorSize
  let highestSectorByte := sectorAlignUp ((offset + size) % 2 ^ 32) sectorSize
  let loc :=
    { loc with size := size, lowestSectorByte := lowestSectorByte, sectorSize := sectorSize }
  if !hd.isPartition then
    let diskSectors := info.sectorsCount
    let loc := { loc with lowSectorLba := lowestSectorByte / sectorSize }
    let highSectorLba := highestSectorByte / sectorSize
    if loc.lowSectorLba ≥ diskSectors then { loc with size := 0 }
    else if highSectorLba > diskSectors then
      { loc with
        size := (diskSectors * sectorSize + 2 ^ 32 - offset) % 2 ^ 32
        sectorCount := (diskSectors + 2 ^ 32 - loc.lowSectorLba) % 2 ^ 32 }
    else { loc with sectorCount := (highSectorLba + 2 ^ 32 - loc.lowSectorLba) % 2 ^ 32 }
  else
    let lowSectorLbaInPart := lowestSectorByte / sectorSize
    let highSectorLbaInPart := highestSectorByte / sectorSize
    let sectorCount := (highSectorLbaInPart + 2 ^ 32 - lowSectorLbaInPart) % 2 ^ 32
    if lowSectorLbaInPart ≥ hd.partSectorsCount then { loc with size := 0 }
    else
      let loc := { loc with lowSectorLba := (lowSectorLbaInPart + hd.partLbaStart) % 2 ^ 32 }
      if highSectorLbaInPart > hd.partSectorsCount then
        { loc with
          size := (hd.partSectorsCount * sectorSize + 2 ^ 32 - offset) % 2 ^ 32
          sectorCount := (sectorCount + 2 ^ 32 -
            (highSectorLbaInPart + 2 ^ 32 - hd.partSectorsCount) % 2 ^ 32) % 2 ^ 32 }
      else { loc with sectorCount := sectorCount }

/-! ## What a location is for -/

/-- The first sector of the device. -/
def HdMetadata.first (hd : HdMetadata) : Nat := if hd.isPartition then hd.partLbaStart else 0

/-- The number of sectors of the device. -/
def HdMetadata.sectors (hd : HdMetadata) (info : AtaDiskInfo) : Nat :=
  if hd.isPartition then hd.partSectorsCount else info.sectorsCount

/-- A disk, or a partition that lies on it. -/
structure IsDevice (info : AtaDiskInfo) (hd : HdMetadata) : Prop where
  sectorSize : ∃ k < 16, info.sectorSize = 2 ^ k
  sectorsCount : info.sectorsCount < 2 ^ 32
  inside : hd.first + hd.sectors info ≤ info.sectorsCount

/-- The location is in the device, has room for the bytes of the access, and has all of those that the
device has. -/
structure SectorLoc.Covers (loc : SectorLoc) (offset size : Nat) (info : AtaDiskInfo)
    (hd : HdMetadata) : Prop where
  first : hd.first ≤ loc.lowSectorLba
  last : loc.lowSectorLba + loc.sectorCount ≤ hd.first + hd.sectors info
  room : offset - loc.lowestSectorByte + loc.size ≤ loc.sectorCount * loc.sectorSize
  cut : loc.size = min size (hd.sectors info * info.sectorSize - offset)

/-- The access has no bytes, begins behind the end of the device, or ends, rounded up to a sector, below
2 ^ 32. -/
def AccessFits (offset size : Nat) (info : AtaDiskInfo) (hd : HdMetadata) : Prop :=
  size = 0 ∨ hd.sectors info ≤ offset / info.sectorSize ∨ offset + size + info.sectorSize ≤ 2 ^ 32

end Stos.Kernel.Hd
