import Stos.Misc.LittleEndian

/-!
# Directory records

`ext2_dir_entry_t` (`kernel/vfs/mount/ext2/ext2.h`) and the loops of `ext2_finddir` and `ext2_readdir`
over the cached contents of a directory. What is behind the contents in memory is arbitrary. The
loops also return which parts of the memory they have looked at.
-/

namespace Stos.Kernel.Ext2

/-- The header of an `ext2_dir_entry_t` (`ext2.h:80-86`). -/
structure DirEntry where
  inode : Nat
  recLen : Nat
  nameLen : Nat
  fileType : Nat
  deriving DecidableEq

/-- The header at an address. -/
def dirEntryAt (m : Mem) (a : Nat) : DirEntry where
  inode := readLE m a 4
  recLen := readLE m (a + 4) 2
  nameLen := readLE m (a + 6) 1
  fileType := readLE m (a + 7) 1

/-- The name of the record at an address. -/
def dirNameAt (m : Mem) (a : Nat) : List (BitVec 8) := takeBytes m (a + 8) (dirEntryAt m a).nameLen

/-- The result of a loop, with the address and the length of each part that it has looked at. -/
structure Search (α : Type) where
  result : α
  looked : List (Nat × Nat)
  deriving DecidableEq

/-- The parts that were looked at before are added. -/
def Search.after {α : Type} (looked : List (Nat × Nat)) (r : Search α) : Search α :=
  { r with looked := looked ++ r.looked }

/-- All parts are below the limit. -/
def Search.Within {α : Type} (size : Nat) (r : Search α) : Prop := ∀ p ∈ r.looked, p.1 + p.2 ≤ size

instance {α : Type} (size : Nat) (r : Search α) : Decidable (r.Within size) :=
  inferInstanceAs (Decidable (∀ p ∈ r.looked, _))

section Loops

variable (m : Mem) (size : Nat)

/-- The loop of `ext2_finddir` (`finddir.c:36-50`): the offset and the inode of the record that was
found. `none` if the fuel runs out. -/
def finddirLoop (name : List (BitVec 8)) : (fuel offset : Nat) → Option (Search (Option (Nat × Nat)))
  | 0, _ => none
  | fuel + 1, offset =>
    if offset < size then
      let entry := dirEntryAt m offset
      let next := (offset + entry.recLen) % 2 ^ 32
      if entry.recLen = 0 then some ⟨none, [(offset, 8)]⟩
      else if entry.inode ≠ 0 ∧ entry.nameLen = name.length then
        if dirNameAt m offset = name then
          some ⟨some (offset, entry.inode), [(offset, 8), (offset + 8, entry.nameLen)]⟩
        else (finddirLoop name fuel next).map (.after [(offset, 8), (offset + 8, entry.nameLen)])
      else (finddirLoop name fuel next).map (.after [(offset, 8)])
    else some ⟨none, []⟩

/-- A name in `ext2_finddir`, with fuel for a turn for every byte. -/
def finddir (name : List (BitVec 8)) : Option (Search (Option (Nat × Nat))) :=
  finddirLoop m size name (size + 1) 0

/-- The loop of `ext2_readdir` (`readdir.c:35-67`): the offset, the inode and the bytes of the name.
`VFS_MAX_FILENAME` is 256. -/
def readdirLoop (index : Nat) :
    (fuel offset count : Nat) → Option (Search (Option (Nat × Nat × List (BitVec 8))))
  | 0, _, _ => none
  | fuel + 1, offset, count =>
    if offset < size then
      let entry := dirEntryAt m offset
      let next := (offset + entry.recLen) % 2 ^ 32
      if entry.recLen = 0 then some ⟨none, [(offset, 8)]⟩
      else if entry.inode ≠ 0 then
        if count = index then
          let nl := if entry.nameLen < 255 then entry.nameLen else 255
          some ⟨some (offset, entry.inode, takeBytes m (offset + 8) nl),
            [(offset, 8), (offset + 8, nl)]⟩
        else (readdirLoop index fuel next (count + 1)).map (.after [(offset, 8)])
      else (readdirLoop index fuel next count).map (.after [(offset, 8)])
    else some ⟨none, []⟩

/-- An index in `ext2_readdir`. -/
def readdir (index : Nat) : Option (Search (Option (Nat × Nat × List (BitVec 8)))) :=
  readdirLoop m size index (size + 1) 0 0

/-! ## The records -/

/-- The offsets of the records up to the end or to a record without a length. -/
def dirOffsets : (fuel offset : Nat) → List Nat
  | 0, _ => []
  | fuel + 1, offset =>
    if offset < size then
      offset ::
        if (dirEntryAt m offset).recLen = 0 then []
        else dirOffsets fuel (offset + (dirEntryAt m offset).recLen)
    else []

/-- A record with a length and an inode. -/
def IsLive (offset : Nat) : Prop := (dirEntryAt m offset).recLen ≠ 0 ∧ (dirEntryAt m offset).inode ≠ 0

instance (offset : Nat) : Decidable (IsLive m offset) := inferInstanceAs (Decidable (_ ∧ _))

/-- The offsets of the live records. -/
def liveOffsets : List Nat := (dirOffsets m size (size + 1) 0).filter fun o => IsLive m o

/-- The string that a sequence of bytes with a zero behind it stands for. -/
def cString (bytes : List (BitVec 8)) : List (BitVec 8) := bytes.takeWhile (· ≠ 0)

/-- Both loops end for all arguments and stay in the contents, and what `ext2_readdir` lists is found
by `ext2_finddir`, not behind it. The names are strings, without a zero in them. -/
structure WalksSafely : Prop where
  finds : ∀ name, 0 ∉ name → ∃ r, finddir m size name = some r ∧ r.Within size
  lists : ∀ index, ∃ r, readdir m size index = some r ∧ r.Within size
  agree : ∀ index r offset inode bytes, readdir m size index = some r →
    r.result = some (offset, inode, bytes) →
      ∃ r' offset' inode', finddir m size (cString bytes) = some r' ∧
        r'.result = some (offset', inode') ∧ offset' ≤ offset

/-- The header of each record is in the contents, and so is the name of each live one; the part of the
name before its first zero, if it has one, is the name of a live record that is not behind it. -/
structure RecordsFit : Prop where
  headers : ∀ o ∈ dirOffsets m size (size + 1) 0, o + 8 ≤ size
  names : ∀ o ∈ liveOffsets m size, o + 8 + (dirEntryAt m o).nameLen ≤ size
  zeros : ∀ o ∈ liveOffsets m size, 0 ∈ dirNameAt m o →
    ∃ o' ∈ liveOffsets m size, o' < o ∧ dirNameAt m o' = cString (dirNameAt m o)

end Loops

end Stos.Kernel.Ext2
