import Stos.Misc.LittleEndian

/-!
# Mounting an ISO 9660 device

The loop over the volume descriptors in `kernel/kernel/vfs/mount/iso9660/iso9660.c`. The loop ends
only with what it finds on the device, so its model has fuel.
-/

namespace Stos.Kernel.Iso9660

/-! ## The code -/

/-- The device file. -/
structure Device where
  length : Nat
  bytes : Mem

/-- The offset of the open device file, and the buffer of the mounting task. -/
structure Reader where
  offset : Nat
  buffer : Mem

/-- Results of a mount (mount.h). -/
inductive MountResult
  | success
  | nullPointer
  | deviceNotInFormat
deriving DecidableEq

inductive Handler
  | isoReaddir
  | isoFinddir
  | other (address : Nat)

/-- The inode of the target directory; `metadata` is an address. -/
structure Target where
  metadata : Nat
  readdirNode : Handler
  finddirNode : Handler

/-- `iso9660_node_t` (iso9660.h:13-18). -/
structure Iso9660Node where
  extentLba : Nat
  extentSize : Nat

/-- The target and the nodes in kernel memory. -/
structure Mount where
  target : Target
  nodes : Nat → Iso9660Node

section Code

variable (dev : Device) (kmalloc : Nat → Nat)

/-- `vfs_read` of one sector (vfs.c:187-201). The handler gets the offset as a `size_t`, and copies
what the device has from there on. -/
def vfsRead (r : Reader) : Reader :=
  let start := r.offset % 2 ^ 32
  let bytes := min 2048 (dev.length - start)
  ⟨r.offset + bytes, fun i => if i < bytes then dev.bytes (start + i) else r.buffer i⟩

/-- `validate_volume_descriptor` (iso9660.c:87-101). -/
def validateVolumeDescriptor (buffer : Mem) : Bool :=
  buffer 1 = 67 && buffer 2 = 68 && buffer 3 = 48 && buffer 4 = 48 && buffer 5 = 49 && buffer 6 = 1

/-- A primary volume descriptor gives the target its directory (iso9660.c:348-361). -/
def mountPrimary (address : Nat) (buffer : Mem) (m : Mount) : Mount where
  target := ⟨address, .isoReaddir, .isoFinddir⟩
  nodes := Function.update m.nodes address ⟨readLE buffer 158 4, readLE buffer 166 4⟩

/-- The loop of `run_mounting_task` (iso9660.c:334-363). In round `n` the allocator is asked for the
address `kmalloc n`. -/
def mountLoop : Nat → Nat → Reader → Mount → Option (MountResult × Mount)
  | 0, _, _, _ => none
  | fuel + 1, n, r, m =>
    let r := vfsRead dev r
    if validateVolumeDescriptor r.buffer = false then some (.deviceNotInFormat, m)
    else
      let m := if r.buffer 0 = 1 then mountPrimary (kmalloc n) r.buffer m else m
      if r.buffer 0 = 255 then some (.success, m) else mountLoop fuel (n + 1) r m

/-- `vfs_mount_iso9660` (iso9660.c:369-422); `opens` tells whether the device file can be opened, and
`buffer` is what the new buffer of the task holds. -/
def vfsMountIso9660 (opens : Bool) (buffer : Mem) (fuel : Nat) (m : Mount) :
    Option (MountResult × Mount) :=
  if dev.length < 0x11 * 2048 then some (.deviceNotInFormat, m)
  else if opens = false then some (.nullPointer, m)
  else mountLoop dev kmalloc fuel 0 ⟨0x10 * 2048, buffer⟩ m

end Code

/-! ## Termination and undo -/

/-- The `n`th sector that is read, as it is found in the buffer. -/
def descriptor (dev : Device) (r : Reader) (n : Nat) : Mem := ((vfsRead dev)^[n + 1] r).buffer

/-- A valid descriptor that is not the terminator. -/
def Passed (buffer : Mem) : Prop := validateVolumeDescriptor buffer = true ∧ buffer 0 ≠ 255

/-- Descriptor `k` is the terminator, or it is invalid and none before it is primary. -/
def EndsAt (descriptors : Nat → Mem) (k : Nat) : Prop :=
  (∀ j < k, Passed (descriptors j)) ∧
    (validateVolumeDescriptor (descriptors k) = true ∧ descriptors k 0 = 255 ∨
      validateVolumeDescriptor (descriptors k) = false ∧ ∀ j < k, descriptors j 0 ≠ 1)

/-- The call returns, and an error leaves the target as it was. -/
def Undoes (dev : Device) (kmalloc : Nat → Nat) (opens : Bool) (buffer : Mem) (m : Mount) : Prop :=
  ∃ fuel result m', vfsMountIso9660 dev kmalloc opens buffer fuel m = some (result, m') ∧
    (result ≠ .success → m'.target = m.target)

theorem endsAt_succ {descriptors : Nat → Mem} {k : Nat} :
    EndsAt descriptors (k + 1) ↔ Passed (descriptors 0) ∧
      EndsAt (fun j => descriptors (j + 1)) k ∧
      (validateVolumeDescriptor (descriptors (k + 1)) = false → descriptors 0 0 ≠ 1) := by
  unfold EndsAt
  rw [Nat.forall_lt_succ_left, Nat.forall_lt_succ_left]
  cases validateVolumeDescriptor (descriptors (k + 1)) <;> simp <;> tauto

section Loop

variable {dev : Device} {kmalloc : Nat → Nat} {t : Target} {r : Reader} {m m' : Mount}
  {result : MountResult} {fuel n k : Nat}

/-- The round for a descriptor that is passed. -/
theorem mountLoop_passed (h : Passed (descriptor dev r 0)) :
    mountLoop dev kmalloc (fuel + 1) n r m = mountLoop dev kmalloc fuel (n + 1) (vfsRead dev r)
      (if descriptor dev r 0 0 = 1 then mountPrimary (kmalloc n) (descriptor dev r 0) m else m) := by
  obtain ⟨hvalid, hnot⟩ := h
  rw [mountLoop]
  exact (if_neg (ne_false_of_eq_true hvalid)).trans (if_neg hnot)

/-- The loop ends in its round `k`. -/
theorem mountLoop_ends (n : Nat) (h : EndsAt (descriptor dev r) k)
    (hm : validateVolumeDescriptor (descriptor dev r k) = false → m.target = t) :
    ∃ result m', mountLoop dev kmalloc (k + 1) n r m = some (result, m') ∧
      (result ≠ .success → m'.target = t) := by
  induction k generalizing n r m with
  | zero =>
    rw [mountLoop]
    rcases h.2 with ⟨hvalid, hend⟩ | ⟨hinvalid, -⟩
    · exact ⟨_, _, (if_neg (ne_false_of_eq_true hvalid)).trans (if_pos hend), (absurd rfl ·)⟩
    · exact ⟨_, _, if_pos hinvalid, fun _ => hm hinvalid⟩
  | succ k ih =>
    obtain ⟨hpassed, hends, hfirst⟩ := endsAt_succ.mp h
    rw [mountLoop_passed hpassed]
    refine ih (n + 1) hends fun hinvalid => ?_
    rw [if_neg (hfirst hinvalid)]
    exact hm hinvalid

/-- A loop that ends with success or an unchanged target read such descriptors. -/
theorem endsAt_of_mountLoop (hfresh : ∀ n, kmalloc n ≠ t.metadata)
    (run : mountLoop dev kmalloc fuel n r m = some (result, m'))
    (hundo : result ≠ .success → m'.target = t) :
    ∃ k, EndsAt (descriptor dev r) k ∧
      (validateVolumeDescriptor (descriptor dev r k) = false → m.target = t) := by
  induction fuel generalizing n r m with
  | zero => cases run
  | succ fuel ih =>
    cases hvalid : validateVolumeDescriptor (descriptor dev r 0) with
    | false =>
      have hrun : some (MountResult.deviceNotInFormat, m) = some (result, m') := by
        rw [← run, mountLoop]
        exact (if_pos hvalid).symm
      cases hrun
      exact ⟨0, ⟨nofun, .inr ⟨hvalid, nofun⟩⟩, fun _ => hundo nofun⟩
    | true =>
      by_cases hend : descriptor dev r 0 0 = 255
      · exact ⟨0, ⟨nofun, .inl ⟨hvalid, hend⟩⟩, fun h => absurd h (ne_false_of_eq_true hvalid)⟩
      rw [mountLoop_passed ⟨hvalid, hend⟩] at run
      obtain ⟨k, hends, hm⟩ := ih run
      have hfirst : validateVolumeDescriptor (descriptor dev r (k + 1)) = false →
          descriptor dev r 0 0 ≠ 1 := by
        intro hinvalid hprimary
        have ht := hm hinvalid
        rw [if_pos hprimary] at ht
        exact hfresh n (congrArg Target.metadata ht)
      refine ⟨k + 1, endsAt_succ.mpr ⟨⟨hvalid, hend⟩, hends, hfirst⟩, fun hinvalid => ?_⟩
      have ht := hm hinvalid
      rwa [if_neg (hfirst hinvalid)] at ht

/-- The mount returns and undoes its changes exactly if the device is too small, cannot be opened,
or has descriptors that end well. -/
theorem vfsMountIso9660_undoes_iff {opens : Bool} {buffer : Mem}
    (hfresh : ∀ n, kmalloc n ≠ m.target.metadata) :
    Undoes dev kmalloc opens buffer m ↔ dev.length < 0x11 * 2048 ∨ opens = false ∨
      ∃ k, EndsAt (descriptor dev ⟨0x10 * 2048, buffer⟩) k := by
  unfold Undoes vfsMountIso9660
  by_cases hsmall : dev.length < 0x11 * 2048
  · simp [hsmall]
  cases opens with
  | false => simp [hsmall]
  | true =>
    simp only [hsmall, Bool.true_eq_false, if_false, false_or]
    constructor
    · rintro ⟨fuel, result, m', run, hundo⟩
      obtain ⟨k, hends, -⟩ := endsAt_of_mountLoop hfresh run hundo
      exact ⟨k, hends⟩
    · rintro ⟨k, hends⟩
      exact ⟨k + 1, mountLoop_ends 0 hends fun _ => rfl⟩

end Loop

/-- A device with one descriptor of the given type behind the system area, and zeros. -/
def oneDescriptor (type : BitVec 8) : Device where
  length := 0x12 * 2048
  bytes a := [type, 67, 68, 48, 48, 49, 1].getD (a - 0x10 * 2048) 0

/-- A target without a file system. -/
def plainMount : Mount := ⟨⟨0, .other 0, .other 0⟩, fun _ => ⟨0, 0⟩⟩

theorem vfsMountIso9660_undoes_terminator :
    Undoes (oneDescriptor 255) (· + 1) true (fun _ => 0) plainMount :=
  (vfsMountIso9660_undoes_iff (by simp [plainMount])).mpr
    (.inr (.inr ⟨0, nofun, .inl (by decide +kernel)⟩))

/-- A primary descriptor and then none at all: the call fails, and the target has changed. -/
theorem vfsMountIso9660_changed :
    ∃ m', vfsMountIso9660 (oneDescriptor 1) (· + 1) true (fun _ => 0) 2 plainMount =
      some (.deviceNotInFormat, m') ∧ m'.target.metadata = 1 ∧ plainMount.target.metadata = 0 :=
  ⟨_, rfl, rfl, rfl⟩

end Stos.Kernel.Iso9660
