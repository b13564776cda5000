import Stos.Kernel.ElfFile
import Stos.Kernel.Proofs.SpaceRuns

/-!
# Bounds of ELF files

Which files `task_exec` loads without leaving their bounds. The functions of the loader check none of
the offsets, sizes and counts in a file.
-/

namespace Stos.Kernel

open List ElfSegment

variable {α β : Type} {file file' : Mem} {len n off size vaddr : Nat} {elf : Elf} {seg : ElfSegment}
  {s : Machine}

/-- A range of offsets is in the file if its bytes are. -/
theorem fieldIn_iff (hlen : len < 2 ^ 32) (hsize : 0 < size) :
    (∀ j < size, (off + j) % 2 ^ 32 < len) ↔ FieldIn len off size := by
  unfold FieldIn
  constructor
  · intro h
    by_contra hlong
    have hlast := h (len - off % 2 ^ 32) (by omega)
    omega
  · intro h j hj
    omega

namespace Reading

theorem within_pure (a : α) : (pure a : Reading α).Within len ↔ True :=
  ⟨fun _ => trivial, fun _ _ hn => nomatch hn⟩

theorem within_bind (x : Reading α) (f : α → Reading β) :
    (x >>= f).Within len ↔ x.Within len ∧ (f x.val).Within len := by
  constructor
  · exact fun h => ⟨fun n hn => h n (mem_append_left _ hn),
      fun n hn => h n (mem_append_right _ hn)⟩
  · rintro ⟨hx, hf⟩ n hn
    exact (mem_append.mp hn).elim (hx n) (hf n)

theorem within_forRange (f : Nat → Reading α) :
    (forRange n f).Within len ↔ ∀ i < n, (f i).Within len := by
  constructor
  · exact fun h i hi k hk => h k (mem_flatMap.mpr ⟨i, mem_range.mpr hi, hk⟩)
  · intro h k hk
    obtain ⟨i, hi, hk⟩ := mem_flatMap.mp hk
    exact h i (mem_range.mp hi) k hk

theorem within_ite {p : Prop} [Decidable p] (x y : Reading α) :
    (if p then x else y).Within len ↔ (p → x.Within len) ∧ (¬ p → y.Within len) := by
  by_cases hp : p <;> simp [hp]

theorem val_bind (x : Reading α) (f : α → Reading β) : (x >>= f).val = (f x.val).val := rfl

theorem val_pure (a : α) : (pure a : Reading α).val = a := rfl

end Reading

open Reading

theorem readField_within (hlen : len < 2 ^ 32) (hsize : 0 < size) :
    (readField file off size).Within len ↔ FieldIn len off size := by
  rw [← fieldIn_iff hlen hsize]
  constructor
  · exact fun h j hj => h _ (mem_map.mpr ⟨j, mem_range.mpr hj, rfl⟩)
  · intro h k hk
    obtain ⟨j, hj, rfl⟩ := mem_map.mp hk
    exact h j (mem_range.mp hj)

/-- The checks of the header read no further than its first 20 bytes. -/
theorem checkFields_within {cs : List FieldCheck} (hcs : ∀ c ∈ cs, c.off + c.size ≤ len) (hlen : len < 2 ^ 32)
    (hsize : ∀ c ∈ cs, 0 < c.size) : (checkFields file cs).Within len := by
  induction cs with
  | nil => exact (within_pure true).mpr trivial
  | cons c cs ih =>
    have hc := hcs c mem_cons_self
    rw [checkFields, within_bind, readField_within hlen (hsize c mem_cons_self), within_ite]
    refine ⟨?_, fun _ => ih (fun c hc => hcs c (mem_cons_of_mem _ hc))
      fun c hc => hsize c (mem_cons_of_mem _ hc), fun _ => (within_pure false).mpr trivial⟩
    unfold FieldIn
    omega

section Header

variable (hlen : len < 2 ^ 32) (hheader : 50 ≤ len)
include hlen hheader

theorem headerField_within (hsize : 0 < size) (hend : off + size ≤ 50) :
    (readField file off size).Within len := by
  rw [readField_within hlen hsize]
  unfold FieldIn
  omega

theorem tableEntry_within {pointer entrySize : Nat} (hpointer : pointer + 4 ≤ 50)
    (hentry : entrySize + 2 ≤ 50) (i : Nat) : (tableEntry file pointer entrySize i).Within len := by
  rw [tableEntry, within_bind, within_bind, within_pure]
  exact ⟨headerField_within hlen hheader (by decide) hpointer,
    headerField_within hlen hheader (by decide) hentry, trivial⟩

theorem phtEntry_within (i : Nat) : (phtEntry file i).Within len :=
  tableEntry_within hlen hheader (by decide) (by decide) i

theorem shtEntry_within (i : Nat) : (shtEntry file i).Within len :=
  tableEntry_within hlen hheader (by decide) (by decide) i

theorem validatePht_within (i : Nat) :
    (validatePht file i).Within len ↔
      FieldIn len (phtEntry file i).val 4 ∧
        ((readField file (phtEntry file i).val 4).val ≠ 0 →
          FieldIn len ((phtEntry file i).val + 24) 4) := by
  simp only [validatePht, within_bind, within_ite, within_pure, implies_true, true_and, and_true,
    phtEntry_within hlen hheader, readField_within hlen (show 0 < 4 by decide)]

theorem validateSht_within (i : Nat) :
    (validateSht file i).Within len ↔
      FieldIn len ((shtEntry file i).val + 4) 4 ∧
        ((readField file ((shtEntry file i).val + 4) 4).val ≠ 0 →
          FieldIn len ((shtEntry file i).val + 8) 4) := by
  simp only [validateSht, within_bind, within_ite, within_pure, implies_true, true_and, and_true,
    shtEntry_within hlen hheader, readField_within hlen (show 0 < 4 by decide)]

theorem parsePht_within (i : Nat) :
    (parsePht file i).Within len ↔
      FieldIn len (phtEntry file i).val 4 ∧
        ((readField file (phtEntry file i).val 4).val = 1 →
          (∀ f ∈ [4, 8, 16, 20], FieldIn len ((phtEntry file i).val + f) 4) ∧
            FieldIn len ((phtEntry file i).val + 24) 4) := by
  simp only [parsePht, within_bind, within_ite, within_pure, implies_true, true_and, and_true,
    phtEntry_within hlen hheader, readField_within hlen (show 0 < 4 by decide),
    forall_mem_cons, not_mem_nil, false_implies]
  refine and_congr_right fun _ => imp_congr_right fun _ => ⟨?_, ?_⟩
  · rintro ⟨h8, h20, h16, h4, h24⟩
    exact ⟨⟨h4, h8, h16, h20⟩, h24⟩
  · rintro ⟨⟨h4, h8, h16, h20⟩, h24⟩
    exact ⟨h8, h20, h16, h4, h24⟩

end Header

/-- A valid file has a valid header. -/
theorem elfValidate_header (h : (elfValidate file).val = true) :
    (checkFields file headerChecks).val = true := by
  rw [elfValidate, val_bind] at h
  split at h
  case isTrue hheader => exact hheader
  case isFalse => cases h

/-- What `elf_validate` reads of a valid file. -/
theorem elfValidate_within (hlen : len < 2 ^ 32) (hvalid : (elfValidate file).val = true) :
    (elfValidate file).Within len ↔
      50 ≤ len ∧ (∀ i < (readField file 44 2).val, (validatePht file i).Within len) ∧
        ∀ i < (readField file 48 2).val, (validateSht file i).Within len := by
  rw [elfValidate, within_bind, if_pos (elfValidate_header hvalid)]
  simp only [within_bind, within_forRange, within_pure, and_true,
    readField_within hlen (show 0 < 2 by decide)]
  constructor
  · rintro ⟨-, -, hpht, hsht, hshts⟩
    exact ⟨hsht, hpht, hshts⟩
  · rintro ⟨hheader, hpht, hsht⟩
    refine ⟨checkFields_within ?_ hlen (by decide), ?_, hpht, hheader, hsht⟩
    · intro c hc
      have hend : ∀ c ∈ headerChecks, c.off + c.size ≤ 20 := by decide
      exact (hend c hc).trans (by omega)
    · unfold FieldIn
      omega

theorem elfParse_eq_some (h : (elfParse file).val = some elf) :
    (elfValidate file).val = true ∧ elf.segments =
      (Reading.forRange (readField file 44 2).val (parsePht file)).val.filterMap id := by
  rw [elfParse, val_bind] at h
  split at h
  case isTrue hvalid =>
    cases h
    exact ⟨hvalid, rfl⟩
  case isFalse => cases h

/-- What `elf_parse` reads of a valid file. -/
theorem elfParse_within (hlen : len < 2 ^ 32) (h : (elfParse file).val = some elf) :
    (elfParse file).Within len ↔
      (elfValidate file).Within len ∧ 50 ≤ len ∧
        ∀ i < (readField file 44 2).val, (parsePht file i).Within len := by
  obtain ⟨hvalid, -⟩ := elfParse_eq_some h
  rw [elfParse, within_bind, if_pos hvalid]
  simp only [within_bind, within_forRange, within_pure, and_true,
    readField_within hlen (show 0 < 2 by decide), readField_within hlen (show 0 < 4 by decide)]
  refine and_congr_right fun hwithin => ?_
  have hheader := ((elfValidate_within hlen hvalid).mp hwithin).1
  constructor
  · rintro ⟨-, -, hpht⟩
    exact ⟨hheader, hpht⟩
  · rintro ⟨-, hpht⟩
    refine ⟨?_, ?_, hpht⟩
    · unfold FieldIn
      omega
    · unfold FieldIn
      omega

/-! ## The segments -/

theorem ElfSegment.bytesToCopy_pos (h : seg.pageOffset vaddr < seg.filesz) :
    0 < seg.bytesToCopy vaddr := by
  unfold bytesToCopy
  split
  · omega
  · decide

theorem ElfSegment.pageUses_lt_iff (hlen : len < 2 ^ 32) :
    (∀ n ∈ seg.pageUses vaddr, n < len) ↔ (seg.pageOffset vaddr < seg.filesz →
      FieldIn len (seg.offset + seg.pageOffset vaddr) (seg.bytesToCopy vaddr)) := by
  unfold pageUses
  split
  case isTrue h =>
    rw [← fieldIn_iff hlen (bytesToCopy_pos h)]
    simp only [forall_mem_map, mem_range, h, true_implies]
  case isFalse h => exact ⟨fun _ hlt => absurd hlt h, fun _ n hn => nomatch hn⟩

/-- Segments that are loaded begin in user space. -/
theorem elfLoadSegments_inUserspace (h : (s.elfLoadSegments file elf).1 = true)
    (hseg : seg ∈ elf.segments) :
    seg.vaddr < vmmUserEnd ∧ (seg.vaddr + seg.memsz) % 2 ^ 32 < vmmUserEnd := by
  unfold Machine.elfLoadSegments at h
  split at h
  · cases h
  split at h
  · cases h
  case isFalse hall =>
    simp only [any_eq_true, not_exists, not_and, Bool.not_eq_true, Bool.or_eq_false_iff,
      Bool.not_eq_false', inUserspace, decide_eq_true_eq] at hall
    exact hall seg hseg

/-- The pages of a segment are in user space if the last one ends there. -/
theorem ElfSegment.pages_lt_iff (hstart : seg.vaddr < vmmUserEnd) :
    (∀ p < seg.numPages, seg.pageAddr p < vmmUserEnd) ↔
      seg.vaddrStart + seg.numPages * 4096 ≤ vmmUserEnd := by
  have hend : vmmUserEnd = 0x40000000 := rfl
  unfold pageAddr
  have hvaddr : seg.vaddrStart % 4096 = 0 ∧ seg.vaddrStart ≤ seg.vaddr := by
    unfold vaddrStart
    omega
  constructor
  · intro h
    by_contra hlong
    have := h ((0x40000000 - seg.vaddrStart) / 4096) (by omega)
    omega
  · intro h p hp
    omega

/-! ## Which files are handled -/

theorem elfSafe_iff (hlen : len < 2 ^ 32) (hparse : (elfParse file).val = some elf)
    (hload : (s.elfLoadSegments file elf).1 = true) :
    ElfSafe file len elf ↔ ElfFits file len elf := by
  obtain ⟨hvalid, -⟩ := elfParse_eq_some hparse
  constructor
  · rintro ⟨hparsed, hloaded, hcount, hpages⟩
    rw [elfParse_within hlen hparse, elfValidate_within hlen hvalid] at hparsed
    obtain ⟨⟨hheader, hpht, hsht⟩, -, hparsed⟩ := hparsed
    refine ⟨hheader, fun i hi => ?_, fun i hi => ?_, hcount, fun seg hseg p hp => ?_,
      fun seg hseg => ?_⟩
    · obtain ⟨htype, hflags⟩ := (validatePht_within hlen hheader i).mp (hpht i hi)
      obtain ⟨-, hload⟩ := (parsePht_within hlen hheader i).mp (hparsed i hi)
      exact ⟨_, _, rfl, rfl, htype, hflags, fun h => (hload h).1⟩
    · obtain ⟨htype, hflags⟩ := (validateSht_within hlen hheader i).mp (hsht i hi)
      exact ⟨_, _, rfl, rfl, htype, hflags⟩
    · refine (pageUses_lt_iff hlen).mp fun n hn => hloaded n ?_
      exact mem_flatMap.mpr
        ⟨seg, hseg, mem_flatMap.mpr ⟨p, mem_range.mpr hp, hn⟩⟩
    · refine (pages_lt_iff (elfLoadSegments_inUserspace hload hseg).1).mp fun p hp => ?_
      exact hpages _ (mem_flatMap.mpr
        ⟨seg, hseg, mem_map.mpr ⟨p, mem_range.mpr hp, rfl⟩⟩)
  · rintro ⟨hheader, hpht, hsht, hcount, hbytes, hlast⟩
    refine ⟨?_, fun n hn => ?_, hcount, fun a ha => ?_⟩
    · rw [elfParse_within hlen hparse, elfValidate_within hlen hvalid]
      refine ⟨⟨hheader, fun i hi => ?_, fun i hi => ?_⟩, hheader, fun i hi => ?_⟩
      · obtain ⟨_, _, rfl, rfl, htype, hflags, -⟩ := hpht i hi
        exact (validatePht_within hlen hheader i).mpr ⟨htype, hflags⟩
      · obtain ⟨_, _, rfl, rfl, htype, hflags⟩ := hsht i hi
        exact (validateSht_within hlen hheader i).mpr ⟨htype, hflags⟩
      · obtain ⟨_, _, rfl, rfl, htype, hflags, hfields⟩ := hpht i hi
        refine (parsePht_within hlen hheader i).mpr ⟨htype, fun h => ⟨hfields h, hflags ?_⟩⟩
        rw [h]
        decide
    · obtain ⟨seg, hseg, hn⟩ := mem_flatMap.mp hn
      obtain ⟨p, hp, hn⟩ := mem_flatMap.mp hn
      exact (pageUses_lt_iff hlen).mpr (hbytes seg hseg p (mem_range.mp hp)) n hn
    · obtain ⟨seg, hseg, ha⟩ := mem_flatMap.mp ha
      obtain ⟨p, hp, rfl⟩ := mem_map.mp ha
      exact (pages_lt_iff (elfLoadSegments_inUserspace hload hseg).1).mpr (hlast seg hseg)
        p (mem_range.mp hp)

/-- A header and one program header, of a segment of `size` bytes that is at `offset` in the file and
is loaded at `vaddr`. -/
def smallElf (vaddr offset size : Nat) : List (BitVec 8) :=
  [0x7F, 0x45, 0x4C, 0x46, 1, 1, 1, 0, 0, 0, 0, 0, 0, 0, 0, 0, 2, 0, 3, 0] ++
    wordsBytes [1, .ofNat 32 vaddr, 52, 0, 0] ++ [52, 0, 32, 0, 1, 0, 40, 0, 0, 0, 0, 0] ++
      wordsBytes [1, .ofNat 32 offset, .ofNat 32 vaddr, 0, .ofNat 32 size, .ofNat 32 size, 7, 4096]

/-- The memory at a small file; all bytes after the program header are 42. -/
def smallFile (vaddr offset size : Nat) : Mem := fun n => ((smallElf vaddr offset size)[n]?).getD 42

end Stos.Kernel
