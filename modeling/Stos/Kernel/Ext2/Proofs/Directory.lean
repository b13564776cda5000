import Stos.Kernel.Ext2.Directory

/-!
# Directory records: proofs

Both loops go through the same records, whose offsets grow. They stay in the contents of the directory
just when the records do.
-/

namespace Stos.Kernel.Ext2

open List Option Nat

variable {m : Mem} {size fuel offset o : Nat} {offsets : List Nat} {p : Nat × Nat}
  {bytes : List (BitVec 8)}

theorem recLen_lt (m : Mem) (o : Nat) : (dirEntryAt m o).recLen < 2 ^ 16 := readLE_lt m (o + 4) 2

theorem nameLen_lt (m : Mem) (o : Nat) : (dirEntryAt m o).nameLen < 2 ^ 8 := readLE_lt m (o + 6) 1

theorem dirName_length (m : Mem) (o : Nat) : (dirNameAt m o).length = (dirEntryAt m o).nameLen :=
  takeBytes_length m (o + 8) _

/-- The offset of the next record does not wrap around. -/
theorem next_eq (hsize : size ≤ 2 ^ 32 - 2 ^ 16) (ho : o < size) :
    (o + (dirEntryAt m o).recLen) % 2 ^ 32 = o + (dirEntryAt m o).recLen := by
  have := recLen_lt m o
  exact mod_eq_of_lt (by omega)

/-- The parts of a record that a loop looks at. -/
def Part (m : Mem) (offsets : List Nat) (p : Nat × Nat) : Prop :=
  ∃ o ∈ offsets, p = (o, 8) ∨ IsLive m o ∧ p = (o + 8, (dirEntryAt m o).nameLen)

theorem Part.cons (o : Nat) (h : Part m offsets p) : Part m (o :: offsets) p := by
  obtain ⟨o', ho', hp⟩ := h
  exact ⟨o', mem_cons_of_mem o ho', hp⟩

/-- A loop looks at the header of a record, -/
theorem Part.header (offsets : List Nat) (hp : p ∈ [(o, 8)]) : Part m (o :: offsets) p :=
  ⟨o, mem_cons_self, .inl (mem_singleton.mp hp)⟩

/-- and at the name of a live one. -/
theorem Part.record (h : IsLive m o) (offsets : List Nat)
    (hp : p ∈ [(o, 8), (o + 8, (dirEntryAt m o).nameLen)]) : Part m (o :: offsets) p := by
  rcases mem_cons.mp hp with rfl | hp
  · exact Part.header _ mem_cons_self
  · exact ⟨o, mem_cons_self, .inr ⟨h, mem_singleton.mp hp⟩⟩

/-- All headers are looked at if those of the rest are. -/
theorem mem_looked_cons {looked : List (Nat × Nat)} {o' : Nat} (ho : o' ∈ o :: offsets)
    (hall : ∀ o' ∈ offsets, (o', 8) ∈ looked) : (o', 8) ∈ [(o, 8)] ++ looked := by
  rcases mem_cons.mp ho with rfl | ho
  · exact mem_cons_self
  · exact mem_cons_of_mem _ (hall o' ho)

/-- One turn of a loop before the rest of it. -/
theorem Part.after {α : Type} {looked : List (Nat × Nat)} {r : Search α}
    (hfirst : ∀ p ∈ looked, Part m (o :: offsets) p) (hrest : ∀ p ∈ r.looked, Part m offsets p) :
    ∀ p ∈ (r.after looked).looked, Part m (o :: offsets) p := by
  intro p hp
  rcases mem_append.mp hp with hp | hp
  · exact hfirst p hp
  · exact (hrest p hp).cons o

theorem dirOffsets_of_le (h : size ≤ offset) : dirOffsets m size fuel offset = [] := by
  cases fuel with
  | zero => rfl
  | succ fuel => rw [dirOffsets, if_neg (not_lt.mpr h)]

theorem dirOffsets_stop (h : offset < size) (hzero : (dirEntryAt m offset).recLen = 0) :
    dirOffsets m size (fuel + 1) offset = [offset] := by
  rw [dirOffsets, if_pos h, if_pos hzero]

theorem dirOffsets_next (h : offset < size) (hlen : (dirEntryAt m offset).recLen ≠ 0) :
    dirOffsets m size (fuel + 1) offset =
      offset :: dirOffsets m size fuel (offset + (dirEntryAt m offset).recLen) := by
  rw [dirOffsets, if_pos h, if_neg hlen]

/-- The offsets grow. -/
theorem dirOffsets_sorted (m : Mem) (size fuel offset : Nat) :
    (∀ o ∈ dirOffsets m size fuel offset, offset ≤ o) ∧
      (dirOffsets m size fuel offset).Pairwise (· < ·) := by
  induction fuel generalizing offset with
  | zero => exact ⟨by simp [dirOffsets], List.Pairwise.nil⟩
  | succ fuel ih =>
    rcases lt_or_ge offset size with hlt | hge
    · by_cases hzero : (dirEntryAt m offset).recLen = 0
      · rw [dirOffsets_stop hlt hzero]
        simp
      · obtain ⟨hle, hpair⟩ := ih (offset + (dirEntryAt m offset).recLen)
        rw [dirOffsets_next hlt hzero]
        refine ⟨fun o ho => ?_, pairwise_cons.mpr ⟨fun o ho => ?_, hpair⟩⟩
        · rcases mem_cons.mp ho with rfl | ho
          · exact le_rfl
          · have := hle o ho
            omega
        · have := hle o ho
          omega
    · rw [dirOffsets_of_le hge]
      simp

/-! ## The loops -/

/-- `ext2_finddir` finds the first live record with the name. -/
theorem finddirLoop_spec (hsize : size ≤ 2 ^ 32 - 2 ^ 16) (name : List (BitVec 8)) (hpos : 0 < fuel)
    (hfuel : size < offset + fuel) :
    ∃ r, finddirLoop m size name fuel offset = some r ∧
      (∀ p ∈ r.looked, Part m (dirOffsets m size fuel offset) p) ∧
      r.result = (((dirOffsets m size fuel offset).filter fun o => IsLive m o).find?
        fun o => dirNameAt m o = name).map fun o => (o, (dirEntryAt m o).inode) := by
  induction fuel generalizing offset with
  | zero => omega
  | succ fuel ih =>
    unfold finddirLoop
    rcases lt_or_ge offset size with hlt | hge
    swap
    · rw [if_neg (not_lt.mpr hge), dirOffsets_of_le hge]
      exact ⟨_, rfl, by simp, rfl⟩
    rw [if_pos hlt]
    by_cases hzero : (dirEntryAt m offset).recLen = 0
    · have hdead : ¬ IsLive m offset := fun h => h.1 hzero
      rw [if_pos hzero, dirOffsets_stop hlt hzero]
      exact ⟨_, rfl, fun p hp => Part.header _ hp, by simp [hdead]⟩
    rw [if_neg hzero, next_eq hsize hlt, dirOffsets_next hlt hzero]
    have hnext : size < offset + (dirEntryAt m offset).recLen + fuel := by omega
    obtain ⟨r, hr, hparts, hresult⟩ := ih (by omega) hnext
    by_cases hlive : IsLive m offset
    · rw [filter_cons_of_pos (by simpa using hlive)]
      by_cases hlen : (dirEntryAt m offset).nameLen = name.length
      · rw [if_pos ⟨hlive.2, hlen⟩]
        by_cases hname : dirNameAt m offset = name
        · rw [if_pos hname, find?_cons_of_pos (by simpa using hname)]
          exact ⟨_, rfl, fun p hp => Part.record hlive _ hp, rfl⟩
        · rw [if_neg hname, find?_cons_of_neg (by simpa using hname), hr]
          exact ⟨_, rfl, Part.after (fun p hp => Part.record hlive _ hp) hparts, hresult⟩
      · have hname : dirNameAt m offset ≠ name := fun h => hlen (by rw [← h, dirName_length])
        rw [if_neg fun h => hlen h.2, find?_cons_of_neg (by simpa using hname), hr]
        exact ⟨_, rfl, Part.after (fun p hp => Part.header _ hp) hparts, hresult⟩
    · have hinode : ¬ ((dirEntryAt m offset).inode ≠ 0 ∧
          (dirEntryAt m offset).nameLen = name.length) := fun h => hlive ⟨hzero, h.1⟩
      rw [filter_cons_of_neg (by simpa using hlive), if_neg hinode, hr]
      exact ⟨_, rfl, Part.after (fun p hp => Part.header _ hp) hparts, hresult⟩

/-- `ext2_readdir` lists the live records in their order, and looks at all headers if there are too
few. -/
theorem readdirLoop_spec (hsize : size ≤ 2 ^ 32 - 2 ^ 16) {index count : Nat} (hcount : count ≤ index)
    (hpos : 0 < fuel) (hfuel : size < offset + fuel) :
    ∃ r, readdirLoop m size index fuel offset count = some r ∧
      (∀ p ∈ r.looked, Part m (dirOffsets m size fuel offset) p) ∧
      r.result = ((((dirOffsets m size fuel offset).filter fun o => IsLive m o))[index - count]?).map
        (fun o => (o, (dirEntryAt m o).inode, dirNameAt m o)) ∧
      (r.result = none → ∀ o ∈ dirOffsets m size fuel offset, (o, 8) ∈ r.looked) ∧
      ∀ o inode bytes, r.result = some (o, inode, bytes) →
        (o + 8, (dirEntryAt m o).nameLen) ∈ r.looked := by
  induction fuel generalizing offset count with
  | zero => omega
  | succ fuel ih =>
    unfold readdirLoop
    rcases lt_or_ge offset size with hlt | hge
    swap
    · rw [if_neg (not_lt.mpr hge), dirOffsets_of_le hge]
      exact ⟨_, rfl, by simp, by simp, by simp, by simp⟩
    rw [if_pos hlt]
    by_cases hzero : (dirEntryAt m offset).recLen = 0
    · have hdead : ¬ IsLive m offset := fun h => h.1 hzero
      rw [if_pos hzero, dirOffsets_stop hlt hzero]
      exact ⟨_, rfl, fun p hp => Part.header _ hp, by simp [hdead], by simp, by simp⟩
    rw [if_neg hzero, next_eq hsize hlt, dirOffsets_next hlt hzero]
    have hnext : size < offset + (dirEntryAt m offset).recLen + fuel := by omega
    by_cases hlive : IsLive m offset
    · rw [if_pos hlive.2, filter_cons_of_pos (by simpa using hlive)]
      by_cases hindex : count = index
      · have hnl : (if (dirEntryAt m offset).nameLen < 255 then (dirEntryAt m offset).nameLen else 255) =
            (dirEntryAt m offset).nameLen := by
          have := nameLen_lt m offset
          split <;> omega
        rw [if_pos hindex, hnl, hindex, Nat.sub_self]
        refine ⟨_, rfl, fun p hp => Part.record hlive _ hp, rfl, by simp, fun o inode bytes h => ?_⟩
        obtain ⟨rfl, -⟩ := Prod.mk.inj (some.inj h)
        simp
      · have hlt' : count + 1 ≤ index := by omega
        obtain ⟨r, hr, hparts, hresult, hall, hnames⟩ := ih hlt' (by omega) hnext
        rw [if_neg hindex, hr, show index - count = index - (count + 1) + 1 by omega,
          getElem?_cons_succ]
        exact ⟨_, rfl, Part.after (fun p hp => Part.header _ hp) hparts, hresult,
          fun hnone o ho => mem_looked_cons ho (hall hnone),
          fun o inode bytes h => mem_append_right _ (hnames o inode bytes h)⟩
    · obtain ⟨r, hr, hparts, hresult, hall, hnames⟩ := ih hcount (by omega) hnext
      rw [if_neg fun h => hlive ⟨hzero, h⟩, filter_cons_of_neg (by simpa using hlive), hr]
      exact ⟨_, rfl, Part.after (fun p hp => Part.header _ hp) hparts, hresult,
        fun hnone o ho => mem_looked_cons ho (hall hnone),
        fun o inode bytes h => mem_append_right _ (hnames o inode bytes h)⟩

/-! ## Safe walks -/

theorem finddir_spec (hsize : size ≤ 2 ^ 32 - 2 ^ 16) (name : List (BitVec 8)) :
    ∃ r, finddir m size name = some r ∧
      (∀ p ∈ r.looked, Part m (dirOffsets m size (size + 1) 0) p) ∧
      r.result = ((liveOffsets m size).find? fun o => dirNameAt m o = name).map
        fun o => (o, (dirEntryAt m o).inode) :=
  finddirLoop_spec hsize name (succ_pos size) (by omega)

theorem readdir_spec (m : Mem) (hsize : size ≤ 2 ^ 32 - 2 ^ 16) (index : Nat) :
    ∃ r, readdir m size index = some r ∧
      (∀ p ∈ r.looked, Part m (dirOffsets m size (size + 1) 0) p) ∧
      r.result = ((liveOffsets m size)[index]?).map
        (fun o => (o, (dirEntryAt m o).inode, dirNameAt m o)) ∧
      (r.result = none → ∀ o ∈ dirOffsets m size (size + 1) 0, (o, 8) ∈ r.looked) ∧
      ∀ o inode bytes, r.result = some (o, inode, bytes) →
        (o + 8, (dirEntryAt m o).nameLen) ∈ r.looked :=
  readdirLoop_spec hsize index.zero_le (succ_pos size) (by omega)

theorem mem_liveOffsets :
    o ∈ liveOffsets m size ↔ o ∈ dirOffsets m size (size + 1) 0 ∧ IsLive m o := by
  simp [liveOffsets]

theorem liveOffsets_sorted (m : Mem) (size : Nat) : (liveOffsets m size).Pairwise (· < ·) :=
  (dirOffsets_sorted m size (size + 1) 0).2.filter _

/-- The first element that a search in a growing list finds. -/
theorem find?_eq_some_of_sorted {p : Nat → Bool} (hsorted : offsets.Pairwise (· < ·))
    (ho : o ∈ offsets) (hp : p o) : ∃ first, offsets.find? p = some first ∧ first ≤ o := by
  obtain ⟨first, hfind⟩ := isSome_iff_exists.mp (find?_isSome.mpr ⟨o, ho, hp⟩)
  obtain ⟨-, before, rest, rfl, hbefore⟩ := find?_eq_some_iff_append.mp hfind
  refine ⟨first, hfind, ?_⟩
  rcases mem_append.mp ho with ho | ho
  · simpa [hp] using hbefore o ho
  · rcases mem_cons.mp ho with rfl | ho
    · exact le_rfl
    · exact (rel_of_pairwise_cons (pairwise_append.mp hsorted).2.1 ho).le

/-- Without a zero the string is the whole name. -/
theorem cString_eq_self (h : 0 ∉ bytes) : cString bytes = bytes := by
  refine takeWhile_eq_self_iff.mpr fun b hb => ?_
  simpa using fun hzero : b = 0 => h (hzero ▸ hb)

theorem zero_not_mem_cString (bytes : List (BitVec 8)) : 0 ∉ cString bytes := by
  intro h
  simpa using mem_takeWhile_imp h

/-- With a zero the string is shorter. -/
theorem cString_ne_self (h : 0 ∈ bytes) : cString bytes ≠ bytes := by
  intro heq
  rw [← heq] at h
  exact zero_not_mem_cString bytes h

namespace RecordsFit

theorem part (h : RecordsFit m size) (hp : Part m (dirOffsets m size (size + 1) 0) p) :
    p.1 + p.2 ≤ size := by
  obtain ⟨o, ho, rfl | ⟨hlive, rfl⟩⟩ := hp
  · exact h.headers o ho
  · exact h.names o (mem_liveOffsets.mpr ⟨ho, hlive⟩)

/-- The string of a live record is the name of a live record that is not behind it. -/
theorem exists_named (h : RecordsFit m size) (ho : o ∈ liveOffsets m size) :
    ∃ o' ∈ liveOffsets m size, o' ≤ o ∧ dirNameAt m o' = cString (dirNameAt m o) := by
  by_cases hzero : 0 ∈ dirNameAt m o
  · obtain ⟨o', ho', hlt, hname⟩ := h.zeros o ho hzero
    exact ⟨o', ho', hlt.le, hname⟩
  · exact ⟨o, ho, le_rfl, (cString_eq_self hzero).symm⟩

theorem walksSafely (h : RecordsFit m size) (hsize : size ≤ 2 ^ 32 - 2 ^ 16) :
    WalksSafely m size where
  finds := by
    intro name _
    obtain ⟨r, hr, hparts, -⟩ := finddir_spec (m := m) hsize name
    exact ⟨r, hr, fun p hp => h.part (hparts p hp)⟩
  lists := by
    intro index
    obtain ⟨r, hr, hparts, -⟩ := readdir_spec m hsize index
    exact ⟨r, hr, fun p hp => h.part (hparts p hp)⟩
  agree := by
    intro index r offset inode bytes hr hresult
    obtain ⟨r0, hr0, -, hlive, -⟩ := readdir_spec m hsize index
    obtain rfl : r0 = r := some.inj (hr0.symm.trans hr)
    rw [hresult] at hlive
    obtain ⟨o, ho, heq⟩ := map_eq_some_iff.mp hlive.symm
    obtain ⟨rfl, -, rfl⟩ : o = offset ∧ _ = inode ∧ dirNameAt m o = bytes := by simpa using heq
    obtain ⟨o', ho', hle, hname⟩ := h.exists_named (mem_of_getElem? ho)
    obtain ⟨first, hfind, hfirst⟩ := find?_eq_some_of_sorted
      (p := fun o' => dirNameAt m o' = cString (dirNameAt m o)) (liveOffsets_sorted m size) ho'
      (by simpa using hname)
    obtain ⟨r', hr', -, hresult'⟩ := finddir_spec (m := m) hsize (cString (dirNameAt m o))
    rw [hfind] at hresult'
    exact ⟨r', first, _, hr', hresult', le_trans hfirst hle⟩

end RecordsFit

namespace WalksSafely

/-- A listing with an index behind the last live record looks at all headers. -/
theorem headers (h : WalksSafely m size) (hsize : size ≤ 2 ^ 32 - 2 ^ 16) :
    ∀ o ∈ dirOffsets m size (size + 1) 0, o + 8 ≤ size := by
  intro o ho
  obtain ⟨r, hr, -, hresult, hall, -⟩ := readdir_spec m hsize (liveOffsets m size).length
  obtain ⟨r', hr', hwithin⟩ := h.lists (liveOffsets m size).length
  obtain rfl : r = r' := some.inj (hr.symm.trans hr')
  rw [getElem?_eq_none le_rfl, map_none] at hresult
  exact hwithin (o, 8) (hall hresult o ho)

/-- Each live record is listed for its index. -/
theorem exists_listed (hsize : size ≤ 2 ^ 32 - 2 ^ 16) (ho : o ∈ liveOffsets m size) :
    ∃ index r, readdir m size index = some r ∧
      r.result = some (o, (dirEntryAt m o).inode, dirNameAt m o) ∧
      (o + 8, (dirEntryAt m o).nameLen) ∈ r.looked := by
  obtain ⟨index, hindex⟩ := getElem?_of_mem ho
  obtain ⟨r, hr, -, hresult, -, hnames⟩ := readdir_spec m hsize index
  rw [hindex, map_some] at hresult
  exact ⟨index, r, hr, hresult, hnames _ _ _ hresult⟩

theorem names (h : WalksSafely m size) (hsize : size ≤ 2 ^ 32 - 2 ^ 16) :
    ∀ o ∈ liveOffsets m size, o + 8 + (dirEntryAt m o).nameLen ≤ size := by
  intro o ho
  obtain ⟨index, r, hr, -, hlooked⟩ := exists_listed hsize ho
  obtain ⟨r', hr', hwithin⟩ := h.lists index
  obtain rfl : r = r' := some.inj (hr.symm.trans hr')
  exact hwithin _ hlooked

theorem zeros (h : WalksSafely m size) (hsize : size ≤ 2 ^ 32 - 2 ^ 16) :
    ∀ o ∈ liveOffsets m size, 0 ∈ dirNameAt m o →
      ∃ o' ∈ liveOffsets m size, o' < o ∧ dirNameAt m o' = cString (dirNameAt m o) := by
  intro o ho hzero
  obtain ⟨index, r, hr, hresult, -⟩ := exists_listed hsize ho
  obtain ⟨r', o', inode', hr', hresult', hle⟩ := h.agree index r o _ _ hr hresult
  obtain ⟨r0, hr0, -, hfind⟩ := finddir_spec (m := m) hsize (cString (dirNameAt m o))
  obtain rfl : r0 = r' := some.inj (hr0.symm.trans hr')
  rw [hresult'] at hfind
  obtain ⟨first, hfirst, heq⟩ := map_eq_some_iff.mp hfind.symm
  obtain ⟨rfl, -⟩ := Prod.mk.inj heq
  have hname : dirNameAt m first = cString (dirNameAt m o) := by
    simpa using find?_some hfirst
  refine ⟨first, mem_of_find?_eq_some hfirst, lt_of_le_of_ne hle ?_, hname⟩
  rintro rfl
  exact cString_ne_self hzero hname.symm

end WalksSafely

/-- For any bytes of the blocks: the loops end, stay in the contents and agree just when the records
that they go through fit. The contents are in the kernel's heap, so their size and the length of one
more record is an offset. -/
theorem walksSafely_iff (m : Mem) {size : Nat} (hsize : size ≤ 2 ^ 32 - 2 ^ 16) :
    WalksSafely m size ↔ RecordsFit m size :=
  ⟨fun h => ⟨h.headers hsize, h.names hsize, h.zeros hsize⟩, fun h => h.walksSafely hsize⟩

/-- The block of a directory with the one record `.` of inode 2. -/
def dotBlock : Mem := listMem [2, 0, 0, 0, 0, 4, 1, 2, 46]

/-- The records of `dotBlock` fit, and the walks are safe. -/
theorem walksSafely_dotBlock : RecordsFit dotBlock 1024 ∧ WalksSafely dotBlock 1024 := by
  have hfit : RecordsFit dotBlock 1024 :=
    ⟨by decide +kernel, by decide +kernel, by decide +kernel⟩
  exact ⟨hfit, (walksSafely_iff dotBlock (by decide)).mpr hfit⟩

/-- A block whose first record, an unused one, is 1020 bytes long. -/
def shortTail : Mem := listMem [0, 0, 0, 0, 252, 3]

/-- The walks look at a record header at 1020 in a block of 1024 bytes. -/
theorem not_walksSafely_shortTail : ¬ WalksSafely shortTail 1024 := by
  intro h
  have := h.headers (by decide) 1020 (by decide +kernel)
  omega

end Stos.Kernel.Ext2
