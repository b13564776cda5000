import Stos.Kernel.FileDescriptors

/-!
# File descriptors: proofs

Each operation changes the entries of one table and the counts of the files they refer to by the same
amounts. `FdState.Inv` keeps the numbers of all entries of a table apart, also of the free ones, since
these are used again.
-/

namespace Stos.Kernel

open List Finset Option Function BitVec FdTable Nat FdState Descriptor Ne

/-! ## Changing one entry of a list -/

section Modify

variable {α β : Type} {l : List α} {i : Nat} {g : α → α} {a : α}

/-- How a counter changes when one item does. -/
theorem countP_modify {q : α → Bool} (h : l[i]? = some a) :
    (l.modify i g).countP q + (if q a then 1 else 0) = l.countP q + (if q (g a) then 1 else 0) := by
  induction l generalizing i with
  | nil => simp at h
  | cons b l ih =>
    cases i with
    | zero =>
      obtain rfl : b = a := by simpa using h
      rw [modify_zero_cons, countP_cons, countP_cons]
      omega
    | succ i =>
      have h' : l[i]? = some a := by simpa using h
      rw [modify_succ_cons, countP_cons, countP_cons]
      have := ih h'
      omega

theorem map_modify_of_eq {f : α → β} (h : ∀ a, f (g a) = f a) (l : List α) (i : Nat) :
    (l.modify i g).map f = l.map f := by
  refine ext_getElem? fun j => ?_
  rw [getElem?_map, getElem?_map, getElem?_modify]
  cases l[j]? with
  | none => rfl
  | some a => by_cases hij : i = j <;> simp [hij, h]

theorem map_modify_const {f : α → β} {y : β} (h : ∀ a, f (g a) = y) (l : List α) (i : Nat) :
    (l.modify i g).map f = (l.map f).set i y := by
  refine ext_getElem? fun j => ?_
  rw [getElem?_map, getElem?_set', getElem?_map, getElem?_modify]
  cases l[j]? with
  | none => simp
  | some a => by_cases hij : i = j <;> simp [hij, h]

end Modify

/-! ## One file -/

namespace OpenFile

variable {x : OpenFile} {n : Nat}

/-- The file has `n` descriptors, and it is closed if there are none. -/
def Counts (n : Nat) (x : OpenFile) : Prop :=
  x.refcount = n ∧ x.closed = if n = 0 then 1 else 0

theorem counts_opened : Counts 1 opened := ⟨rfl, rfl⟩

theorem Counts.vfsClose (h : Counts (n + 1) x) : Counts n x.vfsClose := by
  obtain ⟨hcount, hclosed⟩ := h
  have hless : x.refcount - 1 = n := by
    omega
  unfold OpenFile.vfsClose Counts
  dsimp only
  rw [hless, hclosed, if_neg (succ_ne_zero n)]
  split
  case isTrue hne => simpa using hne
  case isFalse heq =>
    have : n = 0 := by simpa using heq
    simp [this]

theorem Counts.vfsBumpRefcount (h : Counts n x) (hn : n ≠ 0) : Counts (n + 1) x.vfsBumpRefcount := by
  obtain ⟨hcount, hclosed⟩ := h
  refine ⟨?_, ?_⟩
  · rw [OpenFile.vfsBumpRefcount, hcount]
    rfl
  · rw [OpenFile.vfsBumpRefcount, hclosed, if_neg hn, if_neg (succ_ne_zero n)]

end OpenFile

/-! ## One table -/

namespace FdTable

variable {fd : FdTable} {i j f handler file : Nat} {desc : Descriptor} {n newfd : BitVec 32}

/-- The numbers of all entries. -/
def numbers (fd : FdTable) : List (BitVec 32) := fd.map identifier

theorem refs_cons (desc : Descriptor) (fd : FdTable) (f : Nat) :
    refs (desc :: fd) f = fd.refs f + if desc.file = some f then 1 else 0 := by
  simp [refs, countP_cons]

theorem refs_nil (f : Nat) : refs [] f = 0 := rfl

theorem refs_setFile (h : fd[i]? = some desc) (x : Option Nat) :
    (fd.setFile i x).refs f + (if desc.file = some f then 1 else 0) =
      fd.refs f + (if x = some f then 1 else 0) := by
  simpa [refs, setFile] using countP_modify (g := ({ · with file := x })) (q := (·.file = some f)) h

theorem free_setFile (h : fd[i]? = some desc) (x : Option Nat) :
    (fd.setFile i x).free + (if desc.file = none then 1 else 0) =
      fd.free + (if x = none then 1 else 0) := by
  simpa [free, setFile] using countP_modify (g := ({ · with file := x })) (q := (·.file = none)) h

theorem numbers_setFile (x : Option Nat) : (fd.setFile i x).numbers = fd.numbers := by
  refine map_modify_of_eq ?_ fd i
  exact fun _ => rfl

theorem refs_setIdentifier : (fd.setIdentifier i n).refs f = fd.refs f := by
  have hfiles : (fd.setIdentifier i n).map file = fd.map file :=
    map_modify_of_eq (g := ({ · with identifier := n })) (fun _ => rfl) fd i
  have hcount : ∀ fd : FdTable,
      fd.refs f = (fd.map file).countP (fun x => decide (x = some f)) := fun fd => by
    rw [countP_map]
    rfl
  rw [hcount, hcount, hfiles]

theorem numbers_setIdentifier : (fd.setIdentifier i n).numbers = fd.numbers.set i n := by
  refine map_modify_const ?_ fd i
  exact fun _ => rfl

/-- A file that an entry refers to is counted. -/
theorem refs_pos (h : fd[i]? = some desc) (hfile : desc.file = some f) : 0 < fd.refs f :=
  countP_pos_iff.mpr ⟨desc, mem_of_getElem? h, by simpa using hfile⟩

theorem two_le_refs {desc' : Descriptor} (h : fd[i]? = some desc) (h' : fd[j]? = some desc')
    (hne : i ≠ j) (hfile : desc.file = some f) (hfile' : desc'.file = some f) : 2 ≤ fd.refs f := by
  -- the other entry is counted when this one is taken out
  have hone := refs_setFile (f := f) h none
  have hother : (fd.setFile i none)[j]? = some desc' := by
    rw [setFile, getElem?_modify]
    simp [hne, h']
  have hpos := refs_pos hother hfile'
  simp [hfile] at hone
  omega

theorem le_largestIdentifier (fd : FdTable) :
    -1 ≤ fd.largestIdentifier ∧ (∀ desc ∈ fd, desc.identifier.toInt ≤ fd.largestIdentifier) ∧
      (fd.largestIdentifier = -1 ∨ ∃ desc ∈ fd, desc.identifier.toInt = fd.largestIdentifier) := by
  induction fd using reverseRecOn with
  | nil => simp [largestIdentifier]
  | append_singleton fd d ih =>
    obtain ⟨hlow, hall, hex⟩ := ih
    have hstep : largestIdentifier (fd ++ [d]) =
        if d.identifier.toInt > largestIdentifier fd then d.identifier.toInt
        else largestIdentifier fd := by
      simp [largestIdentifier]
    rw [hstep]
    split
    case isTrue hgt =>
      refine ⟨by omega, fun desc hdesc => ?_, .inr ⟨d, by simp, rfl⟩⟩
      rcases mem_append.mp hdesc with hold | hnew
      · have := hall desc hold
        omega
      · rw [List.mem_singleton.mp hnew]
    case isFalse hle =>
      refine ⟨hlow, fun desc hdesc => ?_, hex.imp id ?_⟩
      · rcases mem_append.mp hdesc with hold | hnew
        · exact hall desc hold
        · rw [List.mem_singleton.mp hnew]
          omega
      · rintro ⟨desc, hdesc, he⟩
        exact ⟨desc, mem_append_left _ hdesc, he⟩

/-- The two ways in which an entry is added: a free one is used, or there is a new one at the end. -/
theorem taskAddFd_cases (fd : FdTable) (handler : Nat) :
    (∃ i desc, fd[i]? = some desc ∧ desc.file = none ∧
      fd.taskAddFd handler = (fd.setFile i (some handler), i)) ∨
    fd.free = 0 ∧ fd.taskAddFd handler =
      (fd ++ [{ identifier := BitVec.ofInt 32 (fd.largestIdentifier + 1), file := some handler }],
        fd.length) := by
  unfold taskAddFd
  cases hfind : fd.findIdx? (·.file = none) with
  | none =>
    refine .inr ⟨countP_eq_zero.mpr fun d hd => ?_, rfl⟩
    simpa using findIdx?_eq_none_iff.mp hfind d hd
  | some i =>
    obtain ⟨hi, hfree, -⟩ := findIdx?_eq_some_iff_getElem.mp hfind
    exact .inl ⟨i, fd[i], getElem?_eq_getElem hi, by simpa using hfree, rfl⟩

theorem refs_taskAddFd (fd : FdTable) (handler f : Nat) :
    (fd.taskAddFd handler).1.refs f = fd.refs f + if handler = f then 1 else 0 := by
  obtain ⟨i, desc, hi, hfree, h⟩ | ⟨-, h⟩ := taskAddFd_cases fd handler
  · rw [h]
    simpa [hfree] using refs_setFile (f := f) hi (some handler)
  · rw [h]
    simp [refs, countP_append, countP_singleton]

/-- The number after the largest one is new as long as it is in the range of `int`. -/
theorem nextNumber_notMem (h : ∀ desc ∈ fd, desc.identifier.toInt + 1 < 2 ^ 31) :
    BitVec.ofInt 32 (fd.largestIdentifier + 1) ∉ fd.numbers ∧
      (BitVec.ofInt 32 (fd.largestIdentifier + 1)).toInt = fd.largestIdentifier + 1 := by
  obtain ⟨hlow, hall, hex⟩ := le_largestIdentifier fd
  have hup : fd.largestIdentifier + 1 < 2 ^ 31 := by
    rcases hex with hex | ⟨desc, hdesc, hex⟩
    · omega
    · have := h desc hdesc
      omega
  have hint : (BitVec.ofInt 32 (fd.largestIdentifier + 1)).toInt = fd.largestIdentifier + 1 := by
    rw [toInt_ofInt]
    exact Int.bmod_eq_of_le (by omega) (by omega)
  refine ⟨fun hmem => ?_, hint⟩
  obtain ⟨desc, hdesc, he⟩ := mem_map.mp hmem
  have hle := hall desc hdesc
  rw [he, hint] at hle
  omega

theorem nodup_taskAddFd (hnodup : fd.numbers.Nodup) (hroom : fd.RoomFor 1) (handler : Nat) :
    (fd.taskAddFd handler).1.numbers.Nodup := by
  obtain ⟨i, desc, -, -, h⟩ | ⟨hfree, h⟩ := taskAddFd_cases fd handler
  · rw [h, numbers_setFile]
    exact hnodup
  · have hroom' : ∀ desc ∈ fd, desc.identifier.toInt + 1 < 2 ^ 31 := by
      simpa [RoomFor, hfree] using hroom
    rw [h, numbers, map_append]
    refine nodup_append.mpr ⟨hnodup, by simp, fun a ha b hb e => ?_⟩
    have hb' : b = BitVec.ofInt 32 (fd.largestIdentifier + 1) := by simpa using hb
    exact (nextNumber_notMem hroom').1 (hb' ▸ e ▸ ha)

/-- Room for one more descriptor is left after one of two has been added. -/
theorem RoomFor.taskAddFd (h : fd.RoomFor 2) (handler : Nat) :
    (fd.taskAddFd handler).1.RoomFor 1 := by
  obtain ⟨i, desc, hi, hnone, hadd⟩ | ⟨hfree, hadd⟩ := taskAddFd_cases fd handler
  · rw [hadd]
    have hcount := free_setFile hi (some handler)
    simp only [hnone, if_true, reduceCtorEq, if_false] at hcount
    intro d hd
    have hmem : d.identifier ∈ fd.numbers := by
      rw [← numbers_setFile (i := i) (some handler)]
      exact mem_map_of_mem hd
    obtain ⟨d', hd', he⟩ := mem_map.mp hmem
    have hroom := h d' hd'
    rw [he] at hroom
    dsimp only
    omega
  · have hzero : free (fd ++ [⟨BitVec.ofInt 32 (fd.largestIdentifier + 1), some handler⟩]) = 0 := by
      simpa [free, countP_append, countP_singleton] using hfree
    have hold : ∀ d ∈ fd, d.identifier.toInt + 2 < 2 ^ 31 := by
      simpa [RoomFor, hfree] using h
    rw [hadd]
    intro d hd
    rcases mem_append.mp hd with hd | hd
    · have := hold d hd
      omega
    · have hnext := (nextNumber_notMem fun d hd => by have := hold d hd; omega).2
      rw [List.mem_singleton.mp hd]
      rw [hnext]
      rcases (le_largestIdentifier fd).2.2 with hlow | ⟨d', hd', he⟩
      · omega
      · have := hold d' hd'
        omega

/-- The entry that `task_add_fd` returns can have any new number. -/
theorem nodup_taskAddFd_setIdentifier (hnodup : fd.numbers.Nodup) (hnew : newfd ∉ fd.numbers)
    (handler : Nat) :
    ((fd.taskAddFd handler).1.setIdentifier (fd.taskAddFd handler).2 newfd).numbers.Nodup := by
  rw [numbers_setIdentifier]
  obtain ⟨i, desc, -, -, h⟩ | ⟨-, h⟩ := taskAddFd_cases fd handler
  · rw [h, numbers_setFile]
    exact hnodup.set hnew
  · have hlen : fd.length = fd.numbers.length := (length_map _).symm
    rw [h, numbers, map_append, ← numbers]
    rw [hlen, set_append_right _ _ le_rfl, Nat.sub_self]
    refine nodup_append.mpr ⟨hnodup, by simp, fun a ha b hb e => ?_⟩
    have hb' : b = newfd := by simpa using hb
    exact hnew (hb' ▸ e ▸ ha)

theorem getDescriptorByFd_spec (h : fd.getDescriptorByFd n = some (i, file)) :
    ∃ desc, fd[i]? = some desc ∧ desc.file = some file ∧ desc.identifier = n := by
  unfold getDescriptorByFd at h
  split at h
  · cases h
  · obtain ⟨i', hi', h⟩ := bind_eq_some_iff.mp h
    obtain ⟨file', hfile, h⟩ := map_eq_some_iff.mp h
    cases h
    obtain ⟨desc, hdesc, hfile⟩ := bind_eq_some_iff.mp hfile
    obtain ⟨hlt, hprop, -⟩ := List.findIdx?_eq_some_iff_getElem.mp hi'
    obtain rfl : fd[i] = desc := by simpa [List.getElem?_eq_getElem hlt] using hdesc
    exact ⟨_, hdesc, hfile, (by simpa using hprop : _ ∧ _).2⟩

theorem openNumbers_nodup (h : fd.numbers.Nodup) : fd.openNumbers.Nodup :=
  h.sublist (filter_sublist.map _)

end FdTable

/-! ## All tasks -/

namespace FdState

variable {s s' : FdState} {p child f g : Nat} {fd : FdTable} {n n' : Nat → Nat}

theorem refs_setTable (hp : p ∈ s.live) (fd : FdTable) (f : Nat) :
    (s.setTable p fd).refs f + (s.table p).refs f = s.refs f + fd.refs f := by
  have hnew := Finset.sum_update_of_mem hp (fun q => (s.table q).refs f) (fd.refs f)
  have hold := Finset.sum_sdiff (Finset.singleton_subset_iff.mpr hp)
    (f := fun q => (s.table q).refs f)
  have hfun : (fun q => (update s.table p fd q).refs f) =
      update (fun q => (s.table q).refs f) p (fd.refs f) := by
    funext q
    by_cases hq : q = p
    · simp [hq]
    · simp [hq]
  rw [Finset.sum_singleton] at hold
  unfold refs setTable
  rw [hfun, hnew, ← hold]
  omega

theorem refs_le (hp : p ∈ s.live) (f : Nat) : (s.table p).refs f ≤ s.refs f := by
  have hsum := Finset.sum_sdiff (Finset.singleton_subset_iff.mpr hp)
    (f := fun q => (s.table q).refs f)
  rw [Finset.sum_singleton] at hsum
  unfold refs
  omega

/-- The number of descriptors of each file is the one given by `n`. -/
def Counted (s : FdState) (n : Nat → Nat) : Prop := ∀ f < s.nextFile, (s.files f).Counts (n f)

theorem Counted.vfsOpen (h : s.Counted n) (hnew : n s.nextFile = 0)
    (hn : ∀ f, n' f = n f + if s.nextFile = f then 1 else 0) : s.vfsOpen.Counted n' := by
  intro f hf
  rw [hn]
  by_cases e : s.nextFile = f
  · subst e
    simpa [FdState.vfsOpen, hnew] using OpenFile.counts_opened
  · simpa [FdState.vfsOpen, e, symm e] using
      h f (lt_of_le_of_ne (le_of_lt_succ hf) (Ne.symm e))

theorem Counted.vfsClose (h : s.Counted n) (hn : ∀ f, n f = n' f + if g = f then 1 else 0) :
    (s.vfsClose g).Counted n' := by
  intro f hf
  have hcounts := h f hf
  rw [hn] at hcounts
  by_cases e : g = f
  · subst e
    rw [if_pos rfl] at hcounts
    simpa [FdState.vfsClose] using hcounts.vfsClose
  · simpa [FdState.vfsClose, e, symm e] using hcounts

theorem Counted.vfsBumpRefcount (h : s.Counted n) (hg : n g ≠ 0)
    (hn : ∀ f, n' f = n f + if g = f then 1 else 0) : (s.vfsBumpRefcount g).Counted n' := by
  intro f hf
  have hcounts := h f hf
  rw [hn]
  by_cases e : g = f
  · subst e
    simpa [FdState.vfsBumpRefcount] using hcounts.vfsBumpRefcount hg
  · simpa [FdState.vfsBumpRefcount, e, symm e] using hcounts

/-- The invariant of the runs. -/
structure Inv (s : FdState) : Prop where
  files : s.Counted s.refs
  known : ∀ f, s.refs f ≠ 0 → f < s.nextFile
  numbers : ∀ p ∈ s.live, (s.table p).numbers.Nodup

theorem Inv.balanced (h : s.Inv) : s.Balanced where
  refcount f hf := (h.files f hf).1
  closed f hf := (h.files f hf).2
  known := h.known
  distinct p hp := openNumbers_nodup (h.numbers p hp)

theorem initial_inv (files : Nat → OpenFile) : (initial files).Inv where
  files f hf := absurd hf (not_lt_zero f)
  known _ hf := absurd rfl hf
  numbers p hp := absurd hp (notMem_empty p)

namespace Inv

theorem refs_eq_zero (h : s.Inv) (hf : s.nextFile ≤ f) : s.refs f = 0 := by
  by_contra hne
  exact not_lt.mpr hf (h.known _ hne)

/-- The descriptors of one task change, and the files with them. -/
theorem change (h : s.Inv) (hp : p ∈ s.live) (hlive : s'.live = s.live) (htable : s'.table = s.table)
    (hnext : s.nextFile ≤ s'.nextFile) (hnodup : fd.numbers.Nodup)
    (hknown : ∀ f, fd.refs f ≠ 0 → f < s'.nextFile)
    (hfiles : ∀ n : Nat → Nat, (∀ f, n f + (s.table p).refs f = s.refs f + fd.refs f) →
      s'.Counted n) : (s'.setTable p fd).Inv := by
  have hsum : ∀ f, (s'.setTable p fd).refs f + (s.table p).refs f = s.refs f + fd.refs f := fun f => by
    rw [← refs_setTable hp]
    unfold refs setTable
    rw [hlive, htable]
  refine ⟨hfiles _ hsum, fun f hf => ?_, fun q hq => ?_⟩
  · by_cases hold : s.refs f = 0
    · refine hknown f fun hzero => hf ?_
      have hsum := hsum f
      rw [hold, hzero] at hsum
      exact (Nat.add_eq_zero_iff.mp hsum).1
    · exact lt_of_lt_of_le (h.known f hold) hnext
  · rw [setTable, htable]
    dsimp only
    by_cases e : q = p
    · rw [e, update_self]
      exact hnodup
    · rw [update_of_ne e]
      exact h.numbers q (hlive ▸ hq)

theorem file_lt (h : s.Inv) (hp : p ∈ s.live) (hf : (s.table p).refs f ≠ 0) : f < s.nextFile :=
  h.known f fun hzero => hf (eq_zero_of_le_zero (hzero ▸ refs_le hp f))

theorem openFd (h : s.Inv) (hp : p ∈ s.live) (hroom : (s.table p).RoomFor 1) : (s.openFd p).Inv := by
  have hnext : s.vfsOpen.nextFile = s.nextFile + 1 := rfl
  refine h.change hp rfl rfl (le_succ _) (nodup_taskAddFd (h.numbers p hp) hroom _)
    (fun f hf => ?_) fun n hn => h.files.vfsOpen (h.refs_eq_zero le_rfl) fun f => ?_
  · rw [refs_taskAddFd] at hf
    by_cases e : s.nextFile = f
    · omega
    · rw [if_neg e, add_zero] at hf
      exact lt_succ_of_lt (h.file_lt hp hf)
  · have hn := hn f
    rw [refs_taskAddFd] at hn
    omega

theorem openFails (h : s.Inv) : s.openFails.Inv := by
  refine ⟨?_, fun f hf => lt_succ_of_lt (h.known f hf), h.numbers⟩
  exact (h.files.vfsOpen (h.refs_eq_zero le_rfl) fun _ => rfl).vfsClose fun _ => rfl

section

variable (h : s.Inv) (hp : p ∈ s.live)

include h hp

theorem sysPipe (hroom : (s.table p).RoomFor 2) : (s.sysPipe p).Inv := by
  have heq : s.sysPipe p = (s.openFd p).openFd p := rfl
  have hone : (s.table p).RoomFor 1 := fun desc hdesc => by
    have := hroom desc hdesc
    omega
  have htable : (s.openFd p).table p = ((s.table p).taskAddFd s.nextFile).1 :=
    update_self p _ _
  exact (h.openFd hp hone).openFd hp (by rw [htable]; exact hroom.taskAddFd _)

theorem taskSetupStdio : (s.taskSetupStdio p).Inv := by
  unfold FdState.taskSetupStdio
  split
  case isTrue hempty =>
    have hnext : s.vfsOpen.vfsOpen.vfsOpen.nextFile = s.nextFile + 3 := rfl
    refine h.change hp rfl rfl (by omega) (by simp [FdTable.numbers]) (fun f hf => ?_) fun n hn => ?_
    · simp only [refs_cons, refs_nil, some.injEq] at hf
      split_ifs at hf <;> omega
    · have hnew : ∀ k, s.refs (s.nextFile + k) = 0 := fun k => h.refs_eq_zero (le_add_right _ k)
      refine ((h.files.vfsOpen (hnew 0) fun _ => rfl).vfsOpen (?_ : _ = 0) fun _ => rfl).vfsOpen
        (?_ : _ = 0) fun f => ?_
      · simp [vfsOpen, hnew]
      · simp [vfsOpen, add_assoc, hnew]
      · have hn := hn f
        simp only [hempty, refs_cons, refs_nil, some.injEq] at hn
        rw [add_zero, zero_add] at hn
        rw [hn]
        ac_rfl
  case isFalse => exact h

/-- A used descriptor is closed. -/
theorem drop {i old : Nat} {desc : Descriptor} (hdesc : (s.table p)[i]? = some desc)
    (hold : desc.file = some old) :
    ((s.vfsClose old).setTable p ((s.table p).setFile i none)).Inv ∧
      ∀ f, ((s.vfsClose old).setTable p ((s.table p).setFile i none)).refs f +
        (if old = f then 1 else 0) = s.refs f := by
  have hrefs (f : Nat) := refs_setFile (f := f) hdesc none
  simp only [hold, some.injEq, reduceCtorEq, if_false, add_zero] at hrefs
  refine ⟨h.change hp rfl rfl le_rfl ?_ (fun f hf => ?_) fun n hn => h.files.vfsClose fun f => ?_,
    fun f => ?_⟩
  · rw [numbers_setFile]
    exact h.numbers p hp
  · have := hrefs f
    exact h.file_lt hp (by omega)
  · have := hrefs f
    have := hn f
    omega
  · have hsum := refs_setTable hp ((s.table p).setFile i none) f
    have := hrefs f
    change (s.setTable p ((s.table p).setFile i none)).refs f + _ = _
    omega

theorem sysClose (n : BitVec 32) : (s.sysClose p n).Inv := by
  unfold FdState.sysClose
  split
  case h_1 => exact h
  case h_2 i file hget =>
    obtain ⟨desc, hdesc, hfile, -⟩ := getDescriptorByFd_spec hget
    exact (h.drop hp hdesc hfile).1

/-- A descriptor of a file that has one already is added. -/
theorem share {file : Nat} (hfile : s.refs file ≠ 0) (hnodup : fd.numbers.Nodup)
    (hfd : ∀ f, fd.refs f = (s.table p).refs f + if file = f then 1 else 0) :
    ((s.setTable p fd).vfsBumpRefcount file).Inv := by
  change ((s.vfsBumpRefcount file).setTable p fd).Inv
  refine h.change hp rfl rfl le_rfl hnodup (fun f hf => ?_) fun n hn =>
    h.files.vfsBumpRefcount hfile fun f => ?_
  · by_cases e : file = f
    · exact h.known f (e ▸ hfile)
    · rw [hfd, if_neg e, add_zero] at hf
      exact h.file_lt hp hf
  · have hn := hn f
    rw [hfd] at hn
    omega

/-- A free descriptor gets a file. -/
theorem fill {i file : Nat} {desc : Descriptor} (hdesc : (s.table p)[i]? = some desc)
    (hold : desc.file = none) (hfile : s.refs file ≠ 0) :
    ((s.setTable p ((s.table p).setFile i (some file))).vfsBumpRefcount file).Inv := by
  refine h.share hp hfile ?_ fun f => ?_
  · rw [numbers_setFile]
    exact h.numbers p hp
  · simpa [hold] using refs_setFile (f := f) hdesc (some file)

/-- A used descriptor is closed and gets another file, or its own one again if that has two. -/
theorem replace {i file old : Nat} {desc : Descriptor} (hdesc : (s.table p)[i]? = some desc)
    (hold : desc.file = some old) (hfile : s.refs file ≠ 0) (htwo : old = file → s.refs file ≠ 1) :
    (((s.vfsClose old).setTable p ((s.table p).setFile i (some file))).vfsBumpRefcount file).Inv := by
  obtain ⟨hinv, hrefs⟩ := h.drop hp hdesc hold
  have htable : ((s.vfsClose old).setTable p ((s.table p).setFile i none)).table p =
      (s.table p).setFile i none := update_self ..
  have hfree : ((s.table p).setFile i none)[i]? = some { desc with file := none } := by
    simp [setFile, hdesc]
  have hstill : ((s.vfsClose old).setTable p ((s.table p).setFile i none)).refs file ≠ 0 := by
    have hrefs := hrefs file
    split_ifs at hrefs with e
    · omega
    · omega
  have hfilled := hinv.fill hp (htable ▸ hfree) rfl hstill
  simpa [setTable, setFile, modify_modify_eq, comp_def] using hfilled

theorem sysDup {oldfd newfd flags : BitVec 32} (hcareful : (FdOp.dup p oldfd newfd flags).Careful s) :
    (s.sysDup p oldfd newfd flags).Inv := by
  unfold FdState.sysDup
  split
  case isTrue => exact h
  case isFalse =>
    split
    case h_1 => exact h
    case h_2 i file hget =>
      obtain ⟨desc, hdesc, hfile, hnumber⟩ := getDescriptorByFd_spec hget
      have hused : s.refs file ≠ 0 :=
        Nat.ne_zero_of_lt (Nat.lt_of_lt_of_le (refs_pos hdesc hfile) (refs_le hp file))
      dsimp only [FdOp.Careful] at hcareful
      split
      case isTrue hnone =>
        rw [if_pos hnone] at hcareful
        exact h.share hp hused (nodup_taskAddFd (h.numbers p hp) hcareful file)
          (refs_taskAddFd _ file)
      case isFalse hnew =>
        rw [if_neg hnew] at hcareful
        unfold sysDupWithNewfd
        split
        case h_1 hfind =>
          have hnotMem : newfd ∉ (s.table p).numbers := fun hmem => by
            obtain ⟨d, hd, he⟩ := mem_map.mp hmem
            simpa [he] using findIdx?_eq_none_iff.mp hfind d hd
          refine h.share hp hused
            (nodup_taskAddFd_setIdentifier (h.numbers p hp) hnotMem file) fun f => ?_
          exact refs_setIdentifier.trans (refs_taskAddFd (s.table p) file f)
        case h_2 j hfind =>
          obtain ⟨hj, hjnum, -⟩ := findIdx?_eq_some_iff_getElem.mp hfind
          have hjdesc : (s.table p)[j]? = some (s.table p)[j] := getElem?_eq_getElem hj
          have hjnum : ((s.table p)[j]).identifier = newfd := by simpa using hjnum
          rw [hjdesc, bind_some]
          cases hold : ((s.table p)[j]).file with
          | none => exact h.fill hp hjdesc hold hused
          | some old =>
            refine h.replace hp hjdesc hold hused fun e => ?_
            subst e
            by_cases hsame : i = j
            · -- the descriptor is duplicated to itself
              subst hsame
              obtain rfl : (s.table p)[i] = desc := by simpa [hjdesc] using hdesc
              exact hcareful (hnumber.symm.trans hjnum) _ (getElem_mem hj) hnumber old hold
            · have htwo := two_le_refs hdesc hjdesc hsame hfile hold
              have hle := refs_le hp old
              omega

end

end Inv

/-! ## Whole tables -/

theorem closeAll_frame (s : FdState) (fd : FdTable) :
    (s.closeAll fd).live = s.live ∧ (s.closeAll fd).table = s.table ∧
      (s.closeAll fd).nextFile = s.nextFile := by
  induction fd generalizing s with
  | nil => exact ⟨rfl, rfl, rfl⟩
  | cons desc fd ih =>
    cases hfile : desc.file with
    | none => simpa [closeAll, hfile] using ih s
    | some f => simpa [closeAll, hfile, vfsClose] using ih (s.vfsClose f)

theorem bumpAll_frame (s : FdState) (fd : FdTable) :
    (s.bumpAll fd).live = s.live ∧ (s.bumpAll fd).table = s.table ∧
      (s.bumpAll fd).nextFile = s.nextFile := by
  induction fd generalizing s with
  | nil => exact ⟨rfl, rfl, rfl⟩
  | cons desc fd ih =>
    cases hfile : desc.file with
    | none => simpa [bumpAll, hfile] using ih s
    | some f => simpa [bumpAll, hfile, vfsBumpRefcount] using ih (s.vfsBumpRefcount f)

theorem Counted.closeAll (h : s.Counted n) (hn : ∀ f, n f = n' f + fd.refs f) :
    (s.closeAll fd).Counted n' := by
  induction fd generalizing s n with
  | nil =>
    obtain rfl : n = n' := funext hn
    exact h
  | cons desc fd ih =>
    have hn' : ∀ f, n f = n' f + FdTable.refs fd f + if desc.file = some f then 1 else 0 := fun f => by
      rw [hn, refs_cons, add_assoc]
    cases hfile : desc.file with
    | none =>
      have hstep : s.closeAll (desc :: fd) = s.closeAll fd := by simp [closeAll, hfile]
      rw [hstep]
      exact ih h fun f => by simpa [hfile] using hn' f
    | some g =>
      have hstep : s.closeAll (desc :: fd) = (s.vfsClose g).closeAll fd := by
        simp [closeAll, hfile]
      rw [hstep]
      exact ih (h.vfsClose fun f => by simpa [hfile] using hn' f) fun _ => rfl

theorem Counted.bumpAll (h : s.Counted n) (hne : ∀ f, fd.refs f ≠ 0 → n f ≠ 0) :
    (s.bumpAll fd).Counted fun f => n f + fd.refs f := by
  induction fd generalizing s n with
  | nil => exact h
  | cons desc fd ih =>
    simp only [refs_cons] at hne ⊢
    cases hfile : desc.file with
    | none =>
      have hstep : s.bumpAll (desc :: fd) = s.bumpAll fd := by simp [bumpAll, hfile]
      rw [hstep]
      exact ih h fun f hf => hne f (by omega)
    | some g =>
      have hstep : s.bumpAll (desc :: fd) = (s.vfsBumpRefcount g).bumpAll fd := by
        simp [bumpAll, hfile]
      have hbump : (s.vfsBumpRefcount g).Counted fun f => n f + if g = f then 1 else 0 :=
        h.vfsBumpRefcount (hne g (by simp [hfile])) fun _ => rfl
      have hsum := ih hbump fun f hf => Nat.ne_zero_of_lt
        (Nat.lt_of_lt_of_le (Nat.pos_of_ne_zero (hne f (by omega))) (Nat.le_add_right _ _))
      rw [hstep]
      simpa [add_assoc, add_comm, add_left_comm] using hsum

namespace Inv

/-- A task is added whose table has descriptors of known files, which are counted. -/
theorem insert (h : s.Inv) (hp : p ∉ s.live) {files : Nat → OpenFile} (hnodup : fd.numbers.Nodup)
    (hknown : ∀ f, fd.refs f ≠ 0 → s.refs f ≠ 0)
    (hfiles : Counted { s with files } fun f => s.refs f + fd.refs f) :
    Inv { s with live := Insert.insert p s.live, table := update s.table p fd, files } := by
  have hrefs : ∀ f, refs { s with
      live := Insert.insert p s.live, table := update s.table p fd, files } f =
        s.refs f + fd.refs f := fun f => by
    unfold refs
    dsimp only
    rw [sum_insert hp, update_self, add_comm]
    congr 1
    refine sum_congr rfl fun q hq => ?_
    have hne : q ≠ p := fun e => hp (e ▸ hq)
    rw [update_of_ne hne]
  refine ⟨fun f hf => hrefs f ▸ hfiles f hf, fun f hf => h.known f ?_, fun q hq => ?_⟩
  · rw [hrefs] at hf
    have := hknown f
    omega
  · dsimp only
    by_cases e : q = p
    · rw [e, update_self]
      exact hnodup
    · rw [update_of_ne e]
      exact h.numbers q (mem_of_mem_insert_of_ne hq e)

theorem taskAllocate (h : s.Inv) (hp : p ∉ s.live) : (s.taskAllocate p).Inv :=
  h.insert hp nodup_nil (fun _ hf => absurd rfl hf) h.files

theorem taskFork (h : s.Inv) (hp : p ∈ s.live) (hchild : child ∉ s.live) :
    (s.taskFork p child).Inv := by
  obtain ⟨hlive, htable, hnext⟩ := bumpAll_frame s (s.table p)
  have heq : s.taskFork p child =
      { s with live := Insert.insert child s.live, table := update s.table child (s.table p),
               files := (s.bumpAll (s.table p)).files } := by
    unfold FdState.taskFork setTable
    dsimp only
    rw [hlive, htable, hnext]
  have hused : ∀ f, (s.table p).refs f ≠ 0 → s.refs f ≠ 0 := fun f hf => by
    have := refs_le hp f
    omega
  rw [heq]
  exact h.insert hchild (h.numbers p hp) hused fun f hf => h.files.bumpAll hused f (hnext ▸ hf)

theorem taskDestroy (h : s.Inv) (hp : p ∈ s.live) : (s.taskDestroy p).Inv := by
  obtain ⟨hlive, htable, hnext⟩ := closeAll_frame s (s.table p)
  have heq : s.taskDestroy p =
      { s with live := s.live.erase p, files := (s.closeAll (s.table p)).files } := by
    unfold FdState.taskDestroy
    dsimp only
    rw [hlive, htable, hnext]
  have hrefs : ∀ f, refs { s with live := s.live.erase p } f + (s.table p).refs f = s.refs f :=
    fun f => sum_erase_add _ _ hp
  rw [heq]
  refine ⟨fun f hf => h.files.closeAll (fun f => (hrefs f).symm) f (hnext ▸ hf),
    fun f hf => h.known f fun hzero => hf ?_, fun q hq => ?_⟩
  · have := hrefs f
    rw [hzero] at this
    exact (Nat.add_eq_zero_iff.mp this).1
  · exact h.numbers q (mem_of_mem_erase hq)

/-- Every careful operation keeps the invariant. -/
theorem exec (h : s.Inv) {op : FdOp} (hop : op.Allowed s) (hcareful : op.Careful s) :
    (op.exec s).Inv := by
  cases op with
  | allocate p => exact h.taskAllocate hop
  | stdio p => exact h.taskSetupStdio hop
  | «open» p opens =>
    cases opens with
    | false => exact h.openFails
    | true => exact h.openFd hop hcareful
  | pipe p => exact h.sysPipe hop hcareful
  | close p n => exact h.sysClose hop n
  | dup p oldfd newfd flags => exact h.sysDup hop hcareful
  | fork p child => exact h.taskFork hop.1 hop.2
  | destroy p => exact h.taskDestroy hop

end Inv

end FdState

namespace FdOp

instance (s : FdState) : DecidablePred (Allowed s)
  | allocate _ => inferInstanceAs (Decidable (_ ∉ _))
  | fork _ _ => inferInstanceAs (Decidable (_ ∧ _))
  | stdio _ | .open _ _ | pipe _ | close _ _ | dup _ _ _ _ | destroy _ =>
    inferInstanceAs (Decidable (_ ∈ _))

instance (n : Nat) (fd : FdTable) : Decidable (fd.RoomFor n) :=
  inferInstanceAs (Decidable (∀ desc ∈ fd, _))

instance (s : FdState) : DecidablePred (Careful s)
  | .open p _ => inferInstanceAs (Decidable ((s.table p).RoomFor 1))
  | pipe p => inferInstanceAs (Decidable ((s.table p).RoomFor 2))
  | dup p oldfd newfd _ => inferInstanceAs (Decidable (if newfd = -1 then (s.table p).RoomFor 1
      else oldfd = newfd → ∀ desc ∈ s.table p, desc.identifier = oldfd →
        ∀ f ∈ desc.file, s.refs f ≠ 1))
  | allocate _ | stdio _ | close _ _ | fork _ _ | destroy _ => inferInstanceAs (Decidable True)

/-- The state after some operations, if each is allowed and passes a test. -/
def execAll (ok : FdState → FdOp → Bool) : List FdOp → FdState → Option FdState
  | [], s => some s
  | op :: ops, s => if op.Allowed s ∧ ok s op then execAll ok ops (op.exec s) else none

theorem execAll_fdRun {ok : FdState → FdOp → Bool} {ops : List FdOp} {s s' : FdState}
    (hs : FdRun (fun s op => ok s op = true) s) (h : execAll ok ops s = some s') :
    FdRun (fun s op => ok s op = true) s' := by
  induction ops generalizing s with
  | nil =>
    cases h
    exact hs
  | cons op ops ih =>
    obtain ⟨⟨hallowed, hok⟩, h⟩ := ite_none_right_eq_some.mp h
    exact ih (.step hs hallowed hok) h

end FdOp

theorem FdRun.mono {ok ok' : FdState → FdOp → Prop} {s : FdState}
    (hok : ∀ s op, ok s op → ok' s op) (h : FdRun ok s) : FdRun ok' s := by
  induction h with
  | initial files => exact .initial files
  | step _ hallowed hop ih => exact .step ih hallowed (hok _ _ hop)

/-- Nothing is open. -/
def noFiles : FdState := .initial fun _ => .opened

end Stos.Kernel
