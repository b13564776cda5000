import Stos.Libc.Proofs.Malloc

/-!
# Programs that use the heap

The allocations of a program are in blocks of their own through all its calls, so what it has stored
in them stays there.
-/

namespace Stos.Libc

open List Option

variable {s s' : UserHeap} {live live' : List Allocation} {blocks blocks' kept : List Block}
  {b c : Block} {m : Mem}
variable {x : Allocation} {size ret ptr : Nat}

/-- The allocations of a program and the blocks that they are in. -/
structure Live (s : UserHeap) (live : List Allocation) (blocks : List Block) : Prop where
  ready : Ready s blocks
  holds : ∀ x ∈ live, ∃ b ∈ blocks, Holds x b
  ptrs : (live.map Allocation.ptr).Nodup
  contents : ∀ x ∈ live, takeBytes s.mem x.ptr x.bytes.length = x.bytes

namespace Live

section

variable (h : Live s live blocks) {y : Allocation}

include h

/-- A heap with allocations has been initialised. -/
theorem inv (hx : x ∈ live) : Inv s blocks ∧ Spaced blocks := by
  rcases h.ready with ⟨-, rfl, -⟩ | hinv
  · obtain ⟨b, hb, -⟩ := h.holds x hx
    cases hb
  · exact hinv

theorem ptr_inj (hx : x ∈ live) (hy : y ∈ live) (hptr : x.ptr = y.ptr) : x = y :=
  inj_on_of_nodup_map h.ptrs hx hy hptr

/-- Allocations whose blocks are kept. -/
theorem keep (hready : Ready s' blocks') (hkeeps : Keeps kept blocks' s.mem s'.mem)
    (hlive : live'.Sublist live) (hkept : ∀ x ∈ live', ∀ b ∈ blocks, Holds x b → b ∈ kept) :
    Live s' live' blocks' where
  ready := hready
  holds := by
    intro x hx
    obtain ⟨b, hb, hxb⟩ := h.holds x (hlive.subset hx)
    exact ⟨b, (hkeeps b (hkept x hx b hb hxb) hxb.present).1, hxb⟩
  ptrs := h.ptrs.sublist (hlive.map _)
  contents := by
    intro x hx
    obtain ⟨b, hb, hxb⟩ := h.holds x (hlive.subset hx)
    have hbytes := (hkeeps b (hkept x hx b hb hxb) hxb.present).2
    have hptr := hxb.ptr
    have hlarge := hxb.large
    have hstop := b.stop_eq
    rw [headerSize] at hptr
    rw [← h.contents x (hlive.subset hx), takeBytes_length]
    exact takeBytes_congr fun v hlo hhi => hbytes v (by omega) (by omega)

/-- A new allocation in a block of its own. -/
theorem cons (hc : c ∈ blocks) (hpresent : c.present = true) {bytes : List (BitVec 8)}
    (hlarge : bytes.length ≤ c.length) (hnew : ∀ x ∈ live, x.ptr ≠ c.addr + 12)
    (hbytes : takeBytes s.mem (c.addr + 12) bytes.length = bytes) :
    Live s (⟨c.addr + 12, bytes⟩ :: live) blocks where
  ready := h.ready
  holds := by
    intro x hx
    rcases mem_cons.mp hx with rfl | hx
    · exact ⟨c, hc, hpresent, rfl, hlarge⟩
    · exact h.holds x hx
  ptrs := by
    rw [map_cons, nodup_cons]
    refine ⟨fun hmem => ?_, h.ptrs⟩
    obtain ⟨x, hx, hptr⟩ := mem_map.mp hmem
    exact hnew x hx hptr
  contents := by
    intro x hx
    rcases mem_cons.mp hx with rfl | hx
    · exact hbytes
    · exact h.contents x hx

/-- Different allocations have no byte in common. -/
theorem apart_of_ne (hx : x ∈ live) (hy : y ∈ live) (hne : x.ptr ≠ y.ptr) : Apart x y := by
  obtain ⟨b, hb, hxb⟩ := h.holds x hx
  obtain ⟨c, hc, hyc⟩ := h.holds y hy
  have hxptr := hxb.ptr
  have hyptr := hyc.ptr
  have hxlarge := hxb.large
  have hylarge := hyc.large
  have hbstop := b.stop_eq
  have hcstop := c.stop_eq
  rcases (h.inv hx).1.laid.eq_or_apart hb hc with rfl | hle | hle
  · omega
  · exact .inl (by omega)
  · exact .inr (by omega)

theorem apart : live.Pairwise Apart :=
  (pairwise_map.mp h.ptrs).imp_of_mem fun hx hy hne => h.apart_of_ne hx hy hne

theorem right : HeapRight s live where
  blocks := by
    rcases h.ready with ⟨hstart, rfl, -⟩ | ⟨hinv, hspaced⟩
    · refine .inl ⟨hstart, eq_nil_iff_forall_not_mem.mpr fun x hx => ?_⟩
      obtain ⟨b, hb, -⟩ := h.holds x hx
      cases hb
    · exact .inr ⟨blocks, hinv.laid, hspaced, h.holds⟩
  apart := h.apart
  contents := h.contents

end

end Live

/-! ## Calls -/

/-- A block that the program did not have. -/
theorem Live.new (h : Live s live blocks)
    (hne : ∀ b ∈ blocks, b.present = true → b.addr ≠ c.addr) : ∀ x ∈ live, x.ptr ≠ c.addr + 12 := by
  intro x hx hptr
  obtain ⟨b, hb, hxb⟩ := h.holds x hx
  have := hxb.ptr
  rw [headerSize] at this
  exact hne b hb hxb.present (by omega)

theorem Live.malloc (h : Live s live blocks) (page area : Option Mem)
    (hpage : s.heapStart = 0 → page.isSome) (hsize : Asks s area size) :
    ∃ s' ret blocks', s.malloc page area size = some (s', ret) ∧
      Live s' (allocated live s' size ret) blocks' ∧
      (ret = 0 ∨ s'.heapStart ≤ ret ∧ ret + size ≤ s'.brk) := by
  obtain ⟨s', ret, blocks', hmalloc, hinv, hspaced, hkeeps, hgiven⟩ := malloc_spec h.ready page area hpage hsize
  have h' : Live s' live blocks' :=
    h.keep (.inr ⟨hinv, hspaced⟩) hkeeps (List.Sublist.refl live) fun _ _ _ hb _ => hb
  refine ⟨s', ret, blocks', hmalloc, ?_⟩
  rcases hgiven with rfl | ⟨c, hc, hpresent, rfl, hlarge, hne⟩
  · exact ⟨h', .inl rfl⟩
  · refine ⟨h'.cons hc hpresent (by rwa [takeBytes_length]) (h.new hne) (by rw [takeBytes_length]), .inr ?_⟩
    obtain ⟨hlo, hhi⟩ := hinv.laid.mem hc
    rw [c.stop_eq, hinv.stop] at hhi
    omega

theorem Live.free (h : Live s live blocks) (hx : x ∈ live) :
    ∃ s' blocks', s.free x.ptr = some s' ∧ Live s' (released live x.ptr) blocks' ∧
      ∀ c ∈ blocks, c.present = true → x.ptr ≠ c.addr + 12 →
        c ∈ blocks' ∧ ∀ v, c.addr + 12 ≤ v → v < c.stop → s'.mem v = s.mem v := by
  obtain ⟨b, hb, hxb⟩ := h.holds x hx
  obtain ⟨hinv, hspaced⟩ := h.inv hx
  obtain ⟨s', blocks', hfree, hinv', hspaced', hkeeps⟩ := free_spec hinv hspaced hb hxb.present
  have hptr : x.ptr = b.addr + 12 := hxb.ptr
  rw [← hptr] at hfree
  have hmem : ∀ c ∈ blocks, x.ptr ≠ c.addr + 12 → c ∈ blocks.filter (· ≠ b) := by
    intro c hc hne
    refine mem_filter.mpr ⟨hc, ?_⟩
    simp only [ne_eq, decide_not, Bool.not_eq_eq_eq_not, Bool.not_true, decide_eq_false_iff_not]
    rintro rfl
    exact hne hptr
  refine ⟨s', blocks', hfree, ?_, fun c hc hpresent hne => hkeeps c (hmem c hc hne) hpresent⟩
  refine h.keep (.inr ⟨hinv', hspaced'⟩) hkeeps filter_sublist fun y hy c hc hyc => hmem c hc ?_
  have hne := (mem_filter.mp hy).2
  have hyptr := hyc.ptr
  rw [headerSize] at hyptr
  rw [← hyptr]
  simpa using Ne.symm (by simpa using hne)

/-- Stores to a block without an allocation. -/
theorem Live.fill (h : Live s live blocks) (hinv : Inv s blocks) (hspaced : Spaced blocks)
    (hc : c ∈ blocks) (hne : ∀ x ∈ live, x.ptr ≠ c.addr + 12)
    (same : ∀ v, v < c.addr + 12 ∨ c.stop ≤ v → m v = s.mem v) :
    Live { s with mem := m } live blocks := by
  refine { h with ready := .inr ⟨hinv.store hc same, hspaced⟩, contents := fun x hx => ?_ }
  obtain ⟨b, hb, hxb⟩ := h.holds x hx
  have hptr := hxb.ptr
  have hlarge := hxb.large
  have hbstop := b.stop_eq
  have hx' := hne x hx
  rw [headerSize] at hptr
  have hsame : ∀ v, x.ptr ≤ v → v < x.ptr + x.bytes.length → m v = s.mem v := by
    intro v hlo hhi
    rcases hinv.laid.eq_or_apart hb hc with rfl | hle | hle
    · exact absurd hptr hx'
    · exact same v (by omega)
    · exact same v (by omega)
  exact (takeBytes_congr hsame).trans (h.contents x hx)

/-- The first bytes of a sequence in memory. -/
theorem takeBytes_eq_append {a n : Nat} {old : List (BitVec 8)}
    (same : ∀ j < n, j < old.length → some (m (a + j)) = old[j]?) :
    takeBytes m a n = old.take n ++ (takeBytes m a n).drop old.length := by
  refine ext_getElem? fun j => ?_
  rw [getElem?_append, length_take]
  rcases lt_or_ge j n with hj | hj
  · split
    · rw [takeBytes_getElem? hj, same j hj (by omega), getElem?_take_of_lt hj]
    · rw [getElem?_drop, show old.length + (j - min n old.length) = j by omega]
  · rw [getElem?_eq_none (by simpa using hj), if_neg (by omega), getElem?_drop,
      getElem?_eq_none (by rw [takeBytes_length]; omega)]

/-- The new block has the first bytes of the old one, and the old one is free. -/
theorem Live.realloc (h : Live s live blocks) (hx : x ∈ live) (hptr : x.ptr ≠ 0) (hsize : size < 2 ^ 31)
    (hzero : size ≠ 0) (page : Mem) (area : Option Mem) :
    ∃ s' ret blocks', s.realloc (some page) area x.ptr size = some (s', ret) ∧
      Live s' (moved live s' x.ptr size ret) blocks' := by
  obtain ⟨s1, ret, blocks1, hmalloc, hinv, hspaced, hkeeps, hgiven⟩ :=
    malloc_spec h.ready (some page) area (fun _ => rfl) (.inl hsize)
  have h1 : Live s1 live blocks1 :=
    h.keep (.inr ⟨hinv, hspaced⟩) hkeeps (List.Sublist.refl live) fun _ _ _ hb _ => hb
  rw [UserHeap.realloc, if_neg hptr, if_neg hzero]
  rw [hmalloc, bind_eq_bind, bind_some]
  dsimp only
  rcases hgiven with rfl | ⟨c, hc, hpresent, rfl, hlarge, hne⟩
  · exact ⟨s1, 0, blocks1, rfl, h1⟩
  obtain ⟨b, hb, hxb⟩ := h1.holds x hx
  have hxptr := hxb.ptr
  have hxlarge := hxb.large
  rw [headerSize] at hxptr ⊢
  obtain ⟨before, after, hsplit⟩ := append_of_mem hb
  have hheader : HasHeader s1.mem b (firstAddr 0 after) := (laid_middle.mp (hsplit ▸ hinv.laid)).2.1
  have hnew := h.new hne
  have hcstop := c.stop_eq
  -- the copy stores only to the new block
  generalize hm : copyBytes s1.mem (c.addr + 12) x.ptr
    (if size < lengthAt s1.mem (x.ptr - 12) then size else lengthAt s1.mem (x.ptr - 12)) = m
  rw [hxptr, Nat.add_sub_cancel, hheader.length] at hm
  have hsame : ∀ v, v < c.addr + 12 ∨ c.stop ≤ v → m v = s1.mem v := by
    intro v hv
    rw [← hm]
    refine copyBytes_of_outside ?_
    split <;> omega
  have hcopied : ∀ j < size, j < x.bytes.length → some (m (c.addr + 12 + j)) = x.bytes[j]? := by
    intro j hj hjlen
    rw [← hm, copyBytes_of_inside (by split <;> omega), ← hxptr, ← takeBytes_getElem? hjlen,
      h1.contents x hx]
  have h2 := h1.fill hinv hspaced hc hnew hsame
  obtain ⟨s', blocks', hfree, h', hkept⟩ := h2.free hx
  obtain ⟨hc', hbytes⟩ := hkept c hc hpresent (hnew x hx)
  rw [hfree]
  refine ⟨s', c.addr + 12, blocks', rfl, ?_⟩
  obtain ⟨y, hfind⟩ : ∃ y, live.find? (fun y => y.ptr = x.ptr) = some y := by
    rw [← isSome_iff_exists, find?_isSome]
    exact ⟨x, hx, by simp⟩
  obtain rfl : y = x := h.ptr_inj (mem_of_find?_eq_some hfind) hx (by simpa using find?_some hfind)
  rw [moved, if_neg (by omega), hfind]
  dsimp only [map_some, getD_some]
  have hcontents : takeBytes s'.mem (c.addr + 12) size =
      y.bytes.take size ++ (takeBytes s'.mem (c.addr + 12) size).drop y.bytes.length := by
    refine takeBytes_eq_append fun j hj hjlen => ?_
    rw [hbytes _ (by omega) (by omega)]
    exact hcopied j hj hjlen
  have hlength : (y.bytes.take size ++ (takeBytes s'.mem (c.addr + 12) size).drop y.bytes.length).length =
      size := by rw [← hcontents, takeBytes_length]
  refine h'.cons hc' hpresent (by rwa [hlength]) (fun z hz => hnew z (mem_filter.mp hz).1) ?_
  rw [hlength]
  exact hcontents

/-- A program stores a byte in one of its allocations. -/
theorem Live.store (h : Live s live blocks) (hx : x ∈ live) {i : Nat} (hi : i < x.bytes.length)
    (v : BitVec 8) :
    Live { s with mem := write8 s.mem (x.ptr + i) v }
      (live.map fun y => if y.ptr = x.ptr then ⟨y.ptr, y.bytes.set i v⟩ else y) blocks := by
  obtain ⟨hinv, hspaced⟩ := h.inv hx
  obtain ⟨b, hb, hxb⟩ := h.holds x hx
  have hxptr := hxb.ptr
  have hxlarge := hxb.large
  have hbstop := b.stop_eq
  rw [headerSize] at hxptr
  have hptrs : (live.map fun y => if y.ptr = x.ptr then (⟨y.ptr, y.bytes.set i v⟩ : Allocation)
      else y).map Allocation.ptr = live.map Allocation.ptr := by
    rw [List.map_map]
    refine map_congr_left fun y _ => ?_
    dsimp only [Function.comp]
    split <;> rfl
  refine ⟨.inr ⟨hinv.store hb fun w hw => ?_, hspaced⟩, fun z hz => ?_, ?_, fun z hz => ?_⟩
  · rw [write8, if_neg (by omega)]
  · obtain ⟨y, hy, rfl⟩ := mem_map.mp hz
    obtain ⟨c, hc, hyc⟩ := h.holds y hy
    refine ⟨c, hc, hyc.present, ?_, ?_⟩
    · split
      · exact hyc.ptr
      · exact hyc.ptr
    · split
      · rw [length_set]
        exact hyc.large
      · exact hyc.large
  · rw [hptrs]
    exact h.ptrs
  · obtain ⟨y, hy, rfl⟩ := mem_map.mp hz
    have hcontents := h.contents y hy
    dsimp only
    by_cases heq : y.ptr = x.ptr
    · obtain rfl : y = x := h.ptr_inj hy hx heq
      rw [if_pos rfl, length_set]
      dsimp only
      refine ext_getElem? fun j => ?_
      rw [getElem?_set]
      rcases lt_or_ge j y.bytes.length with hj | hj
      · rw [takeBytes_getElem? hj]
        by_cases hij : i = j
        · subst hij
          rw [if_pos rfl, if_pos hi, write8, if_pos rfl]
        · rw [if_neg hij, write8, if_neg (by omega), ← takeBytes_getElem? hj, hcontents]
      · rw [getElem?_eq_none (by simpa using hj), if_neg (by omega), getElem?_eq_none hj]
    · rw [if_neg heq]
      refine (takeBytes_congr fun w hlo hhi => ?_).trans hcontents
      rw [write8, if_neg]
      rcases h.apart_of_ne hx hy (Ne.symm heq) with hle | hle <;> omega

/-- Each call of a program returns, and its allocations are in blocks of their own afterwards. -/
theorem Live.exec (h : Live s live blocks) (call : HeapCall) (hcall : call.Allowed live) :
    ∃ s' ret blocks', call.exec s = some (s', ret) ∧ Live s' (call.after live s' ret) blocks' := by
  cases call with
  | malloc size page area =>
    obtain ⟨s', ret, blocks', hmalloc, h', -⟩ := h.malloc (some page) area (fun _ => rfl) (.inl hcall)
    exact ⟨s', ret, blocks', hmalloc, h'⟩
  | realloc ptr size page area =>
    obtain ⟨hsize, hptr⟩ := hcall
    rw [HeapCall.exec]
    by_cases hnull : ptr = 0
    · rw [UserHeap.realloc, if_pos hnull]
      obtain ⟨s', ret, blocks', hmalloc, h', -⟩ := h.malloc (some page) area (fun _ => rfl) (.inl hsize)
      refine ⟨s', ret, blocks', hmalloc, ?_⟩
      rwa [HeapCall.after, if_pos hnull]
    obtain ⟨x, hx, rfl⟩ := hptr.resolve_left hnull
    by_cases hzero : size = 0
    · rw [UserHeap.realloc, if_neg hnull, if_pos hzero]
      obtain ⟨s', blocks', hfree, h', -⟩ := h.free hx
      refine ⟨s', 0, blocks', by rw [hfree]; rfl, ?_⟩
      rwa [HeapCall.after, if_neg hnull, if_pos hzero]
    · obtain ⟨s', ret, blocks', hrealloc, h'⟩ := h.realloc hx hnull hsize hzero page area
      refine ⟨s', ret, blocks', hrealloc, ?_⟩
      rwa [HeapCall.after, if_neg hnull, if_neg hzero]
  | free ptr =>
    rw [HeapCall.exec]
    by_cases hnull : ptr = 0
    · rw [UserHeap.free, if_pos hnull]
      refine ⟨s, 0, blocks, rfl, ?_⟩
      have hall : released live ptr = live := filter_eq_self.mpr fun x hx => by
        obtain ⟨b, -, hxb⟩ := h.holds x hx
        have := hxb.ptr
        rw [headerSize] at this
        simpa using (by omega : x.ptr ≠ ptr)
      rwa [HeapCall.after, hall]
    · obtain ⟨x, hx, rfl⟩ := hcall.resolve_left hnull
      obtain ⟨s', blocks', hfree, h', -⟩ := h.free hx
      exact ⟨s', 0, blocks', by rw [hfree]; rfl, h'⟩
  | store ptr i v =>
    obtain ⟨x, hx, rfl, hi⟩ := hcall
    exact ⟨_, 0, blocks, rfl, h.store hx hi v⟩

theorem HeapRun.exists_live {start : Nat} (hstart : 0 < start) (hpage : start + allocPageSize < 2 ^ 32)
    (run : HeapRun start s live) : ∃ blocks, Live s live blocks := by
  induction run with
  | init m => exact ⟨[], .inl ⟨rfl, rfl, hstart, hpage⟩, by simp, by simp, by simp⟩
  | step _ hcall hexec ih =>
    obtain ⟨blocks, h⟩ := ih
    obtain ⟨s'', ret', blocks', hexec', h'⟩ := h.exec _ hcall
    obtain ⟨rfl, rfl⟩ := Prod.mk.inj (some.inj (hexec.symm.trans hexec'))
    exact ⟨blocks', h'⟩

/-- In all states of a program whose first page is given: the headers tile the heap, no two neighbours
are free, each allocation has a block that is large enough, and the allocations are disjoint and keep
what is in them. All calls return. -/
theorem heapRun_right {start : Nat} (hstart : 0 < start) (hpage : start + allocPageSize < 2 ^ 32)
    {s : UserHeap} {live : List Allocation} (run : HeapRun start s live) :
    HeapRight s live ∧ ∀ call : HeapCall, call.Allowed live → (call.exec s).isSome := by
  obtain ⟨blocks, h⟩ := run.exists_live hstart hpage
  refine ⟨h.right, fun call hcall => ?_⟩
  obtain ⟨s', ret, blocks', hexec, -⟩ := h.exec call hcall
  rw [hexec]
  rfl

/-- A program that has asked for ten bytes. -/
theorem heapRun_right_malloc : ∃ s x, HeapRun 4096 s [x] ∧ x.bytes.length = 10 ∧ HeapRight s [x] := by
  have hcall : (HeapCall.malloc 10 (fun _ => 0) none).Allowed [] := by
    show 10 < 2 ^ 31
    omega
  have hinit : HeapRun 4096 ⟨fun _ => 0, 4096, 0, 0⟩ [] := HeapRun.init _
  have run := hinit.step hcall rfl
  exact ⟨_, _, run, rfl, (heapRun_right (by decide) (by decide) run).1⟩

/-! ## Refused areas -/

/-- `malloc` gives `NULL` or a block of the size in the memory from `sbrk`, and leaves a heap in order. -/
def MallocRight (page area : Option Mem) (s : UserHeap) (live : List Allocation) (size : Nat) : Prop :=
  ∃ s' ret, s.malloc page area size = some (s', ret) ∧
    (∃ blocks, Live s' (allocated live s' size ret) blocks) ∧
    (ret = 0 ∨ s'.heapStart ≤ ret ∧ ret + size ≤ s'.brk)

/-- Without the first page the heap has a start, but no block. -/
theorem not_live_refused (hbrk : 0 < s.brk) : ¬ Live { s with heapStart := s.brk } live blocks := by
  intro h
  rcases h.ready with ⟨hstart, -⟩ | ⟨hinv, -⟩
  · exact absurd hstart hbrk.ne'
  · have hle := hinv.laid.le
    have hpos := length_pos_iff.mpr hinv.nonempty
    rw [hinv.stop] at hle
    dsimp only at hle
    omega

end Stos.Libc
