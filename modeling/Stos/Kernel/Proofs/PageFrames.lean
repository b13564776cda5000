import Stos.Kernel.Memory.Proofs.PmmRuns
import Stos.Kernel.PagingInvariant

/-!
# Page frames

The frame rule `Keeps` for the operations of `paging.c` on single pages: taking a page,
giving one back, writing to one and counting its references.
-/

namespace Stos.Kernel

open PageEntry Machine Function Pmm

variable {s s' s'' : Machine} {blk blk' blk'' : Blocks} {W W' R R' : Set Nat} {p q i : Nat}

theorem IsPage.not_isFree (h : IsPage blk q) : ¬ IsFree blk q := by
  rintro ⟨o, ho⟩
  rw [h] at ho
  cases ho

theorem not_isFree_congr (h : blk' q = blk q) (hq : ¬ IsFree blk q) : ¬ IsFree blk' q := by
  unfold IsFree at *
  rwa [h]

namespace Keeps

theorem refl (st : Steady s.pmm blk) : Keeps s blk s blk W R :=
  ⟨st, fun _ _ _ => rfl, fun _ _ _ => rfl, fun _ _ _ => rfl, rfl, rfl⟩

section

variable (h : Keeps s blk s' blk' W R)

include h

theorem not_isFree (hq : ¬ IsFree blk q) (hWR : q ∈ W → q ∉ R) : ¬ IsFree blk' q :=
  not_isFree_congr (h.status q hq hWR) hq

theorem isFree_of_isFree (hWR : q ∈ W → q ∉ R) (hq : IsFree blk' q) : IsFree blk q :=
  Classical.byContradiction fun hn => h.not_isFree hn hWR hq

/-- One change after another. The sets of the second one only matter on pages that were in
use before the first, so what is done to pages taken in between leaves no trace. -/
theorem trans (h' : Keeps s' blk' s'' blk'' W' R') (hW : ∀ q, ¬ IsFree blk q → q ∈ W' → q ∈ W)
    (hR : ∀ q, ¬ IsFree blk q → q ∈ R' → q ∈ R) : Keeps s blk s'' blk'' W R where
  steady := h'.steady
  status q hq hWR :=
    (h'.status q (h.not_isFree hq hWR) fun hw hr => hWR (hW q hq hw) (hR q hq hr)).trans
      (h.status q hq hWR)
  mem a ha hn :=
    (h'.mem a (h.not_isFree ha fun hw => absurd hw hn) fun hw => hn (hW _ ha hw)).trans
      (h.mem a ha hn)
  refs q hq hn :=
    (h'.refs q (h.not_isFree hq fun _ => hn) fun hr => hn (hR q hq hr)).trans (h.refs q hq hn)
  kernel := h'.kernel.trans h.kernel
  current := h'.current.trans h.current

theorem mono (hW : ∀ q, ¬ IsFree blk q → q ∈ W → q ∈ W') (hR : ∀ q, ¬ IsFree blk q → q ∈ R → q ∈ R') :
    Keeps s blk s' blk' W' R' where
  steady := h.steady
  status q hq hWR := h.status q hq fun hw hr => hWR (hW q hq hw) (hR q hq hr)
  mem a ha hn := h.mem a ha fun hw => hn (hW _ ha hw)
  refs q hq hn := h.refs q hq fun hr => hn (hR q hq hr)
  kernel := h.kernel
  current := h.current

theorem andThen (h' : Keeps s' blk' s'' blk'' W R) :
    Keeps s blk s'' blk'' W R := h.trans h' (fun _ _ => id) fun _ _ => id

end

/-- A change to free pages only. -/
theorem widen (h : Keeps s blk s' blk' ∅ ∅) : Keeps s blk s' blk' W R :=
  h.mono (fun _ _ h => h.elim) fun _ _ h => h.elim

/-- Pages that are written or counted only keep their status. -/
theorem isPage (h : Keeps s blk s' blk' W R) (hq : IsPage blk q) (hWR : q ∈ W → q ∉ R) :
    IsPage blk' q :=
  (h.status q hq.not_isFree hWR).trans hq

theorem byte (h : Keeps s blk s' blk' W R) (hq : ¬ IsFree blk q) (hW : q ∉ W) (hi : i < 4096) :
    s'.mem (q * 4096 + i) = s.mem (q * 4096 + i) := by
  have hpage : (q * 4096 + i) / 4096 = q := by omega
  exact h.mem _ (by rwa [hpage]) (by rwa [hpage])

theorem entry (h : Keeps s blk s' blk' W R) (hq : ¬ IsFree blk q) (hW : q ∉ W) (hi : i < 1024) :
    s'.entry (q * 4096) i = s.entry (q * 4096) i := by
  unfold Machine.entry readEntry
  rw [read32_congr]
  intro b hb hb'
  have hpage : b / 4096 = q := by omega
  exact h.mem b (by rwa [hpage]) (by rwa [hpage])

end Keeps

/-! ## Entries of a page -/

section Entries

variable {t i j : Nat} {e : PageEntry}

theorem Machine.entry_setEntry_self (s : Machine) (base i : Nat) (e : PageEntry) :
    (s.setEntry base i e).entry base i = e := by
  show decode (read32 (write32 _ _ _) _) = e
  rw [read32_write32, decode_encode]

theorem Machine.entry_setEntry_of_ne (hi : i < 1024) (hj : j < 1024) (h : q ≠ t ∨ j ≠ i) :
    (s.setEntry (t * 4096) i e).entry (q * 4096) j = s.entry (q * 4096) j := by
  show decode (read32 (write32 _ _ _) _) = _
  rw [read32_write32_of_disjoint]
  · rfl
  · omega

/-- An all-zero entry, as `memset` leaves it. -/
def PageEntry.empty : PageEntry := .decode 0

theorem Machine.entry_zeroPage (hi : i < 1024) :
    (s.zeroPage (t * 4096)).entry (t * 4096) i = .empty := by
  show decode (read32 (fillBytes _ _ _ _) _) = _
  rw [read32_fillBytes_zero (by omega) (by omega)]
  rfl

theorem PageEntry.empty_present : empty.present = false := by decide

theorem PageEntry.empty_cow : empty.cow = false := by decide

end Entries

/-! ## Operations on single pages -/

section

variable (st : Steady s.pmm blk) (hp : IsPage blk p)

include st hp

/-- Writes to a page in use leave the allocator and all other pages alone. -/
theorem Keeps.write {m : Mem} (outside : ∀ a, a / 4096 ≠ p → m a = s.mem a) :
    Keeps s blk (s.setMem m) blk {p} ∅ := by
  refine ⟨⟨⟨⟨st.total_le, st.aligned, st.order_le, st.inRange, ?_, st.maps⟩, st.hole⟩, st.settled,
    st.zero_not_live⟩, fun _ _ _ => rfl, fun a _ ha => outside a ha, fun _ _ _ => rfl, rfl, rfl⟩
  refine st.lists.congr rfl (fun _ _ => Iff.rfl) fun a o ha => outside a ?_
  intro e
  rw [e] at ha
  exact hp.not_isFree ⟨o, ha.2⟩

theorem Keeps.setEntry (hi : i < 1024) (e : PageEntry) :
    Keeps s blk (s.setEntry (p * 4096) i e) blk {p} ∅ :=
  .write st hp fun _ ha => write32_of_outside (by omega)

theorem Keeps.zeroPage : Keeps s blk (s.zeroPage (p * 4096)) blk {p} ∅ :=
  .write st hp fun _ ha => fillBytes_of_outside (by omega)

theorem Keeps.copyPage (src : Nat) : Keeps s blk (s.copyPage (p * 4096) src) blk {p} ∅ :=
  .write st hp fun _ ha => copyBytes_of_outside (by omega)

end

/-- Page `p` was taken from the free lists. -/
structure Grabbed (s : Machine) (blk : Blocks) (p : Nat) (s' : Machine) (blk' : Blocks) :
    Prop where
  keeps : Keeps s blk s' blk' ∅ ∅
  pos : p ≠ 0
  lt : p < 2 ^ 20
  fresh : IsFree blk p
  page : IsPage blk' p
  one : s'.refs p = 1
  rest : ∀ q, q ≠ p → (IsFree blk' q ↔ IsFree blk q)

/-- Writes to a new page leave no trace on the others. -/
theorem Grabbed.written (g : Grabbed s blk p s' blk') (k : Keeps s' blk' s'' blk'' {p} ∅) :
    Keeps s blk s'' blk'' ∅ ∅ :=
  g.keeps.trans k (fun _ hq hqp => absurd (hqp ▸ g.fresh) hq) fun _ _ => id

theorem Machine.allocPage_spec (st : Steady s.pmm blk) :
    s.allocPage = (0, s) ∨
      ∃ p s' blk', s.allocPage = (p * 4096, s') ∧ Grabbed s blk p s' blk' := by
  have div_one : ∀ q, q / 2 ^ 0 = q := fun q => by simp
  rcases buddyAllocOrder_spec st.toBuddyInv (Nat.zero_le 10) with ⟨h, -⟩ | ⟨p, blk', haddr, h⟩
  · left
    unfold allocPage pmmAllocPage
    rw [h]
  · right
    have fresh : IsFree blk p := h.fresh p rfl
    have other : ∀ q ≠ p, blk' q = blk q ∨ IsFree blk q ∧ IsFree blk' q := fun q hq =>
      h.rest q (by rwa [div_one, div_one])
    have hne : ∀ q, ¬ IsFree blk q → q ≠ p := by
      rintro q hq rfl
      exact hq fresh
    refine ⟨p, _, blk', Prod.ext haddr rfl, ⟨h.steady st, ?_, ?_, ?_, rfl, rfl⟩, h.pos, ?_, fresh,
      h.live p rfl, ?_, ?_⟩
    · intro q hq _
      rcases other q (hne q hq) with e | ⟨hf, -⟩
      · exact e
      · exact absurd hf hq
    · intro a ha _
      exact h.mem a fun j hj => ha ⟨j, hj⟩
    · intro q hq _
      exact (h.refs q).trans (if_neg (by rw [div_one, div_one]; exact hne q hq))
    · exact h.inv.page_lt (h.live p rfl)
    · exact (h.refs p).trans (if_pos rfl)
    · intro q hq
      rcases other q hq with e | ⟨h1, h2⟩
      · unfold IsFree
        rw [e]
      · exact ⟨fun _ => h1, fun _ => h2⟩

/-- Page `p` was given back to the free lists. -/
structure Dropped (s : Machine) (blk : Blocks) (p : Nat) (s' : Machine) (blk' : Blocks) :
    Prop where
  keeps : Keeps s blk s' blk' {p} {p}
  free : IsFree blk' p
  zero : s'.refs p = 0
  rest : ∀ q, q ≠ p → (IsFree blk' q ↔ IsFree blk q)

theorem Dropped.isFree_mono (h : Dropped s blk p s' blk') (q : Nat) (hq : IsFree blk q) :
    IsFree blk' q := by
  by_cases hqp : q = p
  · rw [hqp]
    exact h.free
  · exact (h.rest q hqp).mpr hq

theorem Machine.freePage_spec (st : Steady s.pmm blk) (hp : IsPage blk p) (hrefs : s.refs p ≤ 1) :
    ∃ blk', Dropped s blk p (s.freePage (p * 4096)) blk' := by
  have div_one : ∀ q, q / 2 ^ 0 = q := fun q => by simp
  have hlt := st.page_lt hp
  have haddr : pmmPageToAddr p = p * 4096 := by
    unfold pmmPageToAddr
    omega
  obtain ⟨blk', h⟩ := pmmFreePage_spec st ⟨by simp, hp⟩ fun q hq => by
    rw [div_one, div_one] at hq
    rw [hq]
    exact hrefs
  rw [haddr] at h
  have other : ∀ q ≠ p, blk' q = blk q ∨ IsFree blk q ∧ IsFree blk' q := fun q hq =>
    h.rest q (by rwa [div_one, div_one])
  have free : IsFree blk' p := h.free p rfl
  refine ⟨blk', ⟨h.steady st, ?_, ?_, ?_, rfl, rfl⟩, free, (h.refs p).trans (if_pos rfl), ?_⟩
  · intro q hq hWR
    rcases other q (by rintro rfl; exact hWR rfl rfl) with e | ⟨hf, -⟩
    · exact e
    · exact absurd hf hq
  · intro a ha hne
    refine h.mem a fun j hj => ?_
    rcases other _ hne with e | ⟨hf, -⟩
    · exact ha ⟨j, e ▸ hj⟩
    · exact ha hf
  · intro q _ hne
    exact (h.refs q).trans (if_neg (by rw [div_one, div_one]; exact hne))
  · intro q hq
    rcases other q hq with e | ⟨h1, h2⟩
    · unfold IsFree
      rw [e]
    · exact ⟨fun _ => h1, fun _ => h2⟩

section Refcounts

theorem Machine.allocated_of_isPage (st : Steady s.pmm blk) (hp : IsPage blk p) :
    s.pmm.buddyIsAllocated p = true ∧ ¬ p ≥ s.pmm.pmmTotalPages :=
  ⟨(st.maps p 0 _ ⟨by simp, hp⟩ (by simp)).2, not_le.mpr (st.inRange p 0 _ hp)⟩

/-- Only the reference count of `p` changes. -/
structure Recounted (s : Machine) (blk : Blocks) (p n : Nat) (s' : Machine) : Prop where
  keeps : Keeps s blk s' blk ∅ {p}
  mem : s'.mem = s.mem
  refs : s'.refs p = n

theorem Machine.recounted (st : Steady s.pmm blk) (p n : Nat) :
    Recounted s blk p n
      { s with pmm := { s.pmm with
        buddyRefcountMap := update s.pmm.buddyRefcountMap p n } } := by
  refine ⟨⟨⟨st.toBuddyInv.of_eq rfl rfl rfl rfl rfl, st.settled, st.zero_not_live⟩,
    fun _ _ _ => rfl, fun _ _ _ => rfl, ?_, rfl, rfl⟩, rfl, update_self _ _ _⟩
  intro q _ hq
  exact update_of_ne hq _ _

theorem Machine.incRefcount_spec (st : Steady s.pmm blk) (hp : IsPage blk p)
    (hle : s.refs p ≤ 65535) :
    ∃ s', s.incRefcount (p * 4096) = some (min (s.refs p + 1) 65535, s') ∧
      Recounted s blk p (min (s.refs p + 1) 65535) s' := by
  obtain ⟨halloc, hin⟩ := allocated_of_isPage st hp
  have haligned : pmmIsAligned (p * 4096) = true := by simp [pmmIsAligned]
  have hpage : pmmAddrToPage (p * 4096) = p := Nat.mul_div_cancel _ (by simp)
  unfold incRefcount pmmIncRefcount
  rw [hpage, haligned, halloc]
  unfold buddyIncRefcount
  rw [if_neg hin]
  by_cases hsat : s.pmm.buddyRefcountMap p = 65535
  · have hmin : min (s.refs p + 1) 65535 = 65535 := by
      unfold refs
      omega
    simp only [hsat, if_true, hmin]
    exact ⟨_, rfl, .refl st, rfl, hsat⟩
  · have hmin : min (s.refs p + 1) 65535 = s.refs p + 1 := by
      unfold refs at hle ⊢
      omega
    simp only [hsat, if_false, hmin]
    exact ⟨_, rfl, recounted st p _⟩

theorem Machine.decRefcount_spec (st : Steady s.pmm blk) (hp : IsPage blk p)
    (hpos : 0 < s.refs p) (hsat : s.refs p < 65535) :
    ∃ s', s.decRefcount (p * 4096) = some (s.refs p - 1, s') ∧
      Recounted s blk p (s.refs p - 1) s' := by
  obtain ⟨halloc, hin⟩ := allocated_of_isPage st hp
  have haligned : pmmIsAligned (p * 4096) = true := by simp [pmmIsAligned]
  have hpage : pmmAddrToPage (p * 4096) = p := Nat.mul_div_cancel _ (by simp)
  have h0 : s.pmm.buddyRefcountMap p ≠ 0 := Nat.pos_iff_ne_zero.mp hpos
  have h1 : s.pmm.buddyRefcountMap p ≠ 65535 := Nat.ne_of_lt hsat
  unfold decRefcount pmmDecRefcount
  rw [hpage, haligned, halloc]
  unfold buddyDecRefcount
  rw [if_neg hin]
  simp only [h0, h1, if_false]
  exact ⟨_, rfl, recounted st p _⟩

end Refcounts

end Stos.Kernel
