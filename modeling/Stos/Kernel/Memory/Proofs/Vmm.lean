import Stos.Kernel.Memory.Vmm

/-!
# The region list along runs

Splitting and merging keep the list a tiling. They keep every region on one side of the borders
of user space as long as no merge joins two free regions across a border.
-/

namespace Stos.Kernel

open Vmm List Tiles

variable {s s' : Vmm} {region r r' used : Region}
  {rest before after regions taken tail : List Region}
  {a b boundary size pages virt start stop : Nat} {flags : BitVec 32} {backed : Nat → Bool}

/-- The list without its gaps and overlaps, on one side of `boundary` each. -/
def Apart (boundary : Nat) (regions : List Region) : Prop :=
  ∀ r ∈ regions, ¬ r.Straddles boundary

/-! ## Merging -/

theorem vmmMergeFrom_tiles (h : Tiles Region.start Region.stop a b (region :: rest)) :
    Tiles Region.start Region.stop a b (vmmMergeFrom region rest).1 := by
  induction rest generalizing region a with
  | nil => exact h
  | cons next rest ih =>
    obtain ⟨hstart, hlt, hnext, hnlt, hrest⟩ := h
    unfold vmmMergeFrom
    split
    · exact ih ⟨hstart, by show a < next.stop; omega, hrest⟩
    · exact ⟨hstart, hlt, ih ⟨hnext, hnlt, hrest⟩⟩

/-- A merged region lies on both sides of the boundary only if the regions that met there were
both free. -/
theorem vmmMergeFrom_apart (h : Tiles Region.start Region.stop a b (region :: rest))
    (hapart : Apart boundary (region :: rest)) (hshut : Shut boundary (region :: rest)) :
    Apart boundary (vmmMergeFrom region rest).1 := by
  induction rest generalizing region a with
  | nil => exact hapart
  | cons next rest ih =>
    obtain ⟨hstart, hlt, hnext, hnlt, hrest⟩ := h
    obtain ⟨hpair, hshut⟩ := isChain_cons_cons.mp hshut
    have hregion := hapart region mem_cons_self
    have hnextApart := hapart next (mem_cons_of_mem _ mem_cons_self)
    have htail : Apart boundary rest := fun r hr =>
      hapart r (mem_cons_of_mem _ (mem_cons_of_mem _ hr))
    unfold vmmMergeFrom
    split
    case isTrue hmerge =>
      simp only [Bool.and_eq_true, decide_eq_true_eq] at hmerge
      obtain ⟨⟨hfree, hnfree⟩, hmeet⟩ := hmerge
      refine ih ⟨hstart, by show a < next.stop; omega, hrest⟩ ?_ ?_
      · rintro r hr ⟨hlo, hhi⟩
        rcases mem_cons.mp hr with rfl | hr
        · have hne : region.stop ≠ boundary := fun e => hpair ⟨hfree, hnfree, e⟩
          unfold Region.Straddles at hregion hnextApart
          dsimp only at hlo hhi
          omega
        · exact htail r hr ⟨hlo, hhi⟩
      · cases rest with
        | nil => exact isChain_singleton _
        | cons after rest =>
          obtain ⟨hpair', hshut⟩ := isChain_cons_cons.mp hshut
          exact isChain_cons_cons.mpr
            ⟨fun ⟨_, hafree, hstop⟩ => hpair' ⟨hnfree, hafree, hstop⟩, hshut⟩
    case isFalse =>
      have hrec : Apart boundary (vmmMergeFrom next rest).1 :=
        ih ⟨hnext, hnlt, hrest⟩ (fun r hr => hapart r (mem_cons_of_mem _ hr)) hshut
      intro r hr
      rcases mem_cons.mp hr with rfl | hr
      · exact hregion
      · exact hrec r hr

/-- What merging makes of a list, from what it makes of one that is not empty. -/
theorem regionList_merge {P Q : List Region → Prop} (h : P s.regionList) (nil : P [] → Q [])
    (cons : ∀ {region rest}, P (region :: rest) → Q (vmmMergeFrom region rest).1) :
    Q s.vmmMergeFreeRegions.regionList := by
  unfold vmmMergeFreeRegions
  cases hlist : s.regionList with
  | nil =>
    rw [hlist] at h ⊢
    exact nil h
  | cons region rest => exact cons (hlist ▸ h)

theorem vmmMergeFreeRegions_tiled (h : s.Tiled) : s.vmmMergeFreeRegions.Tiled :=
  regionList_merge h id vmmMergeFrom_tiles

theorem vmmMergeFreeRegions_apart (h : s.Tiled) (hapart : Apart boundary s.regionList)
    (hshut : Shut boundary s.regionList) : Apart boundary s.vmmMergeFreeRegions.regionList :=
  regionList_merge (P := fun l => Tiles _ _ _ _ l ∧ Apart boundary l ∧ Shut boundary l) ⟨h, hapart, hshut⟩
    (fun h => h.2.1) fun ⟨h, hapart, hshut⟩ => vmmMergeFrom_apart h hapart hshut

/-! ## Marking a region free -/

theorem exists_region (h : s.Tiled) (hfind : s.vmmFindRegion virt = some r) :
    ∃ before after, s.regionList = before ++ r :: after ∧ r.start ≤ virt ∧ virt < r.stop ∧
      (s.vmmMarkFree virt).regionList = before ++ { r with isFree := true } :: after := by
  have hin := find?_some hfind
  simp only [Bool.and_eq_true, decide_eq_true_eq] at hin
  obtain ⟨before, after, hlist⟩ := append_of_mem (mem_of_find?_eq_some hfind)
  refine ⟨before, after, hlist, hin.1, hin.2, ?_⟩
  unfold Tiled at h
  rw [hlist] at h
  unfold vmmMarkFree
  rw [hlist]
  refine (tiles_middle.mp h).1.replaceF_middle (fun z hz => ?_) ?_
  · exact if_neg (by omega)
  · exact if_pos hin

theorem apart_append :
    Apart boundary (before ++ after) ↔ Apart boundary before ∧ Apart boundary after := by
  unfold Apart
  simp only [mem_append, or_imp, forall_and]

theorem apart_cons :
    Apart boundary (r :: after) ↔ ¬ r.Straddles boundary ∧ Apart boundary after := by
  unfold Apart
  simp only [mem_cons, or_imp, forall_and, forall_eq]

/-- Marking a region free does not move it. -/
theorem tiles_markFree :
    Tiles Region.start Region.stop a b (before ++ { r with isFree := true } :: after) ↔
      Tiles Region.start Region.stop a b (before ++ r :: after) := by
  rw [tiles_middle, tiles_middle]

theorem apart_markFree :
    Apart boundary (before ++ { r with isFree := true } :: after) ↔
      Apart boundary (before ++ r :: after) := by
  rw [apart_append, apart_append, apart_cons, apart_cons]
  rfl

theorem shut_cons_congr (hfree : r'.isFree = r.isFree) (hstop : r'.stop = r.stop)
    (h : Shut boundary (r :: after)) : Shut boundary (r' :: after) := by
  cases after with
  | nil => exact isChain_singleton _
  | cons next after =>
    obtain ⟨hpair, hafter⟩ := isChain_cons_cons.mp h
    refine isChain_cons_cons.mpr ⟨?_, hafter⟩
    rwa [hfree, hstop]

theorem shut_append_congr {after' : List Region} (hfree : r'.isFree = r.isFree)
    (h : Shut boundary (before ++ r :: after)) (htail : Shut boundary (r' :: after')) :
    Shut boundary (before ++ r' :: after') := by
  obtain ⟨hbefore, -, hmeet⟩ := isChain_append.mp h
  refine isChain_append.mpr ⟨hbefore, htail, fun x hx y hy => ?_⟩
  cases hy
  rw [hfree]
  exact hmeet x hx r rfl

/-! ## Allocation -/

/-- `size` bytes are taken off the front of `region`. -/
structure Carved (region : Region) (size : Nat) (used : Region) (tail : List Region) : Prop where
  start : used.start = region.start
  stop : used.stop = region.start + size
  pos : 0 < size
  inUse : used.isFree = false
  rest : (tail = [] ∧ used.stop = region.stop) ∨
    ∃ second, tail = [second] ∧ second.start = used.stop ∧ second.stop = region.stop ∧
      second.isFree = region.isFree ∧ used.stop < region.stop

theorem vmmCreateRegion_spec (s : Vmm) (start stop : Nat) (flags : BitVec 32) (isFree : Bool) :
    s.vmmCreateRegion start stop flags isFree = (none, s) ∨
      ∃ dynamic s', s.vmmCreateRegion start stop flags isFree =
        (some ⟨start, stop, flags, isFree, dynamic⟩, s') ∧ s'.regionList = s.regionList := by
  unfold vmmCreateRegion
  split
  · split
    · exact .inr ⟨_, _, rfl, rfl⟩
    · split
      · exact .inl rfl
      · exact .inr ⟨_, _, rfl, rfl⟩
  · split
    · exact .inl rfl
    · exact .inr ⟨_, _, rfl, rfl⟩

theorem vmmTake_carved (hlt : region.start < region.stop)
    (h : s.vmmTake region size flags = some (taken, s')) :
    ∃ used tail, taken = used :: tail ∧ Carved region size used tail := by
  unfold vmmTake at h
  by_cases hsize : region.stop - region.start = size
  · rw [if_pos hsize] at h
    cases h
    have hstop : region.stop = region.start + size := by omega
    exact ⟨_, [], rfl, rfl, hstop, by omega, rfl, .inl ⟨rfl, rfl⟩⟩
  rw [if_neg hsize] at h
  unfold vmmSplitRegion at h
  by_cases hpoint : region.start + size ≤ region.start ∨ region.start + size ≥ region.stop
  · rw [if_pos hpoint] at h
    cases h
  rw [if_neg hpoint] at h
  have hinside : region.start + size < region.stop := by omega
  rcases vmmCreateRegion_spec s (region.start + size) region.stop region.flags region.isFree with
    hc | ⟨dynamic, s1, hc, -⟩
  · rw [hc] at h
    cases h
  · rw [hc] at h
    cases h
    exact ⟨_, _, rfl, rfl, rfl, by omega, rfl, .inr ⟨_, rfl, rfl, rfl, rfl, hinside⟩⟩

theorem Carved.tiles (c : Carved region size used tail)
    (h : Tiles Region.start Region.stop a b (before ++ region :: after)) :
    Tiles Region.start Region.stop a b (before ++ used :: (tail ++ after)) := by
  obtain ⟨hbefore, hlt, hafter⟩ := tiles_middle.mp h
  have hused : used.start < used.stop := by
    rw [c.start, c.stop]
    exact Nat.lt_add_of_pos_right c.pos
  rw [← c.start] at hbefore
  refine tiles_middle.mpr ⟨hbefore, hused, ?_⟩
  rcases c.rest with ⟨rfl, hstop⟩ | ⟨second, rfl, hstart, hstop, -, hinside⟩
  · rw [hstop]
    exact hafter
  · exact ⟨hstart, by omega, by rw [hstop]; exact hafter⟩

theorem Carved.apart (c : Carved region size used tail)
    (h : Apart boundary (before ++ region :: after)) :
    Apart boundary (before ++ used :: (tail ++ after)) := by
  obtain ⟨hbefore, h⟩ := apart_append.mp h
  obtain ⟨hregion, hafter⟩ := apart_cons.mp h
  have hstart := c.start
  unfold Region.Straddles at hregion
  refine apart_append.mpr ⟨hbefore, apart_cons.mpr ?_⟩
  rcases c.rest with ⟨rfl, hstop⟩ | ⟨second, rfl, hsstart, hsstop, -, hinside⟩
  · exact ⟨by unfold Region.Straddles; omega, hafter⟩
  · have hstop := c.stop
    refine ⟨by unfold Region.Straddles; omega, ?_⟩
    exact apart_cons.mpr ⟨by unfold Region.Straddles; omega, hafter⟩

/-- When the taken part becomes free again, the boundary is as shut as it was. -/
theorem Carved.shut (c : Carved region size used tail) (hfree : region.isFree = true)
    (hapart : ¬ region.Straddles boundary) (h : Shut boundary (before ++ region :: after)) :
    Shut boundary (before ++ { used with isFree := true } :: (tail ++ after)) := by
  have htail : Shut boundary (region :: after) := (isChain_append.mp h).2.1
  refine shut_append_congr hfree.symm h ?_
  rcases c.rest with ⟨rfl, hstop⟩ | ⟨second, rfl, hsstart, hsstop, hsfree, hinside⟩
  · exact shut_cons_congr hfree.symm hstop htail
  · have hpos := c.pos
    have hstop := c.stop
    refine isChain_cons_cons.mpr ⟨?_, shut_cons_congr hsfree hsstop htail⟩
    rintro ⟨-, -, hmeet⟩
    exact hapart ⟨by dsimp only at hmeet; omega, by dsimp only at hmeet; omega⟩

theorem vmmRollback_eq (h : s.Tiled) (hlist : s.regionList = before ++ used :: rest) :
    s.vmmRollback used.start =
      ({ s with regionList := before ++ { used with isFree := true } :: rest } :
        Vmm).vmmMergeFreeRegions := by
  unfold Tiled at h
  rw [hlist] at h
  obtain ⟨hbefore, hlt, -⟩ := tiles_middle.mp h
  have hfind : s.vmmFindRegion used.start = some used := by
    unfold vmmFindRegion
    rw [hlist]
    refine hbefore.find?_middle (fun z hz => ?_) ?_
    · simp only [Bool.and_eq_false_imp, decide_eq_true_eq, decide_eq_false_iff_not]
      omega
    · simp only [Bool.and_eq_true, decide_eq_true_eq]
      omega
  unfold vmmRollback
  rw [hfind]
  unfold vmmMarkFree
  dsimp only
  rw [hlist]
  congr 2
  exact hbefore.replaceF_middle (fun z hz => if_neg (by omega)) (if_pos (by omega))

theorem suits_isFree (h : suits size flags region = true) : region.isFree = true := by
  unfold suits at h
  simp only [Bool.and_eq_true] at h
  exact h.1.1

theorem vmmAlloc_found (hpages : pages ≠ 0)
    (hdrop : s.regionList.dropWhile (fun r => !suits (pages * 4096 % 2 ^ 32) flags r) =
      region :: after) (htake : s.vmmTake region (pages * 4096 % 2 ^ 32) flags = some (taken, s')) :
    s.vmmAlloc pages flags backed =
      let before := s.regionList.takeWhile fun r => !suits (pages * 4096 % 2 ^ 32) flags r
      let s1 := { s' with regionList := before ++ (taken ++ after) }
      if ∀ i < pages, backed i = true then (region.start, s1)
      else (0, s1.vmmRollback region.start) := by
  unfold vmmAlloc
  rw [if_neg hpages]
  dsimp only
  rw [hdrop]
  dsimp only
  rw [htake]

/-- What `vmm_alloc` does: nothing; or it takes the front of a suitable region; or it does so
and gives it back. -/
theorem vmmAlloc_cases (s : Vmm) (pages : Nat) (flags : BitVec 32) (backed : Nat → Bool)
    (htiled : s.Tiled) :
    s.vmmAlloc pages flags backed = (0, s) ∨
      ∃ before region after used tail, s.regionList = before ++ region :: after ∧
        suits (pages * 4096 % 2 ^ 32) flags region = true ∧
        Carved region (pages * 4096 % 2 ^ 32) used tail ∧
        (((∀ i < pages, backed i = true) ∧
          (s.vmmAlloc pages flags backed).1 = region.start ∧
          (s.vmmAlloc pages flags backed).2.regionList = before ++ used :: (tail ++ after)) ∨
        (¬ (∀ i < pages, backed i = true) ∧ (s.vmmAlloc pages flags backed).1 = 0 ∧
          ∃ s1 : Vmm, s1.regionList = before ++ { used with isFree := true } :: (tail ++ after) ∧
            (s.vmmAlloc pages flags backed).2 = s1.vmmMergeFreeRegions)) := by
  have hsplit : s.regionList.takeWhile (fun r => !suits (pages * 4096 % 2 ^ 32) flags r) ++
      s.regionList.dropWhile (fun r => !suits (pages * 4096 % 2 ^ 32) flags r) = s.regionList :=
    takeWhile_append_dropWhile
  by_cases hpages : pages = 0
  · exact .inl (if_pos hpages)
  cases hdrop : s.regionList.dropWhile fun r => !suits (pages * 4096 % 2 ^ 32) flags r with
  | nil =>
    left
    unfold vmmAlloc
    rw [if_neg hpages]
    dsimp only
    rw [hdrop]
  | cons region after =>
    rw [hdrop] at hsplit
    have hsuits : suits (pages * 4096 % 2 ^ 32) flags region = true := by
      have hhead := head?_dropWhile_not
        (fun r => !suits (pages * 4096 % 2 ^ 32) flags r) s.regionList
      rw [hdrop] at hhead
      simpa using hhead
    have htiles := htiled
    unfold Tiled at htiles
    rw [← hsplit] at htiles
    obtain ⟨-, hlt, -⟩ := tiles_middle.mp htiles
    cases htake : s.vmmTake region (pages * 4096 % 2 ^ 32) flags with
    | none =>
      left
      unfold vmmAlloc
      rw [if_neg hpages]
      dsimp only
      rw [hdrop]
      dsimp only
      rw [htake]
    | some taken =>
      obtain ⟨taken, s1⟩ := taken
      obtain ⟨used, tail, rfl, hcarved⟩ := vmmTake_carved hlt htake
      refine .inr ⟨_, region, after, used, tail, hsplit.symm, hsuits, hcarved, ?_⟩
      rw [vmmAlloc_found hpages hdrop htake]
      by_cases hbacked : ∀ i < pages, backed i = true
      · rw [if_pos hbacked]
        exact .inl ⟨hbacked, rfl, rfl⟩
      · rw [if_neg hbacked]
        have hroll := vmmRollback_eq (s := { s1 with regionList := _ }) (hcarved.tiles htiles) rfl
        refine .inr ⟨hbacked, rfl, _, rfl, Eq.trans ?_ hroll⟩
        rw [hcarved.start]
        rfl

/-! ## Runs -/

/-- The invariant of the region list. -/
structure RegionsInv (regions : List Region) : Prop where
  tiled : Tiles Region.start Region.stop 0x100000 0xC0000000 regions
  userStart : Apart 0x400000 regions
  kernelHeap : Apart 0x40000000 regions

theorem regionList_vmmInit : vmmInit.regionList = [⟨0x100000, 0x400000, 0x3, false, false⟩,
    ⟨0x400000, 0x40000000, 0x6, true, false⟩, ⟨0x40000000, 0xC0000000, 0x2, true, false⟩] := rfl

theorem vmmInit_inv : RegionsInv vmmInit.regionList := by
  rw [regionList_vmmInit]
  refine ⟨⟨rfl, by decide, rfl, by decide, rfl, by decide, rfl⟩, ?_, ?_⟩
  · simp [Apart, Region.Straddles]
  · simp [Apart, Region.Straddles]

theorem RegionsInv.merge (h : RegionsInv s.regionList) (hshut : BordersShut s.regionList) :
    RegionsInv s.vmmMergeFreeRegions.regionList :=
  ⟨vmmMergeFreeRegions_tiled h.tiled, vmmMergeFreeRegions_apart h.tiled h.userStart hshut.1,
    vmmMergeFreeRegions_apart h.tiled h.kernelHeap hshut.2⟩

theorem RegionsInv.markFree (h : RegionsInv (before ++ r :: after)) :
    RegionsInv (before ++ { r with isFree := true } :: after) :=
  ⟨tiles_markFree.mpr h.tiled, apart_markFree.mpr h.userStart, apart_markFree.mpr h.kernelHeap⟩

theorem RegionsInv.carve (h : RegionsInv (before ++ region :: after))
    (c : Carved region size used tail) : RegionsInv (before ++ used :: (tail ++ after)) :=
  ⟨c.tiles h.tiled, c.apart h.userStart, c.apart h.kernelHeap⟩

theorem vmmAlloc_inv (h : RegionsInv s.regionList)
    (hallowed : MergesApart s (.alloc pages flags backed)) :
    RegionsInv (s.vmmAlloc pages flags backed).2.regionList := by
  rcases vmmAlloc_cases s pages flags backed h.tiled with
    hsame | ⟨before, region, after, used, tail, hlist, hsuits, hcarved, hcase⟩
  · rw [hsame]
    exact h
  have hmem : region ∈ before ++ region :: after := mem_append_right _ mem_cons_self
  rcases hcase with ⟨-, -, hregions⟩ | ⟨hbacked, -, s1, hregions, heq⟩
  · rw [hregions]
    rw [hlist] at h
    exact h.carve hcarved
  · -- the rollback: the borders were shut, and they still are
    have hshut : BordersShut s.regionList := by
      rcases hallowed with hall | hnone | hshut
      · exact absurd hall hbacked
      · cases (hnone region (hlist ▸ hmem)).symm.trans hsuits
      · exact hshut
    have hfree := suits_isFree hsuits
    rw [hlist] at h hshut
    rw [heq]
    refine RegionsInv.merge ?_ ?_
    · rw [hregions]
      exact (h.carve hcarved).markFree
    · rw [hregions]
      exact ⟨hcarved.shut hfree (h.userStart region hmem) hshut.1,
        hcarved.shut hfree (h.kernelHeap region hmem) hshut.2⟩

/-- The calls that `vmm_free` does not refuse. -/
structure Accepts (s : Vmm) (virt pages : Nat) (r : Region) : Prop where
  ne_zero : virt ≠ 0 ∧ pages ≠ 0
  aligned : virt % 4096 = 0
  found : s.vmmFindRegion virt = some r
  inUse : r.isFree = false
  size : r.stop - r.start = pages * 4096 % 2 ^ 32

theorem vmmFree_cases (s : Vmm) (virt pages : Nat) :
    (s.vmmFree virt pages = (false, s) ∧ ∀ r, ¬ Accepts s virt pages r) ∨
      ∃ r, Accepts s virt pages r ∧
        s.vmmFree virt pages = (true, (s.vmmMarkFree virt).vmmMergeFreeRegions) := by
  unfold vmmFree
  split
  case isTrue hzero => exact .inl ⟨rfl, fun r h => by have := h.ne_zero; omega⟩
  split
  case isTrue haligned => exact .inl ⟨rfl, fun r h => haligned h.aligned⟩
  case isFalse hzero haligned =>
    cases hfind : s.vmmFindRegion virt with
    | none => exact .inl ⟨rfl, fun r h => by cases hfind.symm.trans h.found⟩
    | some region =>
      dsimp only
      have same : ∀ r, Accepts s virt pages r → region = r := fun r h =>
        Option.some.inj (hfind.symm.trans h.found)
      split
      case isTrue hfree =>
        refine .inl ⟨rfl, fun r h => ?_⟩
        cases hfree.symm.trans (same r h ▸ h.inUse)
      case isFalse hfree =>
        split
        case isTrue hsize => exact .inl ⟨rfl, fun r h => hsize (same r h ▸ h.size)⟩
        case isFalse hsize =>
          exact .inr ⟨region, ⟨by omega, not_not.mp haligned, hfind, Bool.eq_false_iff.mpr hfree,
            not_not.mp hsize⟩, rfl⟩

theorem vmmFree_inv (h : RegionsInv s.regionList) (hallowed : MergesApart s (.free virt pages)) :
    RegionsInv (s.vmmFree virt pages).2.regionList := by
  rcases vmmFree_cases s virt pages with ⟨hsame, -⟩ | ⟨r, hr, hfree⟩
  · rw [hsame]
    exact h
  · obtain ⟨before, after, hlist, -, -, hmark⟩ := exists_region h.tiled hr.found
    rw [hfree]
    refine RegionsInv.merge ?_ (hallowed r hr.found hr.inUse hr.size)
    rw [hlist] at h
    rw [hmark]
    exact h.markFree

theorem regionList_enableDynamicAllocation (s : Vmm) (page : Bool) :
    (s.vmmEnableDynamicAllocation page).regionList = s.regionList := by
  unfold vmmEnableDynamicAllocation
  split
  · rfl
  · split <;> rfl

theorem VmmRun.inv (run : VmmRun MergesApart s) : RegionsInv s.regionList := by
  induction run with
  | init => exact vmmInit_inv
  | @call s c _ _ hallowed ih =>
    cases c with
    | alloc pages flags backed => exact vmmAlloc_inv ih hallowed
    | free virt pages => exact vmmFree_inv ih hallowed
    | enableDynamicAllocation page =>
      rw [Vmm.perform, regionList_enableDynamicAllocation]
      exact ih

/-- A region that suits a request lies in the half of the address space that was asked for. -/
theorem suits_inSpace (h : RegionsInv s.regionList) (hmem : region ∈ s.regionList)
    (hsuits : suits size flags region = true) :
    if flags &&& 0x4 = 0 then InKernelSpace region.start size else InUserSpace region.start size := by
  obtain ⟨hlo, hlt, hhi⟩ := mem h.tiled hmem
  have huser := h.userStart region hmem
  have hheap := h.kernelHeap region hmem
  unfold Region.Straddles at huser hheap
  unfold suits at hsuits
  simp only [Bool.and_eq_true, decide_eq_true_eq, beq_iff_eq] at hsuits
  obtain ⟨⟨-, hsize⟩, hhalf⟩ := hsuits
  have hkernel : isKernelAddress region.start = true ↔
      (0x100000 ≤ region.start ∧ region.start < 0x400000) ∨
        (0x40000000 ≤ region.start ∧ region.start < 0xC0000000) := by
    simp [isKernelAddress]
  unfold InKernelSpace InUserSpace
  split
  case isTrue hflags =>
    have hk := hkernel.mp (by rw [← hhalf]; simpa using hflags)
    omega
  case isFalse hflags =>
    have hk : ¬ isKernelAddress region.start = true := by
      rw [← hhalf]
      simpa using hflags
    rw [hkernel] at hk
    omega

/-- In every run in which no merge finds both sides of a border of user space free, the list
tiles the whole range, no region lies on both sides of the border to the kernel heap, and what a
request returns lies in the half that was asked for. -/
theorem vmmRun_regions (run : VmmRun MergesApart s) :
    s.Tiled ∧ (∀ r ∈ s.regionList, ¬ r.Straddles 0x40000000) ∧
      ∀ pages flags backed, (VmmCall.alloc pages flags backed).Valid →
        (s.vmmAlloc pages flags backed).1 ≠ 0 →
        if flags &&& 0x4 = 0 then
          InKernelSpace (s.vmmAlloc pages flags backed).1 (pages * 4096)
        else InUserSpace (s.vmmAlloc pages flags backed).1 (pages * 4096) := by
  have h := run.inv
  refine ⟨h.tiled, h.kernelHeap, fun pages flags backed valid hresult => ?_⟩
  rcases vmmAlloc_cases s pages flags backed h.tiled with
    hsame | ⟨before, region, after, used, tail, hlist, hsuits, -, hcase⟩
  · rw [hsame] at hresult
    exact absurd rfl hresult
  rcases hcase with ⟨hbacked, hstart, -⟩ | ⟨-, hzero, -⟩
  · obtain ⟨-, i, hi, hout⟩ := valid
    have hpages : pages ≤ i := by
      by_contra hlt
      cases (hbacked i (not_le.mp hlt)).symm.trans hout
    have hmem : region ∈ s.regionList := by
      rw [hlist]
      exact mem_append_right _ mem_cons_self
    have hspace := suits_inSpace h hmem hsuits
    rw [Nat.mod_eq_of_lt (by omega)] at hspace
    rwa [hstart]
  · exact absurd hzero hresult

/-- The first page of the kernel heap is taken. -/
def onePageTaken : Vmm := vmmInit.perform (.alloc 1 0x2 fun i => decide (i < 4))

theorem onePageTaken_run (allowed : Vmm → VmmCall → Prop)
    (h : allowed vmmInit (.alloc 1 0x2 fun i => decide (i < 4))) : VmmRun allowed onePageTaken :=
  .call .init ⟨by decide, 4, by decide, by decide⟩ h

theorem vmmRun_regions_onePageTaken :
    onePageTaken.Tiled ∧ (∀ r ∈ onePageTaken.regionList, ¬ r.Straddles 0x40000000) :=
  have h := vmmRun_regions (onePageTaken_run MergesApart (.inl (by decide)))
  ⟨h.1, h.2.1⟩

/-- Giving the page back joins user space and the kernel heap into one region. -/
theorem vmmFree_joins_user_and_kernel :
    VmmRun (fun _ _ => True) (onePageTaken.perform (.free 0x40000000 1)) ∧
      ∃ r ∈ (onePageTaken.perform (.free 0x40000000 1)).regionList, r.Straddles 0x40000000 := by
  refine ⟨.call (onePageTaken_run _ trivial) ⟨by decide, by decide⟩ trivial,
    ⟨0x400000, 0xC0000000, 0x6, true, false⟩, by decide, by decide, by decide⟩

/-! ## Regions in use

These facts hold whether or not regions are merged across the borders of user space. -/

/-- The list tiles the range in whole pages. -/
structure VmmOk (s : Vmm) : Prop where
  tiled : s.Tiled
  aligned : ∀ r ∈ s.regionList, 4096 ∣ r.start ∧ 4096 ∣ r.stop

abbrev WholePages (regions : List Region) : Prop :=
  ∀ r ∈ regions, 4096 ∣ r.start ∧ 4096 ∣ r.stop

theorem vmmMergeFrom_aligned (h : WholePages (region :: rest)) :
    WholePages (vmmMergeFrom region rest).1 := by
  induction rest generalizing region with
  | nil => exact h
  | cons next rest ih =>
    obtain ⟨hregion, htail⟩ := forall_mem_cons.mp h
    obtain ⟨hnext, hrest⟩ := forall_mem_cons.mp htail
    unfold vmmMergeFrom
    split
    · exact ih (forall_mem_cons.mpr ⟨⟨hregion.1, hnext.2⟩, hrest⟩)
    · exact forall_mem_cons.mpr ⟨hregion, ih htail⟩

/-- Merging drops and makes free regions only. -/
theorem mem_vmmMergeFrom (hused : r.isFree = false) :
    r ∈ (vmmMergeFrom region rest).1 ↔ r ∈ region :: rest := by
  have hne : ∀ {z : Region}, z.isFree = true → r ≠ z := by
    rintro z hfree rfl
    cases hfree.symm.trans hused
  induction rest generalizing region with
  | nil => rfl
  | cons next rest ih =>
    unfold vmmMergeFrom
    split
    case isTrue hmerge =>
      simp only [Bool.and_eq_true, decide_eq_true_eq] at hmerge
      refine Iff.trans ih ?_
      simp only [mem_cons, hne hmerge.1.1, hne hmerge.1.2, false_or, or_iff_right_iff_imp]
      exact fun h => absurd h (hne hmerge.1.1)
    case isFalse => exact mem_cons.trans ((or_congr_right ih).trans mem_cons.symm)

theorem VmmOk.merge (h : VmmOk s) : VmmOk s.vmmMergeFreeRegions :=
  ⟨vmmMergeFreeRegions_tiled h.tiled,
    regionList_merge (Q := WholePages) h.aligned id vmmMergeFrom_aligned⟩

theorem mem_merge (hused : r.isFree = false) :
    r ∈ s.vmmMergeFreeRegions.regionList ↔ r ∈ s.regionList :=
  regionList_merge (P := fun l => l = s.regionList) (Q := fun l => r ∈ l ↔ r ∈ s.regionList) rfl
    (· ▸ Iff.rfl) (· ▸ mem_vmmMergeFrom hused)

theorem inUse_merge (h : s.InUse start stop) : s.vmmMergeFreeRegions.InUse start stop := by
  obtain ⟨r, hr, hstart, hstop, hused⟩ := h
  exact ⟨r, (mem_merge hused).mpr hr, hstart, hstop, hused⟩

theorem vmmOk_iff (hlist : s.regionList = regions) :
    VmmOk s ↔ Tiles Region.start Region.stop 0x100000 0xC0000000 regions ∧
      WholePages regions := by
  subst hlist
  exact ⟨fun h => ⟨h.tiled, h.aligned⟩, fun h => ⟨h.1, h.2⟩⟩

theorem Carved.aligned (c : Carved region size used tail) (hsize : 4096 ∣ size)
    (h : WholePages (before ++ region :: after)) :
    WholePages (before ++ used :: (tail ++ after)) := by
  simp only [forall_mem_append, forall_mem_cons] at h ⊢
  obtain ⟨hbefore, hregion, hafter⟩ := h
  have hused : 4096 ∣ used.start ∧ 4096 ∣ used.stop := by
    rw [c.start, c.stop]
    exact ⟨hregion.1, Nat.dvd_add hregion.1 hsize⟩
  refine ⟨hbefore, hused, ?_, hafter⟩
  rcases c.rest with ⟨rfl, -⟩ | ⟨second, rfl, hstart, hstop, -, -⟩
  · exact forall_mem_nil _
  · rw [forall_mem_singleton, hstart, hstop]
    exact ⟨hused.2, hregion.2⟩

theorem aligned_markFree (h : WholePages (before ++ r :: after)) :
    WholePages (before ++ { r with isFree := true } :: after) := by
  rw [WholePages, forall_mem_append, forall_mem_cons] at h ⊢
  exact h

/-- `size` bytes at `p` that no region in use overlaps become a region in use. -/
structure Granted (s : Vmm) (p size : Nat) (s' : Vmm) : Prop where
  inUse : s'.InUse p (p + size)
  fresh : ∀ start stop, s.InUse start stop → stop ≤ p ∨ p + size ≤ start
  low : 0x100000 ≤ p
  high : p + size ≤ 0xC0000000
  aligned : 4096 ∣ p

/-- The regions in use of a list, except those at the place of `region`. -/
theorem mem_replace (tail : List Region) (hr : r ∈ before ++ region :: after) (hne : r ≠ region) :
    r ∈ before ++ used :: (tail ++ after) := by
  rcases mem_append.mp hr with hr | hr
  · exact mem_append_left _ hr
  rcases mem_cons.mp hr with rfl | hr
  · exact absurd rfl hne
  · exact mem_append_right _ (mem_cons_of_mem _ (mem_append_right _ hr))

theorem tiles_apart (h : Tiles Region.start Region.stop a b (before ++ r :: after))
    (hr' : r' ∈ before ++ r :: after) (hne : r' ≠ r) : r'.stop ≤ r.start ∨ r.stop ≤ r'.start := by
  obtain ⟨hbefore, -, hafter⟩ := tiles_middle.mp h
  rcases mem_append.mp hr' with hmem | hmem
  · exact .inl (hbefore.mem hmem).2.2
  rcases mem_cons.mp hmem with rfl | hmem
  · exact absurd rfl hne
  · exact .inr (hafter.mem hmem).1

theorem vmmAlloc_spec (s : Vmm) (pages : Nat) (flags : BitVec 32) (backed : Nat → Bool)
    (h : VmmOk s) :
    VmmOk (s.vmmAlloc pages flags backed).2 ∧
      (∀ start stop, s.InUse start stop → (s.vmmAlloc pages flags backed).2.InUse start stop) ∧
      ((s.vmmAlloc pages flags backed).1 ≠ 0 → (∀ i < pages, backed i = true) ∧
        Granted s (s.vmmAlloc pages flags backed).1 (pages * 4096 % 2 ^ 32)
          (s.vmmAlloc pages flags backed).2) := by
  rcases vmmAlloc_cases s pages flags backed h.tiled with
    hsame | ⟨before, region, after, used, tail, hlist, hsuits, hcarved, hcase⟩
  · rw [hsame]
    exact ⟨h, fun _ _ => id, fun hne => absurd rfl hne⟩
  obtain ⟨htiles, haligned⟩ := (vmmOk_iff hlist).mp h
  have hsize : 4096 ∣ pages * 4096 % 2 ^ 32 :=
    (Nat.dvd_mod_iff (by decide)).mpr (Nat.dvd_mul_left 4096 pages)
  have hmem : region ∈ before ++ region :: after := mem_append_right _ mem_cons_self
  have hfree := suits_isFree hsuits
  have hother : ∀ r, r.isFree = false → r ≠ region := by
    rintro r hused rfl
    cases hfree.symm.trans hused
  rcases hcase with ⟨hbacked, hstart, hregions⟩ | ⟨-, hzero, s1, hregions, heq⟩
  · refine ⟨(vmmOk_iff hregions).mpr ⟨hcarved.tiles htiles, hcarved.aligned hsize haligned⟩,
      ?_, fun _ => ⟨hbacked, ?_⟩⟩
    · rintro start stop ⟨r, hr, hrstart, hrstop, hused⟩
      refine ⟨r, ?_, hrstart, hrstop, hused⟩
      rw [hlist] at hr
      rw [hregions]
      exact mem_replace tail hr (hother r hused)
    · have hfits : region.start + pages * 4096 % 2 ^ 32 ≤ region.stop := by
        rcases hcarved.rest with ⟨-, hstop⟩ | ⟨second, -, -, -, -, hinside⟩
        · exact le_of_eq (hcarved.stop.symm.trans hstop)
        · exact le_of_lt (hcarved.stop ▸ hinside)
      obtain ⟨hlo, -, hhi⟩ := htiles.mem hmem
      rw [hstart]
      refine ⟨⟨used, ?_, hcarved.start, hcarved.stop, hcarved.inUse⟩, ?_, hlo,
        le_trans hfits hhi, (haligned region hmem).1⟩
      · rw [hregions]
        exact mem_append_right _ mem_cons_self
      · rintro start stop ⟨r, hr, hrstart, hrstop, hused⟩
        rw [hlist] at hr
        rcases tiles_apart htiles hr (hother r hused) with hle | hle
        · exact .inl (hrstop ▸ hle)
        · exact .inr (hrstart ▸ le_trans hfits hle)
  · rw [heq]
    refine ⟨VmmOk.merge ((vmmOk_iff hregions).mpr ⟨tiles_markFree.mpr (hcarved.tiles htiles),
      aligned_markFree (hcarved.aligned hsize haligned)⟩), ?_, fun hne => absurd hzero hne⟩
    rintro start stop ⟨r, hr, hrstart, hrstop, hused⟩
    refine inUse_merge ⟨r, ?_, hrstart, hrstop, hused⟩
    rw [hlist] at hr
    rw [hregions]
    exact mem_replace tail hr (hother r hused)

/-- A call that is not refused frees the region that contains `virt`, and no other. -/
theorem Accepts.inUse_iff (hr : Accepts s virt pages r) (h : VmmOk s) :
    (s.vmmMarkFree virt).vmmMergeFreeRegions.InUse start stop ↔
      s.InUse start stop ∧ ¬ (start ≤ virt ∧ virt < stop) := by
  obtain ⟨before, after, hlist, hlo, hhi, hmark⟩ := exists_region h.tiled hr.found
  have htiles := ((vmmOk_iff hlist).mp h).1
  constructor
  · rintro ⟨z, hz, rfl, rfl, hused⟩
    rw [mem_merge hused, hmark] at hz
    have hne : z ≠ { r with isFree := true } := by
      rintro rfl
      cases hused
    refine ⟨⟨z, hlist ▸ mem_replace [] hz hne, rfl, rfl, hused⟩, ?_⟩
    have := tiles_apart (tiles_markFree.mpr htiles) hz hne
    dsimp only at this
    omega
  · rintro ⟨⟨z, hz, rfl, rfl, hused⟩, hout⟩
    refine ⟨z, (mem_merge hused).mpr ?_, rfl, rfl, hused⟩
    rw [hlist] at hz
    rw [hmark]
    refine mem_replace [] hz ?_
    rintro rfl
    exact hout ⟨hlo, hhi⟩

/-- Freeing at `virt` keeps every region in use that does not contain `virt`. -/
theorem vmmFree_spec (s : Vmm) (virt pages : Nat) (h : VmmOk s) :
    VmmOk (s.vmmFree virt pages).2 ∧
      ∀ start stop, s.InUse start stop → (virt < start ∨ stop ≤ virt) →
        (s.vmmFree virt pages).2.InUse start stop := by
  rcases vmmFree_cases s virt pages with ⟨hsame, -⟩ | ⟨r, hr, hfree⟩
  · rw [hsame]
    exact ⟨h, fun _ _ hin _ => hin⟩
  obtain ⟨before, after, hlist, -, -, hmark⟩ := exists_region h.tiled hr.found
  obtain ⟨htiles, haligned⟩ := (vmmOk_iff hlist).mp h
  rw [hfree]
  exact ⟨VmmOk.merge ((vmmOk_iff hmark).mpr ⟨tiles_markFree.mpr htiles, aligned_markFree haligned⟩),
    fun start stop hin hout => (hr.inUse_iff h).mpr ⟨hin, by omega⟩⟩

theorem vmmInit_ok : VmmOk vmmInit := by
  refine ⟨vmmInit_inv.tiled, fun r hr => ?_⟩
  simp only [regionList_vmmInit, mem_cons, not_mem_nil, or_false] at hr
  rcases hr with rfl | rfl | rfl
  · exact ⟨by decide, by decide⟩
  · exact ⟨by decide, by decide⟩
  · exact ⟨by decide, by decide⟩

/-- A call by another user keeps the list in shape, and every region in use that it does not
free. -/
theorem perform_spec (c : VmmCall) (h : VmmOk s) :
    VmmOk (s.perform c) ∧ ∀ start stop, s.InUse start stop →
      (∀ virt pages, c = .free virt pages → virt < start ∨ stop ≤ virt) →
        (s.perform c).InUse start stop := by
  cases c with
  | alloc pages flags backed =>
    obtain ⟨hok, hin, -⟩ := vmmAlloc_spec s pages flags backed h
    exact ⟨hok, fun start stop hu _ => hin start stop hu⟩
  | free virt pages =>
    obtain ⟨hok, hin⟩ := vmmFree_spec s virt pages h
    exact ⟨hok, fun start stop hu hout => hin start stop hu (hout virt pages rfl)⟩
  | enableDynamicAllocation page =>
    have hsame : (s.perform (.enableDynamicAllocation page)).regionList = s.regionList :=
      regionList_enableDynamicAllocation s page
    refine ⟨(vmmOk_iff hsame).mpr ⟨h.tiled, h.aligned⟩, ?_⟩
    rintro start stop ⟨r, hr, hrest⟩ -
    exact ⟨r, hsame ▸ hr, hrest⟩

theorem VmmRun.ok {allowed : Vmm → VmmCall → Prop} (run : VmmRun allowed s) : VmmOk s := by
  induction run with
  | init => exact vmmInit_ok
  | call _ _ _ ih => exact (perform_spec _ ih).1

/-! ## Exact frees -/

/-- The call frees `[virt, virt + pages * 4096)` if that is a region in use, and otherwise nothing. -/
def FreesRight (s : Vmm) (virt pages : Nat) : Prop :=
  (s.InUse virt (virt + pages * 4096) →
    (s.vmmFree virt pages).1 = true ∧
    vmmUnmapRegion virt pages = (range pages).map (virt + · * 4096) ∧
    (s.vmmFree virt pages).2.Tiled ∧
    ∀ start stop, (s.vmmFree virt pages).2.InUse start stop ↔
      s.InUse start stop ∧ ¬ (start ≤ virt ∧ virt < stop)) ∧
  (¬ s.InUse virt (virt + pages * 4096) → s.vmmFree virt pages = (false, s))

theorem InUse.accepts (hin : s.InUse virt (virt + pages * 4096)) (h : VmmOk s) :
    ∃ r, Accepts s virt pages r ∧ r.start = virt ∧ pages < 2 ^ 20 := by
  obtain ⟨r, hr, rfl, hstop, hused⟩ := hin
  obtain ⟨hlo, hlt, hhi⟩ := mem h.tiled hr
  have hpages : pages < 2 ^ 20 := by omega
  obtain ⟨before, after, hlist⟩ := append_of_mem hr
  refine ⟨r, ⟨by omega, Nat.mod_eq_zero_of_dvd (h.aligned r hr).1, ?_, hused, ?_⟩, rfl, hpages⟩
  · unfold vmmFindRegion
    rw [hlist]
    refine (tiles_middle.mp ((vmmOk_iff hlist).mp h).1).1.find?_middle (fun z hz => ?_) ?_
    · simpa using fun _ => hz
    · simpa using hlt
  · rw [Nat.mod_eq_of_lt (by omega), hstop, Nat.add_sub_cancel_left]

theorem freesRight_iff (s : Vmm) (virt pages : Nat) (h : VmmOk s) :
    FreesRight s virt pages ↔ ∀ r, Accepts s virt pages r → r.start = virt ∧ pages < 2 ^ 20 := by
  constructor
  · intro hright r hr
    by_cases hin : s.InUse virt (virt + pages * 4096)
    · obtain ⟨r', hr', hstart⟩ := InUse.accepts hin h
      cases hr'.found.symm.trans hr.found
      exact hstart
    · rcases vmmFree_cases s virt pages with ⟨-, hno⟩ | ⟨_, -, hfree⟩
      · exact absurd hr (hno r)
      · cases hfree.symm.trans (hright.2 hin)
  intro hcond
  have hsame := vmmFree_cases s virt pages
  constructor
  · intro hin
    obtain ⟨r, hr, hstart, hpages⟩ := InUse.accepts hin h
    rcases hsame with ⟨-, hno⟩ | ⟨_, -, hfree⟩
    · exact absurd hr (hno r)
    obtain ⟨z, hz, -, hstop, -⟩ := hin
    have hhi := (Tiles.mem h.tiled hz).2.2
    refine ⟨by rw [hfree], map_congr_left fun i hi => ?_, (vmmFree_spec s virt pages h).1.tiled,
      fun start stop => ?_⟩
    · have := mem_range.mp hi
      exact Nat.mod_eq_of_lt (by omega)
    · rw [hfree]
      exact hr.inUse_iff h
  · intro hnot
    rcases hsame with ⟨hsame, -⟩ | ⟨r, hr, -⟩
    · exact hsame
    obtain ⟨hstart, hpages⟩ := hcond r hr
    obtain ⟨before, after, hlist, hlo, hhi, -⟩ := exists_region h.tiled hr.found
    refine absurd ⟨r, mem_of_find?_eq_some hr.found, hstart, ?_, hr.inUse⟩ hnot
    have hsize := hr.size
    omega

theorem freesRight_onePageTaken : FreesRight onePageTaken 0x40000000 1 :=
  (freesRight_iff _ _ _ (onePageTaken_run (fun _ _ => True) trivial).ok).mpr fun r h => by
    cases h.found
    exact ⟨rfl, by decide⟩

/-- The second page of an area of three: the area is given back, the page behind it unmapped. -/
theorem vmmFree_second_page : ¬ FreesRight (vmmInit.perform (.alloc 3 0x2 fun i => decide (i < 4)))
    0x40001000 3 := by
  intro h
  have hfree := h.2 (by rintro ⟨r, hr, hrest⟩; revert r; decide)
  cases congrArg Prod.fst hfree

end Stos.Kernel
