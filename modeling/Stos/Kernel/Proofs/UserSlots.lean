import Stos.Kernel.Proofs.PageFrames

/-!
# One slot at a time

How `UserInv` follows the elementary changes that the paging functions are made of: a page
is taken and not yet used (`Loose`), becomes a directory, a table or the frame of an empty
slot, a slot shares its frame with an empty one, or moves to a private copy.
-/

namespace Stos.Kernel

open Finset Option Machine PageEntry

variable {s s' : Machine} {blk blk' : Blocks} {u : UserSpaces} {W R : Set Nat} {d i j t p : Nat}
  {x : Slot} {e : PageEntry} {slots : Finset Slot}

/-! ## Entries -/

theorem userEntry_eq (ht : u.table d i = some t) :
    s.userEntry u.table (d, i, j) =
      if (s.entry (t * 4096) j).present then some (s.entry (t * 4096) j) else none := by
  unfold userEntry
  rw [ht]
  rfl

theorem userEntry_eq_some (ht : u.table d i = some t) :
    s.userEntry u.table (d, i, j) = some e ↔
      s.entry (t * 4096) j = e ∧ (s.entry (t * 4096) j).present = true := by
  rw [userEntry_eq ht]
  split
  · next hp => simp [hp]
  · next hp => simp [hp]

theorem userEntry_eq_none (ht : u.table d i = some t) :
    s.userEntry u.table (d, i, j) = none ↔ (s.entry (t * 4096) j).present = false := by
  rw [userEntry_eq ht]
  split
  · next hp => simp [hp]
  · next hp => simp [hp]

theorem exists_table (h : s.userEntry u.table x = some e) : ∃ t, u.table x.1 x.2.1 = some t := by
  obtain ⟨t, ht, -⟩ := bind_eq_some_iff.mp h
  exact ⟨t, ht⟩

theorem userEntry_present (h : s.userEntry u.table x = some e) : e.present = true := by
  obtain ⟨t, ht⟩ := exists_table h
  obtain ⟨rfl, hp⟩ := (userEntry_eq_some ht).mp h
  exact hp

/-- The entry of a slot depends on the bytes of its table only. -/
theorem userEntry_congr (h : ∀ t, u.table x.1 x.2.1 = some t →
    s'.entry (t * 4096) x.2.2 = s.entry (t * 4096) x.2.2) :
    s'.userEntry u.table x = s.userEntry u.table x := by
  unfold userEntry
  cases ht : u.table x.1 x.2.1 with
  | none => rfl
  | some t =>
    rw [bind_some, bind_some]
    simp only [h t ht]

theorem userEntry_of_mem (h : s'.mem = s.mem) : s'.userEntry = s.userEntry := by
  unfold userEntry entry
  rw [h]

/-- Setting a present entry leaves no mark behind. -/
theorem Machine.Clean.setEntry (h : s.Clean u) (hj : j < 1024) (he : e.present = true) :
    (s.setEntry (t * 4096) j e).Clean u := by
  intro d' i' t' ht' j' hj'
  by_cases hsame : t' = t ∧ j' = j
  · obtain ⟨rfl, rfl⟩ := hsame
    rw [entry_setEntry_self, he]
    intro hn
    cases hn
  · rw [entry_setEntry_of_ne hj hj' (by omega)]
    exact h d' i' t' ht' j' hj'

theorem Machine.Clean.of_mem (h : s.Clean u) (hmem : s'.mem = s.mem) : s'.Clean u := by
  unfold Machine.Clean entry at *
  rw [hmem]
  exact h

/-- No page of the set is a directory. -/
def UserSpaces.NoDir (u : UserSpaces) (W : Set Nat) : Prop := ∀ d ∈ u.dirs, d ∉ W

/-- No page of the set is a table. -/
def UserSpaces.NoTable (u : UserSpaces) (W : Set Nat) : Prop :=
  ∀ d i t, u.table d i = some t → t ∉ W

theorem noDir_singleton (h : p ∉ u.dirs) : u.NoDir {p} := by
  rintro d hd rfl
  exact h hd

theorem noTable_singleton (h : ∀ d i, u.table d i ≠ some p) : u.NoTable {p} := by
  rintro d i t ht rfl
  exact h d i ht

namespace UserInv

theorem noTable_dir (inv : UserInv s blk u) (hd : d ∈ u.dirs) : u.NoTable {d} :=
  noTable_singleton fun d' i ht => (inv.table d' i d ht).2.2 hd

theorem userEntry_keeps (inv : UserInv s blk u) (k : Keeps s blk s' blk' W R)
    (hW : u.NoTable W) (hx : x ∈ u.slots) :
    s'.userEntry u.table x = s.userEntry u.table x :=
  userEntry_congr fun t ht =>
    k.entry (inv.table _ _ t ht).1.not_isFree (hW _ _ t ht) (inv.slot_lt x hx)

/-- Writing to slot `(d, i, j)`. -/
theorem userEntry_setEntry {s0 : Machine} (inv : UserInv s0 blk u) (ht : u.table d i = some t) (hj : j < 1024)
    (e : PageEntry) (hx : x ∈ u.slots) (hne : x ≠ (d, i, j)) :
    (s.setEntry (t * 4096) j e).userEntry u.table x = s.userEntry u.table x := by
  apply userEntry_congr
  intro q hq
  apply entry_setEntry_of_ne hj (inv.slot_lt x hx)
  by_contra hn
  rw [not_or, not_not, not_not] at hn
  obtain ⟨h1, h2⟩ := inv.table_inj _ _ _ _ _ hq (hn.1 ▸ ht)
  exact hne (Prod.ext h1 (Prod.ext h2 hn.2))

theorem userEntry_setEntry_self (ht : u.table d i = some t) (he : e.present = true) :
    (s.setEntry (t * 4096) j e).userEntry u.table (d, i, j) = some e := by
  rw [userEntry_eq_some ht, entry_setEntry_self]
  exact ⟨rfl, he⟩

/-! ## Changes elsewhere -/

theorem clean_keeps (inv : UserInv s blk u) (k : Keeps s blk s' blk' W R)
    (hW : u.NoTable W) : s'.Clean u := by
  intro d i t ht j hj
  rw [k.entry (inv.table d i t ht).1.not_isFree (hW d i t ht) hj]
  exact inv.clean d i t ht j hj

/-- A change that keeps the counts of directories and tables; what the slots hold afterwards
is given. -/
theorem rebuild (inv : UserInv s blk u) (k : Keeps s blk s' blk' W R) (hdir : u.NoDir R)
    (htable : u.NoTable R) (hsub : slots ⊆ u.slots) (hclean : s'.Clean u)
    (hframe : ∀ x ∈ slots, ∀ e, s'.userEntry u.table x = some e →
      IsPage blk' e.page ∧ e.page ∉ u.dirs ∧ ∀ d i, u.table d i ≠ some e.page)
    (hshared : Shared page PageEntry.Locked 65535 slots (s'.userEntry u.table)
      s'.refs) : UserInv s' blk' { u with slots } := by
  refine ⟨k.steady, ?_, ?_, inv.table_inj, inv.table_dir, fun x hx => inv.slot_lt x (hsub hx), hclean,
    hframe, hshared⟩
  · intro d hd
    obtain ⟨hp, hr⟩ := inv.dir d hd
    exact ⟨k.isPage hp fun _ => hdir d hd, (k.refs d hp.not_isFree (hdir d hd)).trans hr⟩
  · intro d i t ht
    obtain ⟨hp, hr, hn⟩ := inv.table d i t ht
    exact ⟨k.isPage hp fun _ => htable d i t ht,
      (k.refs t hp.not_isFree (htable d i t ht)).trans hr, hn⟩

/-- Changes to the bytes of no table and to the counts of no directory, table or mapped
page. -/
theorem keeps (inv : UserInv s blk u) (k : Keeps s blk s' blk' W R)
    (hW : u.NoTable W) (hdir : u.NoDir R) (htable : u.NoTable R)
    (hframe : ∀ x ∈ u.slots, ∀ e, s.userEntry u.table x = some e → e.page ∉ R) :
    UserInv s' blk' u := by
  have hsame : ∀ x ∈ u.slots, s'.userEntry u.table x = s.userEntry u.table x := fun x hx =>
    inv.userEntry_keeps k hW hx
  apply inv.rebuild k hdir htable (Finset.Subset.refl _) (inv.clean_keeps k hW)
  · intro x hx e he
    rw [hsame x hx] at he
    obtain ⟨hp, hn⟩ := inv.frame x hx e he
    exact ⟨k.isPage hp fun _ => hframe x hx e he, hn⟩
  · apply inv.shared.congr hsame
    intro x hx e he
    exact k.refs _ (inv.frame x hx e he).1.not_isFree (hframe x hx e he)

/-- Nothing but free pages, directories and pages outside all tables is written. -/
theorem keeps_written (inv : UserInv s blk u) (k : Keeps s blk s' blk' W ∅)
    (hW : u.NoTable W) : UserInv s' blk' u :=
  inv.keeps k hW (fun _ _ => id) (fun _ _ _ _ => id) fun _ _ _ _ => id

end UserInv

/-! ## Pages not yet in use -/

/-- Page `p` is in use and neither a directory nor a table nor mapped. -/
structure Loose (s : Machine) (blk : Blocks) (u : UserSpaces) (p : Nat) : Prop where
  page : IsPage blk p
  one : s.refs p = 1
  dir : p ∉ u.dirs
  table : ∀ d i, u.table d i ≠ some p
  frame : ∀ x ∈ u.slots, ∀ e, s.userEntry u.table x = some e → e.page ≠ p

theorem Grabbed.loose (g : Grabbed s blk p s' blk') (inv : UserInv s blk u) :
    UserInv s' blk' u ∧ Loose s' blk' u p := by
  have hne : ∀ q, IsPage blk q → q ≠ p := by
    rintro q hq rfl
    exact hq.not_isFree g.fresh
  have hW : u.NoTable ∅ := fun _ _ _ _ => id
  refine ⟨inv.keeps_written g.keeps hW, g.page, g.one, ?_, ?_, ?_⟩
  · intro hd
    exact hne p (inv.dir p hd).1 rfl
  · intro d i ht
    exact hne p (inv.table d i p ht).1 rfl
  · intro x hx e he
    rw [inv.userEntry_keeps g.keeps hW hx] at he
    exact hne _ (inv.frame x hx e he).1

theorem Loose.written (h : Loose s blk u p) (inv : UserInv s blk u) (k : Keeps s blk s' blk' W ∅)
    (hW : u.NoTable W) : Loose s' blk' u p := by
  refine ⟨k.isPage h.page fun _ => id, (k.refs p h.page.not_isFree id).trans h.one, h.dir,
    h.table, fun x hx e he => ?_⟩
  rw [inv.userEntry_keeps k hW hx] at he
  exact h.frame x hx e he

/-- Writing to the page itself. -/
theorem Loose.write (h : Loose s blk u p) (inv : UserInv s blk u) (k : Keeps s blk s' blk' {p} ∅) :
    UserInv s' blk' u ∧ Loose s' blk' u p ∧
      ∀ x ∈ u.slots, s'.userEntry u.table x = s.userEntry u.table x :=
  have hW := noTable_singleton h.table
  ⟨inv.keeps_written k hW, h.written inv k hW, fun _ hx => inv.userEntry_keeps k hW hx⟩

/-- A page that is neither a directory nor a table nor mapped is given back. -/
theorem UserInv.freePage (inv : UserInv s blk u) (hp : IsPage blk p) (hrefs : s.refs p ≤ 1)
    (hdir : p ∉ u.dirs) (htable : ∀ d i, u.table d i ≠ some p)
    (hframe : ∀ x ∈ u.slots, ∀ e, s.userEntry u.table x = some e → e.page ≠ p) :
    ∃ blk', UserInv (s.freePage (p * 4096)) blk' u ∧
      Dropped s blk p (s.freePage (p * 4096)) blk' := by
  obtain ⟨blk', hdrop⟩ := freePage_spec inv.steady hp hrefs
  have hnot := noTable_singleton htable
  exact ⟨blk', inv.keeps hdrop.keeps hnot (noDir_singleton hdir) hnot hframe, hdrop⟩

theorem Loose.free (h : Loose s blk u p) (inv : UserInv s blk u) :
    ∃ blk', UserInv (s.freePage (p * 4096)) blk' u ∧
      Dropped s blk p (s.freePage (p * 4096)) blk' :=
  inv.freePage h.page (le_of_eq h.one) h.dir h.table h.frame

/-- The table of directory entry `(d, i)` is set. -/
def setTable (table : Nat → Nat → Option Nat) (d i : Nat) (v : Option Nat) :
    Nat → Nat → Option Nat :=
  fun d' i' => if d' = d ∧ i' = i then v else table d' i'

@[simp] theorem setTable_self (table : Nat → Nat → Option Nat) (d i : Nat) (v : Option Nat) :
    setTable table d i v d i = v := if_pos ⟨rfl, rfl⟩

theorem setTable_of_ne {table : Nat → Nat → Option Nat} {v : Option Nat} {d' i' : Nat}
    (h : ¬ (d' = d ∧ i' = i)) : setTable table d i v d' i' = table d' i' := if_neg h

namespace UserInv

section

variable (inv : UserInv s blk u)
include inv

/-- A loose page becomes the empty table of a directory entry that had none. -/
theorem addTable (h : Loose s blk u p) (hd : d ∈ u.dirs)
    (hi : 1 ≤ i ∧ i < 256) (hnone : u.table d i = none)
    (hzero : ∀ j < 1024, s.entry (p * 4096) j = .empty) :
    UserInv s blk { u with table := setTable u.table d i (some p) } ∧
      ∀ x ∈ u.slots, s.userEntry (setTable u.table d i (some p)) x = s.userEntry u.table x := by
  have hempty : ∀ j < 1024, (s.entry (p * 4096) j).present = false := by
    intro j hj
    rw [hzero j hj]
    exact empty_present
  have get : ∀ d' i' t, setTable u.table d i (some p) d' i' = some t →
      (d' = d ∧ i' = i ∧ t = p) ∨ u.table d' i' = some t := by
    intro d' i' t ht
    unfold setTable at ht
    split at ht
    next hnew => exact .inl ⟨hnew.1, hnew.2, (some.inj ht).symm⟩
    next => exact .inr ht
  have hsame : ∀ x ∈ u.slots,
      s.userEntry (setTable u.table d i (some p)) x = s.userEntry u.table x := by
    rintro ⟨d', i', j⟩ hx
    have hj : j < 1024 := inv.slot_lt _ hx
    unfold userEntry setTable
    by_cases hnew : d' = d ∧ i' = i
    · obtain ⟨rfl, rfl⟩ := hnew
      simp [hnone, hempty j hj]
    · simp [hnew]
  refine ⟨⟨inv.steady, inv.dir, ?_, ?_, ?_, inv.slot_lt, ?_, ?_, ?_⟩, hsame⟩
  · intro d' i' t ht
    rcases get d' i' t ht with ⟨-, -, rfl⟩ | hold
    · exact ⟨h.page, h.one, h.dir⟩
    · exact inv.table d' i' t hold
  · intro d1 i1 d2 i2 t h₁ h₂
    rcases get d1 i1 t h₁ with ⟨rfl, rfl, rfl⟩ | hold1
    · rcases get d2 i2 t h₂ with ⟨rfl, rfl, -⟩ | hold2
      · exact ⟨rfl, rfl⟩
      · exact absurd hold2 (h.table d2 i2)
    · rcases get d2 i2 t h₂ with ⟨-, -, rfl⟩ | hold2
      · exact absurd hold1 (h.table d1 i1)
      · exact inv.table_inj d1 i1 d2 i2 t hold1 hold2
  · intro d' i' t ht
    rcases get d' i' t ht with ⟨rfl, rfl, -⟩ | hold
    · exact ⟨hd, hi⟩
    · exact inv.table_dir d' i' t hold
  · intro d' i' t ht j hj
    rcases get d' i' t ht with ⟨-, -, rfl⟩ | hold
    · rw [hzero j hj]
      exact fun _ => empty_cow
    · exact inv.clean d' i' t hold j hj
  · intro x hx e he
    have he : s.userEntry u.table x = some e := (hsame x hx).symm.trans he
    obtain ⟨hp, hn, htable⟩ := inv.frame x hx e he
    refine ⟨hp, hn, fun d' i' ht => ?_⟩
    rcases get d' i' e.page ht with ⟨-, -, hpage⟩ | hold
    · exact h.frame x hx e he hpage
    · exact htable d' i' hold
  · exact inv.shared.congr hsame fun _ _ _ _ => rfl

/-- A loose page becomes a directory without user tables. -/
theorem addDir (h : Loose s blk u p) (hsub : u.slots ⊆ slots)
    (hnew : ∀ x ∈ slots, x ∉ u.slots → x.1 = p ∧ x.2.2 < 1024) :
    UserInv s blk { u with dirs := insert p u.dirs, slots := slots } := by
  have hnone : ∀ i, u.table p i = none := by
    intro i
    cases ht : u.table p i with
    | none => rfl
    | some t => exact absurd (inv.table_dir p i t ht).1 h.dir
  have hempty : ∀ x ∈ slots, x ∉ u.slots → s.userEntry u.table x = none := by
    intro x hx hn
    simp [userEntry, (hnew x hx hn).1, hnone]
  refine ⟨inv.steady, ?_, ?_, inv.table_inj, ?_, ?_, inv.clean, ?_, inv.shared.extend hsub hempty⟩
  · intro d hd
    rcases mem_insert.mp hd with rfl | hd
    · exact ⟨h.page, h.one⟩
    · exact inv.dir d hd
  · intro d i t ht
    obtain ⟨hp, hr, hn⟩ := inv.table d i t ht
    refine ⟨hp, hr, fun hd => ?_⟩
    rcases mem_insert.mp hd with rfl | hd
    · exact h.table d i ht
    · exact hn hd
  · intro d i t ht
    obtain ⟨hd, hi⟩ := inv.table_dir d i t ht
    exact ⟨mem_insert_of_mem hd, hi⟩
  · intro x hx
    by_cases hn : x ∈ u.slots
    · exact inv.slot_lt x hn
    · exact (hnew x hx hn).2
  · intro x hx e he
    by_cases hn : x ∈ u.slots
    · obtain ⟨hp, hd, ht⟩ := inv.frame x hn e he
      refine ⟨hp, fun hd' => ?_, ht⟩
      rcases mem_insert.mp hd' with hpage | hd'
      · exact h.frame x hn e he hpage
      · exact hd hd'
    · rw [hempty x hx hn] at he
      cases he

/-- Empty slots need not count. -/
theorem restrict (hsub : slots ⊆ u.slots)
    (hempty : ∀ x ∈ u.slots, x ∉ slots → s.userEntry u.table x = none) :
    UserInv s blk { u with slots := slots } :=
  ⟨inv.steady, inv.dir, inv.table, inv.table_inj, inv.table_dir,
    fun x hx => inv.slot_lt x (hsub hx), inv.clean, fun x hx => inv.frame x (hsub hx),
    inv.shared.restrict hsub hempty⟩

/-- A table none of whose slots count is taken out. -/
theorem dropTable (ht : u.table d i = some t)
    (hnone : ∀ x ∈ u.slots, ¬ (x.1 = d ∧ x.2.1 = i)) :
    UserInv s blk { u with table := setTable u.table d i none } ∧
      Loose s blk { u with table := setTable u.table d i none } t ∧
      ∀ x ∈ u.slots, s.userEntry (setTable u.table d i none) x = s.userEntry u.table x := by
  have get : ∀ d' i' t', setTable u.table d i none d' i' = some t' →
      u.table d' i' = some t' ∧ ¬ (d' = d ∧ i' = i) := by
    intro d' i' t' h
    unfold setTable at h
    split at h
    · cases h
    · next hne => exact ⟨h, hne⟩
  have hsame : ∀ x ∈ u.slots,
      s.userEntry (setTable u.table d i none) x = s.userEntry u.table x := by
    intro x hx
    unfold userEntry
    rw [setTable_of_ne (hnone x hx)]
  refine ⟨⟨inv.steady, inv.dir, ?_, ?_, ?_, inv.slot_lt, ?_, ?_, ?_⟩, ⟨?_, ?_, ?_, ?_, ?_⟩, hsame⟩
  · intro d' i' t' h
    exact inv.table d' i' t' (get d' i' t' h).1
  · intro d1 i1 d2 i2 t' h₁ h₂
    exact inv.table_inj d1 i1 d2 i2 t' (get _ _ _ h₁).1 (get _ _ _ h₂).1
  · intro d' i' t' h
    exact inv.table_dir d' i' t' (get d' i' t' h).1
  · intro d' i' t' h
    exact inv.clean d' i' t' (get d' i' t' h).1
  · intro x hx e he
    obtain ⟨hp, hd, htable⟩ := inv.frame x hx e ((hsame x hx).symm.trans he)
    exact ⟨hp, hd, fun d' i' h => htable d' i' (get _ _ _ h).1⟩
  · exact inv.shared.congr hsame fun _ _ _ _ => rfl
  · exact (inv.table d i t ht).1
  · exact (inv.table d i t ht).2.1
  · exact (inv.table d i t ht).2.2
  · intro d' i' h
    obtain ⟨h, hne⟩ := get _ _ _ h
    exact hne (inv.table_inj d' i' d i t h ht)
  · intro x hx e he hpage
    exact (inv.frame x hx e ((hsame x hx).symm.trans he)).2.2 d i (hpage ▸ ht)

/-- A directory without tables is taken out. -/
theorem dropDir (hd : d ∈ u.dirs) (hnone : ∀ i, u.table d i = none) :
    UserInv s blk { u with dirs := u.dirs.erase d } ∧
      Loose s blk { u with dirs := u.dirs.erase d } d := by
  refine ⟨⟨inv.steady, ?_, ?_, inv.table_inj, ?_, inv.slot_lt, inv.clean, ?_, inv.shared⟩,
    (inv.dir d hd).1, (inv.dir d hd).2, notMem_erase d u.dirs, ?_, ?_⟩
  · intro d' hd'
    exact inv.dir d' (mem_of_mem_erase hd')
  · intro d' i t ht
    obtain ⟨hp, hr, hn⟩ := inv.table d' i t ht
    exact ⟨hp, hr, fun h => hn (mem_of_mem_erase h)⟩
  · intro d' i t ht
    obtain ⟨hd', hi⟩ := inv.table_dir d' i t ht
    refine ⟨mem_erase.mpr ⟨?_, hd'⟩, hi⟩
    rintro rfl
    rw [hnone i] at ht
    cases ht
  · intro x hx e he
    obtain ⟨hp, hn, htable⟩ := inv.frame x hx e he
    exact ⟨hp, fun h => hn (mem_of_mem_erase h), htable⟩
  · intro d' i ht
    exact (inv.table d' i d ht).2.2 hd
  · intro x hx e he hpage
    exact (inv.frame x hx e he).2.1 (hpage ▸ hd)

/-! ## Changing slots -/

/-- The entry of an empty slot is set to a loose page. -/
theorem fillSlot (h : Loose s blk u p) (ht : u.table d i = some t)
    (hx : (d, i, j) ∈ u.slots) (hnone : s.userEntry u.table (d, i, j) = none)
    (he : e.present = true) (hpage : e.page = p) :
    UserInv (s.setEntry (t * 4096) j e) blk u := by
  have hj : j < 1024 := inv.slot_lt _ hx
  have k := Keeps.setEntry inv.steady (inv.table d i t ht).1 hj e
  have self : (s.setEntry (t * 4096) j e).userEntry u.table (d, i, j) = some e :=
    userEntry_setEntry_self ht he
  have rest : ∀ y ∈ u.slots, y ≠ (d, i, j) →
      (s.setEntry (t * 4096) j e).userEntry u.table y = s.userEntry u.table y := fun y hy hne =>
    inv.userEntry_setEntry ht hj e hy hne
  apply inv.rebuild k (fun _ _ => id) (fun _ _ _ _ => id) (Finset.Subset.refl _)
    (inv.clean.setEntry hj he)
  · intro x hx f hf
    rcases eq_some_of_overwrite self rest hx hf with ⟨-, rfl⟩ | ⟨-, hf⟩
    · rw [hpage]
      exact ⟨h.page, h.dir, h.table⟩
    · exact inv.frame x hx f hf
  · refine inv.shared.fill hx hnone self rest ?_ (by decide) ?_ fun _ _ _ _ => rfl
    · intro y hy f hf
      rw [hpage]
      exact h.frame y hy f hf
    · rw [hpage]
      exact h.one

/-- The frame of slot `x` is shared with the empty slot `y`. -/
theorem shareSlot {y : Slot} {e1 e2 : PageEntry}
    (k : Keeps s blk s' blk W {e.page}) (hx : x ∈ u.slots) (hy : y ∈ u.slots)
    (hcx : s.userEntry u.table x = some e) (hcy : s.userEntry u.table y = none)
    (hcx' : s'.userEntry u.table x = some e1) (hcy' : s'.userEntry u.table y = some e2)
    (hp1 : e1.page = e.page) (hp2 : e2.page = e.page) (hl1 : e1.Locked) (hl2 : e2.Locked)
    (hc : ∀ z ∈ u.slots, z ≠ x → z ≠ y → s'.userEntry u.table z = s.userEntry u.table z)
    (hclean : s'.Clean u) (hrefs : s'.refs e.page = min (s.refs e.page + 1) 65535) :
    UserInv s' blk u := by
  obtain ⟨hpage, hndir, hntable⟩ := inv.frame x hx e hcx
  apply inv.rebuild k (noDir_singleton hndir) (noTable_singleton hntable) (Finset.Subset.refl _) hclean
  · intro z hz f hf
    by_cases hzx : z = x
    · subst hzx
      obtain rfl := some.inj (hcx'.symm.trans hf)
      rw [hp1]
      exact ⟨hpage, hndir, hntable⟩
    by_cases hzy : z = y
    · subst hzy
      obtain rfl := some.inj (hcy'.symm.trans hf)
      rw [hp2]
      exact ⟨hpage, hndir, hntable⟩
    · rw [hc z hz hzx hzy] at hf
      exact inv.frame z hz f hf
  · refine inv.shared.share hx hy hcx hcy hcx' hcy' hp1 hp2 hl1 hl2 hc hrefs ?_
    intro z hz f hf hne
    exact k.refs _ (inv.frame z hz f hf).1.not_isFree hne

/-- Slot `x` moves from its frame to the loose page `p`. -/
theorem moveSlot {e' : PageEntry} (h : Loose s blk u p)
    (k : Keeps s blk s' blk W {e.page}) (hx : x ∈ u.slots)
    (hcx : s.userEntry u.table x = some e) (hcx' : s'.userEntry u.table x = some e')
    (hpage' : e'.page = p)
    (hc : ∀ y ∈ u.slots, y ≠ x → s'.userEntry u.table y = s.userEntry u.table y)
    (hclean : s'.Clean u) (hsat : s.refs e.page < 65535)
    (hrefs : s'.refs e.page + 1 = s.refs e.page) : UserInv s' blk u := by
  obtain ⟨hpage, hndir, hntable⟩ := inv.frame x hx e hcx
  have hne : p ≠ e.page := (h.frame x hx e hcx).symm
  apply inv.rebuild k (noDir_singleton hndir) (noTable_singleton hntable) (Finset.Subset.refl _) hclean
  · intro z hz f hf
    rcases eq_some_of_overwrite hcx' hc hz hf with ⟨-, rfl⟩ | ⟨-, hf⟩
    · rw [hpage']
      exact ⟨h.page, h.dir, h.table⟩
    · exact inv.frame z hz f hf
  · refine inv.shared.move hx hcx hcx' hc ?_ (by decide) hsat hrefs ?_ ?_
    · intro y hy f hf
      rw [hpage']
      exact h.frame y hy f hf
    · rw [hpage', k.refs p h.page.not_isFree hne]
      exact h.one
    · intro y hy f hf hfe
      exact k.refs _ (inv.frame y hy f hf).1.not_isFree hfe

end

end UserInv

end Stos.Kernel
