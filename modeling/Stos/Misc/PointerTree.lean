import Stos.Misc.LittleEndian

/-!
# Trees of block pointers in a byte array

A memory is divided into blocks. A block of pointers, a table, is an array of 32-bit block numbers in
which 0 stands for no block. A tree of depth 0 is a pointer to a block of data; a tree of depth `k + 1` is
a pointer to a table of trees of depth `k`.

The first `n` leaves of a tree are in use (`Dense`). The lemmas say what a tree depends on, that its blocks
are its tables and its leaves, and how it grows by one leaf.
-/

namespace Stos.PointerTree

open List Nat Function

variable (blockSize : Nat)

/-- The number of pointers in a table. -/
def width : Nat := blockSize / 4

/-- A pointer of a table. -/
def slot (m : Mem) (p j : Nat) : Nat := readLE m (p * blockSize + j * 4) 4

/-- The block of a leaf. -/
def leaf (m : Mem) : (k p i : Nat) → Nat
  | 0, p, _ => p
  | k + 1, p, i => leaf m k (slot blockSize m p (i / width blockSize ^ k)) (i % width blockSize ^ k)

/-- All blocks of a tree. -/
def reach (m : Mem) : (k p : Nat) → List Nat
  | 0, p => if p = 0 then [] else [p]
  | k + 1, p =>
    if p = 0 then []
    else p :: (range (width blockSize)).flatMap fun j => reach m k (slot blockSize m p j)

/-- The blocks of a tree that are tables. -/
def tables (m : Mem) : (k p : Nat) → List Nat
  | 0, _ => []
  | k + 1, p =>
    if p = 0 then []
    else p :: (range (width blockSize)).flatMap fun j => tables m k (slot blockSize m p j)

/-- How many of the first `n` leaves are in part `j`, if each part has `w` leaves. -/
def part (w n j : Nat) : Nat := min w (n - j * w)

/-- The first `n` leaves are in use, and no others. -/
def Dense (m : Mem) : (k p n : Nat) → Prop
  | 0, p, n => (p = 0 ↔ n = 0)
  | k + 1, p, n =>
    (p = 0 ↔ n = 0) ∧ (p ≠ 0 → ∀ j < width blockSize,
      Dense m k (slot blockSize m p j) (part (width blockSize ^ k) n j))

/-- A table whose first `n` leaves are in use; there may be none. -/
def Table (m : Mem) (k p n : Nat) : Prop :=
  p ≠ 0 ∧ ∀ j < width blockSize, Dense blockSize m k (slot blockSize m p j) (part (width blockSize ^ k) n j)

/-- A block is the same in two memories. -/
def Agree (m m' : Mem) (b : Nat) : Prop :=
  ∀ a, b * blockSize ≤ a → a < b * blockSize + blockSize → m' a = m a

section

variable {blockSize} {m m' : Mem} {k p n j : Nat} {α : Type} {post : List (Nat × Nat)}

theorem dense_zero : Dense blockSize m 0 p n ↔ (p = 0 ↔ n = 0) := Iff.rfl

theorem Dense.eq_zero_iff (h : Dense blockSize m k p n) : p = 0 ↔ n = 0 := by
  cases k with
  | zero => exact h
  | succ k => exact h.1

theorem dense_zero_iff : Dense blockSize m k p 0 ↔ p = 0 := by
  refine ⟨fun h => h.eq_zero_iff.mpr rfl, fun hp => ?_⟩
  cases k with
  | zero => exact iff_of_true hp rfl
  | succ k => exact ⟨iff_of_true hp rfl, fun hne => absurd hp hne⟩

theorem Dense.table (h : Dense blockSize m (k + 1) p n) (hn : n ≠ 0) : Table blockSize m k p n := by
  have hp : p ≠ 0 := fun hp => hn (h.1.mp hp)
  exact ⟨hp, h.2 hp⟩

theorem Table.dense (h : Table blockSize m k p n) (hn : n ≠ 0) : Dense blockSize m (k + 1) p n :=
  ⟨⟨fun hp => absurd hp h.1, fun h => absurd h hn⟩, fun _ => h.2⟩

theorem reach_succ (hp : p ≠ 0) : reach blockSize m (k + 1) p =
    p :: (range (width blockSize)).flatMap fun j => reach blockSize m k (slot blockSize m p j) := by
  rw [reach, if_neg hp]

theorem tables_succ (hp : p ≠ 0) : tables blockSize m (k + 1) p =
    p :: (range (width blockSize)).flatMap fun j => tables blockSize m k (slot blockSize m p j) := by
  rw [tables, if_neg hp]

theorem mem_reach_root (hp : p ≠ 0) : p ∈ reach blockSize m (k + 1) p := by
  rw [reach_succ hp]
  exact mem_cons_self

theorem mem_tables_root (hp : p ≠ 0) : p ∈ tables blockSize m (k + 1) p := by
  rw [tables_succ hp]
  exact mem_cons_self

@[simp] theorem reach_of_zero (m : Mem) (k : Nat) : reach blockSize m k 0 = [] := by
  cases k <;> rfl

@[simp] theorem tables_of_zero (m : Mem) (k : Nat) : tables blockSize m k 0 = [] := by
  cases k <;> rfl

/-! ## What a tree depends on -/

theorem slot_congr (same : Agree blockSize m m' p) (hj : j < width blockSize) :
    slot blockSize m' p j = slot blockSize m p j := by
  unfold width at hj
  exact readLE_congr fun a _ _ => same a (by omega) (by omega)

theorem mem_tables_of_slot {b : Nat} (hp : p ≠ 0) (hj : j < width blockSize)
    (hb : b ∈ tables blockSize m k (slot blockSize m p j)) : b ∈ tables blockSize m (k + 1) p := by
  rw [tables_succ hp]
  exact mem_cons_of_mem _ (mem_flatMap.mpr ⟨j, mem_range.mpr hj, hb⟩)

theorem reach_congr (same : ∀ b ∈ tables blockSize m k p, Agree blockSize m m' b) :
    reach blockSize m' k p = reach blockSize m k p := by
  induction k generalizing p with
  | zero => rfl
  | succ k ih =>
    by_cases hp : p = 0
    · rw [hp, reach_of_zero, reach_of_zero]
    rw [reach_succ hp, reach_succ hp]
    congr 1
    refine flatMap_congr fun j hj => ?_
    have hj' := mem_range.mp hj
    rw [slot_congr (same p (mem_tables_root hp)) hj']
    exact ih fun b hb => same b (mem_tables_of_slot hp hj' hb)

theorem Dense.congr (h : Dense blockSize m k p n)
    (same : ∀ b ∈ tables blockSize m k p, Agree blockSize m m' b) : Dense blockSize m' k p n := by
  induction k generalizing p n with
  | zero => exact h
  | succ k ih =>
    refine ⟨h.1, fun hp j hj => ?_⟩
    rw [slot_congr (same p (mem_tables_root hp)) hj]
    exact ih (h.2 hp j hj) fun b hb => same b (mem_tables_of_slot hp hj hb)

/-! ## The leaves in the parts -/

variable {w i j : Nat}

theorem lt_part_iff : i < part w n j ↔ i < w ∧ j * w + i < n := by
  unfold part
  omega

theorem part_le (w n j : Nat) : part w n j ≤ w := min_le_left _ _

@[simp] theorem part_zero (w j : Nat) : part w 0 j = 0 := by
  unfold part
  omega

/-- The part of a leaf in use has it in use. -/
theorem mod_lt_part (hw : 0 < w) (hi : i < n) : i % w < part w n (i / w) := by
  have := div_add_mod i w
  rw [mul_comm] at this
  exact lt_part_iff.mpr ⟨mod_lt _ hw, by omega⟩

theorem part_div (hw : 0 < w) : part w n (n / w) = n % w := by
  have := div_add_mod n w
  have := mod_lt n hw
  rw [mul_comm] at *
  unfold part
  omega

theorem part_succ_div (hw : 0 < w) : part w (n + 1) (n / w) = n % w + 1 := by
  have hdm := div_add_mod n w
  have := mod_lt n hw
  rw [mul_comm] at hdm
  unfold part
  omega

/-- One more leaf changes one part only. -/
theorem part_succ_of_ne (hw : 0 < w) (hj : j ≠ n / w) : part w (n + 1) j = part w n j := by
  unfold part
  rcases lt_or_gt_of_ne hj with h | h
  · have hle : (j + 1) * w ≤ n := (mul_le_mul_right w h).trans (div_mul_le_self n w)
    rw [succ_mul] at hle
    omega
  · have hlt : n < j * w := (div_lt_iff_lt_mul hw).mp h
    omega

theorem width_pow_pos (hwidth : 0 < width blockSize) (k : Nat) : 0 < width blockSize ^ k :=
  Nat.pow_pos hwidth

theorem div_lt_width (hi : i < width blockSize ^ (k + 1)) : i / width blockSize ^ k < width blockSize := by
  rw [pow_succ, mul_comm] at hi
  exact Nat.div_lt_of_lt_mul (by rwa [Nat.mul_comm] at hi)

theorem leaf_congr (hwidth : 0 < width blockSize) (h : Dense blockSize m k p n)
    (hn : n ≤ width blockSize ^ k) (same : ∀ b ∈ tables blockSize m k p, Agree blockSize m m' b)
    (hi : i < n) : leaf blockSize m' k p i = leaf blockSize m k p i := by
  induction k generalizing p n i with
  | zero => rfl
  | succ k ih =>
    have hp : p ≠ 0 := fun hp => by
      have := h.eq_zero_iff.mp hp
      omega
    have hj : i / width blockSize ^ k < width blockSize := div_lt_width (by omega)
    rw [leaf, leaf, slot_congr (same p (mem_tables_root hp)) hj]
    exact ih (h.2 hp _ hj) (part_le _ _ _) (fun b hb => same b (mem_tables_of_slot hp hj hb))
      (mod_lt_part (width_pow_pos hwidth k) hi)

/-- The leaves of the parts, one part after another. -/
theorem flatMap_part (f : Nat → α) (w : Nat) : ∀ (parts : Nat) {n : Nat}, n ≤ parts * w →
    ((range parts).flatMap fun j => (range (part w n j)).map fun i => f (j * w + i)) =
      (range n).map f := by
  intro parts
  induction parts with
  | zero =>
    intro n hn
    obtain rfl : n = 0 := by omega
    rfl
  | succ parts ih =>
    intro n hn
    rw [succ_mul] at hn
    -- the last part follows the first `min n (parts * w)` leaves
    have hfirst : ((range parts).flatMap fun j =>
        (range (part w n j)).map fun i => f (j * w + i)) =
        (range (min n (parts * w))).map f := by
      rw [← ih (min_le_right n (parts * w))]
      refine flatMap_congr fun j hj => ?_
      have hj' := mem_range.mp hj
      have hle : (j + 1) * w ≤ parts * w := mul_le_mul_right w hj'
      rw [succ_mul] at hle
      rw [show part w n j = part w (min n (parts * w)) j by unfold part; omega]
    rw [range_succ, flatMap_append, hfirst, flatMap_singleton]
    have hsplit : n = min n (parts * w) + part w n parts := by
      unfold part
      omega
    rcases lt_or_ge (parts * w) n with hlt | hge
    · rw [min_eq_right hlt.le] at hsplit ⊢
      conv_rhs => rw [hsplit, range_add, map_append, map_map]
      rfl
    · have hnone : part w n parts = 0 := by
        omega
      rw [hnone, min_eq_left hge, range_zero, map_nil, append_nil]

/-- The blocks of a tree are its tables and its leaves. -/
theorem reach_perm (hwidth : 0 < width blockSize) (h : Dense blockSize m k p n)
    (hn : n ≤ width blockSize ^ k) :
    (reach blockSize m k p).Perm
      (tables blockSize m k p ++ (range n).map (leaf blockSize m k p)) := by
  induction k generalizing p n with
  | zero =>
    rw [pow_zero] at hn
    by_cases hp : p = 0
    · have := (dense_zero.mp h).mp hp
      subst this
      rw [hp]
      exact List.Perm.refl _
    · have : n = 1 := by
        have := (dense_zero.mp h).not.mp hp
        omega
      subst this
      rw [reach, if_neg hp]
      exact List.Perm.refl _
  | succ k ih =>
    by_cases hp : p = 0
    · have := h.eq_zero_iff.mp hp
      subst this
      rw [hp, reach_of_zero, tables_of_zero]
      exact List.Perm.refl _
    rw [reach_succ hp, tables_succ hp, cons_append]
    refine List.Perm.cons _ ?_
    have hw := width_pow_pos hwidth k
    -- each child has its tables and leaves; the tables go to the front
    calc ((range (width blockSize)).flatMap fun j => reach blockSize m k (slot blockSize m p j)).Perm
          ((range (width blockSize)).flatMap fun j =>
            tables blockSize m k (slot blockSize m p j) ++
              (range (part (width blockSize ^ k) n j)).map
                (leaf blockSize m k (slot blockSize m p j))) :=
          List.Perm.flatMap_left _ fun j hj =>
            ih (h.2 hp j (mem_range.mp hj)) (part_le _ _ _)
      List.Perm _ (((range (width blockSize)).flatMap fun j =>
            tables blockSize m k (slot blockSize m p j)) ++
          (range (width blockSize)).flatMap fun j =>
            (range (part (width blockSize ^ k) n j)).map
              (leaf blockSize m k (slot blockSize m p j))) :=
          (flatMap_append_perm _ _ _).symm
      _ = _ := by
        congr 1
        rw [← flatMap_part (leaf blockSize m (k + 1) p) (width blockSize ^ k) (width blockSize)
          (by rwa [← pow_succ'])]
        refine flatMap_congr fun j _ => map_congr_left fun i hi => ?_
        have hi' := (lt_part_iff.mp (mem_range.mp hi)).1
        rw [leaf, mul_comm j, mul_add_div hw, div_eq_of_lt hi', add_zero,
          mul_add_mod, mod_eq_of_lt hi']

/-- What is below a table belongs to the table. -/
theorem reach_slot_sublist (hp : p ≠ 0) (hj : j < width blockSize) :
    (reach blockSize m k (slot blockSize m p j)).Sublist (reach blockSize m (k + 1) p) := by
  rw [reach_succ hp, flatMap_def]
  refine List.Sublist.cons p (sublist_flatten_of_mem ?_)
  exact mem_map.mpr ⟨j, mem_range.mpr hj, rfl⟩

theorem tables_subset_reach (m : Mem) (k p : Nat) : tables blockSize m k p ⊆ reach blockSize m k p := by
  induction k generalizing p with
  | zero => exact nil_subset _
  | succ k ih =>
    by_cases hp : p = 0
    · rw [hp, tables_of_zero]
      exact nil_subset _
    rw [tables_succ hp, reach_succ hp]
    refine cons_subset_cons p fun b hb => ?_
    obtain ⟨j, hj, hb⟩ := mem_flatMap.mp hb
    exact mem_flatMap.mpr ⟨j, hj, ih _ hb⟩

/-- The trees of a table have no block in common, and none has the table. -/
theorem reach_disjoint (hp : p ≠ 0) (hnodup : (reach blockSize m (k + 1) p).Nodup) :
    (∀ j < width blockSize, p ∉ reach blockSize m k (slot blockSize m p j)) ∧
      ∀ j < width blockSize, ∀ j' < width blockSize, j ≠ j' →
        ∀ b ∈ reach blockSize m k (slot blockSize m p j),
          b ∉ reach blockSize m k (slot blockSize m p j') := by
  rw [reach_succ hp, nodup_cons] at hnodup
  obtain ⟨hroot, hrest⟩ := hnodup
  refine ⟨fun j hj hmem => hroot (mem_flatMap.mpr ⟨j, mem_range.mpr hj, hmem⟩),
    fun j hj j' hj' hne b hb hb' => ?_⟩
  have hsymm : Std.Symm (onFun List.Disjoint fun j =>
      reach blockSize m k (slot blockSize m p j)) := ⟨fun _ _ h _ hb hb' => h hb' hb⟩
  exact (nodup_flatMap.mp hrest).2.forall (mem_range.mpr hj) (mem_range.mpr hj') hne
    hb hb'

/-! ## Growth -/

/-- From the tree `p` with `n` leaves in use to the tree `p'` with one leaf more, whose block is `new`. The
blocks in `fresh` have come to the tree. -/
structure Grows (blockSize : Nat) (m m' : Mem) (k p p' n new : Nat) (fresh : List Nat) : Prop where
  dense : Dense blockSize m' k p' (n + 1)
  old : ∀ i < n, leaf blockSize m' k p' i = leaf blockSize m k p i
  new : leaf blockSize m' k p' n = new
  reach : (reach blockSize m' k p').Perm (fresh ++ reach blockSize m k p)

theorem flatMap_perm_of_one (f f' : Nat → List α) {fresh : List α} {l : List Nat} (hnodup : l.Nodup)
    (hj : j ∈ l) (same : ∀ i ∈ l, i ≠ j → f' i = f i) (hf : (f' j).Perm (fresh ++ f j)) :
    (l.flatMap f').Perm (fresh ++ l.flatMap f) := by
  induction l with
  | nil => cases hj
  | cons x l ih =>
    obtain ⟨hx, hl⟩ := nodup_cons.mp hnodup
    rw [flatMap_cons, flatMap_cons]
    rcases mem_cons.mp hj with rfl | hj
    · have hrest : l.flatMap f' = l.flatMap f :=
        flatMap_congr fun i hi => same i (mem_cons_of_mem _ hi) fun h => hx (h ▸ hi)
      rw [hrest, ← append_assoc]
      exact hf.append_right _
    · have hne : x ≠ j := fun h => hx (h ▸ hj)
      rw [same x mem_cons_self hne]
      have hperm := ih hl hj fun i hi => same i (mem_cons_of_mem _ hi)
      exact (hperm.append_left (f x)).trans (perm_append_comm_assoc _ _ _)

variable {p' q new : Nat} {fresh : List Nat}

/-- A leaf is a tree of depth 0. -/
theorem grows_leaf (m m' : Mem) (hnew : new ≠ 0) : Grows blockSize m m' 0 0 new 0 new [new] := by
  refine ⟨?_, fun i hi => absurd hi (not_lt_zero i), rfl, ?_⟩
  · exact ⟨fun h => absurd h hnew, fun h => absurd h (by decide)⟩
  · rw [reach, if_neg hnew, reach_of_zero, append_nil]

/-- A table grows if one of its trees does. -/
theorem Grows.node (hwidth : 0 < width blockSize) (h : Table blockSize m k p n)
    (hn : n < width blockSize ^ (k + 1))
    (slots : ∀ j < width blockSize, j ≠ n / width blockSize ^ k →
      slot blockSize m' p j = slot blockSize m p j)
    (same : ∀ j < width blockSize, j ≠ n / width blockSize ^ k →
      ∀ b ∈ tables blockSize m k (slot blockSize m p j), Agree blockSize m m' b)
    (child : Grows blockSize m m' k (slot blockSize m p (n / width blockSize ^ k))
      (slot blockSize m' p (n / width blockSize ^ k)) (n % width blockSize ^ k) new fresh) :
    Grows blockSize m m' (k + 1) p p n new fresh := by
  have hw := width_pow_pos hwidth k
  have hj := div_lt_width hn
  refine ⟨Table.dense ⟨h.1, fun j hjw => ?_⟩ (by omega), fun i hi => ?_, ?_, ?_⟩
  · by_cases hne : j = n / width blockSize ^ k
    · subst hne
      rw [part_succ_div hw]
      exact child.dense
    · rw [part_succ_of_ne hw hne, slots j hjw hne]
      exact (h.2 j hjw).congr (same j hjw hne)
  · have hjw : i / width blockSize ^ k < width blockSize := div_lt_width (by omega)
    have hin := mod_lt_part hw hi
    rw [leaf, leaf]
    by_cases hne : i / width blockSize ^ k = n / width blockSize ^ k
    · rw [hne, part_div hw] at hin
      rw [hne]
      exact child.old _ hin
    · rw [slots _ hjw hne]
      exact leaf_congr hwidth (h.2 _ hjw) (part_le _ _ _) (same _ hjw hne) hin
  · exact child.new
  · rw [reach_succ h.1, reach_succ h.1]
    have hperm := flatMap_perm_of_one (fun j => PointerTree.reach blockSize m k (slot blockSize m p j))
      (fun j => PointerTree.reach blockSize m' k (slot blockSize m' p j))
      (nodup_range (n := width blockSize)) (mem_range.mpr hj)
      (fun i hi hne => ?_) child.reach
    · exact (hperm.cons p).trans perm_middle.symm
    · have hiw := mem_range.mp hi
      rw [slots i hiw hne]
      exact reach_congr (same i hiw hne)

/-- A table without pointers. -/
theorem table_of_zeros (hp : p ≠ 0) (zeros : ∀ j < width blockSize, slot blockSize m p j = 0) :
    Table blockSize m k p 0 := by
  refine ⟨hp, fun j hj => ?_⟩
  rw [zeros j hj, part_zero]
  exact dense_zero_iff.mpr rfl

theorem reach_of_zeros (hp : p ≠ 0) (zeros : ∀ j < width blockSize, slot blockSize m p j = 0) :
    reach blockSize m (k + 1) p = [p] := by
  rw [reach_succ hp, flatMap_eq_nil_iff.mpr]
  intro j hj
  rw [zeros j (mem_range.mp hj), reach_of_zero]

/-- A tree grows from a table without pointers that was put in its place. -/
theorem Grows.of_zeros {m1 : Mem} (h : Grows blockSize m1 m' (k + 1) p' p' 0 new fresh) (hp : p' ≠ 0)
    (zeros : ∀ j < width blockSize, slot blockSize m1 p' j = 0) (m : Mem) :
    Grows blockSize m m' (k + 1) 0 p' 0 new (p' :: fresh) := by
  refine ⟨h.dense, fun i hi => absurd hi (not_lt_zero i), h.new, ?_⟩
  have hreach := h.reach
  rw [reach_of_zeros hp zeros] at hreach
  rw [reach_of_zero, append_nil]
  exact hreach.trans (perm_append_singleton _ _)

/-! ## Several trees -/

/-- The number of leaves of several trees, each given by its depth and its pointer. -/
def capacity (blockSize : Nat) (roots : List (Nat × Nat)) : Nat :=
  (roots.map fun r => width blockSize ^ r.1).sum

/-- The block of a leaf, counted through the trees. -/
def forestLeaf (blockSize : Nat) (m : Mem) : List (Nat × Nat) → Nat → Nat
  | [], _ => 0
  | (k, p) :: roots, i =>
    if i < width blockSize ^ k then leaf blockSize m k p i
    else forestLeaf blockSize m roots (i - width blockSize ^ k)

def forestReach (blockSize : Nat) (m : Mem) (roots : List (Nat × Nat)) : List Nat :=
  roots.flatMap fun r => reach blockSize m r.1 r.2

def forestTables (blockSize : Nat) (m : Mem) (roots : List (Nat × Nat)) : List Nat :=
  roots.flatMap fun r => tables blockSize m r.1 r.2

/-- The first `n` leaves are in use, and no others. -/
def ForestDense (blockSize : Nat) (m : Mem) : List (Nat × Nat) → Nat → Prop
  | [], n => n = 0
  | (k, p) :: roots, n =>
    Dense blockSize m k p (min (width blockSize ^ k) n) ∧
      ForestDense blockSize m roots (n - width blockSize ^ k)

/-- As `Grows`, for several trees. -/
structure ForestGrows (blockSize : Nat) (m m' : Mem) (roots roots' : List (Nat × Nat)) (n new : Nat)
    (fresh : List Nat) : Prop where
  dense : ForestDense blockSize m' roots' (n + 1)
  old : ∀ i < n, forestLeaf blockSize m' roots' i = forestLeaf blockSize m roots i
  new : forestLeaf blockSize m' roots' n = new
  reach : (forestReach blockSize m' roots').Perm (fresh ++ forestReach blockSize m roots)

variable {roots roots' : List (Nat × Nat)}

/-- A forest without leaves. -/
theorem forestDense_zero_iff : ForestDense blockSize m roots 0 ↔ ∀ r ∈ roots, r.2 = 0 := by
  induction roots with
  | nil => simp [ForestDense]
  | cons r roots ih =>
    rw [ForestDense, Nat.min_zero, Nat.zero_sub, ih, dense_zero_iff, forall_mem_cons]

theorem forestReach_of_zeros (h : ∀ r ∈ roots, r.2 = 0) : forestReach blockSize m roots = [] := by
  refine flatMap_eq_nil_iff.mpr fun r hr => ?_
  rw [h r hr, reach_of_zero]

theorem ForestDense.congr (h : ForestDense blockSize m roots n)
    (same : ∀ b ∈ forestTables blockSize m roots, Agree blockSize m m' b) :
    ForestDense blockSize m' roots n := by
  induction roots generalizing n with
  | nil => exact h
  | cons r roots ih =>
    exact ⟨h.1.congr fun b hb => same b (mem_append_left _ hb),
      ih h.2 fun b hb => same b (mem_append_right _ hb)⟩

theorem forestReach_congr (same : ∀ b ∈ forestTables blockSize m roots, Agree blockSize m m' b) :
    forestReach blockSize m' roots = forestReach blockSize m roots :=
  flatMap_congr fun r hr => reach_congr fun b hb => same b (mem_flatMap.mpr ⟨r, hr, hb⟩)

theorem forestLeaf_congr (hwidth : 0 < width blockSize) (h : ForestDense blockSize m roots n)
    (same : ∀ b ∈ forestTables blockSize m roots, Agree blockSize m m' b) (hi : i < n) :
    forestLeaf blockSize m' roots i = forestLeaf blockSize m roots i := by
  induction roots generalizing n i with
  | nil => rfl
  | cons r roots ih =>
    rw [forestLeaf, forestLeaf]
    split
    · next hlt =>
      exact leaf_congr hwidth h.1 (min_le_left _ _) (fun b hb => same b (mem_append_left _ hb))
        (by omega)
    · exact ih h.2 (fun b hb => same b (mem_append_right _ hb)) (by omega)

/-- A leaf of the tree behind some others. -/
theorem forestLeaf_behind (m : Mem) (hi : i < width blockSize ^ k) (post : List (Nat × Nat)) :
    ∀ pre : List (Nat × Nat),
      forestLeaf blockSize m (pre ++ (k, p) :: post) (capacity blockSize pre + i) =
        leaf blockSize m k p i := by
  intro pre
  induction pre with
  | nil =>
    rw [nil_append, forestLeaf, capacity, map_nil, sum_nil, zero_add, if_pos hi]
  | cons r pre ih =>
    obtain ⟨k', q⟩ := r
    rw [capacity, map_cons, sum_cons, ← capacity, cons_append, forestLeaf]
    dsimp only
    rw [if_neg (by omega), show width blockSize ^ k' + capacity blockSize pre + i - width blockSize ^ k' =
      capacity blockSize pre + i by omega]
    exact ih

/-- The tree behind some others has its part of the leaves in use. -/
theorem ForestDense.behind : ∀ (pre : List (Nat × Nat)) {n : Nat},
    ForestDense blockSize m (pre ++ (k, p) :: post) n →
      Dense blockSize m k p (min (width blockSize ^ k) (n - capacity blockSize pre)) := by
  intro pre
  induction pre with
  | nil =>
    intro n h
    simpa [capacity] using h.1
  | cons r pre ih =>
    intro n h
    have := ih h.2
    rwa [Nat.sub_sub] at this

/-- The blocks of several trees are their tables and their leaves. -/
theorem forestReach_perm (hwidth : 0 < width blockSize) (h : ForestDense blockSize m roots n) :
    (forestReach blockSize m roots).Perm
      (forestTables blockSize m roots ++ (range n).map (forestLeaf blockSize m roots)) := by
  induction roots generalizing n with
  | nil =>
    obtain rfl : n = 0 := h
    exact List.Perm.refl _
  | cons r roots ih =>
    obtain ⟨k, p⟩ := r
    have hhead := reach_perm hwidth h.1 (min_le_left _ _)
    have htail := ih h.2
    have hleaves : (range n).map (forestLeaf blockSize m ((k, p) :: roots)) =
        (range (min (width blockSize ^ k) n)).map (leaf blockSize m k p) ++
          (range (n - width blockSize ^ k)).map (forestLeaf blockSize m roots) := by
      have hn : n = min (width blockSize ^ k) n + (n - width blockSize ^ k) := by omega
      conv_lhs => rw [hn, range_add, map_append, map_map]
      congr 1
      · refine map_congr_left fun i hi => ?_
        have := mem_range.mp hi
        rw [forestLeaf, if_pos (by omega)]
      · refine map_congr_left fun i hi => ?_
        have := mem_range.mp hi
        rw [comp_apply, min_eq_left (by omega), forestLeaf, if_neg (by omega),
          Nat.add_sub_cancel_left]
    rw [hleaves, forestReach, forestTables, flatMap_cons, flatMap_cons]
    refine (hhead.append htail).trans ?_
    rw [append_assoc, append_assoc]
    exact (perm_append_comm_assoc _ _ _).append_left _

/-- The next leaf is in the first tree. -/
theorem ForestGrows.head (hn : n < width blockSize ^ k) (hdense : ForestDense blockSize m roots 0)
    (same : ∀ b ∈ forestTables blockSize m roots, Agree blockSize m m' b)
    (h : Grows blockSize m m' k p p' n new fresh) :
    ForestGrows blockSize m m' ((k, p) :: roots) ((k, p') :: roots) n new fresh := by
  refine ⟨⟨?_, ?_⟩, fun i hi => ?_, ?_, ?_⟩
  · rw [min_eq_right (by omega)]
    exact h.dense
  · rw [Nat.sub_eq_zero_of_le (by omega)]
    exact hdense.congr same
  · rw [forestLeaf, forestLeaf, if_pos (by omega), if_pos (by omega)]
    exact h.old i hi
  · rw [forestLeaf, if_pos hn]
    exact h.new
  · rw [forestReach, forestReach, flatMap_cons, flatMap_cons, ← append_assoc]
    exact h.reach.append (List.Perm.of_eq (forestReach_congr same))

/-- The next leaf is behind the first tree. -/
theorem ForestGrows.tail (hwidth : 0 < width blockSize) (hn : width blockSize ^ k ≤ n)
    (hdense : Dense blockSize m k p (width blockSize ^ k))
    (same : ∀ b ∈ tables blockSize m k p, Agree blockSize m m' b)
    (h : ForestGrows blockSize m m' roots roots' (n - width blockSize ^ k) new fresh) :
    ForestGrows blockSize m m' ((k, p) :: roots) ((k, p) :: roots') n new fresh := by
  refine ⟨⟨?_, ?_⟩, fun i hi => ?_, ?_, ?_⟩
  · rw [min_eq_left (by omega)]
    exact hdense.congr same
  · rw [show n + 1 - width blockSize ^ k = n - width blockSize ^ k + 1 by omega]
    exact h.dense
  · rw [forestLeaf, forestLeaf]
    split
    · exact leaf_congr hwidth hdense le_rfl same (by assumption)
    · exact h.old _ (by omega)
  · rw [forestLeaf, if_neg (by omega)]
    exact h.new
  · rw [forestReach, forestReach, flatMap_cons, flatMap_cons]
    have hhead := reach_congr (k := k) (p := p) same
    rw [show PointerTree.reach blockSize m' (k, p).1 (k, p).2 = PointerTree.reach blockSize m k p from hhead]
    exact (h.reach.append_left _).trans (perm_append_comm_assoc _ _ _)

/-- The next leaf is in the tree behind some others. -/
theorem ForestGrows.behind (hwidth : 0 < width blockSize)
    (h : Grows blockSize m m' k p p' i new fresh) (hi : i < width blockSize ^ k) :
    ∀ (pre : List (Nat × Nat)) {n : Nat}, n = capacity blockSize pre + i →
      ForestDense blockSize m (pre ++ (k, p) :: post) n →
      (∀ b ∈ forestTables blockSize m pre, Agree blockSize m m' b) →
      (∀ b ∈ forestTables blockSize m post, Agree blockSize m m' b) →
      ForestGrows blockSize m m' (pre ++ (k, p) :: post) (pre ++ (k, p') :: post) n new fresh := by
  intro pre
  induction pre with
  | nil =>
    intro n hn hdense _ hpost
    obtain rfl : n = i := by simpa [capacity] using hn
    refine ForestGrows.head hi ?_ hpost h
    have := hdense.2
    rwa [Nat.sub_eq_zero_of_le hi.le] at this
  | cons r pre ih =>
    intro n hn hdense hpre hpost
    obtain ⟨k', q⟩ := r
    rw [capacity, map_cons, sum_cons, ← capacity] at hn
    dsimp only at hn
    have hfull := hdense.1
    rw [min_eq_left (by omega)] at hfull
    refine ForestGrows.tail hwidth (by omega) hfull (fun b hb => hpre b (mem_append_left _ hb)) ?_
    exact ih (by omega) hdense.2 (fun b hb => hpre b (mem_append_right _ hb)) hpost

end

end Stos.PointerTree
