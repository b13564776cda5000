import Mathlib

/-!
# Intrusive doubly linked lists

Nodes carry a `next` and a `prev` link and a list is named by its first node, with a null
node `nil` for the empty list. `Linked` ties the links to the Lean list of the nodes.
The updates, inserting at either end and unlinking a node, are stated for any links that
agree with the stores of the C code on the nodes of the list, so that they apply to links
kept in bytes of memory as well as to links kept in a table.
-/

namespace Stos

open List Nat

variable {α : Type} {n : Nat}

/-- Following `next` from `head` visits exactly `xs` and ends in `nil`; the `prev` link of
each node is the node before it, and that of the first is `before`. -/
def Linked (nil : α) (next prev : α → α) : α → α → List α → Prop
  | _, head, [] => head = nil
  | before, head, x :: xs =>
      head = x ∧ x ≠ nil ∧ prev x = before ∧ Linked nil next prev x (next x) xs

/-- A whole list: the first node has no predecessor and no node occurs twice. -/
structure IsDll (nil : α) (next prev : α → α) (head : α) (xs : List α) : Prop where
  linked : Linked nil next prev nil head xs
  nodup : xs.Nodup

/-- The last node of the list from a node on; `none` if the end is not reached within `n`
nodes. -/
def dllLast [DecidableEq α] (nil : α) (next : α → α) : Nat → α → Option α
  | 0, _ => none
  | n + 1, x => if next x = nil then some x else dllLast nil next n (next x)

/-- The nodes of the list from a node on, at most `n` of them. -/
def dllNodes [DecidableEq α] (nil : α) (next : α → α) : Nat → α → List α
  | 0, _ => []
  | n + 1, x => if x = nil then [] else x :: dllNodes nil next n (next x)

/-- The first node from a node on that meets `p`, or `nil`; `none` if the end is not reached within
`n` nodes. -/
def dllFind [DecidableEq α] (nil : α) (next : α → α) (p : α → Bool) : Nat → α → Option α
  | 0, _ => none
  | n + 1, x =>
    if x = nil then some nil else if p x then some x else dllFind nil next p n (next x)

variable {nil : α} {next prev next' prev' : α → α} {before head x y : α} {xs : List α}

theorem dllNodes_length_le [DecidableEq α] (nil : α) (next : α → α) (n : Nat) (x : α) :
    (dllNodes nil next n x).length ≤ n := by
  induction n generalizing x with
  | zero => exact Nat.le_refl 0
  | succ n ih =>
    rw [dllNodes]
    split
    · exact zero_le _
    · exact succ_le_succ (ih _)

namespace Linked

section

theorem next_append {p : List α} (h : Linked nil next prev before head (p ++ x :: xs)) :
    next x = xs.headD nil := by
  induction p generalizing before head with
  | nil =>
    obtain ⟨-, -, -, hrest⟩ := h
    cases xs with
    | nil => exact hrest
    | cons y ys => exact hrest.1
  | cons z p ih => exact ih h.2.2.2

variable (h : Linked nil next prev before head xs)

include h

theorem ne_nil (hx : x ∈ xs) : x ≠ nil := by
  induction xs generalizing before head with
  | nil => simp at hx
  | cons z zs ih =>
    obtain ⟨-, hz, -, hrest⟩ := h
    rcases mem_cons.mp hx with rfl | hx
    · exact hz
    · exact ih hrest hx

theorem congr (hnext : ∀ y ∈ xs, next' y = next y) (hprev : ∀ y ∈ xs, prev' y = prev y) :
    Linked nil next' prev' before head xs := by
  induction xs generalizing before head with
  | nil => exact h
  | cons z zs ih =>
    obtain ⟨hhead, hz, hback, hrest⟩ := h
    refine ⟨hhead, hz, (hprev z (by simp)).trans hback, ?_⟩
    rw [hnext z (by simp)]
    exact ih hrest (fun y hy => hnext y (by simp [hy])) fun y hy => hprev y (by simp [hy])

theorem head_eq_nil_iff : head = nil ↔ xs = [] := by
  cases xs with
  | nil => simpa [Linked] using h
  | cons z zs =>
    obtain ⟨rfl, hz, -, -⟩ := h
    simp [hz]

theorem next_mem (hy : y ∈ xs) : next y = nil ∨ next y ∈ xs.tail := by
  induction xs generalizing before head with
  | nil => simp at hy
  | cons z zs ih =>
    obtain ⟨-, -, -, hrest⟩ := h
    rcases mem_cons.mp hy with rfl | hy
    · cases zs with
      | nil => exact .inl hrest
      | cons w ws => exact .inr (by simp [hrest.1])
    · rcases ih hrest hy with hn | hn
      · exact .inl hn
      · exact .inr (mem_of_mem_tail hn)

/-- No node is linked to a node that the list does not have behind its head. -/
theorem next_ne (hxn : x ≠ nil) (hx : x ∉ xs.tail) (hy : y ∈ xs) : next y ≠ x := by
  rintro rfl
  exact (next_mem h hy).elim hxn hx

theorem prev_mem (hx : x ∈ xs) : prev x = before ∨ prev x ∈ xs := by
  induction xs generalizing before head with
  | nil => simp at hx
  | cons z zs ih =>
    obtain ⟨-, -, hback, hrest⟩ := h
    rcases mem_cons.mp hx with rfl | hx
    · exact .inl hback
    · rcases ih hrest hx with hp | hp
      · exact .inr (by simp [hp])
      · exact .inr (mem_cons_of_mem _ hp)

theorem prev_eq_before_iff (nd : xs.Nodup) (hb : before ∉ xs) (hx : x ∈ xs) :
    prev x = before ↔ head = x := by
  cases xs with
  | nil => simp at hx
  | cons z zs =>
    obtain ⟨rfl, -, hback, hrest⟩ := h
    obtain ⟨hz, -⟩ := nodup_cons.mp nd
    rcases mem_cons.mp hx with rfl | hx
    · simp [hback]
    · have hne : head ≠ x := fun e => hz (e ▸ hx)
      have hpx : prev x ∈ head :: zs := by
        rcases prev_mem hrest hx with hp | hp
        · simp [hp]
        · simp [hp]
      exact ⟨fun e => absurd (e ▸ hpx) hb, fun e => absurd e hne⟩

/-- The two link fields are inverse to each other along the list. -/
theorem next_eq_iff (nd : xs.Nodup) (hb : before ∉ xs) (hx : x ∈ xs) (hy : y ∈ xs) :
    next y = x ↔ prev x = y := by
  induction xs generalizing before head with
  | nil => simp at hx
  | cons z zs ih =>
    have hwhole := h
    obtain ⟨rfl, hz, hback, hrest⟩ := h
    obtain ⟨hzs, nds⟩ := nodup_cons.mp nd
    rcases mem_cons.mp hx with rfl | hxs
    · -- the first node has no predecessor in the list
      have hnext : next y ≠ x := next_ne hwhole hz hzs hy
      have hprev : prev x ≠ y := fun e => hb (by rw [← hback, e]; exact hy)
      exact ⟨fun e => absurd e hnext, fun e => absurd e hprev⟩
    · rcases mem_cons.mp hy with rfl | hy
      · exact (prev_eq_before_iff hrest nds hzs hxs).symm
      · exact ih hrest nds hzs hxs hy

theorem next_ne_self (nd : xs.Nodup) (hx : x ∈ xs) : next x ≠ x := by
  induction xs generalizing before head with
  | nil => simp at hx
  | cons z zs ih =>
    obtain ⟨hzs, nds⟩ := nodup_cons.mp nd
    rcases mem_cons.mp hx with rfl | hx
    · exact next_ne h h.2.1 hzs mem_cons_self
    · exact ih h.2.2.2 nds hx

/-- Every node is reached from the head without passing the null node. -/
theorem reach (hx : x ∈ xs) : ∃ n, next^[n] head = x ∧ ∀ i ≤ n, next^[i] head ≠ nil := by
  induction xs generalizing before head with
  | nil => simp at hx
  | cons z zs ih =>
    obtain ⟨rfl, hz, -, hrest⟩ := h
    rcases mem_cons.mp hx with rfl | hx
    · refine ⟨0, rfl, fun i hi => ?_⟩
      rw [le_zero.mp hi]
      exact hz
    · obtain ⟨n, hn, hne⟩ := ih hrest hx
      refine ⟨n + 1, hn, fun i hi => ?_⟩
      cases i with
      | zero => exact hz
      | succ i => exact hne i (le_of_succ_le_succ hi)

theorem dllLast_eq [DecidableEq α] (hne : xs ≠ []) (hn : xs.length ≤ n) :
    dllLast nil next n head = some (xs.getLast hne) := by
  induction xs generalizing before head n with
  | nil => exact absurd rfl hne
  | cons z zs ih =>
    obtain ⟨rfl, -, -, hrest⟩ := h
    cases n with
    | zero => simp at hn
    | succ n =>
      unfold dllLast
      by_cases hzs : zs = []
      · subst hzs
        exact if_pos hrest
      · rw [if_neg fun e => hzs (hrest.head_eq_nil_iff.mp e), getLast_cons hzs]
        exact ih hrest hzs (by simpa using hn)

theorem dllNodes_eq [DecidableEq α] (hn : xs.length ≤ n) : dllNodes nil next n head = xs := by
  induction xs generalizing before head n with
  | nil =>
    cases n with
    | zero => rfl
    | succ n => exact if_pos h
  | cons z zs ih =>
    obtain ⟨rfl, hz, -, hrest⟩ := h
    cases n with
    | zero => simp at hn
    | succ n =>
      rw [dllNodes, if_neg hz, ih hrest (by simpa using hn)]

theorem dllFind_eq [DecidableEq α] (p : α → Bool) (hn : xs.length < n) :
    dllFind nil next p n head = some ((xs.find? p).getD nil) := by
  induction xs generalizing before head n with
  | nil =>
    cases n with
    | zero => simp at hn
    | succ n => exact if_pos h
  | cons z zs ih =>
    obtain ⟨rfl, hz, -, hrest⟩ := h
    cases n with
    | zero => simp at hn
    | succ n =>
      rw [dllFind, if_neg hz]
      by_cases hp : p head = true
      · rw [if_pos hp, find?_cons_of_pos hp]
        rfl
      · rw [if_neg hp, find?_cons_of_neg hp]
        exact ih hrest (by simpa using hn)

/-- Linking `x` behind the last node, which is `before` if there is none. -/
theorem append [DecidableEq α] (nd : xs.Nodup) (hx : x ∉ xs) (hxn : x ≠ nil) (hnx : next' x = nil)
    (hpx : prev' x = xs.getLastD before)
    (hnext : ∀ y ∈ xs, next' y = if xs.getLast? = some y then x else next y)
    (hprev : ∀ y ∈ xs, prev' y = prev y) :
    Linked nil next' prev' before (if xs = [] then x else head) (xs ++ [x]) := by
  induction xs generalizing before head with
  | nil => exact ⟨rfl, hxn, hpx, hnx⟩
  | cons z zs ih =>
    obtain ⟨rfl, hz, hback, hrest⟩ := h
    obtain ⟨hzs, nds⟩ := nodup_cons.mp nd
    refine ⟨rfl, hz, (hprev head (by simp)).trans hback, ?_⟩
    have hhead : next' head = if zs = [] then x else next head := by
      rw [hnext head (by simp)]
      cases zs with
      | nil => simp
      | cons w ws =>
        have hlast : (head :: w :: ws).getLast? ≠ some head := by
          exact fun e => hzs (mem_of_getLast? e)
        rw [if_neg hlast, if_neg (by simp)]
    rw [hhead]
    refine ih hrest nds (fun hm => hx (by simp [hm])) ?_ (fun y hy => ?_)
      fun y hy => hprev y (by simp [hy])
    · rw [hpx, getLastD_cons]
    · rw [hnext y (by simp [hy])]
      cases zs with
      | nil => simp at hy
      | cons w ws => rw [getLast?_cons_cons]

/-- Unlinking `x`: its predecessor is linked to its successor and the other way round. -/
theorem remove [DecidableEq α] (nd : xs.Nodup) (hx : x ∈ xs)
    (hnext : ∀ y ∈ xs, y ≠ x → next' y = if next y = x then next x else next y)
    (hprev : ∀ y ∈ xs, y ≠ x → prev' y = if prev y = x then prev x else prev y) (hb : before ≠ x) :
    Linked nil next' prev' before (if head = x then next x else head) (xs.erase x) := by
  induction xs generalizing before head with
  | nil => simp at hx
  | cons z zs ih =>
    obtain ⟨rfl, hz, hback, hrest⟩ := h
    obtain ⟨hzs, nds⟩ := nodup_cons.mp nd
    by_cases hzx : head = x
    · subst hzx
      rw [if_pos rfl, erase_cons_head]
      cases zs with
      | nil => exact hrest
      | cons w ws =>
        -- beyond `w` no link mentions the removed node
        have hapart : ∀ y ∈ w :: ws, y ≠ head := fun y hy e => hzs (e ▸ hy)
        have hsame : ∀ y ∈ w :: ws, next' y = next y := fun y hy => by
          rw [hnext y (mem_cons_of_mem _ hy) (hapart y hy), if_neg]
          exact next_ne hrest hz (fun hm => hzs (mem_of_mem_tail hm)) hy
        obtain ⟨hw, hwn, hwb, hws⟩ := hrest
        have hwz : w ≠ head := hapart w (by simp)
        refine ⟨hw, hwn, ?_, ?_⟩
        · rw [hprev w (by simp) hwz, if_pos hwb, hback]
        · rw [hsame w (by simp)]
          refine hws.congr (fun y hy => hsame y (by simp [hy])) fun y hy => ?_
          rw [hprev y (by simp [hy]) (hapart y (by simp [hy])), if_neg]
          intro e
          rcases prev_mem hws hy with hp | hp
          · exact hwz (hp.symm.trans e)
          · exact hzs (mem_cons_of_mem _ (e ▸ hp))
    · have hxz : x ∈ zs := by
        rcases mem_cons.mp hx with e | hx
        · exact absurd e.symm hzx
        · exact hx
      rw [if_neg hzx, erase_cons_tail (by simpa using hzx)]
      refine ⟨rfl, hz, ?_, ?_⟩
      · rw [hprev head (by simp) hzx, if_neg (by rw [hback]; exact hb), hback]
      · rw [hnext head (by simp) hzx]
        exact ih hrest nds hxz (fun y hy => hnext y (by simp [hy]))
          (fun y hy => hprev y (by simp [hy])) hzx

end

end Linked

namespace IsDll

section

variable (h : IsDll nil next prev head xs) {head' : α}

include h

theorem ne_nil (hx : x ∈ xs) : x ≠ nil := h.linked.ne_nil hx

theorem nil_notMem : nil ∉ xs := fun hn => h.ne_nil hn rfl

theorem congr (hnext : ∀ y ∈ xs, next' y = next y) (hprev : ∀ y ∈ xs, prev' y = prev y) :
    IsDll nil next' prev' head xs :=
  ⟨h.linked.congr hnext hprev, h.nodup⟩

theorem head_eq_nil_iff : head = nil ↔ xs = [] :=
  h.linked.head_eq_nil_iff

theorem head_mem (hne : head ≠ nil) : head ∈ xs := by
  cases xs with
  | nil => exact absurd h.linked hne
  | cons z zs => simp [h.linked.1]

theorem next_mem (hx : x ∈ xs) (hne : next x ≠ nil) : next x ∈ xs := by
  rcases h.linked.next_mem hx with hn | hn
  · exact absurd hn hne
  · exact mem_of_mem_tail hn

theorem prev_mem (hx : x ∈ xs) (hne : prev x ≠ nil) : prev x ∈ xs := by
  rcases h.linked.prev_mem hx with hp | hp
  · exact absurd hp hne
  · exact hp

theorem prev_eq_nil_iff (hx : x ∈ xs) : prev x = nil ↔ head = x :=
  h.linked.prev_eq_before_iff h.nodup h.nil_notMem hx

theorem next_eq_iff (hx : x ∈ xs) (hy : y ∈ xs) : next y = x ↔ prev x = y :=
  h.linked.next_eq_iff h.nodup h.nil_notMem hx hy

theorem next_ne_self (hx : x ∈ xs) : next x ≠ x :=
  h.linked.next_ne_self h.nodup hx

theorem prev_ne_self (hx : x ∈ xs) : prev x ≠ x := fun e =>
  h.next_ne_self hx ((h.next_eq_iff hx hx).mpr e)

/-- Inserting `x` at the head. -/
theorem push [DecidableEq α] (hx : x ∉ xs) (hne : x ≠ nil) (hnx : next' x = head)
    (hpx : prev' x = nil) (hnext : ∀ y ∈ xs, next' y = next y)
    (hprev : ∀ y ∈ xs, prev' y = if y = head then x else prev y) :
    IsDll nil next' prev' x (x :: xs) := by
  refine ⟨⟨rfl, hne, hpx, ?_⟩, nodup_cons.mpr ⟨hx, h.nodup⟩⟩
  rw [hnx]
  obtain ⟨hlinked, hnd⟩ := h
  cases xs with
  | nil => exact hlinked
  | cons z zs =>
    obtain ⟨rfl, hz, -, hrest⟩ := hlinked
    refine ⟨rfl, hz, by rw [hprev head (by simp), if_pos rfl], ?_⟩
    rw [hnext head (by simp)]
    refine hrest.congr (fun y hy => hnext y (by simp [hy])) fun y hy => ?_
    have hyh : y ≠ head := fun e => (nodup_cons.mp hnd).1 (e ▸ hy)
    rw [hprev y (by simp [hy]), if_neg hyh]

theorem dllLast_eq [DecidableEq α] (hne : xs ≠ []) (hn : xs.length ≤ n) :
    dllLast nil next n head = some (xs.getLast hne) :=
  h.linked.dllLast_eq hne hn

/-- Inserting `x` at the end. -/
theorem append [DecidableEq α] (hx : x ∉ xs) (hxn : x ≠ nil)
    (hhead : head' = if xs = [] then x else head) (hnx : next' x = nil)
    (hpx : prev' x = xs.getLastD nil)
    (hnext : ∀ y ∈ xs, next' y = if xs.getLast? = some y then x else next y)
    (hprev : ∀ y ∈ xs, prev' y = prev y) : IsDll nil next' prev' head' (xs ++ [x]) := by
  rw [hhead]
  refine ⟨h.linked.append h.nodup hx hxn hnx hpx hnext hprev, ?_⟩
  rw [nodup_append]
  refine ⟨h.nodup, nodup_singleton x, fun y hy z hz => ?_⟩
  rw [mem_singleton.mp hz]
  exact fun e => hx (e ▸ hy)

/-- Unlinking a node, with the stores the C code makes: the predecessor's `next` (or the
head) and the successor's `prev`. -/
theorem remove [DecidableEq α] (hx : x ∈ xs) (hhead : head' = if prev x = nil then next x else head)
    (hnext : ∀ y ∈ xs, y ≠ x → next' y = if y = prev x then next x else next y)
    (hprev : ∀ y ∈ xs, y ≠ x → prev' y = if y = next x then prev x else prev y) :
    IsDll nil next' prev' head' (xs.erase x) := by
  refine ⟨?_, h.nodup.erase x⟩
  have hhead' : head' = if head = x then next x else head := by
    rw [hhead]
    simp only [h.prev_eq_nil_iff hx]
  rw [hhead']
  refine h.linked.remove h.nodup hx (fun y hy hyx => ?_) (fun y hy hyx => ?_) (h.ne_nil hx).symm
  · rw [hnext y hy hyx]
    simp only [h.next_eq_iff hx hy, eq_comm]
  · rw [hprev y hy hyx]
    simp only [← h.next_eq_iff hy hx, eq_comm]

end

end IsDll

end Stos
