import Mathlib

/-!
# Counted sharing

A finite set of slots, each of which may refer to a target. `refsTo` counts the slots that
refer to one target. `Shared` ties a table of reference counts to the slots: counts are
exact up to a cap at which they saturate, and a target with two references is only referred
to through entries that are locked (nobody may change the target through them). The lemmas
are the moves of copy on write: filling a slot with a new target, sharing the target of a
slot, moving a slot to a private target, dropping a slot.
-/

namespace Stos

open Finset Option Function

variable {σ τ : Type} {y : σ}

section Targets

variable {ε : Type} {target : ε → τ} {c c' : σ → Option ε} {e : ε} {x : σ} {p : τ}

/-- The targets of the entries that the slots hold. -/
def targets (target : ε → τ) (c : σ → Option ε) : σ → Option τ := fun x => (c x).map target

theorem targets_eq_some (h : c x = some e) : targets target c x = some (target e) := by
  rw [targets, h, map_some]

theorem targets_eq_none (h : c x = none) : targets target c x = none := by
  rw [targets, h, map_none]

theorem targets_congr (h : c' x = c x) : targets target c' x = targets target c x := by
  rw [targets, targets, h]

theorem exists_of_targets (h : targets target c x = some p) :
    ∃ e, c x = some e ∧ target e = p := map_eq_some_iff.mp h

/-- The entries after slot `x` has been written. -/
theorem eq_some_of_overwrite {slots : Finset σ} {f : ε} (hcx : c' x = some e)
    (hc : ∀ y ∈ slots, y ≠ x → c' y = c y) (hy : y ∈ slots) (hf : c' y = some f) :
    y = x ∧ f = e ∨ y ≠ x ∧ c y = some f := by
  by_cases hyx : y = x
  · rw [hyx, hcx] at hf
    exact .inl ⟨hyx, (some.inj hf).symm⟩
  · exact .inr ⟨hyx, (hc y hy hyx).symm.trans hf⟩

end Targets

variable [DecidableEq τ]

/-- The number of slots of `slots` whose content names `p`. -/
def refsTo (slots : Finset σ) (content : σ → Option τ) (p : τ) : Nat :=
  (slots.filter fun x => content x = some p).card

variable {slots : Finset σ} {content content' : σ → Option τ} {p : τ} {x : σ}

theorem refsTo_congr (h : ∀ y ∈ slots, content' y = content y) :
    refsTo slots content' p = refsTo slots content p := by
  unfold refsTo
  congr 1
  exact filter_congr fun y hy => by rw [h y hy]

theorem refsTo_pos_iff : 0 < refsTo slots content p ↔ ∃ y ∈ slots, content y = some p := by
  unfold refsTo
  rw [card_pos]
  constructor
  · rintro ⟨y, hy⟩
    exact ⟨y, (mem_filter.mp hy).1, (mem_filter.mp hy).2⟩
  · rintro ⟨y, hy, h⟩
    exact ⟨y, mem_filter.mpr ⟨hy, h⟩⟩

theorem refsTo_eq_zero (h : ∀ y ∈ slots, content y ≠ some p) : refsTo slots content p = 0 := by
  by_contra hne
  obtain ⟨y, hy, hc⟩ := refsTo_pos_iff.mp (Nat.pos_of_ne_zero hne)
  exact h y hy hc

variable [DecidableEq σ]

/-- A slot that is dropped takes its reference with it. -/
theorem refsTo_erase (content : σ → Option τ) (p : τ) (hx : x ∈ slots) :
    refsTo slots content p =
      refsTo (slots.erase x) content p + if content x = some p then 1 else 0 := by
  unfold refsTo
  rw [filter_erase]
  split
  next h =>
    have hmem : x ∈ slots.filter fun y => content y = some p := mem_filter.mpr ⟨hx, h⟩
    have hpos := card_pos.mpr ⟨x, hmem⟩
    rw [card_erase_of_mem hmem]
    omega
  next h =>
    have hmem : x ∉ slots.filter fun y => content y = some p := fun hm =>
      h (mem_filter.mp hm).2
    rw [erase_eq_of_notMem hmem]
    rfl

/-- Overwriting slot `x`. -/
theorem refsTo_overwrite (p : τ) (hx : x ∈ slots)
    (h : ∀ y ∈ slots, y ≠ x → content' y = content y) :
    refsTo slots content' p + (if content x = some p then 1 else 0) =
      refsTo slots content p + if content' x = some p then 1 else 0 := by
  have hrest : refsTo (slots.erase x) content' p = refsTo (slots.erase x) content p :=
    refsTo_congr fun y hy => h y (mem_of_mem_erase hy) (ne_of_mem_erase hy)
  rw [refsTo_erase content' p hx, refsTo_erase content p hx, hrest]
  omega

/-- Two slots that refer to one target. -/
theorem two_le_refsTo (hx : x ∈ slots) (hy : y ∈ slots) (hne : x ≠ y) (hcx : content x = some p)
    (hcy : content y = some p) : 2 ≤ refsTo slots content p := by
  have hsub : ({x, y} : Finset σ) ⊆ slots.filter fun z => content z = some p := by
    intro z hz
    rcases mem_insert.mp hz with rfl | hz
    · exact mem_filter.mpr ⟨hx, hcx⟩
    · rw [mem_singleton.mp hz]
      exact mem_filter.mpr ⟨hy, hcy⟩
  have := card_le_card hsub
  rwa [card_pair hne] at this

omit [DecidableEq σ] in
theorem exists_other_of_two_le (x : σ) (h : 2 ≤ refsTo slots content p) :
    ∃ y ∈ slots, y ≠ x ∧ content y = some p := by
  obtain ⟨y, hy, hne⟩ := exists_mem_ne h x
  exact ⟨y, (mem_filter.mp hy).1, hne, (mem_filter.mp hy).2⟩

/-! ## Saturating counts and locked entries -/

section Shared

variable {ε : Type} {target : ε → τ} {locked : ε → Prop} {cap : Nat} {c c' : σ → Option ε}
  {refs refs' : τ → Nat} {e e' : ε} {y : σ} {slots' : Finset σ}

/-- Empty slots do not count. -/
theorem refsTo_restrict (hsub : slots' ⊆ slots) (hempty : ∀ x ∈ slots, x ∉ slots' → c x = none) :
    refsTo slots (targets target c) p = refsTo slots' (targets target c) p := by
  unfold refsTo
  congr 1
  apply Finset.Subset.antisymm
  · intro y hy
    obtain ⟨hy, hp⟩ := mem_filter.mp hy
    refine mem_filter.mpr ⟨?_, hp⟩
    by_contra hn
    rw [targets_eq_none (hempty y hy hn)] at hp
    cases hp
  · exact filter_subset_filter _ hsub

/-- `refs` counts the slots that refer to a target, up to `cap`, and a target with more than
one reference has locked entries only. -/
structure Shared (target : ε → τ) (locked : ε → Prop) (cap : Nat) (slots : Finset σ)
    (c : σ → Option ε) (refs : τ → Nat) : Prop where
  counted : ∀ x ∈ slots, ∀ e, c x = some e →
    refs (target e) = min (refsTo slots (targets target c) (target e)) cap
  locked : ∀ x ∈ slots, ∀ y ∈ slots, ∀ e f, x ≠ y → c x = some e → c y = some f →
    target e = target f → locked e

namespace Shared

variable (h : Shared target locked cap slots c refs)

include h

omit [DecidableEq σ] in
theorem congr (hc : ∀ x ∈ slots, c' x = c x)
    (hrefs : ∀ x ∈ slots, ∀ e, c x = some e → refs' (target e) = refs (target e)) :
    Shared target locked cap slots c' refs' := by
  constructor
  · intro x hx e he
    rw [hc x hx] at he
    rw [hrefs x hx e he, h.counted x hx e he,
      refsTo_congr fun y hy => targets_congr (hc y hy)]
  · intro x hx y hy e f hne he hf
    rw [hc x hx] at he
    rw [hc y hy] at hf
    exact h.locked x hx y hy e f hne he hf

omit [DecidableEq σ] in
/-- Targets of entries have a positive count. -/
theorem refs_pos (hx : x ∈ slots) (hcx : c x = some e) (hcap : 1 ≤ cap) : 0 < refs (target e) := by
  have hpos : 0 < refsTo slots (targets target c) (target e) :=
    refsTo_pos_iff.mpr ⟨x, hx, targets_eq_some hcx⟩
  rw [h.counted x hx e hcx]
  omega

/-- More slots, all of them empty. -/
theorem extend (hsub : slots ⊆ slots') (hnew : ∀ x ∈ slots', x ∉ slots → c x = none) :
    Shared target locked cap slots' c refs := by
  have old : ∀ x ∈ slots', ∀ e, c x = some e → x ∈ slots := by
    intro x hx e he
    by_contra hn
    rw [hnew x hx hn] at he
    cases he
  constructor
  · intro x hx e he
    rw [h.counted x (old x hx e he) e he, refsTo_restrict hsub hnew]
  · intro x hx y hy e f hne he hf
    exact h.locked x (old x hx e he) y (old y hy f hf) e f hne he hf

omit [DecidableEq σ] in
/-- A slot gets an entry for a target to which no other slot refers. -/
theorem locked_overwrite (hcx' : c' x = some e') (hc : ∀ y ∈ slots, y ≠ x → c' y = c y)
    (halone : ∀ y ∈ slots, y ≠ x → ∀ f, c y = some f → target f ≠ target e') :
    ∀ y ∈ slots, ∀ z ∈ slots, ∀ f g, y ≠ z → c' y = some f → c' z = some g → target f = target g →
      locked f := by
  intro y hy z hz f g hne hf hg htarget
  rcases eq_some_of_overwrite hcx' hc hy hf with ⟨rfl, rfl⟩ | ⟨hyx, hf⟩
  · rw [hc z hz hne.symm] at hg
    exact absurd htarget.symm (halone z hz hne.symm g hg)
  · rcases eq_some_of_overwrite hcx' hc hz hg with ⟨rfl, rfl⟩ | ⟨-, hg⟩
    · exact absurd htarget (halone y hy hyx f hf)
    · exact h.locked y hy z hz f g hne hf hg htarget

/-- An empty slot is filled with an entry for a target that had no reference. -/
theorem fill (hx : x ∈ slots) (hcx : c x = none) (hcx' : c' x = some e)
    (hc : ∀ y ∈ slots, y ≠ x → c' y = c y)
    (hnew : ∀ y ∈ slots, ∀ f, c y = some f → target f ≠ target e) (hcap : 1 ≤ cap)
    (hone : refs' (target e) = 1)
    (hrefs : ∀ y ∈ slots, ∀ f, c y = some f → refs' (target f) = refs (target f)) :
    Shared target locked cap slots c' refs' := by
  have count : ∀ p, refsTo slots (targets target c') p =
      refsTo slots (targets target c) p + if target e = p then 1 else 0 := by
    intro p
    have := refsTo_overwrite p hx fun y hy hne => (targets_congr (hc y hy hne) : targets target c' y = targets target c y)
    rw [targets_eq_none hcx, targets_eq_some hcx'] at this
    simpa using this
  have none : refsTo slots (targets target c) (target e) = 0 := by
    apply refsTo_eq_zero
    intro y hy he
    obtain ⟨f, hf, htarget⟩ := exists_of_targets he
    exact hnew y hy f hf htarget
  constructor
  · intro y hy f hf
    rcases eq_some_of_overwrite hcx' hc hy hf with ⟨rfl, rfl⟩ | ⟨-, hf⟩
    · rw [count, none, if_pos rfl, hone]
      omega
    · rw [count, if_neg (hnew y hy f hf).symm, hrefs y hy f hf, h.counted y hy f hf, Nat.add_zero]
  · exact h.locked_overwrite hcx' hc fun y hy _ => hnew y hy

/-- A slot is dropped. -/
theorem drop (hx : x ∈ slots) (hcx : c x = some e) (hsat : refs (target e) < cap)
    (hone : refs' (target e) + 1 = refs (target e))
    (hrefs : ∀ y ∈ slots, ∀ f, c y = some f → target f ≠ target e → refs' (target f) = refs (target f)) :
    Shared target locked cap (slots.erase x) c refs' := by
  constructor
  · intro y hy f hf
    have hy := mem_of_mem_erase hy
    have count := refsTo_erase (targets target c) (target f) hx
    rw [targets_eq_some hcx] at count
    have hf' := h.counted y hy f hf
    by_cases htarget : target f = target e
    · rw [htarget] at hf' count ⊢
      rw [if_pos rfl] at count
      omega
    · rw [if_neg fun he => htarget (some.inj he).symm] at count
      rw [hrefs y hy f hf htarget, hf', count, Nat.add_zero]
  · intro y hy z hz
    exact h.locked y (mem_of_mem_erase hy) z (mem_of_mem_erase hz)

/-- Empty slots are dropped. -/
theorem restrict (hsub : slots' ⊆ slots) (hempty : ∀ x ∈ slots, x ∉ slots' → c x = none) :
    Shared target locked cap slots' c refs := by
  constructor
  · intro x hx e he
    rw [h.counted x (hsub hx) e he, refsTo_restrict hsub hempty]
  · intro x hx y hy
    exact h.locked x (hsub hx) y (hsub hy)

/-- A count of one means that no other slot refers to the target. -/
theorem refs_eq_one_iff (hx : x ∈ slots) (hcx : c x = some e) (hsat : refs (target e) < cap) :
    refs (target e) = 1 ↔ ∀ y ∈ slots, y ≠ x → ∀ f, c y = some f → target f ≠ target e := by
  have count := refsTo_erase (targets target c) (target e) hx
  rw [targets_eq_some hcx, if_pos rfl] at count
  have hcounted := h.counted x hx e hcx
  constructor
  · intro hz y hy hne f hf htarget
    have : 0 < refsTo (slots.erase x) (targets target c) (target e) :=
      refsTo_pos_iff.mpr ⟨y, mem_erase.mpr ⟨hne, hy⟩, htarget ▸ targets_eq_some hf⟩
    omega
  · intro hlast
    have : refsTo (slots.erase x) (targets target c) (target e) = 0 := by
      apply refsTo_eq_zero
      intro y hy he
      obtain ⟨f, hf, htarget⟩ := exists_of_targets he
      exact hlast y (mem_of_mem_erase hy) (ne_of_mem_erase hy) f hf htarget
    omega

/-- The target of slot `x` is shared with the empty slot `y`. -/
theorem share (hx : x ∈ slots) (hy : y ∈ slots) (hcx : c x = some e) (hcy : c y = none) {e1 e2 : ε}
    (hcx' : c' x = some e1) (hcy' : c' y = some e2) (ht1 : target e1 = target e)
    (ht2 : target e2 = target e) (hl1 : locked e1) (hl2 : locked e2)
    (hc : ∀ z ∈ slots, z ≠ x → z ≠ y → c' z = c z)
    (hone : refs' (target e) = min (refs (target e) + 1) cap)
    (hrefs : ∀ z ∈ slots, ∀ f, c z = some f → target f ≠ target e → refs' (target f) = refs (target f)) :
    Shared target locked cap slots c' refs' := by
  -- an entry of the new state is locked, or it is an entry of the old state for another target
  have entry : ∀ z ∈ slots, ∀ f, c' z = some f →
      locked f ∧ target f = target e ∨ c z = some f ∧ z ≠ x ∧ z ≠ y := by
    intro z hz f hf
    by_cases hzx : z = x
    · subst hzx
      obtain rfl := some.inj (hcx'.symm.trans hf)
      exact .inl ⟨hl1, ht1⟩
    by_cases hzy : z = y
    · subst hzy
      obtain rfl := some.inj (hcy'.symm.trans hf)
      exact .inl ⟨hl2, ht2⟩
    · rw [hc z hz hzx hzy] at hf
      exact .inr ⟨hf, hzx, hzy⟩
  have count : ∀ p, refsTo slots (targets target c') p =
      refsTo slots (targets target c) p + if target e = p then 1 else 0 := by
    intro p
    have hsame : ∀ z ∈ slots, z ≠ y → targets target c' z = targets target c z := by
      intro z hz hzy
      by_cases hzx : z = x
      · subst hzx
        rw [targets_eq_some hcx', targets_eq_some hcx, ht1]
      · exact targets_congr (hc z hz hzx hzy)
    have := refsTo_overwrite p hy hsame
    rw [targets_eq_none hcy, targets_eq_some hcy', ht2] at this
    simpa using this
  have hcounted := h.counted x hx e hcx
  constructor
  · intro z hz f hf
    rw [count]
    by_cases htarget : target f = target e
    · rw [htarget, hone, hcounted, if_pos rfl]
      omega
    · rcases entry z hz f hf with ⟨-, ht⟩ | ⟨hf', -, -⟩
      · exact absurd ht htarget
      · rw [if_neg (Ne.symm htarget), hrefs z hz f hf' htarget, h.counted z hz f hf', Nat.add_zero]
  · intro z hz w hw f g hne hf hg htarget
    rcases entry z hz f hf with ⟨hl, -⟩ | ⟨hf', hzx, hzy⟩
    · exact hl
    · rcases entry w hw g hg with ⟨-, ht⟩ | ⟨hg', -, -⟩
      · exact h.locked z hz x hx f e hzx hf' hcx (htarget.trans ht)
      · exact h.locked z hz w hw f g hne hf' hg' htarget

/-- Slot `x` leaves its target for one that had no reference. -/
theorem move (hx : x ∈ slots) (hcx : c x = some e) (hcx' : c' x = some e')
    (hc : ∀ y ∈ slots, y ≠ x → c' y = c y)
    (hnew : ∀ y ∈ slots, ∀ f, c y = some f → target f ≠ target e') (hcap : 1 ≤ cap)
    (hsat : refs (target e) < cap) (hone : refs' (target e) + 1 = refs (target e))
    (hone' : refs' (target e') = 1)
    (hrefs : ∀ y ∈ slots, ∀ f, c y = some f → target f ≠ target e → refs' (target f) = refs (target f)) :
    Shared target locked cap slots c' refs' := by
  -- the slot is dropped and then filled again
  have hdrop := h.drop hx hcx hsat hone hrefs
  have hempty : Shared target locked cap slots (update c x none) refs' := by
    have hrest : ∀ y ∈ slots.erase x, update c x none y = c y := fun y hy =>
      update_of_ne (ne_of_mem_erase hy) _ _
    refine (hdrop.congr hrest fun _ _ _ _ => rfl).extend (erase_subset _ _) ?_
    intro y hy hn
    have : y = x := by
      by_contra hne
      exact hn (mem_erase.mpr ⟨hne, hy⟩)
    rw [this, update_self]
  have old : ∀ y ∈ slots, ∀ f, update c x none y = some f → c y = some f := by
    intro y hy f hf
    by_cases hyx : y = x
    · rw [hyx, update_self] at hf
      cases hf
    · rwa [update_of_ne hyx] at hf
  refine hempty.fill hx (update_self _ _ _) hcx' ?_ ?_ hcap hone' fun _ _ _ _ => rfl
  · intro y hy hne
    rw [hc y hy hne, update_of_ne hne]
  · intro y hy f hf
    exact hnew y hy f (old y hy f hf)

/-- The entry of a slot that shares its target with no other slot is changed. -/
theorem amend (hx : x ∈ slots) (hcx : c x = some e) (hcx' : c' x = some e')
    (htarget : target e' = target e) (hc : ∀ y ∈ slots, y ≠ x → c' y = c y)
    (halone : ∀ y ∈ slots, y ≠ x → ∀ f, c y = some f → target f ≠ target e) :
    Shared target locked cap slots c' refs := by
  have hsame : ∀ y ∈ slots, targets target c' y = targets target c y := by
    intro y hy
    by_cases hyx : y = x
    · rw [hyx, targets_eq_some hcx, targets_eq_some hcx', htarget]
    · exact targets_congr (hc y hy hyx)
  constructor
  · intro y hy f hf
    rw [refsTo_congr hsame]
    rcases eq_some_of_overwrite hcx' hc hy hf with ⟨rfl, rfl⟩ | ⟨-, hf⟩
    · rw [htarget]
      exact h.counted _ hy _ hcx
    · exact h.counted y hy f hf
  · exact h.locked_overwrite hcx' hc (htarget ▸ halone)

end Shared

end Shared

end Stos
