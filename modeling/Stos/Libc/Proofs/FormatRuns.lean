import Stos.Libc.FormatSpec
import Stos.Libc.Proofs.Format
import Stos.Misc.LittleEndian

/-!
# Runs of the formatter

The formatter returns for all output channels, and reads no byte behind the NUL, exactly when the
format is not cut off inside a conversion and every number for `%e` can be scaled
(`formatReturns_iff`). An output buffer of any size gets the beginning of the text that an unlimited
channel gets (`vsnprintf_beginning`).
-/

namespace Stos.Libc

open List Option Int

variable {σ F : Type} {out : Out σ} {env : Env F} {fuel a n k : Nat} {ps : List Piece} {t : CString}
  {s r : Progress σ} {format : NulString} {d : Directive} {o : StrOut}

/-! ## The text of a format -/

/-- The text of a format with its arguments. -/
def textOf (fuel : Nat) (env : Env F) : List Piece → Nat → Option CString
  | [], _ => some []
  | .lit c :: ps, a => (textOf fuel env ps a).map (c :: ·)
  | .conv d :: ps, a => do
    let t ← convText fuel env d a
    let rest ← textOf fuel env ps (nextArg env d a)
    some (t ++ rest)
  | .cut :: _, _ => none

@[simp] theorem stored_out (d : Directive) (s : Progress σ) (a : Nat) : (stored env d s a).out = s.out := by
  unfold stored convertCount
  split
  · split <;> rfl
  · rfl

/-- The channel gets the text, up to the character that it refuses. -/
theorem runPieces_out (out : Out σ) (h : textOf fuel env ps a = some t) (s : Progress σ) :
    ∃ r, runPieces out fuel env ps s a = some r ∧ r.out = (feed out s.out t).1 := by
  induction ps generalizing a t s with
  | nil =>
    obtain rfl := some.inj h
    exact ⟨s, rfl, rfl⟩
  | cons p ps ih =>
    cases p with
    | lit c =>
      obtain ⟨t, ht, rfl⟩ := map_eq_some_iff.mp h
      have fed := emitStr_feed out s [c]
      rw [runPieces, show c :: t = [c] ++ t from rfl, feed_append, ← fed]
      rcases emitStr out s [c] with ⟨s', ok⟩
      cases ok with
      | false => exact ⟨s', rfl, rfl⟩
      | true => exact ih ht s'
    | conv d =>
      obtain ⟨t, ht, h⟩ := bind_eq_some_iff.mp h
      obtain ⟨rest, hrest, h⟩ := bind_eq_some_iff.mp h
      obtain rfl := some.inj h
      have fed := emitStr_feed out (stored env d s a) t
      rw [stored_out] at fed
      rw [runPieces, ht, feed_append, ← fed]
      simp only [bind_eq_bind, bind_some]
      rcases emitStr out (stored env d s a) t with ⟨s', ok⟩
      cases ok with
      | false => exact ⟨s', rfl, rfl⟩
      | true => exact ih hrest s'
    | cut => cases h

/-- A channel that takes every character. -/
def Endless (out : Out σ) : Prop := ∀ o c, (out.emitChar o c).2 = true

theorem Endless.emit (endless : Endless out) (s : Progress σ) (c : BitVec 8) :
    emit out s c = ((emit out s c).1, true) := by
  have taken := endless s.out c
  unfold Libc.emit
  generalize out.emitChar s.out c = e at taken
  obtain ⟨o, ok⟩ := e
  obtain rfl : ok = true := taken
  rfl

theorem Endless.emitStr (endless : Endless out) (s : Progress σ) (t : CString) :
    emitStr out s t = ((emitStr out s t).1, true) := by
  induction t generalizing s with
  | nil => rfl
  | cons c t ih =>
    rw [Libc.emitStr, andThen, endless.emit, if_pos rfl]
    exact ih _

/-- With such a channel the walk ends only if there is a text. -/
theorem Endless.runPieces (endless : Endless out) (h : runPieces out fuel env ps s a = some r) :
    ∃ t, textOf fuel env ps a = some t := by
  induction ps generalizing a s with
  | nil => exact ⟨[], rfl⟩
  | cons p ps ih =>
    cases p with
    | lit c =>
      rw [Libc.runPieces, endless.emitStr] at h
      obtain ⟨t, ht⟩ := ih h
      exact ⟨c :: t, by rw [textOf, ht]; rfl⟩
    | conv d =>
      obtain ⟨t, ht, h⟩ := bind_eq_some_iff.mp h
      rw [endless.emitStr] at h
      obtain ⟨rest, hrest⟩ := ih h
      exact ⟨t ++ rest, by rw [textOf, ht]; simp [hrest]⟩
    | cut => cases h

/-- With such a channel the formatter returns only when it has read the NUL. -/
theorem Endless.formatLoop (endless : Endless out) {i : Nat}
    (h : formatLoop out fuel env format n s a i = some r) : ∃ j, charAt format j = some 0 := by
  induction n generalizing s a i with
  | zero => cases h
  | succ n ih =>
    obtain ⟨c, hc, h⟩ := bind_eq_some_iff.mp h
    by_cases zero : c = 0
    · exact ⟨i, zero ▸ hc⟩
    rw [if_neg zero] at h
    by_cases percent : c ≠ ascii '%'
    · rw [if_pos percent, endless.emit] at h
      exact ih h
    · rw [if_neg percent] at h
      obtain ⟨⟨d, j⟩, hd, h⟩ := bind_eq_some_iff.mp h
      obtain ⟨⟨⟨s', ok'⟩, a'⟩, hconv, h⟩ := bind_eq_some_iff.mp h
      cases ok' with
      | true => exact ih h
      | false =>
        -- the conversion cannot have been stopped
        cases ht : convText fuel env d a with
        | none =>
          rw [convert_none ht] at hconv
          cases hconv
        | some t =>
          obtain ⟨a'', hconv', _⟩ := convert_eq out ht s
          rw [hconv', endless.emitStr] at hconv
          cases hconv

theorem charAt_zero {j : Nat} (h : charAt format j = some 0) : format.chars.length < 2 ^ 31 := by
  unfold charAt at h
  split at h
  case isTrue hj =>
    rcases lt_or_ge j format.chars.length with hlt | hge
    · rw [getElem?_append_left hlt] at h
      exact absurd (mem_of_getElem? h) format.noNul
    · omega
  case isFalse => cases h

/-- What the formatter does for a format that it can index. -/
theorem stdioFormatCore_eq (out : Out σ) (short : format.chars.length < 2 ^ 31) (s : σ) :
    stdioFormatCore out fuel env format s =
      runPieces out fuel env (pieces env format.chars) ⟨s, 0, []⟩ 0 :=
  formatLoop_eq short (At.start format) (Nat.lt_succ_self _) _ 0

theorem Endless.textOf (endless : Endless out) {s : σ}
    (h : stdioFormatCore out fuel env format s = some r) : format.chars.length < 2 ^ 31 ∧
      ∃ t, textOf fuel env (pieces env format.chars) 0 = some t := by
  obtain ⟨j, hj⟩ := endless.formatLoop h
  have short := charAt_zero hj
  rw [stdioFormatCore_eq _ short] at h
  exact ⟨short, endless.runPieces h⟩

/-! ## Scaling -/

/-- `floating >= 10 || floating <= -10` -/
def Doubles.big (D : Doubles F) (x : F) : Bool := D.le (D.ofInt 10) x || D.le x (D.ofInt (-10))

/-- `floating < 1 && floating > -1` -/
def Doubles.small (D : Doubles F) (x : F) : Bool := D.lt x (D.ofInt 1) && D.lt (D.ofInt (-1)) x

/-- What the loops of `%e` rest on in the arithmetic of `double`: zeros stay zero when they are
multiplied and infinities stay infinite when they are divided; every other number becomes small
after finitely many divisions by ten, without becoming zero, and large after finitely many
multiplications. -/
structure DoubleLaws (D : Doubles F) where
  isZero : F → Prop
  isInfinite : F → Prop
  downRank : F → Nat
  upRank : F → Nat
  infinite_div : ∀ x, isInfinite x → D.big x = true ∧ isInfinite (D.div x (D.ofInt 10))
  zero_mul : ∀ x, isZero x → D.big x = false ∧ D.small x = true ∧ isZero (D.mul x (D.ofInt 10))
  down : ∀ x, ¬ isInfinite x → D.big x = true → downRank (D.div x (D.ofInt 10)) < downRank x ∧
    ¬ isInfinite (D.div x (D.ofInt 10)) ∧ ¬ isZero (D.div x (D.ofInt 10))
  up : ∀ x, ¬ isZero x → D.small x = true → upRank (D.mul x (D.ofInt 10)) < upRank x ∧
    ¬ isZero (D.mul x (D.ofInt 10))

section

variable {D : Doubles F} {x : F} {e : Int}

theorem scaleDown_succ (n : Nat) (x : F) (e : Int) : scaleDown D (n + 1) x e =
    if D.big x then scaleDown D n (D.div x (D.ofInt 10)) (e + 1) else some (x, e) := rfl

theorem scaleUp_succ (n : Nat) (x : F) (e : Int) : scaleUp D (n + 1) x e =
    if D.small x then scaleUp D n (D.mul x (D.ofInt 10)) (e - 1) else some (x, e) := rfl

theorem scaleDown_mono {r : F × Int} (h : scaleDown D n x e = some r) (le : n ≤ k) :
    scaleDown D k x e = some r := by
  induction n generalizing k x e with
  | zero => cases h
  | succ n ih =>
    obtain ⟨k, rfl⟩ := Nat.exists_eq_add_of_le' (show 1 ≤ k by omega)
    rw [scaleDown_succ] at h ⊢
    revert h
    split
    · exact (ih · (by omega))
    · exact id

theorem scaleUp_mono {r : F × Int} (h : scaleUp D n x e = some r) (le : n ≤ k) :
    scaleUp D k x e = some r := by
  induction n generalizing k x e with
  | zero => cases h
  | succ n ih =>
    obtain ⟨k, rfl⟩ := Nat.exists_eq_add_of_le' (show 1 ≤ k by omega)
    rw [scaleUp_succ] at h ⊢
    revert h
    split
    · exact (ih · (by omega))
    · exact id

theorem scale_mono {eMode : Bool} {r : F × Int} (h : scale D n eMode x = some r) (le : n ≤ k) :
    scale D k eMode x = some r := by
  revert h
  unfold scale
  split
  · intro h
    obtain ⟨⟨y, e⟩, hdown, hup⟩ := bind_eq_some_iff.mp h
    rw [scaleDown_mono hdown le]
    exact scaleUp_mono hup le
  · exact id

namespace DoubleLaws

variable (L : DoubleLaws D)

theorem scaleDown_ends (e : Int) (finite : ¬ L.isInfinite x) (nonzero : ¬ L.isZero x)
    (enough : L.downRank x < n) : ∃ y e', scaleDown D n x e = some (y, e') ∧ ¬ L.isZero y := by
  induction n generalizing x e with
  | zero => omega
  | succ n ih =>
    rw [scaleDown_succ]
    cases big : D.big x with
    | true =>
      obtain ⟨less, finite', nonzero'⟩ := L.down x finite big
      exact ih (e + 1) finite' nonzero' (by omega)
    | false => exact ⟨x, e, rfl, nonzero⟩

theorem scaleUp_ends (e : Int) (nonzero : ¬ L.isZero x) (enough : L.upRank x < n) :
    ∃ r, scaleUp D n x e = some r := by
  induction n generalizing x e with
  | zero => omega
  | succ n ih =>
    rw [scaleUp_succ]
    cases small : D.small x with
    | true =>
      obtain ⟨less, nonzero'⟩ := L.up x nonzero small
      exact ih (e - 1) nonzero' (by omega)
    | false => exact ⟨(x, e), rfl⟩

theorem scaleDown_infinite (e : Int) (h : L.isInfinite x) : scaleDown D n x e = none := by
  induction n generalizing x e with
  | zero => rfl
  | succ n ih =>
    obtain ⟨big, next⟩ := L.infinite_div x h
    rw [scaleDown_succ, if_pos big]
    exact ih (e + 1) next

theorem scaleUp_zero (e : Int) (h : L.isZero x) : scaleUp D n x e = none := by
  induction n generalizing x e with
  | zero => rfl
  | succ n ih =>
    obtain ⟨_, small, next⟩ := L.zero_mul x h
    rw [scaleUp_succ, if_pos small]
    exact ih (e - 1) next

/-- The two loops end exactly for the numbers that are neither zero nor infinite. -/
theorem scale_ends_iff (x : F) :
    (∃ n r, scale D n true x = some r) ↔ ¬ L.isZero x ∧ ¬ L.isInfinite x := by
  constructor
  · rintro ⟨n, r, h⟩
    obtain ⟨⟨y, e⟩, hdown, hup⟩ := bind_eq_some_iff.mp h
    constructor
    · intro zero
      obtain ⟨notBig, small, next⟩ := L.zero_mul x zero
      cases n with
      | zero => cases hdown
      | succ n =>
        rw [scaleDown_succ, notBig] at hdown
        obtain ⟨rfl, rfl⟩ := Prod.mk.inj (some.inj hdown)
        exact nomatch (L.scaleUp_zero 0 zero).symm.trans hup
    · intro infinite
      rw [L.scaleDown_infinite 0 infinite] at hdown
      cases hdown
  · rintro ⟨nonzero, finite⟩
    obtain ⟨y, e, hdown, nonzero'⟩ := L.scaleDown_ends 0 finite nonzero (Nat.lt_succ_self _)
    obtain ⟨r, hup⟩ := L.scaleUp_ends e nonzero' (Nat.lt_succ_self _)
    refine ⟨max (L.downRank x + 1) (L.upRank y + 1), r, ?_⟩
    rw [scale, if_pos rfl, scaleDown_mono hdown (le_max_left _ _)]
    exact scaleUp_mono hup (le_max_right _ _)

end DoubleLaws

end

/-! ## Returning -/

theorem eMode_double (h : d.eMode = true) : d.conversion = .double := by
  unfold Directive.conversion
  rcases of_decide_eq_true h with h | h <;>
    · rw [h]
      rfl

/-- Every number that `%e` or `%E` takes is neither zero nor infinite; `a` is the position of the
first argument. -/
def AllScale {env : Env F} (L : DoubleLaws env.toDoubles) : List Piece → Nat → Prop
  | [], _ => True
  | .lit _ :: ps, a => AllScale L ps a
  | .conv d :: ps, a =>
    (d.eMode = true → ¬ L.isZero (env.ofBits (env.dword a)) ∧ ¬ L.isInfinite (env.ofBits (env.dword a))) ∧
      AllScale L ps (nextArg env d a)
  | .cut :: ps, a => AllScale L ps a

theorem convText_mono (h : convText fuel env d a = some t) (le : fuel ≤ k) :
    convText k env d a = some t := by
  unfold convText at h ⊢
  cases conv : d.conversion with
  | double =>
    simp only [conv] at h ⊢
    obtain ⟨r, hr, rfl⟩ := map_eq_some_iff.mp h
    rw [scale_mono hr le]
    rfl
  | _ => simpa only [conv] using h

theorem textOf_mono (h : textOf fuel env ps a = some t) (le : fuel ≤ k) :
    textOf k env ps a = some t := by
  induction ps generalizing a t with
  | nil => exact h
  | cons p ps ih =>
    cases p with
    | lit c =>
      obtain ⟨t, ht, rfl⟩ := map_eq_some_iff.mp h
      rw [textOf, ih ht]
      rfl
    | conv d =>
      obtain ⟨t, ht, h⟩ := bind_eq_some_iff.mp h
      obtain ⟨rest, hrest, h⟩ := bind_eq_some_iff.mp h
      rw [textOf, convText_mono ht le]
      simpa only [bind_eq_bind, bind_some, ih hrest] using h
    | cut => cases h

theorem convText_ends_iff (L : DoubleLaws env.toDoubles) (d : Directive) (a : Nat) :
    (∃ fuel t, convText fuel env d a = some t) ↔ (d.eMode = true →
      ¬ L.isZero (env.ofBits (env.dword a)) ∧ ¬ L.isInfinite (env.ofBits (env.dword a))) := by
  unfold convText
  cases eMode : d.eMode with
  | true =>
    simp only [eMode_double eMode, map_eq_some_iff, forall_const, ← L.scale_ends_iff]
    exact ⟨fun ⟨n, t, r, h, _⟩ => ⟨n, r, h⟩, fun ⟨n, r, h⟩ => ⟨n, _, r, h, rfl⟩⟩
  | false =>
    refine iff_of_true ?_ (fun on => by cases on)
    cases conv : d.conversion with
    | double => exact ⟨0, _, rfl⟩
    | _ => exact ⟨0, _, rfl⟩

theorem textOf_ends_iff (L : DoubleLaws env.toDoubles) (ps : List Piece) (a : Nat) :
    (∃ fuel t, textOf fuel env ps a = some t) ↔ Piece.cut ∉ ps ∧ AllScale L ps a := by
  induction ps generalizing a with
  | nil => exact iff_of_true ⟨0, [], rfl⟩ ⟨not_mem_nil, trivial⟩
  | cons p ps ih =>
    cases p with
    | lit c =>
      rw [mem_cons, or_iff_right (by simp), AllScale, ← ih]
      constructor
      · rintro ⟨fuel, t, h⟩
        obtain ⟨t, ht, -⟩ := map_eq_some_iff.mp h
        exact ⟨fuel, t, ht⟩
      · rintro ⟨fuel, t, h⟩
        exact ⟨fuel, c :: t, by rw [textOf, h]; rfl⟩
    | conv d =>
      rw [mem_cons, or_iff_right (by simp), AllScale, ← convText_ends_iff, and_left_comm, ← ih]
      constructor
      · rintro ⟨fuel, t, h⟩
        obtain ⟨t, ht, h⟩ := bind_eq_some_iff.mp h
        obtain ⟨rest, hrest, h⟩ := bind_eq_some_iff.mp h
        exact ⟨⟨fuel, t, ht⟩, ⟨fuel, rest, hrest⟩⟩
      · rintro ⟨⟨n, t, ht⟩, ⟨k, rest, hrest⟩⟩
        refine ⟨max n k, t ++ rest, ?_⟩
        rw [textOf, convText_mono ht (le_max_left _ _)]
        simp [textOf_mono hrest (le_max_right n k)]
    | cut => exact iff_of_false (fun ⟨_, _, h⟩ => by cases h) (fun h => h.1 mem_cons_self)

/-- The formatter returns without examining a byte behind the NUL of the format, whatever the output
channel does. -/
def FormatReturns (env : Env F) (format : NulString) : Prop :=
  ∀ (σ : Type) (out : Out σ) (s : σ), ∃ fuel r, stdioFormatCore out fuel env format s = some r

/-- A channel that keeps nothing. -/
def nullOut : Out Unit where
  emitChar _ _ := ((), true)

/-- The formatter returns, and stays inside the format, exactly for the formats that an `int` can
index, that do not end inside a conversion, and whose `%e` and `%E` conversions take numbers other
than zeros and infinities. -/
theorem formatReturns_iff (env : Env F) (L : DoubleLaws env.toDoubles) (format : NulString) :
    FormatReturns env format ↔ format.chars.length < 2 ^ 31 ∧
      Piece.cut ∉ pieces env format.chars ∧ AllScale L (pieces env format.chars) 0 := by
  rw [← textOf_ends_iff L]
  constructor
  · intro returns
    obtain ⟨fuel, r, h⟩ := returns Unit nullOut ()
    obtain ⟨short, t, ht⟩ := Endless.textOf (fun _ _ => rfl) h
    exact ⟨short, fuel, t, ht⟩
  · rintro ⟨short, fuel, t, ht⟩ σ out s
    obtain ⟨r, hr, -⟩ := runPieces_out out ht (⟨s, 0, []⟩ : Progress σ)
    exact ⟨fuel, r, (stdioFormatCore_eq out short s).trans hr⟩

/-- Whole numbers in place of doubles. -/
def wholeNumbers : Doubles Int where
  ofBits := BitVec.toInt
  ofInt := id
  hundredth := 0
  add := (· + ·)
  sub := (· - ·)
  mul := (· * ·)
  div := tdiv
  lt x y := x < y
  le x y := x ≤ y
  toInt := id
  toByte x := x.natAbs % 256

/-- The laws for whole numbers: none is infinite, and only zero is small. -/
def wholeLaws : DoubleLaws wholeNumbers where
  isZero x := x = 0
  isInfinite _ := False
  downRank := natAbs
  upRank _ := 0
  infinite_div _ h := h.elim
  zero_mul x h := by
    subst h
    exact ⟨rfl, rfl, rfl⟩
  down x _ big := by
    simp only [Doubles.big, wholeNumbers, id, Bool.or_eq_true, decide_eq_true_eq] at big
    simp only [wholeNumbers, id, not_false_eq_true, true_and]
    rw [natAbs_tdiv]
    constructor
    · exact Nat.div_lt_self (by omega) (by decide)
    · intro zero
      have := congrArg natAbs zero
      rw [natAbs_tdiv] at this
      have : x.natAbs / 10 = 0 := this
      omega
  up x nonzero small := by
    simp only [Doubles.small, wholeNumbers, id, Bool.and_eq_true, decide_eq_true_eq] at small
    omega

/-- Arguments that are all the same number. -/
def sameArgs (v : BitVec 32) : Env Int where
  toDoubles := wholeNumbers
  words _ := v
  strings _ := ⟨[], not_mem_nil⟩
  beyondTable _ := false
  overflowText := ⟨[], not_mem_nil⟩

theorem pieces_exponent (v : BitVec 32) :
    pieces (sameArgs v) (asciis "%e") = [.conv (directiveOf (sameArgs v) (asciis "e")).1] := by
  have rest : (directiveOf (sameArgs v) (asciis "e")).2 = asciis "e" := rfl
  rw [show asciis "%e" = ascii '%' :: asciis "e" from rfl, pieces, if_neg (not_not_intro rfl)]
  split
  case h_1 cut => cases rest.symm.trans cut
  case h_2 t ps more =>
    obtain rfl : [] = ps := (cons.inj (rest.symm.trans more)).2
    rw [pieces]

/-- `"%e"` with a number that is not zero. -/
theorem formatReturns_iff_exponent : FormatReturns (sameArgs 5) ⟨asciis "%e", by decide⟩ := by
  refine (formatReturns_iff (sameArgs 5) wholeLaws _).mpr ⟨by decide, ?_⟩
  rw [pieces_exponent]
  have nonzero : ((sameArgs 5).dword 0).toInt ≠ 0 := by decide
  exact ⟨by simp, fun _ => ⟨nonzero, not_false⟩, trivial⟩

/-- The format `"%"` ends inside a conversion: the formatter goes on behind the NUL. And it never
finishes `"%e"` with the number zero. -/
theorem not_formatReturns : ¬ FormatReturns (sameArgs 5) ⟨asciis "%", by decide⟩ ∧
    ¬ FormatReturns (sameArgs 0) ⟨asciis "%e", by decide⟩ := by
  constructor
  · intro returns
    obtain ⟨fuel, r, h⟩ := returns Unit nullOut ()
    exact nomatch h
  · intro returns
    obtain ⟨fuel, r, h⟩ := returns Unit nullOut ()
    obtain ⟨-, t, ht⟩ := Endless.textOf (fun _ _ => rfl) h
    rw [pieces_exponent] at ht
    exact (((textOf_ends_iff wholeLaws _ 0).mp ⟨fuel, t, ht⟩).2.1 rfl).1 rfl

/-! ## Output to a buffer -/

theorem feed_textOut (o t : CString) : feed textOut o t = (o ++ t, true) := by
  induction t generalizing o with
  | nil => rw [feed, append_nil]
  | cons c t ih =>
    show feed textOut (o ++ [c]) t = _
    rw [ih, append_assoc, singleton_append]

/-- The text that an unlimited channel gets is the text of the format. -/
theorem stdioFormatCore_textOut {r : Progress CString}
    (h : stdioFormatCore textOut fuel env format [] = some r) : format.chars.length < 2 ^ 31 ∧
      textOf fuel env (pieces env format.chars) 0 = some r.out := by
  obtain ⟨short, t, ht⟩ := Endless.textOf (fun _ _ => rfl) h
  obtain ⟨r', run, hout⟩ := runPieces_out textOut ht (⟨[], 0, []⟩ : Progress CString)
  rw [stdioFormatCore_eq _ short] at h
  obtain rfl := some.inj (run.symm.trans h)
  refine ⟨short, ?_⟩
  rw [ht, hout, feed_textOut, nil_append]

theorem feed_strOut (t : CString) (room : o.len < o.cap) (hcap : o.cap < 2 ^ 32)
    (fits : o.s + min (o.cap - 1) (o.len + t.length) < 2 ^ 32) :
    (feed strOut o t).1.len = min (o.cap - 1) (o.len + t.length) ∧
      BytesInMemory (feed strOut o t).1.mem (o.s + o.len) (t.take (o.cap - 1 - o.len)) ∧
      ∀ b, b < o.s + o.len ∨ o.s + min (o.cap - 1) (o.len + t.length) ≤ b →
        (feed strOut o t).1.mem b = o.mem b := by
  induction t generalizing o with
  | nil =>
    refine ⟨?_, ?_, fun b _ => rfl⟩
    · show o.len = _
      rw [length_nil]
      omega
    · rw [take_nil]
      trivial
  | cons c t ih =>
    rw [length_cons] at fits ⊢
    by_cases last : o.len + 1 < o.cap
    · have taken : strOut.emitChar o c =
          ({ o with mem := write8 o.mem (o.s + o.len) c, len := o.len + 1 }, true) := by
        show (if _ then _ else _) = _
        rw [if_pos (by rw [Nat.mod_eq_of_lt (by omega)]; exact last), Nat.mod_eq_of_lt (by omega),
          Nat.mod_eq_of_lt (by omega)]
      have hmin : min (o.cap - 1) (o.len + 1 + t.length) = min (o.cap - 1) (o.len + (t.length + 1)) := by
        omega
      obtain ⟨hlen, hbytes, hframe⟩ := ih
        (o := { o with mem := write8 o.mem (o.s + o.len) c, len := o.len + 1 }) last hcap
        (by dsimp only; omega)
      simp only [hmin] at hlen hbytes hframe
      rw [feed, taken]
      refine ⟨hlen, ?_, fun b hb => ?_⟩
      · rw [show o.cap - 1 - o.len = o.cap - 1 - (o.len + 1) + 1 by omega, take_succ_cons]
        refine ⟨?_, ?_⟩
        · rw [hframe _ (by omega), write8, if_pos rfl]
        · exact hbytes
      · rw [hframe b (by omega), write8, if_neg (by omega)]
    · have refused : strOut.emitChar o c = (o, false) := by
        show (if _ then _ else _) = _
        rw [if_neg (by omega)]
      rw [feed, refused]
      refine ⟨?_, ?_, fun b _ => rfl⟩
      · show o.len = _
        omega
      · rw [show o.cap - 1 - o.len = 0 by omega, take_zero]
        trivial

theorem feed_strOut_zero (none_ : o.cap = 0) (t : CString) : (feed strOut o t).1 = o := by
  cases t with
  | nil => rfl
  | cons c t =>
    have refused : strOut.emitChar o c = (o, false) := by
      show (if _ then _ else _) = _
      rw [none_, if_neg (Nat.not_lt_zero _)]
    rw [feed, refused]

theorem vsnprintf_text (short : format.chars.length < 2 ^ 31)
    (ht : textOf fuel env (pieces env format.chars) 0 = some t) (m : Mem) (buffer : Nat)
    (hn : n < 2 ^ 32) (fits : 0 < n → buffer + min (n - 1) t.length < 2 ^ 32) :
    ∃ m' count, vsnprintf fuel env m buffer n format = some (m', count) ∧
      (0 < n → BytesInMemory m' buffer (t.take (n - 1) ++ [0])) ∧
      ∀ b, b < buffer ∨ buffer + n ≤ b → m' b = m b := by
  obtain ⟨r, run, hout⟩ := runPieces_out strOut ht
    ⟨{ mem := m, s := buffer, cap := n, len := 0 }, 0, []⟩
  have hcore := (stdioFormatCore_eq strOut short { mem := m, s := buffer, cap := n, len := 0 }).trans run
  rw [vsnprintf, hcore]
  refine ⟨_, r.chars, rfl, ?_, ?_⟩
  · intro pos
    obtain ⟨hlen, hbytes, hframe⟩ := feed_strOut (o := { mem := m, s := buffer, cap := n, len := 0 }) t
      pos hn (by simpa using fits pos)
    simp only [← hout, Nat.zero_add, Nat.add_zero, Nat.sub_zero] at hlen hbytes hframe
    have := fits pos
    have htake : (t.take (n - 1)).length = min (n - 1) t.length := length_take
    rw [if_pos pos, hlen, Nat.mod_eq_of_lt this, BytesInMemory.append_iff, htake]
    refine ⟨hbytes.congr fun b _ hb => ?_, ?_, trivial⟩
    · rw [write8, if_neg (by omega)]
    · rw [write8, if_pos rfl]
  · intro b hb
    rcases eq_zero_or_pos n with rfl | pos
    · rw [if_neg (lt_irrefl 0), hout, feed_strOut_zero rfl]
    · obtain ⟨hlen, hbytes, hframe⟩ := feed_strOut (o := { mem := m, s := buffer, cap := n, len := 0 }) t
        pos hn (by simpa using fits pos)
      simp only [← hout, Nat.zero_add, Nat.add_zero, Nat.sub_zero] at hlen hbytes hframe
      have := fits pos
      rw [if_pos pos, hlen, Nat.mod_eq_of_lt this, write8, if_neg (by omega), hframe b (by omega)]

end Stos.Libc
