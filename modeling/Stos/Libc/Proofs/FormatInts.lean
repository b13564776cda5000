import Stos.Libc.Proofs.FormatText

/-!
# Integer conversions

`__int_to_str` writes the digits of a number from the last one to the first one, in front of them a
sign, and then pads the whole. The text is right where the argument survives the conversion to
`intmax_t` and the flag `0` does not have to fill up the width in front of a sign or behind the
number (`intFormat_iff`).
-/

namespace Stos.Libc

open List BitVec Nat Int

variable {F : Type} {env : Env F} {fuel n width : Nat} {v : Int} {conv : IntConv}
  {flags : List Flag} {sign digits t : CString} {size : Size}

/-! ## Digits -/

theorem digitLoop_eq {table : CString} {f : Char → BitVec 8} {base : Nat} (hbase : 1 < base)
    (htable : ∀ d < base, table.getD d 0 = f (digitChar d)) {k : Nat} (hn : n < base ^ (k + 1))
    (p : CString) : digitLoop table base (k + 1) n p = (toDigits base n).map f ++ p := by
  induction k generalizing n p with
  | zero =>
    rw [zero_add, pow_one] at hn
    rw [digitLoop, toDigits_of_lt_base hn, htable _ (mod_lt n (by omega)), mod_eq_of_lt hn,
      div_eq_of_lt hn]
    rfl
  | succ k ih =>
    have hdigit := htable _ (mod_lt n (show 0 < base by omega))
    rw [digitLoop, hdigit]
    by_cases last : n < base
    · rw [div_eq_of_lt last, toDigits_of_lt_base last, mod_eq_of_lt last]
      rfl
    · have hdiv : n / base ≠ 0 := fun zero => last ((div_eq_zero_iff_lt (by omega)).mp zero)
      have less : n / base < base ^ (k + 1) := Nat.div_lt_of_lt_mul (by rwa [← Nat.pow_succ'])
      simp only [if_neg hdiv]
      have split := toDigits_of_base_le hbase (not_lt.mp last)
      rw [ih less, split, List.map_append, List.append_assoc]
      rfl

/-- The base that the formatter passes on for a conversion. -/
def IntConv.codeBase : IntConv → Nat
  | .X => 17
  | conv => conv.base

theorem digit_getD (conv : IntConv) : ∀ d < conv.base, (digit conv.codeBase).getD d 0 =
    ascii (if conv = .X then (digitChar d).toUpper else digitChar d) := by
  cases conv <;> decide

/-- The text of an integer conversion in terms of what was written. -/
def intShown (conv : IntConv) (flags : List Flag) (width : Nat) (v : Int) : CString :=
  let b := signText flags v ++ numeral conv v
  let padding := List.replicate (width - b.length) (if Flag.zero ∈ flags then ascii '0' else ascii ' ')
  if Flag.minus ∈ flags then b ++ padding else padding ++ b

theorem intToStr_eq (conv : IntConv) (flags : List Flag) (width : Nat) (ne : v ≠ -2 ^ 63)
    (small : v.natAbs < 2 ^ 64) :
    intToStr env v conv.codeBase (flagsOf flags).plusPrepend (flagsOf flags).spacePrepend width
      (flagsOf flags).leftAlign (flagsOf flags).zeroPad = intShown conv flags width v := by
  have hbase : (if conv.codeBase = 17 then 16 else conv.codeBase) = conv.base := by
    cases conv <;> rfl
  have two : 2 ≤ conv.base := by cases conv <;> decide
  have digits : digitLoop (digit conv.codeBase) conv.base 64 v.natAbs [] = numeral conv v := by
    rw [digitLoop_eq (f := fun c => ascii (if conv = .X then c.toUpper else c)) two (digit_getD conv)
      (Nat.lt_of_lt_of_le small (Nat.pow_le_pow_left two 64)), append_nil]
    rfl
  rw [intToStr, if_neg ne, hbase, digits]
  simp only [flagsOf, decide_eq_true_eq]
  rfl

/-- No digit is a minus sign. -/
theorem minus_notMem_numeral (conv : IntConv) (v : Int) : ascii '-' ∉ numeral conv v := by
  have two : 2 ≤ conv.base := by cases conv <;> decide
  have each : ∀ d < conv.base, ascii '-' ≠
      ascii (if conv = .X then (digitChar d).toUpper else digitChar d) := by
    cases conv <;> decide
  have chars : ∀ n, ∀ c ∈ toDigits conv.base n, ∃ d < conv.base, c = digitChar d := by
    intro n
    induction n using Nat.strongRecOn with
    | _ n ih =>
      intro c hc
      rcases lt_or_ge n conv.base with hn | hn
      · rw [toDigits_of_lt_base hn, mem_singleton] at hc
        exact ⟨n, hn, hc⟩
      · rw [toDigits_of_base_le two hn, mem_append, mem_singleton] at hc
        rcases hc with hc | hc
        · exact ih (n / conv.base) (div_lt_self (by omega) two) c hc
        · exact ⟨n % conv.base, mod_lt n (by omega), hc⟩
  intro hmem
  obtain ⟨c, hc, heq⟩ := mem_map.mp hmem
  obtain ⟨d, hd, rfl⟩ := chars _ c hc
  exact each d hd heq.symm

theorem numeral_ne_nil (conv : IntConv) (v : Int) : numeral conv v ≠ [] := by
  simp [numeral, toDigits_ne_nil]

/-! ## Signs -/

theorem minus_mem_signText (flags : List Flag) (v : Int) : ascii '-' ∈ signText flags v ↔ v < 0 := by
  unfold signText
  split
  case isTrue neg => simp [neg]
  case isFalse nonneg =>
    refine iff_of_false ?_ nonneg
    split
    · decide
    · split <;> decide

theorem minus_mem_signs (h : sign ∈ signs conv flags v) (unsigned : conv.signed = false → 0 ≤ v) :
    ascii '-' ∈ sign ↔ v < 0 := by
  unfold signs at h
  split at h
  case isTrue => rw [mem_singleton.mp h, minus_mem_signText]
  case isFalse nosign =>
    have := unsigned (by simpa using nosign)
    rcases mem_cons.mp h with rfl | h
    · rw [minus_mem_signText]
    · rw [mem_singleton.mp h]
      exact iff_of_false not_mem_nil (by omega)

theorem minus_mem_padded (flags : List Flag) (width : Nat) (sign : CString) (h : ascii '-' ∉ digits) :
    ascii '-' ∈ padded flags width sign digits ↔ ascii '-' ∈ sign := by
  have space : ascii '-' ≠ ascii ' ' := by decide
  have zero : ascii '-' ≠ ascii '0' := by decide
  unfold padded
  split
  · simp [mem_replicate, h, space]
  · split <;> simp [mem_replicate, h, space, zero]

theorem minus_mem_intShown (conv : IntConv) (flags : List Flag) (width : Nat) (v : Int) :
    ascii '-' ∈ intShown conv flags width v ↔ v < 0 := by
  have space : ascii '-' ≠ ascii ' ' := by decide
  have zero : ascii '-' ≠ ascii '0' := by decide
  have pad : ∀ n, ascii '-' ∉ List.replicate n (if Flag.zero ∈ flags then ascii '0' else ascii ' ') := by
    intro n hmem
    have := (mem_replicate.mp hmem).2
    split at this
    · exact zero this
    · exact space this
  rw [← minus_mem_signText flags]
  simp only [intShown]
  split <;> simp [pad, minus_notMem_numeral]

/-! ## Padding -/

theorem getLast?_append_replicate (xs : CString) (c : BitVec 8) (pos : 0 < n) :
    (xs ++ List.replicate n c).getLast? = some c := by
  obtain ⟨n, rfl⟩ := Nat.exists_eq_add_of_le' pos
  rw [List.replicate_succ', ← List.append_assoc, List.getLast?_concat]

theorem signText_cases (flags : List Flag) (v : Int) :
    signText flags v = [] ∨ ∃ c, signText flags v = [c] ∧ c ≠ ascii '0' := by
  unfold signText
  split
  · exact .inr ⟨_, rfl, by decide⟩
  · split
    · exact .inr ⟨_, rfl, by decide⟩
    · split
      · exact .inr ⟨_, rfl, by decide⟩
      · exact .inl rfl

theorem mem_signs (h : sign ∈ signs conv flags v) : sign = signText flags v ∨ sign = [] := by
  unfold signs at h
  split at h
  · exact .inl (mem_singleton.mp h)
  · simpa using h

/-- Zeros in front of a sign are never right. -/
theorem zeros_before_sign {c : BitVec 8} (hc : c ≠ ascii '0') (hsign : sign = [c] ∨ sign = [])
    (wide : 1 + digits.length < width) :
    sign ++ List.replicate (width - (sign ++ digits).length) (ascii '0') ++ digits ≠
      List.replicate (width - ([c] ++ digits).length) (ascii '0') ++ ([c] ++ digits) := by
  intro same
  rcases hsign with rfl | rfl
  · -- the sign stands first on one side, a zero on the other
    have first := congrArg List.head? same
    obtain ⟨n, hn⟩ := Nat.exists_eq_add_of_le' (show 1 ≤ width - ([c] ++ digits).length by
      simp only [singleton_append, length_cons]
      omega)
    rw [hn, List.replicate_succ] at first
    exact hc (Option.some.inj first)
  · -- one side has a zero more, where the other has its sign
    have place := congrArg (fun s => s[width - ([c] ++ digits).length]?) same
    simp only [nil_append, singleton_append, length_cons] at place
    rw [List.getElem?_append_left (by simp; omega), List.getElem?_append_right (by simp),
      List.getElem?_replicate, if_pos (by omega), length_replicate, Nat.sub_self] at place
    exact hc (Option.some.inj place).symm

/-- The text of the formatter is one that is asked for exactly if the flag `0` does no harm. -/
theorem intShown_mem_iff (conv : IntConv) (flags : List Flag) (width : Nat) (v : Int) :
    intShown conv flags width v ∈ intSpec conv flags width v ↔ PaddingFits conv flags width v := by
  have own : signText flags v ∈ signs conv flags v := by
    unfold signs
    split <;> simp
  unfold PaddingFits intSpec
  rw [mem_map]
  constructor
  · rintro ⟨sign, hsign, same⟩ zero
    have hsign := mem_signs hsign
    simp only [padded, intShown] at same
    by_contra bad
    have wide : (signText flags v ++ numeral conv v).length < width := by
      by_contra h
      exact bad (.inl (by omega))
    have shorter : (sign ++ numeral conv v).length ≤ (signText flags v ++ numeral conv v).length := by
      rcases hsign with rfl | rfl <;> simp
    by_cases left : Flag.minus ∈ flags
    · -- zeros behind the number
      rw [if_pos left, if_pos left, if_pos zero] at same
      have last := congrArg List.getLast? same
      rw [getLast?_append_replicate _ _ (by omega), getLast?_append_replicate _ _ (by omega)] at last
      exact absurd (Option.some.inj last) (by decide)
    · rw [if_neg left, if_neg left, if_pos zero, if_pos zero] at same
      rcases signText_cases flags v with nosign | ⟨c, sign_eq, hc⟩
      · exact bad (.inr ⟨left, nosign⟩)
      · rw [sign_eq] at same wide hsign
        refine zeros_before_sign hc hsign ?_ same
        simp only [singleton_append, length_cons] at wide
        omega
  · intro fits
    refine ⟨signText flags v, own, ?_⟩
    simp only [padded, intShown]
    by_cases zero : Flag.zero ∈ flags
    · rcases fits zero with wide | ⟨left, nosign⟩
      · rw [show width - (signText flags v ++ numeral conv v).length = 0 by omega]
        simp
      · simp [zero, left, nosign]
    · simp [zero]

/-! ## Arguments -/

/-- The argument as the `intmax_t` that the formatter makes of it. -/
def codeValue (conv : IntConv) (size : Size) (v : Int) : Int :=
  if conv.signed then (if size = .z then v % 2 ^ 32 else v)
  else if size.bits = 64 then bmod v (2 ^ 64)
  else if size = .t then bmod v (2 ^ 32)
  else v

theorem exists_arg {x y : Int} (h : x = y) : ∃ a, some (x, n) = some (y, a) := ⟨n, by rw [h]⟩

theorem signedArg_eq (hsize : size ≠ .L)
    (range : -2 ^ (size.bits - 1) ≤ v ∧ v < 2 ^ (size.bits - 1)) (passed : Passed env size v) :
    ∃ a, signedArg env size 0 = some (if size = .z then v % 2 ^ 32 else v, a) := by
  obtain ⟨low, high⟩ := range
  cases size with
  | L => exact absurd rfl hsize
  | none | l | t =>
    refine exists_arg (?_ : (env.words 0).toInt = v)
    rw [show env.words 0 = _ from passed, toInt_ofInt, bmod_def]
    simp only [Size.bits] at low high
    omega
  | z =>
    refine exists_arg (?_ : ((env.words 0).toNat : Int) = v % 2 ^ 32)
    rw [show env.words 0 = _ from passed, toNat_ofInt]
    omega
  | H =>
    refine exists_arg (?_ : ((env.words 0).setWidth 8).toInt = v)
    rw [show env.words 0 = _ from passed, toInt_setWidth, toNat_ofInt, bmod_def]
    simp only [Size.bits] at low high
    omega
  | h =>
    refine exists_arg (?_ : ((env.words 0).setWidth 16).toInt = v)
    rw [show env.words 0 = _ from passed, toInt_setWidth, toNat_ofInt, bmod_def]
    simp only [Size.bits] at low high
    omega
  | q | j =>
    refine exists_arg (?_ : (env.dword 0).toInt = v)
    rw [show env.dword 0 = _ from passed, toInt_ofInt, bmod_def]
    simp only [Size.bits] at low high
    omega

theorem unsignedArg_eq (hsize : size ≠ .L) (range : 0 ≤ v ∧ v < 2 ^ size.bits)
    (passed : Passed env size v) :
    ∃ a, unsignedArg env size 0 = some (if size.bits = 64 then bmod v (2 ^ 64)
      else if size = .t then bmod v (2 ^ 32) else v, a) := by
  obtain ⟨low, high⟩ := range
  cases size with
  | L => exact absurd rfl hsize
  | none | l | z =>
    refine exists_arg (?_ : ((env.words 0).toNat : Int) = v)
    rw [show env.words 0 = _ from passed, toNat_ofInt]
    simp only [Size.bits] at high
    omega
  | t =>
    refine exists_arg (?_ : (env.words 0).toInt = bmod v (2 ^ 32))
    rw [show env.words 0 = _ from passed, toInt_ofInt]
  | H =>
    refine exists_arg (?_ : ((env.words 0).toNat : Int) % 2 ^ 8 = v)
    rw [show env.words 0 = _ from passed, toNat_ofInt]
    simp only [Size.bits] at high
    omega
  | h =>
    refine exists_arg (?_ : ((env.words 0).toNat : Int) % 2 ^ 16 = v)
    rw [show env.words 0 = _ from passed, toNat_ofInt]
    simp only [Size.bits] at high
    omega
  | q | j =>
    refine exists_arg (?_ : (env.dword 0).toInt = bmod v (2 ^ 64))
    rw [show env.dword 0 = _ from passed, toInt_ofInt]

/-- The directive of an integer conversion as it is read. -/
def intDirective (flags : List Flag) (width : Nat) (size : Size) (conv : IntConv) : Directive where
  flags := flagsOf flags
  width := width
  precision := 6
  precisionSpecified := false
  size := size
  typeSpecifier := conv.char

theorem isType_int (conv : IntConv) : IsType conv.char := by
  cases conv <;> exact ⟨by decide, fun _ => rfl, by decide, by decide⟩

theorem pieces_int (env : Env F) (flags : List Flag) (hwidth : width ≤ 255) (size : Size)
    (conv : IntConv) :
    pieces env (intFormat flags width size conv) = [.conv (intDirective flags width size conv)] := by
  have := pieces_written env (isType_int conv) flags width none size
  rwa [mod_eq_of_lt (by omega)] at this

/-- What becomes of an argument in the range of its size: it keeps its value exactly if it keeps its
sign and can be negated. -/
theorem codeValue_spec (range : InRange conv size v) : (codeValue conv size v).natAbs < 2 ^ 64 ∧
    (ValueFits conv size v ↔
      codeValue conv size v ≠ -2 ^ 63 ∧ (codeValue conv size v < 0 ↔ v < 0)) ∧
    (ValueFits conv size v → codeValue conv size v = v) := by
  unfold InRange at range
  unfold ValueFits codeValue
  by_cases signed : conv.signed = true
  · simp only [if_pos signed] at range ⊢
    cases size <;> simp [Size.bits] at range ⊢ <;> omega
  · simp only [if_neg signed] at range ⊢
    cases size <;> simp [Size.bits, bmod_def] at range ⊢ <;> omega

/-- The text of an integer conversion. -/
theorem convText_int (fuel : Nat) (env : Env F) (hsize : size ≠ .L) (range : InRange conv size v)
    (passed : Passed env size v) (flags : List Flag) (width : Nat) :
    convText fuel env (intDirective flags width size conv) 0 =
      some (if codeValue conv size v = -2 ^ 63 then env.overflowText.chars
        else intShown conv flags width (codeValue conv size v)) := by
  have text : convText fuel env (intDirective flags width size conv) 0 =
      some (intText env (intDirective flags width size conv) conv.codeBase
        (if conv.signed then signedArg env size 0 else unsignedArg env size 0)) := by
    cases conv <;> rfl
  have value : ∃ a, (if conv.signed then signedArg env size 0 else unsignedArg env size 0) =
      some (codeValue conv size v, a) := by
    unfold InRange at range
    unfold codeValue
    by_cases signed : conv.signed = true
    · rw [if_pos signed] at range ⊢
      rw [if_pos signed]
      exact signedArg_eq hsize range passed
    · rw [if_neg signed] at range ⊢
      rw [if_neg signed]
      exact unsignedArg_eq hsize range passed
  obtain ⟨a, value⟩ := value
  rw [text, value]
  refine congrArg some ?_
  show intToStr env (codeValue conv size v) conv.codeBase (flagsOf flags).plusPrepend
    (flagsOf flags).spacePrepend width (flagsOf flags).leftAlign (flagsOf flags).zeroPad = _
  by_cases overflow : codeValue conv size v = -2 ^ 63
  · rw [if_pos overflow, intToStr, if_pos overflow]
  · rw [if_neg overflow, intToStr_eq conv flags width overflow (codeValue_spec range).1]

theorem intSpec_ne_nil (h : t ∈ intSpec conv flags width v) : t ≠ [] := by
  obtain ⟨sign, -, rfl⟩ := mem_map.mp h
  have digits := numeral_ne_nil conv v
  unfold padded
  split
  · simp [digits]
  · split <;> simp [digits]

/-- A right text has a minus sign exactly for a negative number. -/
theorem minus_mem_intSpec (range : InRange conv size v) (h : t ∈ intSpec conv flags width v) :
    ascii '-' ∈ t ↔ v < 0 := by
  obtain ⟨sign, hsign, rfl⟩ := mem_map.mp h
  rw [minus_mem_padded _ _ _ (minus_notMem_numeral conv v)]
  refine minus_mem_signs hsign fun unsigned => ?_
  unfold InRange at range
  rw [if_neg (by simp [unsigned])] at range
  exact range.1

/-- Whether the text that the formatter writes for a number is right, whatever is in the buffer
after an overflow. -/
theorem text_right_iff (range : InRange conv size v) (flags : List Flag) (width : Nat) :
    (∀ overflow : NulString, (if codeValue conv size v = -2 ^ 63 then overflow.chars
      else intShown conv flags width (codeValue conv size v)) ∈ intSpec conv flags width v) ↔
    ValueFits conv size v ∧ PaddingFits conv flags width v := by
  obtain ⟨-, kept, same⟩ := codeValue_spec range
  constructor
  · intro right
    have text := right ⟨[], not_mem_nil⟩
    have fits : ValueFits conv size v := by
      rw [kept]
      by_cases overflow : codeValue conv size v = -2 ^ 63
      · rw [if_pos overflow] at text
        exact absurd rfl (intSpec_ne_nil text)
      · refine ⟨overflow, ?_⟩
        rw [if_neg overflow] at text
        rw [← minus_mem_intShown conv flags width, minus_mem_intSpec range text]
    refine ⟨fits, ?_⟩
    rw [if_neg (kept.mp fits).1, same fits] at text
    exact (intShown_mem_iff conv flags width v).mp text
  · rintro ⟨fits, padding⟩ overflow
    rw [if_neg (kept.mp fits).1, same fits]
    exact (intShown_mem_iff conv flags width v).mpr padding

/-- The conversions `%d`, `%i`, `%u`, `%o`, `%x` and `%X`, with any flags but `#`, a width up to 255
and any size, give a right text exactly if the format can be indexed, the argument keeps its value
as an `intmax_t` that can be negated, and the flag `0` pads nothing or only a number without a sign
that is aligned to the right. -/
theorem intFormat_iff (env : Env F) (conv : IntConv) (size : Size) (flags : List Flag) (width : Nat)
    (v : Int) (hsize : size ≠ .L) (hwidth : width ≤ 255) (range : InRange conv size v)
    (passed : Passed env size v) (format : NulString)
    (hformat : format.chars = intFormat flags width size conv) :
    (∀ overflow : NulString, ∃ fuel r,
      stdioFormatCore textOut fuel { env with overflowText := overflow } format [] = some r ∧
        r.out ∈ intSpec conv flags width v) ↔
    format.chars.length < 2 ^ 31 ∧ ValueFits conv size v ∧ PaddingFits conv flags width v := by
  rw [← text_right_iff range flags width]
  have each : ∀ overflow : NulString, (∃ fuel r,
      stdioFormatCore textOut fuel { env with overflowText := overflow } format [] = some r ∧
        r.out ∈ intSpec conv flags width v) ↔
      format.chars.length < 2 ^ 31 ∧ (if codeValue conv size v = -2 ^ 63 then overflow.chars
        else intShown conv flags width (codeValue conv size v)) ∈ intSpec conv flags width v := by
    intro overflow
    have one := pieces_int { env with overflowText := overflow } flags hwidth size conv
    rw [one_conversion (by rw [hformat]; exact one) (fun t => t ∈ intSpec conv flags width v)]
    refine and_congr_right fun _ => ?_
    have text := fun fuel => convText_int fuel { env with overflowText := overflow } hsize range passed
      flags width
    simp only [text, Option.some.injEq]
    exact ⟨fun ⟨_, _, h, h'⟩ => h ▸ h', fun h => ⟨0, _, rfl, h⟩⟩
  constructor
  · intro right
    exact ⟨((each ⟨[], not_mem_nil⟩).mp (right _)).1, fun overflow =>
      ((each overflow).mp (right overflow)).2⟩
  · rintro ⟨short, right⟩ overflow
    exact (each overflow).mpr ⟨short, right overflow⟩

/-- `"%-+6d"` with 42. -/
theorem intFormat_iff_left : ∃ fuel r, stdioFormatCore textOut fuel (sameArgs 42)
    ⟨intFormat [.minus, .plus] 6 .none .d, by decide⟩ [] = some r ∧
      r.out ∈ intSpec .d [.minus, .plus] 6 42 :=
  (intFormat_iff (sameArgs 42) .d .none [.minus, .plus] 6 42 (by decide) (by decide)
    (by unfold InRange; decide) (by unfold Passed; decide) ⟨_, by decide⟩ rfl).mpr
    ⟨by decide, by unfold ValueFits; decide, by unfold PaddingFits; decide⟩ ⟨[], not_mem_nil⟩

/-- `"%05d"` with -42 gives `00-42`. -/
theorem not_intFormat_zeros : ¬ ∀ overflow : NulString, ∃ fuel r,
    stdioFormatCore textOut fuel { sameArgs (BitVec.ofInt 32 (-42)) with overflowText := overflow }
      ⟨intFormat [.zero] 5 .none .d, by decide⟩ [] = some r ∧ r.out ∈ intSpec .d [.zero] 5 (-42) := by
  intro right
  obtain ⟨fuel, r, run, text⟩ := right ⟨[], not_mem_nil⟩
  obtain rfl := Option.some.inj run
  exact absurd text (by decide)

end Stos.Libc
