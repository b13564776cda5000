import Stos.Libc.Proofs.FormatRuns

/-!
# The texts of string and integer conversions

A directive that was written is read back (`directiveOf_written`), up to the widths and precisions
that do not fit into a `uint8_t`. The texts of `%s` and of the integer conversions are then compared
with what they should be.
-/

namespace Stos.Libc

open List Flag Nat Option

variable {F : Type} {env : Env F} {fuel n : Nat} {t c : BitVec 8} {size : Size}

/-! ## Written numbers -/

theorem ascii_digitChar_toNat {d : Nat} (hd : d < 10) : (ascii (digitChar d)).toNat = 48 + d := by
  match d, hd with
  | 0, _ | 1, _ | 2, _ | 3, _ | 4, _ | 5, _ | 6, _ | 7, _ | 8, _ | 9, _ => rfl

theorem decimal_of_lt (hn : n < 10) : decimal n = [ascii (digitChar n)] := by
  rw [decimal, toDigits_of_lt_base hn]
  rfl

theorem decimal_of_ge (hn : 10 ≤ n) :
    decimal n = decimal (n / 10) ++ [ascii (digitChar (n % 10))] := by
  rw [decimal, toDigits_of_base_le (by decide) hn, map_append]
  rfl

/-- What holds for the digits holds for every character of a written number. -/
theorem decimal_induction {P : Nat → CString → Prop} (digit : ∀ d < 10, P d [ascii (digitChar d)])
    (step : ∀ n, 10 ≤ n → P (n / 10) (decimal (n / 10)) →
      P n (decimal (n / 10) ++ [ascii (digitChar (n % 10))])) (n : Nat) : P n (decimal n) := by
  induction n using Nat.strongRecOn with
  | _ n ih =>
    rcases lt_or_ge n 10 with hn | hn
    · rw [decimal_of_lt hn]
      exact digit n hn
    · rw [decimal_of_ge hn]
      exact step n hn (ih (n / 10) (by omega))

theorem isdigit_decimal (env : Env F) (n : Nat) : ∀ c ∈ decimal n, isdigit env c = true := by
  have one : ∀ d < 10, isdigit env (ascii (digitChar d)) = true := fun d hd => by
    rw [isdigit, ascii_digitChar_toNat hd, if_pos (by omega)]
    simp
    omega
  refine decimal_induction (P := fun _ s => ∀ c ∈ s, isdigit env c = true) ?_ ?_ n
  · intro d hd c hc
    rw [mem_singleton.mp hc]
    exact one d hd
  · intro n _ ih c hc
    rcases mem_append.mp hc with hc | hc
    · exact ih c hc
    · rw [mem_singleton.mp hc]
      exact one _ (by omega)

/-- A written number is read modulo 256. -/
theorem foldl_addDigit_decimal (n : Nat) : (decimal n).foldl addDigit 0 = n % 256 := by
  refine decimal_induction (P := fun n s => s.foldl addDigit 0 = n % 256) ?_ ?_ n
  · intro d hd
    rw [foldl_cons, foldl_nil, addDigit, ascii_digitChar_toNat hd]
    omega
  · intro n _ ih
    rw [foldl_append, ih, foldl_cons, foldl_nil, addDigit, ascii_digitChar_toNat (by omega)]
    omega

/-- A written number that is not 0 does not start with a flag. -/
theorem isFlag_decimal_head (pos : 0 < n) : ∃ c s, decimal n = c :: s ∧ isFlag c = false := by
  refine decimal_induction (P := fun n s => 0 < n → ∃ c s', s = c :: s' ∧ isFlag c = false) ?_ ?_ n pos
  · intro d hd pos
    refine ⟨_, [], rfl, ?_⟩
    match d, hd, pos with
    | 1, _, _ | 2, _, _ | 3, _, _ | 4, _, _ | 5, _, _ | 6, _, _ | 7, _, _ | 8, _, _ | 9, _, _ => decide
  · intro n hn ih _
    obtain ⟨c, s, hs, hc⟩ := ih (by omega)
    exact ⟨c, s ++ _, by rw [hs]; rfl, hc⟩

/-! ## Written directives -/

/-- Scanning a part of a directive stops where the next part begins. -/
theorem span_append {p : BitVec 8 → Bool} {xs ys : CString} (all : ∀ c ∈ xs, p c = true)
    (stop : ∀ c s, ys = c :: s → p c = false) :
    (xs ++ ys).takeWhile p = xs ∧ (xs ++ ys).dropWhile p = ys := by
  rw [takeWhile_append_of_pos all, dropWhile_append_of_pos all]
  cases ys with
  | nil => exact ⟨append_nil xs, rfl⟩
  | cons c s =>
    have hc : ¬ p c = true := by simp [stop c s rfl]
    rw [takeWhile_cons_of_neg hc, dropWhile_cons_of_neg hc, append_nil]
    exact ⟨rfl, rfl⟩

/-- A character that can only be the type of a directive. -/
structure IsType (t : BitVec 8) : Prop where
  notFlag : isFlag t = false
  notDigit : ∀ {F : Type} (env : Env F), isdigit env t = false
  notDot : t ≠ ascii '.'
  notSize : sizeMode t = none

theorem IsType.ne_sizes (ht : IsType t) : t ≠ ascii 'h' ∧ t ≠ ascii 'l' := by
  constructor <;>
    · rintro rfl
      exact absurd ht.notSize (by decide)

/-- The size and the type do not start like the parts before them. -/
theorem size_head (ht : IsType t) {s : CString} (h : size.text ++ [t] = c :: s) :
    isFlag c = false ∧ (∀ {F : Type} (env : Env F), isdigit env c = false) ∧ c ≠ ascii '.' := by
  cases size with
  | none =>
    obtain ⟨rfl, -⟩ := cons.inj h
    exact ⟨ht.notFlag, ht.notDigit, ht.notDot⟩
  | _ =>
    obtain ⟨rfl, -⟩ := cons.inj h
    exact ⟨by decide, fun _ => rfl, by decide⟩

theorem sizeOf_letter (ht : IsType t) (hc : sizeMode c = some size) :
    sizeOf [c, t] = (size, [t]) := by
  obtain ⟨hh, hl⟩ := ht.ne_sizes
  simp only [sizeOf, hc, head?_cons, some.injEq]
  rw [if_neg hh, if_neg hl]

theorem sizeOf_written (ht : IsType t) (size : Size) : sizeOf (size.text ++ [t]) = (size, [t]) := by
  cases size with
  | none =>
    show sizeOf [t] = _
    simp only [sizeOf, ht.notSize]
  | H | q => rfl
  | h | l | j | z | t | L => exact sizeOf_letter ht rfl

/-- What the precision of a directive is read as. -/
def readAs (precision : Option Nat) : Nat := (precision.map (· % 256)).getD 6

theorem precisionOf_written (env : Env F) (ht : IsType t) (size : Size) (precision : Option Nat) :
    precisionOf env (precisionText precision ++ (size.text ++ [t])) =
      (readAs precision, precision.isSome, size.text ++ [t]) := by
  cases precision with
  | none =>
    rw [precisionText, nil_append]
    cases h : size.text ++ [t] with
    | nil => exact absurd h (by simp)
    | cons c s =>
      rw [precisionOf, if_neg (size_head ht h).2.2]
      rfl
  | some p =>
    obtain ⟨taken, left⟩ := span_append (isdigit_decimal env p)
      (fun c s h => (size_head ht h).2.1 env)
    rw [precisionText, cons_append, precisionOf, if_pos rfl, taken, left, foldl_addDigit_decimal]
    rfl

/-- The flags of a list of written ones. -/
def flagsOf (flags : List Flag) : Flags where
  leftAlign := minus ∈ flags
  plusPrepend := plus ∈ flags
  spacePrepend := space ∈ flags
  zeroPad := zero ∈ flags

theorem foldl_set_from (flags : List Flag) (acc : Flags) :
    (flags.map char).foldl Flags.set acc =
      { leftAlign := acc.leftAlign || (flagsOf flags).leftAlign
        plusPrepend := acc.plusPrepend || (flagsOf flags).plusPrepend
        spacePrepend := acc.spacePrepend || (flagsOf flags).spacePrepend
        zeroPad := acc.zeroPad || (flagsOf flags).zeroPad
        altMode := acc.altMode } := by
  induction flags generalizing acc with
  | nil => simp [flagsOf]
  | cons f flags ih =>
    rw [map_cons, foldl_cons, ih]
    cases f <;> simp [flagsOf, char, Flags.set, ascii]

theorem foldl_set_written (flags : List Flag) :
    (flags.map char).foldl Flags.set {} = flagsOf flags := by
  rw [foldl_set_from]
  simp [flagsOf]

theorem isFlag_char (flags : List Flag) : ∀ c ∈ flags.map char, isFlag c = true := by
  intro c hc
  obtain ⟨f, -, rfl⟩ := mem_map.mp hc
  cases f <;> decide

/-- A written directive is read back. -/
theorem directiveOf_written (env : Env F) (ht : IsType t) (flags : List Flag) (width : Nat)
    (precision : Option Nat) (size : Size) :
    directiveOf env (written flags width precision size t) =
      ({ flags := flagsOf flags, width := width % 256, precision := readAs precision,
         precisionSpecified := precision.isSome, size, typeSpecifier := t }, [t]) := by
  -- neither the precision nor what follows it starts like a flag or a digit
  have tail : ∀ c s, precisionText precision ++ (size.text ++ [t]) = c :: s →
      isFlag c = false ∧ isdigit env c = false := by
    intro c s h
    cases precision with
    | none => exact ⟨(size_head ht h).1, (size_head ht h).2.1 env⟩
    | some p =>
      obtain ⟨rfl, -⟩ := cons.inj h
      exact ⟨by decide, rfl⟩
  have width_all : ∀ c ∈ widthText width, isdigit env c = true := by
    unfold widthText
    split
    · simp
    · exact isdigit_decimal env width
  have width_head : ∀ c s, widthText width ++ (precisionText precision ++ (size.text ++ [t])) = c :: s →
      isFlag c = false := by
    intro c s h
    unfold widthText at h
    split at h
    case isTrue => exact (tail c s h).1
    case isFalse pos =>
      obtain ⟨c', s', hdec, hflag⟩ := isFlag_decimal_head (show 0 < width by omega)
      rw [hdec] at h
      obtain ⟨rfl, -⟩ := cons.inj h
      exact hflag
  have width_fold : (widthText width).foldl addDigit 0 = width % 256 := by
    unfold widthText
    split
    case isTrue zero => rw [zero]; rfl
    case isFalse => exact foldl_addDigit_decimal width
  obtain ⟨flags_taken, flags_left⟩ := span_append (isFlag_char flags) width_head
  obtain ⟨width_taken, width_left⟩ := span_append width_all fun c s h => (tail c s h).2
  rw [directiveOf, written, flags_taken, flags_left]
  simp only [width_taken, width_left, precisionOf_written env ht, sizeOf_written ht, foldl_set_written,
    width_fold, headD_cons]

/-- A format of one written directive has one piece. -/
theorem pieces_written (env : Env F) (ht : IsType t) (flags : List Flag) (width : Nat)
    (precision : Option Nat) (size : Size) :
    pieces env (ascii '%' :: written flags width precision size t) =
      [.conv { flags := flagsOf flags, width := width % 256, precision := readAs precision,
               precisionSpecified := precision.isSome, size, typeSpecifier := t }] := by
  have read := directiveOf_written env ht flags width precision size
  rw [pieces, if_neg (not_not_intro rfl)]
  split
  case h_1 cut =>
    rw [read] at cut
    cases cut
  case h_2 c rest more =>
    rw [read] at more
    obtain ⟨-, rfl⟩ := cons.inj more
    rw [read, pieces]

/-- What a format of one conversion gives on an unlimited channel. -/
theorem one_conversion {format : NulString} {d : Directive} (one : pieces env format.chars = [.conv d])
    (Q : CString → Prop) :
    (∃ fuel r, stdioFormatCore textOut fuel env format [] = some r ∧ Q r.out) ↔
      format.chars.length < 2 ^ 31 ∧ ∃ fuel t, convText fuel env d 0 = some t ∧ Q t := by
  have text : ∀ fuel, textOf fuel env [.conv d] 0 = convText fuel env d 0 := fun fuel => by
    rw [textOf]
    cases convText fuel env d 0 with
    | none => rfl
    | some t => simp [textOf]
  constructor
  · rintro ⟨fuel, r, run, hq⟩
    obtain ⟨short, ht⟩ := stdioFormatCore_textOut run
    rw [one, text] at ht
    exact ⟨short, fuel, r.out, ht, hq⟩
  · rintro ⟨short, fuel, t, ht, hq⟩
    rw [← text, ← one] at ht
    obtain ⟨r, run, hr⟩ := runPieces_out textOut ht (⟨[], 0, []⟩ : Progress CString)
    refine ⟨fuel, r, (stdioFormatCore_eq textOut short []).trans run, ?_⟩
    rwa [hr, feed_textOut, nil_append]

/-! ## Strings -/

theorem isType_s : IsType (ascii 's') := ⟨by decide, fun _ => rfl, by decide, by decide⟩

/-- The text of `%s` in terms of what was written. -/
def stringShown (leftAlign : Bool) (width : Nat) (precision : Option Nat) (val : CString) : CString :=
  let padding := replicate (width % 256 - val.length) (ascii ' ')
  let shown := if precision.isSome then val.take (readAs precision) else val
  if leftAlign then shown ++ padding else padding ++ shown

theorem stringText_written (leftAlign : Bool) (width : Nat) (precision : Option Nat) :
    convText fuel env
      { flags := flagsOf (if leftAlign then [.minus] else []), width := width % 256,
        precision := readAs precision, precisionSpecified := precision.isSome, size := .none,
        typeSpecifier := ascii 's' } 0 =
      some (stringShown leftAlign width precision (env.strings (env.words 0)).chars) := by
  cases leftAlign <;> rfl

theorem shownLength_le (val : CString) (precision : Option Nat) :
    shownLength val precision ≤ val.length := by
  cases precision with
  | none => exact le_rfl
  | some p => exact min_le_left _ _

/-- The number of characters of the string that `%s` shows. -/
theorem stringShown_eq (leftAlign : Bool) (width : Nat) (precision : Option Nat) (val : CString) :
    ∃ k ≤ val.length, (∀ p, precision = some p → k = min val.length (p % 256)) ∧
      (precision = none → k = val.length) ∧
      stringShown leftAlign width precision val =
        if leftAlign then val.take k ++ replicate (width % 256 - val.length) (ascii ' ')
        else replicate (width % 256 - val.length) (ascii ' ') ++ val.take k := by
  cases precision with
  | none =>
    refine ⟨val.length, le_rfl, by simp, fun _ => rfl, ?_⟩
    rw [take_length]
    rfl
  | some p =>
    refine ⟨min val.length (p % 256), min_le_left _ _, by simp, by simp, ?_⟩
    rw [min_comm, ← take_eq_take_min]
    rfl

/-- The string and the padding are right exactly when together they have the right length. -/
theorem stringFits_iff {width len k : Nat} {precision : Option Nat} {val : CString}
    (hlen : val.length = len) (hsome : ∀ p, precision = some p → k = min len (p % 256))
    (hnone : precision = none → k = len) :
    StringFits width precision val ↔
      k + (width % 256 - len) = shownLength val precision + (width - shownLength val precision) ∧
        k = shownLength val precision := by
  unfold StringFits
  cases precision with
  | none =>
    have := hnone rfl
    simp only [shownLength, hlen, reduceCtorEq, false_implies, implies_true, true_and, and_true]
    omega
  | some p =>
    have := hsome p rfl
    simp only [shownLength, hlen, some.injEq, forall_eq']
    omega

theorem stringShown_iff (leftAlign : Bool) (width : Nat) (precision : Option Nat) (val : CString) :
    stringShown leftAlign width precision val = stringSpec leftAlign width precision val ↔
      StringFits width precision val := by
  obtain ⟨k, hk, hsome, hnone, shown⟩ := stringShown_eq leftAlign width precision val
  have hspec := shownLength_le val precision
  rw [stringFits_iff rfl hsome hnone, shown]
  simp only [stringSpec]
  generalize hk' : shownLength val precision = k' at hspec
  constructor
  · intro same
    have lengths : k + (width % 256 - val.length) = k' + (width - k') := by
      have := congrArg length same
      cases leftAlign <;> simp at this <;> omega
    refine ⟨lengths, ?_⟩
    -- a string that is cut too short is not made up for by more padding
    cases precision with
    | none => rw [hnone rfl, ← hk', shownLength]
    | some p =>
      have := hsome p rfl
      rw [shownLength] at hk'
      omega
  · rintro ⟨lengths, rfl⟩
    rw [show width % 256 - val.length = width - k by omega]

/-- `%s` and `%-s` give the first characters of the string, as many as the precision allows, padded
on the proper side, exactly if the format can be indexed and the width and the precision are such
that neither wraps around with an effect, and a string that is cut off needs no padding. -/
theorem stringFormat_iff (env : Env F) (leftAlign : Bool) (width : Nat) (precision : Option Nat)
    (format : NulString) (hformat : format.chars = stringFormat leftAlign width precision) :
    (∃ fuel r, stdioFormatCore textOut fuel env format [] = some r ∧
      r.out = stringSpec leftAlign width precision (env.strings (env.words 0)).chars) ↔
    format.chars.length < 2 ^ 31 ∧
      StringFits width precision (env.strings (env.words 0)).chars := by
  have one := pieces_written env isType_s (if leftAlign then [.minus] else []) width precision .none
  rw [one_conversion (by rw [hformat]; exact one)
    (fun t => t = stringSpec leftAlign width precision (env.strings (env.words 0)).chars),
    ← stringShown_iff leftAlign]
  refine and_congr_right fun _ => ?_
  simp only [stringText_written, Option.some.injEq]
  exact ⟨fun ⟨_, _, h, h'⟩ => h.trans h', fun h => ⟨0, _, rfl, h⟩⟩

/-- Arguments that are pointers to one string. -/
def stringArgs (s : NulString) : Env Int := { sameArgs 0 with strings := fun _ => s }

/-- `"%-5.4s"` with a string of four characters. -/
theorem stringFormat_iff_four :
    ∃ fuel r, stdioFormatCore textOut fuel (stringArgs ⟨asciis "abcd", by decide⟩)
      ⟨stringFormat true 5 (some 4), by decide⟩ [] = some r ∧ r.out = asciis "abcd " :=
  (stringFormat_iff (stringArgs ⟨asciis "abcd", by decide⟩) true 5 (some 4)
    ⟨stringFormat true 5 (some 4), by decide⟩ rfl).mpr
    ⟨by decide, fun p hp => .inl (by cases hp; decide), .inr ⟨by decide, by decide⟩⟩

/-- `"%5.2s"` with a string of four characters: the padding is computed for all four. -/
theorem not_stringFormat_cut :
    ¬ ∃ fuel r, stdioFormatCore textOut fuel (stringArgs ⟨asciis "abcd", by decide⟩)
      ⟨stringFormat false 5 (some 2), by decide⟩ [] = some r ∧
      r.out = stringSpec false 5 (some 2) (asciis "abcd") := by
  rintro ⟨fuel, r, run, text⟩
  obtain rfl := Option.some.inj run
  exact absurd text (by decide)

end Stos.Libc
