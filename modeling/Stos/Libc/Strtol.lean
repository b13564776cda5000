import Stos.Misc.Bytes

/-!
# `strtol`

`libc/src/stdlib/strtol.c` with the character classes of `libc/include/ctype.h`. A pointer into the
string is the list of the bytes from there on. The table of ctype.h has 128 entries; what stands
behind it, where the macros read for a byte from 128 on, is the parameter `beyond`.
-/

namespace Stos.Libc.Stdlib

open List BitVec Bool

/-! ## The code -/

section Code

variable (beyond : BitVec 8 → BitVec 8)

/-- A test of the flags of a byte; `inTable` is the test on the entries of the table. -/
def flag (test : BitVec 8 → Bool) (inTable : Nat → Bool) (c : BitVec 8) : Bool :=
  if c.toNat < 128 then inTable c.toNat else test (beyond c)

/-- `isspace` (ctype.h:181). -/
def isspace : BitVec 8 → Bool :=
  flag beyond (fun f => f &&& 0x20 ≠ 0) fun n => n = 32 || 9 ≤ n && n ≤ 13

/-- `isupper` (ctype.h:182). -/
def isupper : BitVec 8 → Bool :=
  flag beyond (fun f => f &&& 0x0C = 0x0C) fun n => 65 ≤ n && n ≤ 90

/-- `isalpha` (ctype.h:184). -/
def isalpha : BitVec 8 → Bool :=
  flag beyond (fun f => f &&& 0x04 ≠ 0) fun n => 65 ≤ n && n ≤ 90 || 97 ≤ n && n ≤ 122

/-- `isdigit` (ctype.h:185). -/
def isdigit : BitVec 8 → Bool :=
  flag beyond (fun f => f &&& 0x02 ≠ 0) fun n => 48 ≤ n && n ≤ 57

/-- `isxdigit` (ctype.h:186). -/
def isxdigit : BitVec 8 → Bool :=
  flag beyond (fun f => f &&& 0x40 ≠ 0) fun n =>
    48 ≤ n && n ≤ 57 || 65 ≤ n && n ≤ 70 || 97 ≤ n && n ≤ 102

/-- The digit that a character stands for (strtol.c:55-65); a `char` is signed. -/
def digitOf (c : BitVec 8) : Option Int :=
  if isdigit beyond c then some (c.toInt - 48)
  else if isalpha beyond c then
    some (if isupper beyond c then c.toInt - 65 + 10 else c.toInt - 97 + 10)
  else none

/-- The loop over the digits (strtol.c:52-75): the result, `found_digit` and where it stops. -/
def digitLoop (base : Int) (result : BitVec 32) (found : Bool) :
    CString → BitVec 32 × Bool × CString
  | [] => (result, found, [])
  | c :: s =>
    if c = 0 then (result, found, c :: s)
    else
      match digitOf beyond c with
      | none => (result, found, c :: s)
      | some digit =>
        if digit ≥ base then (result, found, c :: s)
        else digitLoop base (result * BitVec.ofInt 32 base + BitVec.ofInt 32 digit) true s

/-- `0x` or `0X` and a hexadecimal digit (strtol.c:35 and 44). -/
def hexPrefix (s : CString) : Bool :=
  s.getD 0 0 = 48 && (s.getD 1 0 = 120 || s.getD 1 0 = 88) && isxdigit beyond (s.getD 2 0)

/-- The base and where the digits start (strtol.c:33-48). -/
def detectBase (base : Int) (s : CString) : Int × CString :=
  if base = 0 then
    if s.getD 0 0 = 48 then if hexPrefix beyond s then (16, s.drop 2) else (8, s) else (10, s)
  else if base = 16 ∧ hexPrefix beyond s then (16, s.drop 2)
  else (base, s)

/-- What `strtol` returns, what it stores in `*endptr`, and whether `errno` is set to `EINVAL`. -/
structure Result where
  value : BitVec 32
  endptr : CString
  einval : Bool
deriving DecidableEq

/-- `strtol` (strtol.c:5-89). -/
def strtol (str : CString) (base : Int) : Result :=
  if base < 0 ∨ base = 1 ∨ base > 36 then ⟨0, str, true⟩
  else
    let s := str.dropWhile (isspace beyond)
    let negative : Bool := s.getD 0 0 = 45
    let s := if negative || s.getD 0 0 = 43 then s.drop 1 else s
    let (base, s) := detectBase beyond base s
    let (result, found, s) := digitLoop beyond base 0 false s
    ⟨if negative then -result else result, if found then s else str, false⟩

end Code

/-! ## Numerals -/

/-- The character `c` is the digit `d` of a base, in either letter case. -/
def IsDigit (base : Nat) (c : BitVec 8) (d : Nat) : Prop :=
  d < base ∧ (d < 10 ∧ c.toNat = 48 + d ∨ 10 ≤ d ∧ d < 36 ∧ (c.toNat = 55 + d ∨ c.toNat = 87 + d))

/-- The characters are a numeral of a number; zeros may stand in front. -/
inductive Numeral (base : Nat) : CString → Nat → Prop
  | digit {c d} : IsDigit base c d → Numeral base [c] d
  | snoc {cs n c d} : Numeral base cs n → IsDigit base c d →
      Numeral base (cs ++ [c]) (n * base + d)

/-- The sign and the absolute value of a `long`. -/
inductive Signed (v : BitVec 32) : CString → Nat → Prop
  | plain : 0 ≤ v.toInt → Signed v [] v.toInt.toNat
  | plus : 0 ≤ v.toInt → Signed v [43] v.toInt.toNat
  | minus : v.toInt < 0 → Signed v [45] (-v.toInt).toNat

/-- The argument `base` of `strtol`, the prefix, the base of the digits, and the digits. -/
inductive Written : Int → CString → Nat → CString → Prop
  | plain {base : Nat} {cs} : 2 ≤ base → base ≤ 36 → Written base [] base cs
  | hex {arg x cs} : arg = 16 ∨ arg = 0 → x = 120 ∨ x = 88 → Written arg [48, x] 16 cs
  | octal {cs} : Written 0 [] 8 (48 :: cs)
  | decimal {cs} : cs.head? ≠ some 48 → Written 0 [] 10 cs

variable {base n d : Nat} {c : BitVec 8} {v r : BitVec 32} {arg : Int} {pre cs s rest : CString}

theorem Numeral.isDigit (h : Numeral base cs n) : cs ≠ [] ∧ ∀ a ∈ cs, ∃ d, IsDigit base a d := by
  induction h with
  | digit hc => exact ⟨by simp, by simpa using ⟨_, hc⟩⟩
  | snoc _ hc ih =>
    refine ⟨by simp, fun a ha => ?_⟩
    rcases mem_append.mp ha with ha | ha
    · exact ih.2 a ha
    · exact mem_singleton.mp ha ▸ ⟨_, hc⟩

/-! ## The loop -/

section Loop

variable {beyond : BitVec 8 → BitVec 8} {found : Bool}

theorem digitOf_eq_some (hc : c.toNat < 128) {x : Int} (hx : x < base) :
    digitOf beyond c = some x ↔ ∃ d, x = (d : Nat) ∧ IsDigit base c d := by
  have hint : c.toInt = c.toNat := toInt_eq_toNat_of_lt (by omega)
  simp only [digitOf, isdigit, isalpha, isupper, flag, if_pos hc, hint, and_eq_true,
    or_eq_true, decide_eq_true_eq, IsDigit]
  constructor
  · intro h
    refine ⟨x.toNat, ?_⟩
    split_ifs at h <;> cases h <;> omega
  · rintro ⟨d, rfl, h⟩
    split_ifs <;> first | (refine congrArg some ?_; omega) | omega

theorem digitLoop_digit (h : IsDigit base c d) : digitLoop beyond base r found (c :: s) =
    digitLoop beyond base (r * BitVec.ofNat 32 base + BitVec.ofNat 32 d) true s := by
  have hd := h.1
  have hlt : 48 ≤ c.toNat ∧ c.toNat < 128 := by
    unfold IsDigit at h
    omega
  have hc : c ≠ 0 := by
    rintro rfl
    exact absurd hlt.1 (by decide)
  rw [digitLoop, if_neg hc, (digitOf_eq_some hlt.2 (by omega)).mpr ⟨d, rfl, h⟩]
  dsimp only
  rw [if_neg (by omega), ofInt_natCast, ofInt_natCast]

/-- The loop over a numeral. -/
theorem digitLoop_numeral (h : Numeral base cs n) (s : CString) :
    digitLoop beyond base 0#32 false (cs ++ s) =
      digitLoop beyond base (BitVec.ofNat 32 n) true s := by
  induction h generalizing s with
  | digit hc => rw [singleton_append, digitLoop_digit hc, BitVec.zero_mul, BitVec.zero_add]
  | snoc _ hc ih =>
    rw [List.append_assoc, ih, List.singleton_append, digitLoop_digit hc, BitVec.ofNat_add,
      ofNat_mul]

/-- A character of the table that is not a digit of the base ends the loop. -/
theorem digitLoop_stop (hc : c.toNat < 128) (hstop : ∀ d, ¬ IsDigit base c d) :
    digitLoop beyond base r found (c :: s) = (r, found, c :: s) := by
  rw [digitLoop]
  split_ifs
  · rfl
  cases hd : digitOf beyond c with
  | none => rfl
  | some digit =>
    refine if_pos (Int.not_lt.mp fun hlt => ?_)
    obtain ⟨d, -, h⟩ := (digitOf_eq_some hc hlt).mp hd
    exact hstop d h

theorem digitLoop_found (b : BitVec 8 → BitVec 8) (base : Int) (r : BitVec 32) (s : CString) :
    (digitLoop b base r true s).2.1 = true ∧
      (digitLoop b base r true s).2.2.length ≤ s.length := by
  induction s generalizing r with
  | nil => exact ⟨rfl, Nat.le_refl _⟩
  | cons c s ih =>
    have hstop : true = true ∧ (c :: s).length ≤ (c :: s).length := ⟨rfl, Nat.le_refl _⟩
    rw [digitLoop]
    split_ifs
    · exact hstop
    split
    · exact hstop
    split_ifs
    · exact hstop
    · exact ⟨(ih _).1, Nat.le_succ_of_le (ih _).2⟩

/-- A character behind the table is taken for a digit if the byte read there says so. -/
theorem digitLoop_beyond (hc : ¬ c.toNat < 128) :
    (digitLoop (fun _ => 2) base r true (c :: s)).2.2 ≠ c :: s := by
  have hint : c.toInt < 0 := by
    rw [toInt_eq_toNat_cond]
    omega
  have hzero : c ≠ 0 := by
    rintro rfl
    exact hc (by decide)
  have hdigit : isdigit (fun _ => 2) c = true := by
    rw [isdigit, flag, if_neg hc]
    decide
  rw [digitLoop, if_neg hzero, digitOf, if_pos hdigit]
  dsimp only
  rw [if_neg (by omega)]
  intro e
  have hle : (c :: s).length ≤ s.length := by
    rw [← e]
    exact (digitLoop_found _ base _ s).2
  exact Nat.not_succ_le_self _ hle

end Loop

/-! ## The whole call -/

section Call

variable {beyond : BitVec 8 → BitVec 8}

/-- A numeral without prefix is not read as one with a prefix. -/
theorem hexPrefix_numeral (h : Numeral base cs n) (hbase : base ≤ 16)
    (hx : cs = [48] → c ≠ 120 ∧ c ≠ 88) : hexPrefix beyond (cs ++ c :: rest) = false := by
  obtain ⟨hne, hdigits⟩ := h.isDigit
  refine eq_false_iff.mpr fun hp => ?_
  simp only [hexPrefix, and_eq_true, or_eq_true, decide_eq_true_eq] at hp
  obtain ⟨⟨h0, h1⟩, -⟩ := hp
  match cs, hne with
  | [a], _ =>
    obtain rfl : a = 48 := h0
    exact h1.elim (hx rfl).1 (hx rfl).2
  | a :: b :: cs, _ =>
    obtain ⟨d, hd⟩ := hdigits b (by simp)
    have hb : b = 120 ∨ b = 88 := h1
    unfold IsDigit at hd
    rcases hb with rfl | rfl <;> simp at hd <;> omega

theorem detectBase_written (beyond : BitVec 8 → BitVec 8) (rest : CString) (hform : Written arg pre base cs) (h : Numeral base cs n)
    (hx : cs = [48] → c ≠ 120 ∧ c ≠ 88) :
    detectBase beyond arg (pre ++ (cs ++ c :: rest)) = (↑base, cs ++ c :: rest) := by
  unfold detectBase
  cases hform with
  | plain hlo hhi =>
    rw [if_neg (by omega), if_neg]
    · rfl
    rintro ⟨h16, hhex⟩
    rw [nil_append, hexPrefix_numeral h (by omega) hx] at hhex
    cases hhex
  | hex harg hxx =>
    obtain ⟨hne, hdigits⟩ := h.isDigit
    obtain ⟨a, cs, rfl⟩ := exists_cons_of_ne_nil hne
    obtain ⟨d, hd⟩ := hdigits a (by simp)
    have ha : isxdigit beyond a = true := by
      unfold IsDigit at hd
      rw [isxdigit, flag, if_pos (by omega)]
      simp only [or_eq_true, and_eq_true, decide_eq_true_eq]
      omega
    rcases harg with rfl | rfl <;> rcases hxx with rfl | rfl <;> simp [hexPrefix, ha]
  | octal =>
    rw [nil_append, hexPrefix_numeral h (by omega) hx]
    rfl
  | decimal hhead =>
    rw [if_pos rfl, if_neg]
    · rfl
    obtain ⟨a, cs, rfl⟩ := exists_cons_of_ne_nil h.isDigit.1
    simpa using hhead

/-- The call on a `long` behind its blanks is the loop on what follows the numeral. -/
theorem strtol_digits {ws sign : CString} (hws : ∀ w ∈ ws, w.toNat = 32 ∨ 9 ≤ w.toNat ∧ w.toNat ≤ 13)
    (hsign : Signed v sign n) (hform : Written arg pre base cs) (h : Numeral base cs n)
    (hx : cs = [48] → c ≠ 120 ∧ c ≠ 88) :
    strtol beyond (ws ++ (sign ++ (pre ++ (cs ++ c :: rest)))) arg =
      ⟨if sign = [45] then -(digitLoop beyond base (BitVec.ofNat 32 n) true (c :: rest)).1
        else (digitLoop beyond base (BitVec.ofNat 32 n) true (c :: rest)).1,
        (digitLoop beyond base (BitVec.ofNat 32 n) true (c :: rest)).2.2, false⟩ := by
  have hdetect := detectBase_written beyond rest hform h hx
  have harg : ¬ (arg < 0 ∨ arg = 1 ∨ arg > 36) := by
    cases hform <;> omega
  obtain ⟨a, body, hbody, ha⟩ : ∃ a body, pre ++ (cs ++ c :: rest) = a :: body ∧
      48 ≤ a.toNat ∧ a.toNat < 128 := by
    obtain ⟨hne, hdigits⟩ := h.isDigit
    obtain ⟨a, cs, rfl⟩ := exists_cons_of_ne_nil hne
    obtain ⟨d, hd⟩ := hdigits a (by simp)
    have ha : 48 ≤ a.toNat ∧ a.toNat < 128 := by
      unfold IsDigit at hd
      omega
    cases hform with
    | hex _ _ => exact ⟨48, _, rfl, by decide⟩
    | _ => exact ⟨_, _, rfl, ha⟩
  have hspace : ∀ w : BitVec 8, w.toNat < 128 →
      (isspace beyond w = true ↔ w.toNat = 32 ∨ 9 ≤ w.toNat ∧ w.toNat ≤ 13) := by
    intro w hw
    simp [isspace, flag, hw]
  have hskip : (ws ++ (sign ++ a :: body)).dropWhile (isspace beyond) = sign ++ a :: body := by
    rw [dropWhile_append_of_pos fun w hw => (hspace w (by have := hws w hw; omega)).mpr
      (hws w hw)]
    cases hsign with
    | plain _ => exact dropWhile_cons_of_neg fun e => by have := (hspace a ha.2).mp e; omega
    | _ => exact dropWhile_cons_of_neg (by simp [isspace, flag])
  rw [hbody] at hdetect ⊢
  unfold strtol
  rw [if_neg harg, hskip]
  have hfound := (digitLoop_found beyond base (BitVec.ofNat 32 n) (c :: rest)).1
  cases hsign with
  | plain _ =>
    have h45 : a ≠ 45#8 := by rintro rfl; simp at ha
    have h43 : a ≠ 43#8 := by rintro rfl; simp at ha
    simp [h45, h43, hdetect, digitLoop_numeral h, hfound]
  | _ => simp [hdetect, digitLoop_numeral h, hfound]

theorem Signed.value {sign : CString} (h : Signed v sign n) :
    (if sign = [45] then -BitVec.ofNat 32 n else BitVec.ofNat 32 n) = v := by
  apply eq_of_toNat_eq
  cases h <;> simp <;> rw [toInt_eq_toNat_cond] at * <;> split_ifs at * <;> omega

/-- `strtol` gives back a `long` that was written out, whatever stands behind the table of ctype.h,
exactly if the character that ends the number is in the table. -/
theorem strtol_inverse_iff {ws sign : CString}
    (hws : ∀ w ∈ ws, w.toNat = 32 ∨ 9 ≤ w.toNat ∧ w.toNat ≤ 13) (hsign : Signed v sign n)
    (hform : Written arg pre base cs) (hnum : Numeral base cs n)
    (hstop : ∀ d, ¬ IsDigit base c d) (hx : cs = [48] → c ≠ 120 ∧ c ≠ 88) :
    (∀ beyond, strtol beyond (ws ++ (sign ++ (pre ++ (cs ++ c :: rest)))) arg =
      ⟨v, c :: rest, false⟩) ↔ c.toNat < 128 := by
  constructor
  · intro hall
    by_contra hc
    have h := hall fun _ => 2
    rw [strtol_digits hws hsign hform hnum hx] at h
    exact digitLoop_beyond hc (congrArg Result.endptr h)
  · intro hc beyond
    rw [strtol_digits hws hsign hform hnum hx, digitLoop_stop hc hstop, hsign.value]

/-- A blank and `-0x7` up to the end of the string, in base 16. -/
theorem strtol_inverse_minusSeven :
    strtol (fun _ => 0) [32, 45, 48, 120, 55, 0] 16 = ⟨-7, [0], false⟩ :=
  (strtol_inverse_iff (show ∀ w ∈ ([32] : CString), _ by simp) (.minus (v := -7) (by decide))
    (.hex (x := 120) (.inl rfl) (.inl rfl)) (.digit (c := 55) (by unfold IsDigit; decide))
    (by unfold IsDigit; simp; omega) (by simp)).mpr (by decide) _

/-- In the string `1`, `0x80` the loop runs on if the byte behind the table has the digit's flag. -/
theorem strtol_highByte : strtol (fun _ => 2) [49, 0x80, 0] 10 = ⟨-166, [0], false⟩ := by decide

end Call

end Stos.Libc.Stdlib
