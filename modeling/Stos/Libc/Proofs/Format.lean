import Stos.Libc.Format

/-!
# What the formatter emits

A format is a list of pieces: ordinary characters, conversions, and possibly a conversion without a
type at its end (`pieces`). Each conversion emits a text that depends on its directive and its
arguments only (`convText`), so that the loop of `__stdio_format_core` is a walk over the pieces
(`formatLoop_eq`), whatever the output channel does.
-/

namespace Stos.Libc

open List Option

variable {σ F : Type} {out : Out σ} {env : Env F} {fuel a : Nat} {d : Directive}

/-! ## Emitting texts -/

theorem andThen_assoc (r : Progress σ × Bool) (f g : Progress σ → Progress σ × Bool) :
    andThen (andThen r f) g = andThen r fun s => andThen (f s) g := by
  obtain ⟨s, ok⟩ := r
  cases ok <;> rfl

@[simp] theorem andThen_true (s : Progress σ) (k : Progress σ → Progress σ × Bool) :
    andThen (s, true) k = k s := rfl

@[simp] theorem andThen_false (s : Progress σ) (k : Progress σ → Progress σ × Bool) :
    andThen (s, false) k = (s, false) := rfl

@[simp] theorem andThen_done (r : Progress σ × Bool) : (andThen r fun s => (s, true)) = r := by
  obtain ⟨s, ok⟩ := r
  cases ok <;> rfl

theorem emitStr_append (s : Progress σ) (xs ys : CString) :
    emitStr out s (xs ++ ys) = andThen (emitStr out s xs) fun s => emitStr out s ys := by
  induction xs generalizing s with
  | nil => rfl
  | cons c xs ih => simp only [cons_append, emitStr, andThen_assoc, ih]

theorem emit_eq_emitStr (s : Progress σ) (c : BitVec 8) : emit out s c = emitStr out s [c] :=
  (andThen_done _).symm

theorem emitPad_eq_emitStr (c : BitVec 8) (n : Nat) (s : Progress σ) :
    emitPad out c n s = emitStr out s (replicate n c) := by
  induction n generalizing s with
  | zero => rfl
  | succ n ih =>
    exact congrArg (andThen _) (funext ih)

theorem emitStrWithLimit_eq_emitStr (s : Progress σ) (cs : CString) (limit : Nat) :
    emitStrWithLimit out s cs limit = emitStr out s (cs.take limit) := by
  induction cs generalizing s limit with
  | nil => rw [take_nil, emitStrWithLimit, emitStr]
  | cons c cs ih =>
    cases limit with
    | zero => rfl
    | succ limit =>
      exact congrArg (andThen _) (funext fun s => ih s limit)

/-- What a channel makes of a text: the characters go to it until it refuses one. -/
def feed (out : Out σ) : σ → CString → σ × Bool
  | o, [] => (o, true)
  | o, c :: cs =>
    match out.emitChar o c with
    | (o, true) => feed out o cs
    | (o, false) => (o, false)

theorem emitStr_feed (out : Out σ) (s : Progress σ) (cs : CString) :
    ((emitStr out s cs).1.out, (emitStr out s cs).2) = feed out s.out cs := by
  induction cs generalizing s with
  | nil => rfl
  | cons c cs ih =>
    rw [emitStr, emit, feed]
    rcases out.emitChar s.out c with ⟨o, ok⟩
    cases ok with
    | false => rfl
    | true => exact ih _

theorem feed_append (o : σ) (xs ys : CString) :
    feed out o (xs ++ ys) = if (feed out o xs).2 then feed out (feed out o xs).1 ys else feed out o xs := by
  induction xs generalizing o with
  | nil => rfl
  | cons c xs ih =>
    rw [cons_append, feed, feed]
    rcases out.emitChar o c with ⟨o', ok⟩
    cases ok with
    | false => rfl
    | true => exact ih o'

/-! ## The text of a conversion -/

/-- The text of an integer conversion. -/
def intText (env : Env F) (d : Directive) (base : Nat) (value : Option (Int × Nat)) : CString :=
  match value with
  | none => []
  | some (integer, _) => intToStr env integer base d.flags.plusPrepend d.flags.spacePrepend d.width
      d.flags.leftAlign d.flags.zeroPad

/-- The text of `%s`. -/
def stringText (env : Env F) (d : Directive) (a : Nat) : CString :=
  let val := (env.strings (env.words a)).chars
  let padding := replicate (d.width - val.length) (if d.flags.zeroPad then ascii '0' else ascii ' ')
  let shown := if d.precisionSpecified then val.take d.precision else val
  if d.flags.leftAlign then shown ++ padding else padding ++ shown

/-- The text of a scaled number. -/
def doubleText (env : Env F) (d : Directive) (floating : F) (expo : Int) : CString :=
  let (intPart, decPlaces) := splitDouble env.toDoubles floating d.precision
  intToStr env intPart 10 d.flags.plusPrepend d.flags.spacePrepend (integerWidth d expo)
      d.flags.leftAlign d.flags.zeroPad ++
    (if d.precision ≠ 0 then
      ascii '.' :: (intToStr env decPlaces 10 false false d.precision false true).take d.precision
    else if d.flags.altMode then [ascii '.'] else []) ++
    (if d.eMode then
      (if d.typeSpecifier = ascii 'E' then ascii 'E' else ascii 'e') ::
        intToStr env expo 10 false false 0 false false
    else [])

/-- The text of a conversion; there is none if the number cannot be scaled. -/
def convText (fuel : Nat) (env : Env F) (d : Directive) (a : Nat) : Option CString :=
  match d.conversion with
  | .unsigned base size alt => some (asciis alt ++ intText env d base (unsignedArg env size a))
  | .signed => some (intText env d 10 (signedArg env d.size a))
  | .char => some [(env.words a).setWidth 8]
  | .string => some (stringText env d a)
  | .double =>
    (scale env.toDoubles fuel d.eMode (env.ofBits (env.dword a))).map fun (floating, expo) =>
      doubleText env d floating expo
  | .percent => some [ascii '%']
  | .count | .unknown => some []

/-- The position of the next argument after an integer conversion. -/
def afterInt (value : Option (Int × Nat)) (a : Nat) : Nat :=
  match value with
  | none => a
  | some (_, a) => a

/-- The position of the next argument after a conversion. -/
def nextArg (env : Env F) (d : Directive) (a : Nat) : Nat :=
  match d.conversion with
  | .unsigned _ size _ => afterInt (unsignedArg env size a) a
  | .signed => afterInt (signedArg env d.size a) a
  | .char | .string => a + 1
  | .count => if d.size = .L then a else a + 1
  | .double => a + 2
  | .percent | .unknown => a

/-- What a conversion stores before it emits its text: only `%n` stores anything. -/
def stored (env : Env F) (d : Directive) (s : Progress σ) (a : Nat) : Progress σ :=
  match d.conversion with
  | .count => (convertCount env d s a).1.1
  | _ => s

theorem convertInt_eq (d : Directive) (base : Nat) (value : Option (Int × Nat)) (s : Progress σ)
    (a : Nat) : convertInt out env d base value s a =
      (emitStr out s (intText env d base value), afterInt value a) := by
  cases value <;> rfl

theorem convertString_eq (d : Directive) (s : Progress σ) (a : Nat) :
    convertString out env d s a = (emitStr out s (stringText env d a), a + 1) := by
  unfold convertString stringText
  simp only [emitPad_eq_emitStr, emitStrWithLimit_eq_emitStr]
  cases d.flags.leftAlign <;> cases d.precisionSpecified <;>
    simp [emitStr_append]

theorem emitDouble_eq (d : Directive) (floating : F) (expo : Int) (s : Progress σ) :
    emitDouble out env d floating expo s = emitStr out s (doubleText env d floating expo) := by
  simp only [emitDouble, doubleText]
  rw [emitStr_append, emitStr_append]
  refine congrArg₂ andThen (congrArg (andThen _) (funext fun s => ?_)) (funext fun s => ?_)
  · split
    · rfl
    · split
      · rw [emit_eq_emitStr]
      · rfl
  · split
    · rfl
    · rfl

/-- A conversion emits its text. -/
theorem convert_eq (out : Out σ) {t : CString} (h : convText fuel env d a = some t) (s : Progress σ) :
    ∃ a', convert out fuel env d s a = some (emitStr out (stored env d s a) t, a') ∧
      ((emitStr out (stored env d s a) t).2 = true → a' = nextArg env d a) := by
  unfold convText at h
  unfold convert stored nextArg
  cases conv : d.conversion <;> simp only [conv, some.injEq] at h ⊢
  case unsigned base size alt =>
    subst h
    rw [emitStr_append]
    rcases emitStr out s (asciis alt) with ⟨s', ok⟩
    cases ok with
    | false => exact ⟨a, rfl, fun stopped => by cases stopped⟩
    | true => exact ⟨_, congrArg some (convertInt_eq d base _ s' a), fun _ => rfl⟩
  case signed =>
    subst h
    exact ⟨_, convertInt_eq d 10 _ s a, fun _ => rfl⟩
  case char =>
    subst h
    exact ⟨a + 1, by rw [emit_eq_emitStr], fun _ => rfl⟩
  case string =>
    subst h
    exact ⟨a + 1, by rw [convertString_eq], fun _ => rfl⟩
  case count =>
    subst h
    unfold convertCount
    by_cases hL : d.size = .L
    · rw [if_pos hL, if_pos hL]
      exact ⟨a, rfl, fun _ => rfl⟩
    · rw [if_neg hL, if_neg hL]
      exact ⟨a + 1, rfl, fun _ => rfl⟩
  case double =>
    obtain ⟨⟨floating, expo⟩, hscale, rfl⟩ := map_eq_some_iff.mp h
    refine ⟨a + 2, ?_, fun _ => rfl⟩
    rw [convertDouble, hscale]
    exact congrArg (fun r => some (r, a + 2)) (emitDouble_eq d floating expo s)
  case percent =>
    subst h
    exact ⟨a, by rw [emit_eq_emitStr], fun _ => rfl⟩
  case unknown =>
    subst h
    exact ⟨a, rfl, fun _ => rfl⟩

/-- A number that cannot be scaled keeps the formatter in its loops. -/
theorem convert_none (h : convText fuel env d a = none) (s : Progress σ) :
    convert out fuel env d s a = none := by
  unfold convText at h
  unfold convert
  cases conv : d.conversion with
  | double =>
    simp only [conv, map_eq_none_iff] at h ⊢
    rw [convertDouble, h]
    rfl
  | _ => simp [conv] at h

/-! ## The pieces of a format -/

/-- A piece of a format: an ordinary character, a conversion, or a conversion that the end of the
format cuts off before its type. -/
inductive Piece where
  | lit (c : BitVec 8)
  | conv (d : Directive)
  | cut

/-- The precision at the start of a string, and what follows it. -/
def precisionOf (env : Env F) (s : CString) : Nat × Bool × CString :=
  match s with
  | [] => (6, false, [])
  | c :: s =>
    if c = ascii '.' then ((s.takeWhile (isdigit env)).foldl addDigit 0, true, s.dropWhile (isdigit env))
    else (6, false, c :: s)

/-- The size at the start of a string, and what follows it. -/
def sizeOf (s : CString) : Size × CString :=
  match s with
  | [] => (.none, [])
  | c :: s =>
    match sizeMode c with
    | none => (.none, c :: s)
    | some size =>
      if s.head? = some (ascii 'h') then (.H, s.tail)
      else if s.head? = some (ascii 'l') then (.q, s.tail)
      else (size, s)

/-- The directive at the start of a string, and what follows from its type on. -/
def directiveOf (env : Env F) (s : CString) : Directive × CString :=
  let flags := (s.takeWhile isFlag).foldl Flags.set {}
  let s := s.dropWhile isFlag
  let width := (s.takeWhile (isdigit env)).foldl addDigit 0
  let (precision, precisionSpecified, s) := precisionOf env (s.dropWhile (isdigit env))
  let (size, s) := sizeOf s
  ({ flags, width, precision, precisionSpecified, size, typeSpecifier := s.headD 0 }, s)

theorem directiveOf_type (env : Env F) (s : CString) :
    (directiveOf env s).1.typeSpecifier = (directiveOf env s).2.headD 0 := rfl

/-- The terminating NUL is no type. -/
theorem conversion_zero (h : d.typeSpecifier = 0) : d.conversion = .unknown := by
  unfold Directive.conversion
  rw [h]
  rfl

theorem precisionOf_length (env : Env F) (s : CString) : (precisionOf env s).2.2.length ≤ s.length := by
  unfold precisionOf
  split
  · exact Nat.le_refl _
  · split
    · exact Nat.le_succ_of_le (dropWhile_suffix _).length_le
    · exact Nat.le_refl _

theorem sizeOf_length (s : CString) : (sizeOf s).2.length ≤ s.length := by
  unfold sizeOf
  split
  · exact Nat.le_refl _
  · split
    · exact Nat.le_refl _
    · split
      · simp only [length_tail, length_cons]
        omega
      · split
        · simp only [length_tail, length_cons]
          omega
        · simp

theorem directiveOf_length (env : Env F) (s : CString) : (directiveOf env s).2.length ≤ s.length := by
  refine Nat.le_trans (sizeOf_length _) (Nat.le_trans (precisionOf_length env _) ?_)
  exact ((dropWhile_suffix _).trans (dropWhile_suffix _)).length_le

/-- The pieces of a format. -/
def pieces (env : Env F) (s : CString) : List Piece :=
  match s with
  | [] => []
  | c :: s =>
    if c ≠ ascii '%' then .lit c :: pieces env s
    else
      match _h : (directiveOf env s).2 with
      | [] => [.cut]
      | _ :: rest => .conv (directiveOf env s).1 :: pieces env rest
termination_by s.length
decreasing_by
  · simp
  · have := directiveOf_length env s
    rw [_h] at this
    simp only [length_cons] at this ⊢
    omega

/-- The walk over the pieces of a format. -/
def runPieces (out : Out σ) (fuel : Nat) (env : Env F) :
    List Piece → Progress σ → Nat → Option (Progress σ)
  | [], s, _ => some s
  | .lit c :: ps, s, a =>
    match emitStr out s [c] with
    | (s, true) => runPieces out fuel env ps s a
    | (s, false) => some s
  | .conv d :: ps, s, a => do
    let t ← convText fuel env d a
    match emitStr out (stored env d s a) t with
    | (s, true) => runPieces out fuel env ps s (nextArg env d a)
    | (s, false) => some s
  | .cut :: _, _, _ => none

/-! ## Reading a format -/

/-- `s` is what is left of the format from an index on. -/
structure At (format : NulString) (i : Nat) (s : CString) : Prop where
  le : i ≤ format.chars.length
  drop_eq : format.chars.drop i = s

section

variable {format : NulString} {i n : Nat} {s : CString} (short : format.chars.length < 2 ^ 31)
  {c : BitVec 8}

theorem At.start (format : NulString) : At format 0 format.chars := ⟨Nat.zero_le _, drop_zero⟩

theorem At.length (h : At format i s) : i + s.length = format.chars.length := by
  have := h.le
  rw [← h.drop_eq, length_drop]
  omega

theorem At.next (h : At format i (c :: s)) : At format (i + 1) s := by
  have hlen := h.length
  rw [length_cons] at hlen
  refine ⟨by omega, ?_⟩
  rw [← drop_drop, h.drop_eq, drop_one, tail_cons]

theorem At.mem (h : At format i s) (hc : c ∈ s) : c ≠ 0 := by
  rintro rfl
  rw [← h.drop_eq] at hc
  exact format.noNul (mem_of_mem_drop hc)

theorem isdigit_zero (env : Env F) : isdigit env 0 = false := rfl

theorem isFlag_zero : isFlag 0 = false := by decide

include short

theorem At.charAt (h : At format i s) : charAt format i = some (s.headD 0) := by
  have hlen := h.length
  rw [Libc.charAt, if_pos (by omega)]
  cases s with
  | nil =>
    rw [length_nil] at hlen
    rw [getElem?_append_right (by omega), show i - format.chars.length = 0 by omega]
    rfl
  | cons c s =>
    rw [length_cons] at hlen
    rw [getElem?_append_left (by omega), ← head?_drop, h.drop_eq]
    rfl

theorem At.scan {α : Type} {p : BitVec 8 → Bool} (stop : p 0 = false) (f : α → BitVec 8 → α)
    (acc : α) (h : At format i s) (enough : s.length < n) :
    ∃ j, scan format p f n acc i = some ((s.takeWhile p).foldl f acc, j) ∧
      At format j (s.dropWhile p) := by
  induction n generalizing acc i s with
  | zero => omega
  | succ n ih =>
    rw [Libc.scan, h.charAt short]
    cases s with
    | nil =>
      refine ⟨i, ?_, h⟩
      simp only [headD_nil, bind_eq_bind, bind_some, stop]
      rfl
    | cons c s =>
      rw [length_cons] at enough
      cases hp : p c with
      | false =>
        refine ⟨i, by simp [hp], ?_⟩
        rwa [dropWhile_cons_of_neg (by simp [hp])]
      | true =>
        obtain ⟨j, run, hj⟩ := ih (f acc c) h.next (by omega)
        refine ⟨j, by simp [hp, run], ?_⟩
        rwa [dropWhile_cons_of_pos hp]

theorem At.readPrecision (env : Env F) (h : At format i s) :
    ∃ j, readPrecision env format i = some ((precisionOf env s).1, (precisionOf env s).2.1, j) ∧
      At format j (precisionOf env s).2.2 := by
  rw [Libc.readPrecision, h.charAt short]
  cases s with
  | nil => exact ⟨i, rfl, h⟩
  | cons c s =>
    have hlen := h.length
    rw [length_cons] at hlen
    unfold precisionOf
    by_cases hdot : c = ascii '.'
    · obtain ⟨j, run, hj⟩ := h.next.scan short (isdigit_zero env) addDigit 0
        (n := format.chars.length + 1) (by omega)
      refine ⟨j, ?_, ?_⟩
      · simp [hdot, run]
      · simpa [hdot] using hj
    · exact ⟨i, by simp [hdot], by simpa [hdot] using h⟩

theorem At.readSize (h : At format i s) :
    ∃ j, readSize format i = some ((sizeOf s).1, j) ∧ At format j (sizeOf s).2 := by
  rw [Libc.readSize, h.charAt short]
  cases s with
  | nil => exact ⟨i, rfl, h⟩
  | cons c s =>
    cases hmode : sizeMode c with
    | none =>
      have hsize : sizeOf (c :: s) = (.none, c :: s) := by simp only [sizeOf, hmode]
      rw [hsize]
      exact ⟨i, by simp [hmode], h⟩
    | some size =>
      have hsize : sizeOf (c :: s) = if s.head? = some (ascii 'h') then (.H, s.tail)
          else if s.head? = some (ascii 'l') then (.q, s.tail) else (size, s) := by
        simp only [sizeOf, hmode]
      cases s with
      | nil =>
        have hnext : Libc.charAt format (i + 1) = some 0 := h.next.charAt short
        simp only [headD_cons, bind_eq_bind, bind_some, hmode, hnext, hsize]
        exact ⟨i + 1, rfl, h.next⟩
      | cons c' s =>
        have hnext : Libc.charAt format (i + 1) = some c' := h.next.charAt short
        simp only [headD_cons, bind_eq_bind, bind_some, hmode, hnext, hsize,
          head?_cons, some.injEq, tail_cons]
        by_cases hh : c' = ascii 'h'
        · rw [if_pos hh, if_pos hh]
          exact ⟨i + 2, rfl, h.next.next⟩
        · rw [if_neg hh, if_neg hh]
          by_cases hl : c' = ascii 'l'
          · rw [if_pos hl, if_pos hl]
            exact ⟨i + 2, rfl, h.next.next⟩
          · rw [if_neg hl, if_neg hl]
            exact ⟨i + 1, rfl, h.next⟩

theorem At.readDirective (env : Env F) (h : At format i s) :
    ∃ j, readDirective env format i = some ((directiveOf env s).1, j) ∧
      At format j (directiveOf env s).2 := by
  have enough : ∀ {i s}, At format i s → s.length < format.chars.length + 1 := fun h => by
    have := h.length
    omega
  obtain ⟨i1, run1, h1⟩ := h.scan short isFlag_zero Flags.set {} (enough h)
  obtain ⟨i2, run2, h2⟩ := h1.scan short (isdigit_zero env) addDigit 0 (enough h1)
  obtain ⟨i3, run3, h3⟩ := h2.readPrecision short env
  obtain ⟨i4, run4, h4⟩ := h3.readSize short
  refine ⟨i4, ?_, h4⟩
  rw [Libc.readDirective, run1]
  simp only [bind_eq_bind, bind_some, run2, run3, run4, h4.charAt short]
  rfl

/-- The loop of the formatter is the walk over the pieces. -/
theorem formatLoop_eq (h : At format i s) (enough : s.length < n) (st : Progress σ) (a : Nat) :
    formatLoop out fuel env format n st a i = runPieces out fuel env (pieces env s) st a := by
  induction n generalizing i s st a with
  | zero => omega
  | succ n ih =>
    rw [formatLoop, h.charAt short]
    cases s with
    | nil => simp [pieces, runPieces]
    | cons c s =>
      have hc : c ≠ 0 := h.mem mem_cons_self
      rw [length_cons] at enough
      simp only [headD_cons, bind_eq_bind, bind_some, if_neg hc]
      by_cases percent : c = ascii '%'
      · obtain ⟨j, run, hj⟩ := h.next.readDirective short env
        have hlen := directiveOf_length env s
        rw [if_neg (not_not_intro percent), run]
        simp only [bind_some]
        rw [pieces, if_neg (not_not_intro percent)]
        split
        case h_1 cut =>
          -- no type: the index goes beyond the terminating NUL
          rw [cut] at hj
          have beyond : Libc.charAt format (j + 1) = none := by
            have := hj.length
            rw [length_nil] at this
            rw [Libc.charAt, getElem?_eq_none (by simp; omega), ite_self]
          have unknown := conversion_zero (d := (directiveOf env s).1) (by rw [directiveOf_type, cut]; rfl)
          have stops : formatLoop out fuel env format n st a (j + 1) = none := by
            cases n with
            | zero => rfl
            | succ n => rw [formatLoop, beyond]; rfl
          simp only [convert, unknown]
          exact stops
        case h_2 t rest hrest =>
          rw [hrest] at hj hlen
          rw [length_cons] at hlen
          rw [runPieces]
          cases htext : convText fuel env (directiveOf env s).1 a with
          | none => rw [convert_none htext]; rfl
          | some text =>
            obtain ⟨a', conv, ha'⟩ := convert_eq out htext st
            rw [conv]
            revert ha'
            simp only [bind_eq_bind, bind_some]
            rcases emitStr out (stored env (directiveOf env s).1 st a) text with ⟨st', ok⟩
            intro ha'
            cases ok with
            | false => rfl
            | true =>
              obtain rfl := ha' rfl
              exact ih hj.next (by omega) st' _
      · rw [if_pos percent, pieces, if_pos percent, runPieces, emit_eq_emitStr]
        rcases emitStr out st [c] with ⟨st', ok⟩
        cases ok with
        | false => rfl
        | true => exact ih h.next (by omega) st' a

end

end Stos.Libc
