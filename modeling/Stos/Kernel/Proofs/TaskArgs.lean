import Stos.Kernel.TaskArgs

/-!
# Arguments of programs

The image that `task_push_args` builds is read back by `_crt_start`, and how much room it takes.
-/

namespace Stos.Kernel

open List Option BitVec BytesInMemory Nat

variable {m m' m'' : Mem} {a b lo mid hi sp n usrc : Nat} {ss ts argv envp : List CString}
  {ps qs : List Nat} {ws vs : List (BitVec 32)}

theorem SameOutside.trans (h : SameOutside m m' mid hi) (h' : SameOutside m' m'' lo mid)
    (hlo : lo ≤ mid) (hhi : mid ≤ hi) : SameOutside m m'' lo hi := by
  intro b hb hout
  rw [h' b hb (by omega), h b hb (by omega)]

theorem sameOutside_storeBytes (m : Mem) {xs : List (BitVec 8)} (hlen : lo + xs.length = hi)
    (hhi : hi ≤ 2 ^ 32) : SameOutside m (storeBytes m lo xs) lo hi := by
  intro b hb hout
  exact storeBytes_of_outside hb (by omega) (by omega)

/-! ## Strings -/

theorem stringsSize_cons (s : CString) (ss : List CString) :
    stringsSize (s :: ss) = s.length + 1 + stringsSize ss := by
  simp [stringsSize]

/-- The strings are in memory one after the other from `a` on, at the addresses `ps`. -/
def StringsAt (m : Mem) : Nat → List CString → List Nat → Prop
  | _, [], [] => True
  | a, s :: ss, p :: ps => p = a ∧ BytesInMemory m a (s ++ [0]) ∧ StringsAt m (a + (s.length + 1)) ss ps
  | _, _, _ => False

namespace StringsAt

section

variable (h : StringsAt m a ss ps)

include h

theorem congr (same : ∀ b, a ≤ b → b < a + stringsSize ss → m' b = m b) : StringsAt m' a ss ps := by
  fun_induction StringsAt m a ss ps with
  | case1 a => trivial
  | case2 a s ss p ps ih =>
    rw [stringsSize_cons] at same
    obtain ⟨hp, hs, hrest⟩ := h
    refine ⟨hp, hs.congr fun b hlo hhi => same b hlo ?_,
      ih hrest fun b hlo hhi => same b (by omega) (by omega)⟩
    rw [length_append, length_singleton] at hhi
    omega
  | case3 => cases h

theorem append (h' : StringsAt m (a + stringsSize ss) ts qs) :
    StringsAt m a (ss ++ ts) (ps ++ qs) := by
  fun_induction StringsAt m a ss ps with
  | case1 a => exact h'
  | case2 a s ss p ps ih =>
    rw [stringsSize_cons, ← add_assoc] at h'
    exact ⟨h.1, h.2.1, ih h.2.2 h'⟩
  | case3 => cases h

theorem length_eq : ps.length = ss.length := by
  fun_induction StringsAt m a ss ps with
  | case1 a => rfl
  | case2 a s ss p ps ih => rw [length_cons, length_cons, ih h.2.2]
  | case3 => cases h

/-- Each string lies in the area. -/
theorem bounds : ∀ x ∈ ps.zip ss, a ≤ x.1 ∧ x.1 + x.2.length + 1 ≤ a + stringsSize ss := by
  fun_induction StringsAt m a ss ps with
  | case1 a => exact nofun
  | case2 a s ss p ps ih =>
    obtain ⟨rfl, -, hrest⟩ := h
    rw [stringsSize_cons, zip_cons_cons]
    intro x hx
    rcases mem_cons.mp hx with rfl | hx
    · dsimp only
      omega
    · have := ih hrest x hx
      omega
  | case3 => cases h

/-- Strings do not overlap. -/
theorem pairwise : (ps.zip ss).Pairwise fun x y => x.1 + x.2.length + 1 ≤ y.1 := by
  fun_induction StringsAt m a ss ps with
  | case1 a => exact .nil
  | case2 a s ss p ps ih =>
    obtain ⟨rfl, -, hrest⟩ := h
    rw [zip_cons_cons, pairwise_cons]
    refine ⟨fun y hy => ?_, ih hrest⟩
    have := (hrest.bounds y hy).1
    omega
  | case3 => cases h

/-- The strings are read back. -/
theorem map_readString (nonzero : ∀ s ∈ ss, ∀ x ∈ s, x ≠ 0) (fits : a + stringsSize ss ≤ 2 ^ 32)
    (hn : stringsSize ss ≤ n) :
    (ps.map (BitVec.ofNat 32)).map (fun q => readString m n q.toNat) = ss := by
  fun_induction StringsAt m a ss ps with
  | case1 a => rfl
  | case2 a s ss p ps ih =>
    rw [stringsSize_cons] at fits hn
    obtain ⟨rfl, hs, hrest⟩ := h
    have hp : (BitVec.ofNat 32 p).toNat = p := by
      rw [toNat_ofNat, mod_eq_of_lt (by omega)]
    rw [map_cons, map_cons, hp,
      hs.readString_eq (nonzero s mem_cons_self) (by omega),
      ih hrest (fun s hs => nonzero s (mem_cons_of_mem _ hs)) (by omega) (by omega)]
  | case3 => cases h

end

end StringsAt

/-- What the loop over the strings does. -/
theorem pushStrings_spec (m : Mem) (ss : List CString) (hsp : sp < 2 ^ 32) (fits : stringsSize ss ≤ sp) :
    (pushStrings m sp ss).2.1 = sp - stringsSize ss ∧
      StringsAt (pushStrings m sp ss).1 (sp - stringsSize ss) ss (pushStrings m sp ss).2.2 ∧
        SameOutside m (pushStrings m sp ss).1 (sp - stringsSize ss) sp := by
  induction ss with
  | nil => exact ⟨rfl, trivial, fun _ _ _ => rfl⟩
  | cons s ss ih =>
    rw [stringsSize_cons] at fits ⊢
    obtain ⟨hptr, hstrings, hsame⟩ := ih (by omega)
    rw [pushStrings]
    generalize pushStrings m sp ss = r at hptr hstrings hsame
    have hnew : (r.2.1 + 2 ^ 32 - (s.length + 1)) % 2 ^ 32 = sp - (s.length + 1 + stringsSize ss) := by
      omega
    have hlen : (s ++ [(0 : BitVec 8)]).length = s.length + 1 := by
      rw [length_append, length_singleton]
    have hend : sp - (s.length + 1 + stringsSize ss) + (s.length + 1) = sp - stringsSize ss := by
      omega
    have hstore : SameOutside r.1 (storeBytes r.1 (sp - (s.length + 1 + stringsSize ss)) (s ++ [0]))
        (sp - (s.length + 1 + stringsSize ss)) (sp - stringsSize ss) :=
      sameOutside_storeBytes r.1 (by rw [hlen, hend]) (by omega)
    rw [hnew]
    refine ⟨rfl, ⟨rfl, .storeBytes r.1 (by rw [hlen]; omega), ?_⟩, ?_⟩
    · rw [hend]
      refine hstrings.congr fun b hlo hhi => hstore b (by omega) (.inr hlo)
    · exact hsame.trans hstore (by omega) (by omega)

/-! ## Words -/

theorem pushWords_append (m : Mem) (sp : Nat) (ws vs : List (BitVec 32)) :
    pushWords m sp (ws ++ vs) = pushWords (pushWords m sp vs).1 (pushWords m sp vs).2 ws := by
  induction ws with
  | nil => rfl
  | cons w ws ih => rw [List.cons_append, pushWords, ih, pushWords]

/-- What the loop over the words does. -/
theorem pushWords_spec (m : Mem) (ws : List (BitVec 32)) (hsp : sp < 2 ^ 32) (fits : 4 * ws.length ≤ sp) :
    (pushWords m sp ws).2 = sp - 4 * ws.length ∧
      BytesInMemory (pushWords m sp ws).1 (sp - 4 * ws.length) (wordsBytes ws) ∧
        SameOutside m (pushWords m sp ws).1 (sp - 4 * ws.length) sp := by
  induction ws with
  | nil => exact ⟨rfl, trivial, fun _ _ _ => rfl⟩
  | cons w ws ih =>
    rw [length_cons] at fits ⊢
    obtain ⟨hptr, hwords, hsame⟩ := ih (by omega)
    rw [pushWords]
    generalize pushWords m sp ws = r at hptr hwords hsame
    have hnew : (r.2 + 2 ^ 32 - 4) % 2 ^ 32 = sp - 4 * (ws.length + 1) := by
      omega
    have hend : sp - 4 * (ws.length + 1) + 4 = sp - 4 * ws.length := by omega
    have hstore : SameOutside r.1 (storeBytes r.1 (sp - 4 * (ws.length + 1)) (wordBytes w))
        (sp - 4 * (ws.length + 1)) (sp - 4 * ws.length) :=
      sameOutside_storeBytes r.1 hend (by omega)
    rw [pushWord, hnew]
    refine ⟨rfl, ?_, hsame.trans hstore (by omega) (by omega)⟩
    rw [wordsBytes, flatMap_cons, append_iff]
    refine ⟨.storeBytes r.1 ?_, ?_⟩
    · show sp - 4 * (ws.length + 1) + 4 ≤ 2 ^ 32
      omega
    · show BytesInMemory _ (sp - 4 * (ws.length + 1) + 4) (wordsBytes ws)
      rw [hend]
      refine hwords.congr fun b hlo hhi => hstore b ?_ (.inr hlo)
      rw [wordsBytes_length] at hhi
      omega

/-! ## The image -/

theorem stringsSize_append (ss ts : List CString) :
    stringsSize (ss ++ ts) = stringsSize ss + stringsSize ts := by
  simp [stringsSize]

/-- The words of the image. -/
def imageWords (argc : Nat) (argPtrs envPtrs : List Nat) : List (BitVec 32) :=
  [BitVec.ofNat 32 argc] ++ (argPtrs.map (BitVec.ofNat 32) ++ [0] ++
    (envPtrs.map (BitVec.ofNat 32) ++ [0]))

theorem imageWords_length (argc : Nat) (argPtrs envPtrs : List Nat) :
    (imageWords argc argPtrs envPtrs).length = argPtrs.length + envPtrs.length + 3 := by
  simp only [imageWords, length_append, length_map, length_singleton]
  omega

/-- The five steps that push words are one. -/
theorem taskPushArgs_eq (m : Mem) (esp : Nat) (argv envp : List CString) :
    taskPushArgs m esp argv envp =
      pushWords (pushStrings (pushStrings m esp envp).1 (pushStrings m esp envp).2.1 argv).1
        ((pushStrings (pushStrings m esp envp).1 (pushStrings m esp envp).2.1 argv).2.1 / 4 * 4)
        (imageWords argv.length
          (pushStrings (pushStrings m esp envp).1 (pushStrings m esp envp).2.1 argv).2.2
          (pushStrings m esp envp).2.2) := by
  simp only [imageWords, pushWords_append, pushWords, taskPushArgs]

/-- The image: the strings of `argv` and `envp` from some address on up to `esp`, and the words below
it. -/
structure Image (m m' : Mem) (esp sp : Nat) (argv envp : List CString) (argPtrs envPtrs : List Nat) :
    Prop where
  sp_eq : sp = (esp - stringsSize (argv ++ envp)) / 4 * 4 - 4 * (argv.length + envp.length + 3)
  args : StringsAt m' (esp - stringsSize (argv ++ envp)) argv argPtrs
  envs : StringsAt m' (esp - stringsSize envp) envp envPtrs
  words : BytesInMemory m' sp (wordsBytes (imageWords argv.length argPtrs envPtrs))
  frame : SameOutside m m' sp esp

theorem taskPushArgs_image (m : Mem) {esp : Nat} (hesp : esp < 2 ^ 32)
    (fits : imageSize argv envp ≤ esp) :
    ∃ argPtrs envPtrs, Image m (taskPushArgs m esp argv envp).1 esp (taskPushArgs m esp argv envp).2
      argv envp argPtrs envPtrs := by
  rw [imageSize] at fits
  obtain ⟨henv, henvs, hsame⟩ := pushStrings_spec m envp hesp (by omega)
  rw [taskPushArgs_eq]
  generalize pushStrings m esp envp = env at henv henvs hsame
  have hlow : env.2.1 < 2 ^ 32 := by omega
  obtain ⟨harg, hargs, hsame'⟩ := pushStrings_spec env.1 argv hlow (by omega)
  rw [henv] at harg hargs hsame'
  rw [henv]
  generalize pushStrings env.1 (esp - stringsSize envp) argv = arg at harg hargs hsame'
  have hbase : esp - stringsSize envp - stringsSize argv = esp - stringsSize (argv ++ envp) := by
    rw [stringsSize_append]
    omega
  rw [hbase] at harg hargs hsame'
  have hlen := imageWords_length argv.length arg.2.2 env.2.2
  rw [hargs.length_eq, henvs.length_eq] at hlen
  have halign : arg.2.1 / 4 * 4 < 2 ^ 32 := by omega
  obtain ⟨hsp, hwords, hsame''⟩ :=
    pushWords_spec arg.1 (imageWords argv.length arg.2.2 env.2.2) halign (by omega)
  rw [hlen, harg] at hsp hwords hsame''
  rw [harg]
  refine ⟨arg.2.2, env.2.2, hsp, hargs.congr fun b hlo hhi => hsame'' b (by omega) (.inr (by omega)),
    henvs.congr fun b hlo hhi => ?_, ?_, ?_⟩
  · rw [hsame'' b (by omega) (.inr (by omega)), hsame' b (by omega) (.inr (by omega))]
  · rw [hsp]
    exact hwords
  · intro b hb hout
    rw [hsame'' b hb (by omega), hsame' b hb (by omega), hsame b hb (by omega)]

namespace Image

variable {esp : Nat} {argv envp : List CString} {argPtrs envPtrs : List Nat}

section

variable (h : Image m m' esp sp argv envp argPtrs envPtrs) (fits : imageSize argv envp ≤ esp)

include h fits

/-- The words end below the strings. -/
theorem room : sp + 4 * (argv.length + envp.length + 3) ≤ esp - stringsSize (argv ++ envp) := by
  rw [imageSize, ← stringsSize_append] at fits
  rw [h.sp_eq]
  omega

theorem strings :
    StringsAt m' (esp - stringsSize (argv ++ envp)) (argv ++ envp) (argPtrs ++ envPtrs) := by
  refine h.args.append ?_
  have hend : esp - stringsSize (argv ++ envp) + stringsSize argv = esp - stringsSize envp := by
    rw [imageSize, ← stringsSize_append] at fits
    rw [stringsSize_append] at fits ⊢
    omega
  rw [hend]
  exact h.envs

/-- Every address is that of a string, so it is neither null nor beyond `esp`. -/
theorem ptr_bounds {p : Nat} (hp : p ∈ argPtrs ++ envPtrs) : 0 < p ∧ p < esp := by
  have hstrings := h.strings fits
  have hroom := h.room fits
  obtain ⟨s, hs⟩ : ∃ s, (p, s) ∈ (argPtrs ++ envPtrs).zip (argv ++ envp) := by
    obtain ⟨i, hi, rfl⟩ := getElem_of_mem hp
    have hlen := hstrings.length_eq
    refine ⟨(argv ++ envp)[i], mem_iff_getElem.mpr ⟨i, ?_, getElem_zip⟩⟩
    rw [length_zip]
    omega
  have := hstrings.bounds _ hs
  omega

end

section

variable (h : Image m m' esp sp argv envp argPtrs envPtrs) (hesp : esp < 2 ^ 32)
  (fits : imageSize argv envp ≤ esp)

include h hesp fits

theorem ofNat_ptr_ne_zero (hps : ∀ p ∈ ps, p ∈ argPtrs ++ envPtrs) :
    ∀ w ∈ ps.map (BitVec.ofNat 32), w ≠ 0 := by
  intro w hw hzero
  obtain ⟨p, hp, rfl⟩ := mem_map.mp hw
  obtain ⟨hpos, hlt⟩ := h.ptr_bounds fits (hps p hp)
  have := congrArg BitVec.toNat hzero
  rw [toNat_ofNat, Nat.mod_eq_of_lt (by omega)] at this
  exact Nat.ne_of_gt hpos this

/-- What `_crt_start` finds. -/
theorem reads (hn : esp ≤ n) : (loadWord m' sp).toNat = argv.length ∧
      readWords m' n (sp + 4) = argPtrs.map (BitVec.ofNat 32) ∧
        readWords m' n (sp + 4 * (argv.length + 2)) = envPtrs.map (BitVec.ofNat 32) := by
  have hroom := h.room fits
  have harg := h.args.length_eq
  have henv := h.envs.length_eq
  have hwords := h.words
  rw [imageWords, wordsBytes_append, wordsBytes_append, append_iff,
    append_iff, wordsBytes_length, wordsBytes_length] at hwords
  obtain ⟨hargc, hargs, henvs⟩ := hwords
  have hload : loadWord m' sp = BitVec.ofNat 32 argv.length :=
    loadWord_eq hargc (by omega)
  have htable : sp + 4 * [BitVec.ofNat 32 argv.length].length +
      4 * (argPtrs.map (BitVec.ofNat 32) ++ [0]).length = sp + 4 * (argv.length + 2) := by
    rw [length_append, length_map, length_singleton, length_singleton, harg]
    omega
  rw [htable] at henvs
  refine ⟨?_, ?_, ?_⟩
  · rw [hload, toNat_ofNat, mod_eq_of_lt (by omega)]
  · refine readWords_eq hargs ?_
      (h.ofNat_ptr_ne_zero hesp fits fun p hp => mem_append_left _ hp) ?_
    · rw [length_map]
      omega
    · rw [length_map]
      omega
  · refine readWords_eq henvs ?_
      (h.ofNat_ptr_ne_zero hesp fits fun p hp => mem_append_right _ hp) ?_
    · rw [length_map]
      omega
    · rw [length_map]
      omega

theorem pointers_eq (hn : esp ≤ n) : crtPointers m' sp n = argPtrs ++ envPtrs := by
  obtain ⟨hargc, hargs, henvs⟩ := h.reads hesp fits hn
  rw [crtPointers, hargc, hargs, henvs, ← List.map_append, List.map_map]
  refine (List.map_congr_left fun p hp => ?_).trans (List.map_id _)
  have := (h.ptr_bounds fits hp).2
  show (BitVec.ofNat 32 p).toNat = p
  rw [BitVec.toNat_ofNat, mod_eq_of_lt (by omega)]

end

end Image

/-- The image that `task_push_args` builds is the one that `_crt_start` reads. -/
theorem taskPushArgs_imageOk (m : Mem) {esp : Nat} {argv envp : List CString} (hesp : esp < 2 ^ 32)
    (nonzero : ∀ s ∈ argv ++ envp, ∀ x ∈ s, x ≠ 0) (fits : imageSize argv envp ≤ esp) :
    ImageOk m (taskPushArgs m esp argv envp).1 esp (taskPushArgs m esp argv envp).2 argv envp := by
  obtain ⟨argPtrs, envPtrs, himage⟩ := taskPushArgs_image m hesp fits
  have hroom := himage.room fits
  have hstrings := himage.strings fits
  have hsum := stringsSize_append argv envp
  constructor
  case read =>
    intro n hn
    obtain ⟨hargc, hargs, henvs⟩ := himage.reads hesp fits hn
    have hargv := himage.args.map_readString (n := n)
      (fun s hs => nonzero s (mem_append_left _ hs)) (by omega) (by omega)
    have henvp := himage.envs.map_readString (n := n)
      (fun s hs => nonzero s (mem_append_right _ hs)) (by omega) (by omega)
    rw [crtStart, hargc]
    dsimp only
    rw [hargs, henvs, hargv, henvp]
  case room => omega
  case inside =>
    intro n hn x hx
    rw [himage.pointers_eq hesp fits hn] at hx
    have := hstrings.bounds x hx
    omega
  case disjoint =>
    intro n hn
    rw [himage.pointers_eq hesp fits hn]
    exact hstrings.pairwise
  case frame => exact himage.frame

/-- The program `a b` with the environment `c`, on a stack of 64 bytes. -/
theorem taskPushArgs_imageOk_small :
    ImageOk (fun _ => 0) (taskPushArgs (fun _ => 0) 64 [[97], [98]] [[99]]).1 64
      (taskPushArgs (fun _ => 0) 64 [[97], [98]] [[99]]).2 [[97], [98]] [[99]] :=
  taskPushArgs_imageOk (fun _ => 0) (by decide) (by decide) (by decide)

/-! ## The room that the image takes -/

theorem readString_length_le (m : Mem) (n a : Nat) : (readString m n a).length ≤ n := by
  induction n generalizing a with
  | zero => exact Nat.le_refl 0
  | succ n ih =>
    rw [readString]
    split
    · exact Nat.zero_le _
    · exact Nat.succ_le_succ (ih (a + 1))

theorem execCountStrings_le {count result : Nat} (h : execCountStrings m usrc n count = some result) :
    result ≤ count + n := by
  fun_induction execCountStrings m usrc n count with
  | case1 count =>
    cases h
    omega
  | case2 => cases h
  | case3 count n =>
    cases h
    omega
  | case4 => cases h
  | case5 count n _ _ _ ih =>
    have := ih h
    omega

/-- Strings are copied up to the two limits. -/
theorem execCopyStringArray_limits (h : execCopyStringArray m usrc = some ss) :
    ss.length ≤ execMaxArgs ∧ ∀ s ∈ ss, s.length ≤ execMaxArgLen := by
  rw [execCopyStringArray] at h
  split at h
  · cases h
    exact ⟨zero_le _, fun s hs => nomatch hs⟩
  · obtain ⟨count, hcount, rfl⟩ := map_eq_some_iff.mp h
    have hle := execCountStrings_le hcount
    rw [length_map, length_range]
    refine ⟨by omega, fun s hs => ?_⟩
    obtain ⟨i, -, rfl⟩ := mem_map.mp hs
    exact readString_length_le ..

theorem stringsSize_le {len : Nat} (h : ∀ s ∈ ss, s.length ≤ len) :
    stringsSize ss ≤ ss.length * (len + 1) := by
  induction ss with
  | nil => exact zero_le _
  | cons s ss ih =>
    have hs := h s mem_cons_self
    have hss := ih fun t ht => h t (mem_cons_of_mem s ht)
    rw [stringsSize_cons, length_cons, Nat.succ_mul]
    omega

/-- With the limits of `exec_copy_string_array` the stack pointer does not wrap around. -/
theorem imageSize_le {uargv uenvp : Nat} (hargv : execCopyStringArray m uargv = some argv)
    (henvp : execCopyStringArray m uenvp = some envp) : imageSize argv envp ≤ userStackTop := by
  obtain ⟨hargc, harg⟩ := execCopyStringArray_limits hargv
  obtain ⟨henvc, henv⟩ := execCopyStringArray_limits henvp
  have hargs := Nat.le_trans (stringsSize_le harg) (Nat.mul_le_mul_right _ hargc)
  have henvs := Nat.le_trans (stringsSize_le henv) (Nat.mul_le_mul_right _ henvc)
  have hlimit : execMaxArgs * (execMaxArgLen + 1) + execMaxArgs * (execMaxArgLen + 1) +
      4 * (execMaxArgs + execMaxArgs + 3) ≤ userStackTop := by decide
  rw [imageSize]
  omega

/-- The stack pointer of the new program. -/
theorem taskPushArgs_sp (m : Mem) (fits : imageSize argv envp ≤ userStackTop) :
    (taskPushArgs m userStackTop argv envp).2 =
      (userStackTop - stringsSize (argv ++ envp)) / 4 * 4 - 4 * (argv.length + envp.length + 3) := by
  obtain ⟨_, _, himage⟩ := taskPushArgs_image m (by decide) fits
  exact himage.sp_eq

/-- The image stays in the user stack just when it is not larger than the stack. -/
theorem taskPushArgs_inStack_iff (m m' : Mem) {uargv uenvp : Nat} {argv envp : List CString}
    (hargv : execCopyStringArray m uargv = some argv)
    (henvp : execCopyStringArray m uenvp = some envp) :
    userStackBase ≤ (taskPushArgs m' userStackTop argv envp).2 ↔
      imageSize argv envp ≤ userStackSize := by
  have hfits := imageSize_le hargv henvp
  have htop : userStackTop = 1073737728 := by decide
  have hbase : userStackBase = 1073729536 := by decide
  have hsize : userStackSize = 8192 := by decide
  rw [taskPushArgs_sp m' hfits, htop, hbase, hsize]
  rw [imageSize, ← stringsSize_append] at hfits ⊢
  omega

/-- A memory in which an array of `n` words at the start of user space points to the string at
`0x500000`, which is as long as memory. -/
def longStrings (n : Nat) : Mem := fun a =>
  if vmmUserStart ≤ a ∧ a < vmmUserStart + 4 * n then if a % 4 = 2 then 0x50 else 0
  else if a < 0x500000 then 0 else 1

theorem readString_longStrings (hn : n ≤ execMaxArgs) (ha : 0x500000 ≤ a) (k : Nat) :
    readString (longStrings n) k a = List.replicate k 1 := by
  induction k generalizing a with
  | zero => rfl
  | succ k ih =>
    have hmax : execMaxArgs = 64 := rfl
    have hstart : vmmUserStart = 0x400000 := rfl
    have hbyte : longStrings n a = 1 := by
      rw [longStrings, if_neg (by omega), if_neg (by omega)]
    rw [readString, hbyte, if_neg (by decide), ih (by omega), List.replicate_succ]

/-- The array of `n` words gives `n` strings of the greatest length. -/
theorem execCopyStringArray_longStrings (hn : n ≤ execMaxArgs)
    (hcount : execCountStrings (longStrings n) vmmUserStart execMaxArgs 0 = some n)
    (hword : ∀ i < n, loadWord (longStrings n) (vmmUserStart + 4 * i) = 0x500000) :
    execCopyStringArray (longStrings n) vmmUserStart =
      some (List.replicate n (List.replicate execMaxArgLen 1)) := by
  rw [execCopyStringArray, if_neg (by decide), hcount, map_some]
  refine congrArg some (eq_replicate_iff.mpr
    ⟨by rw [length_map, length_range], fun s hs => ?_⟩)
  obtain ⟨i, hi, rfl⟩ := mem_map.mp hs
  rw [hword i (mem_range.mp hi)]
  exact readString_longStrings hn (by decide) _

/-- One string of the greatest length fits. -/
theorem taskPushArgs_inStack_iff_one :
    execCopyStringArray (longStrings 1) vmmUserStart = some [List.replicate execMaxArgLen 1] ∧
      execCopyStringArray (longStrings 1) 0 = some [] ∧
        userStackBase ≤ (taskPushArgs (fun _ => 0) userStackTop
          [List.replicate execMaxArgLen 1] []).2 := by
  have hargv : execCopyStringArray (longStrings 1) vmmUserStart =
      some [List.replicate execMaxArgLen 1] :=
    execCopyStringArray_longStrings (by decide) (by decide) (by decide +kernel)
  have henvp : execCopyStringArray (longStrings 1) 0 = some [] := by decide +kernel
  exact ⟨hargv, henvp,
    (taskPushArgs_inStack_iff (longStrings 1) (fun _ => 0) hargv henvp).mpr (by decide +kernel)⟩

/-- `exec` accepts 64 arguments of 255 bytes, whose image ends below the stack of the program. -/
theorem taskPushArgs_belowStack :
    execCopyStringArray (longStrings execMaxArgs) vmmUserStart =
        some (List.replicate execMaxArgs (List.replicate execMaxArgLen 1)) ∧
      execCopyStringArray (longStrings execMaxArgs) 0 = some [] ∧
        (taskPushArgs (fun _ => 0) userStackTop
          (List.replicate execMaxArgs (List.replicate execMaxArgLen 1)) []).2 + 8460 =
            userStackBase := by
  refine ⟨execCopyStringArray_longStrings (by decide) (by decide +kernel) (by decide +kernel),
    by decide, ?_⟩
  decide +kernel

end Stos.Kernel
