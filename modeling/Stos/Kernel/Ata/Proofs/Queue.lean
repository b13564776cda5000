import Stos.Kernel.Ata.Queue
import Stos.Libds.Proofs.RingBuf
import Stos.Misc.Loop

/-!
# The requests of an ATA channel: proofs

Between two events a channel is idle with an empty queue, or its first request is in one of three
stages. All other requests in the queue are as they were accepted. While the first request does not wait
for its flush, `_ata_queue_schedule` finds no finished request by mistake.
-/

namespace Stos.Kernel.Ata

open Stos.Libds List Option RingBuf Channel Nat

variable {onDone : Nat → List AtaCall} {ch ch' : Channel} {j k n fuel : Nat} {call : AtaCall}
  {queue : RingBuf Request}
variable {accepted : List AtaCall} {log : List Entry} {req : Request}

/-! ## The log -/

theorem startedOf_append (log log' : List Entry) : startedOf (log ++ log') = startedOf log ++ startedOf log' :=
  filterMap_append

theorem calledOf_append (log log' : List Entry) : calledOf (log ++ log') = calledOf log ++ calledOf log' :=
  filterMap_append

/-- More calls do not matter for the requests before them. -/
theorem Transferred.append (h : Transferred accepted log n) (call : AtaCall) :
    Transferred (accepted ++ [call]) log n := by
  obtain ⟨old, hold, htransferred⟩ := h
  have hlt : n < accepted.length := (List.getElem?_eq_some_iff.mp hold).1
  exact ⟨old, by rw [getElem?_append_left hlt, hold], htransferred⟩

/-- The log of a channel with `j` callbacks and `k` starts. -/
structure LogOk (accepted : List AtaCall) (log : List Entry) (j k : Nat) : Prop where
  calls : calledOf log = range j
  starts : startedOf log = range k
  late : ∀ n before after, log = before ++ .called n :: after → Transferred accepted before n
  owners : ∀ cause owner, .interrupt cause owner ∈ log → owner = some cause.number ∧ cause.number < k

namespace LogOk

theorem init : LogOk [] [] 0 0 :=
  ⟨rfl, rfl, fun n before after h => by simp at h, nofun⟩

section

variable (h : LogOk accepted log j k)

include h

theorem accept (call : AtaCall) : LogOk (accepted ++ [call]) log j k :=
  { h with late := fun n before after heq => (h.late n before after heq).append call }

/-- The last entry may be a callback only if its request was transferred. -/
theorem late_append {entry : Entry} (hentry : ∀ n, entry = .called n → Transferred accepted log n) :
    ∀ n before after, log ++ [entry] = before ++ .called n :: after → Transferred accepted before n := by
  intro n before after heq
  rcases eq_nil_or_concat' after with rfl | ⟨rest, last, rfl⟩
  · obtain ⟨rfl, hlast⟩ := append_inj' heq rfl
    exact hentry n (head_eq_of_cons_eq hlast)
  · rw [← cons_append, ← append_assoc] at heq
    exact h.late n before rest (append_inj' heq rfl).1

theorem start : LogOk accepted (log ++ [.started k]) j (k + 1) where
  calls := by rw [calledOf_append, h.calls]; exact append_nil _
  starts := by rw [startedOf_append, h.starts, range_succ]; rfl
  late := h.late_append nofun
  owners := by
    intro cause owner hmem
    rw [mem_append, mem_singleton] at hmem
    obtain ⟨hnumber, hlt⟩ := h.owners cause owner (hmem.resolve_right Entry.noConfusion)
    exact ⟨hnumber, lt_succ_of_lt hlt⟩

theorem interrupt (cause : Cause) (hcause : cause.number < k) :
    LogOk accepted (log ++ [.interrupt cause (some cause.number)]) j k where
  calls := by rw [calledOf_append, h.calls]; exact append_nil _
  starts := by rw [startedOf_append, h.starts]; exact append_nil _
  late := h.late_append nofun
  owners := by
    intro cause' owner hmem
    rcases mem_append.mp hmem with hmem | hmem
    · exact h.owners cause' owner hmem
    · obtain ⟨rfl, rfl⟩ : cause' = cause ∧ owner = some cause.number := by simpa using hmem
      exact ⟨rfl, hcause⟩

theorem callback (htransferred : Transferred accepted log j) :
    LogOk accepted (log ++ [.called j]) (j + 1) k where
  calls := by rw [calledOf_append, h.calls, range_succ]; rfl
  starts := by rw [startedOf_append, h.starts]; exact append_nil _
  late := h.late_append fun n heq => Entry.called.inj heq ▸ htransferred
  owners := by
    intro cause owner hmem
    rw [mem_append, mem_singleton] at hmem
    exact h.owners cause owner (hmem.resolve_right Entry.noConfusion)

/-- No sector of a request was transferred before its start. -/
theorem count_eq_zero (hn : k ≤ n) (owner : Option Nat) :
    log.count (.interrupt (.sector n) owner) = 0 := by
  refine List.count_eq_zero.mpr fun hmem => ?_
  have : n < k := (h.owners _ _ hmem).2
  omega

end

end LogOk

/-! ## The queue -/

/-- The requests from the `j`-th one on, as they were accepted. -/
def waiting (accepted : List AtaCall) (j : Nat) : List Request :=
  (accepted.zipIdx.drop j).map fun p => createRequest p.2 p.1

theorem waiting_append (h : j ≤ accepted.length) (call : AtaCall) :
    waiting (accepted ++ [call]) j = waiting accepted j ++ [createRequest accepted.length call] := by
  unfold waiting
  rw [zipIdx_append, drop_append_of_le_length (by rwa [length_zipIdx]), map_append]
  simp

theorem waiting_cons (h : accepted[j]? = some call) :
    waiting accepted j = createRequest j call :: waiting accepted (j + 1) := by
  obtain ⟨hlt, hcall⟩ := List.getElem?_eq_some_iff.mp h
  unfold waiting
  rw [drop_eq_getElem_cons (by rwa [length_zipIdx]), map_cons]
  simp [hcall]

theorem waiting_eq_nil (h : accepted.length ≤ j) : waiting accepted j = [] := by
  rw [waiting, drop_eq_nil_of_le (by rwa [length_zipIdx]), map_nil]

/-- What the queue of a channel is like at all times. -/
structure QueueOk (ch : Channel) : Prop where
  refuses : ch.queue.failOnFull = true
  plain : ∀ call ∈ ch.accepted, call.Plain

/-- No request is being handled. -/
structure Idle (ch : Channel) (j : Nat) : Prop where
  queueOk : QueueOk ch
  inProgress : ch.inProgress = false
  contents : ch.queue.contents = waiting ch.accepted j
  le : j ≤ ch.accepted.length
  pending : ch.pending = []
  log : LogOk ch.accepted ch.log j j

/-- The stages of a request that is being handled, with the number of interrupts that it needs and those
that are to come now. -/
inductive Stage (call : AtaCall) (j : Nat) : Request → (needed : Nat) → List Cause → Prop
  | reading {remaining : Nat} : call.isWrite = false → 0 < remaining → remaining ≤ call.sectors →
    Stage call j ⟨j, call.sectors, remaining, false, false, if call.atapi then .awaitingData else .none⟩
      remaining (replicate remaining (.sector j))
  | writing {remaining : Nat} : call.isWrite = true → 0 < remaining → remaining ≤ call.sectors →
    Stage call j ⟨j, call.sectors, remaining, true, false, .none⟩ (remaining + 1) [.sector j]
  | flushing : call.isWrite = true →
    Stage call j ⟨j, call.sectors, 0, true, true, .none⟩ 1 [.flush j]

/-- The first request is being handled. -/
structure Busy (ch : Channel) (j needed : Nat) (call : AtaCall) (req : Request) : Prop where
  queueOk : QueueOk ch
  inProgress : ch.inProgress = true
  accepted : ch.accepted[j]? = some call
  contents : ch.queue.contents = req :: waiting ch.accepted (j + 1)
  stage : Stage call j req needed ch.pending
  log : LogOk ch.accepted ch.log j (j + 1)
  count : ch.log.count (.interrupt (.sector j) (some j)) + req.remainingSectors = call.sectors

/-- The first request has been transferred. -/
structure Finished (ch : Channel) (j : Nat) (req : Request) : Prop where
  queueOk : QueueOk ch
  inProgress : ch.inProgress = true
  lt : j < ch.accepted.length
  number : req.number = j
  remaining : req.remainingSectors = 0
  contents : ch.queue.contents = req :: waiting ch.accepted (j + 1)
  pending : ch.pending = []
  log : LogOk ch.accepted ch.log j (j + 1)
  transferred : Transferred ch.accepted ch.log j

/-! ## Fuel -/

theorem enqueueWith_mono {f g : Channel → Option Channel} (le : ∀ ch ch', f ch = some ch' → g ch = some ch')
    (h : ch.enqueueWith f call = some ch') : ch.enqueueWith g call = some ch' := by
  unfold enqueueWith at h ⊢
  split at h
  · exact h
  · exact le _ _ h

/-- More fuel does not change the result. -/
theorem schedule_mono (h : ch.schedule onDone fuel = some ch') :
    ch.schedule onDone (fuel + 1) = some ch' := by
  induction fuel generalizing ch ch' with
  | zero => cases h
  | succ fuel ih =>
    rw [schedule] at h ⊢
    -- both sides branch on the same conditions
    revert h
    split
    · exact id
    split
    · split
      · intro h
        obtain ⟨mid, hfold, hmid⟩ := bind_eq_some_iff.mp h
        rw [foldlM_mono (fun _ _ _ => enqueueWith_mono fun _ _ => ih) hfold]
        exact ih hmid
      · exact id
    · exact id

theorem schedule_mono_add (h : ch.schedule onDone fuel = some ch') (more : Nat) :
    ch.schedule onDone (fuel + more) = some ch' := by
  induction more with
  | zero => exact h
  | succ more ih => exact schedule_mono ih

theorem irqHandlerRead_mono (more : Nat) : ch.irqHandlerRead onDone fuel req = some ch' →
    ch.irqHandlerRead onDone (fuel + more) req = some ch' := by
  unfold irqHandlerRead
  dsimp only
  split
  · exact (schedule_mono_add · more)
  · exact id

theorem interrupt_mono (more : Nat) : ch.interrupt onDone fuel = some ch' →
    ch.interrupt onDone (fuel + more) = some ch' := by
  unfold interrupt irqHandler
  split
  · exact id
  split
  · exact id
  split
  · exact irqHandlerRead_mono more
  split
  · exact (schedule_mono_add · more)
  split
  · exact id
  · exact irqHandlerRead_mono more

/-! ## Steps -/

/-- No request is being handled, or the first one has sectors left. -/
def Open (ch : Channel) (j : Nat) : Prop :=
  Idle ch j ∨ ∃ needed call req, Busy ch j needed call req ∧ req.remainingSectors ≠ 0

/-- The states between events. -/
def Settled (ch : Channel) (j : Nat) : Prop :=
  (Idle ch j ∧ ch.accepted.length = j) ∨ ∃ needed call req, Busy ch j needed call req

/-- The interrupts that a request needs. -/
def AtaCall.needed (call : AtaCall) : Nat := call.sectors + if call.isWrite then 1 else 0

variable {needed : Nat}

/-- A request has been started. -/
def begin (ch : Channel) (req : Request) : Channel :=
  { ch with inProgress := true }.note (.started req.number)

/-- The start of a plain request, which is the first one of the queue. -/
theorem start_eq (hplain : call.Plain) {rest : List Request}
    (h : ch.queue.contents = createRequest j call :: rest) :
    ∃ (queue : RingBuf Request) (req : Request) (causes : List Cause),
      ch.start (createRequest j call) = { begin ch (createRequest j call) with
        queue := queue, pending := ch.pending ++ causes } ∧
      queue.failOnFull = ch.queue.failOnFull ∧ queue.contents = req :: rest ∧
      Stage call j req call.needed causes ∧ req.remainingSectors = call.sectors := by
  obtain ⟨hsectors, hpacket⟩ := hplain
  have hpos := Nat.pos_of_ne_zero hsectors
  obtain ⟨count, isWrite, atapi⟩ := call
  cases isWrite with
  | true =>
    cases atapi with
    | true => exact absurd ⟨rfl, rfl⟩ hpacket
    | false => exact ⟨ch.queue, _, _, rfl, rfl, h, .writing rfl hpos (Nat.le_refl _), rfl⟩
  | false =>
    have hstage : Stage ⟨count, false, atapi⟩ j _ _ _ := .reading rfl hpos (Nat.le_refl _)
    cases atapi with
    | true =>
      obtain ⟨queue, hpoke, -, hrefuses, hcontents⟩ := poke_spec h
        { createRequest j ⟨count, false, true⟩ with atapiPhase := .awaitingData }
      obtain rfl : (ch.queue.poke _).getD ch.queue = queue := congrArg (Option.getD · _) hpoke
      exact ⟨_, _, _, rfl, hrefuses, hcontents, hstage, rfl⟩
    | false =>
      refine ⟨ch.queue, _, _, ?_, rfl, h, hstage, rfl⟩
      have htotal : (createRequest j ⟨count, false, false⟩).totalSectors ≠ 0 := hsectors
      rw [start, if_neg nofun, if_neg nofun, ataRead, if_neg (by simp [createRequest]),
        if_neg htotal]
      rfl

theorem Idle.start (h : Idle ch j) (hcall : ch.accepted[j]? = some call) :
    ∃ req, Busy (ch.start (createRequest j call)) j call.needed call req ∧
      req.remainingSectors ≠ 0 ∧ (ch.start (createRequest j call)).accepted = ch.accepted := by
  have hplain := h.queueOk.plain call (mem_of_getElem? hcall)
  obtain ⟨queue, req, causes, hstart, hrefuses, hcontents, hstage, hleft⟩ :=
    start_eq hplain (h.contents.trans (waiting_cons hcall))
  rw [hstart, h.pending]
  refine ⟨req, ⟨⟨hrefuses.trans h.queueOk.refuses, h.queueOk.plain⟩, rfl, hcall, hcontents, hstage,
    h.log.start, ?_⟩, hleft ▸ hplain.1, rfl⟩
  have hcount : (ch.log ++ [Entry.started j]).count (.interrupt (.sector j) (some j)) = 0 := by
    rw [count_append, h.log.count_eq_zero (Nat.le_refl j)]
    rfl
  rw [hleft]
  exact (congrArg (· + call.sectors) hcount).trans (Nat.zero_add _)

/-- What a full queue refuses changes nothing, and all else is put behind the requests in the queue. -/
theorem enqueueWith_cases (h : QueueOk ch) (call : AtaCall) :
    (ch.queue.currentCount = ch.queue.capacity ∧ ∀ f, ch.enqueueWith f call = some ch) ∨
    ∃ queue : RingBuf Request, queue.failOnFull = true ∧
      queue.contents = ch.queue.contents ++ [createRequest ch.accepted.length call] ∧
      ∀ f, ch.enqueueWith f call = f { ch with queue := queue, accepted := ch.accepted ++ [call] } := by
  unfold enqueueWith
  cases hpush : ch.queue.push (createRequest ch.accepted.length call) with
  | none => exact .inl ⟨(push_eq_none_iff.mp hpush).1, fun f => rfl⟩
  | some queue =>
    obtain ⟨-, hrefuses, hroom, -⟩ := push_spec hpush
    have hlt : ch.queue.currentCount < ch.queue.capacity := by
      refine Nat.lt_of_le_of_ne ch.queue.count_le fun hfull => ?_
      rw [push_eq_none_iff.mpr ⟨hfull, h.refuses⟩] at hpush
      cases hpush
    exact .inr ⟨queue, hrefuses.trans h.refuses, hroom hlt, fun f => rfl⟩

theorem Idle.accept (h : Idle ch j) (hplain : call.Plain) (hrefuses : queue.failOnFull = true)
    (hcontents : queue.contents = ch.queue.contents ++ [createRequest ch.accepted.length call]) :
    Idle { ch with queue := queue, accepted := ch.accepted ++ [call] } j where
  queueOk := ⟨hrefuses, by simpa [or_imp, forall_and] using ⟨h.queueOk.plain, hplain⟩⟩
  inProgress := h.inProgress
  contents := by
    rw [hcontents, h.contents, waiting_append h.le]
  le := by
    rw [length_append]
    exact le_add_right_of_le h.le
  pending := h.pending
  log := h.log.accept call

theorem Busy.lt (h : Busy ch j needed call req) : j < ch.accepted.length :=
  (List.getElem?_eq_some_iff.mp h.accepted).1

theorem Busy.accept {old : AtaCall} (h : Busy ch j needed old req)
    (hplain : call.Plain) (hrefuses : queue.failOnFull = true)
    (hcontents : queue.contents = ch.queue.contents ++ [createRequest ch.accepted.length call]) :
    Busy { ch with queue := queue, accepted := ch.accepted ++ [call] } j needed old req where
  queueOk := ⟨hrefuses, by simpa [or_imp, forall_and] using ⟨h.queueOk.plain, hplain⟩⟩
  inProgress := h.inProgress
  accepted := by
    rw [getElem?_append_left h.lt, h.accepted]
  contents := by
    rw [hcontents, h.contents, waiting_append h.lt, cons_append]
  stage := h.stage
  log := h.log.accept call
  count := h.count

/-! ## The schedule -/

theorem Busy.peek (h : Busy ch j needed call req) : ch.queue.peek = some req := by
  rw [peek_eq, h.contents]
  rfl

/-- A request with sectors left goes on. -/
theorem Busy.schedule (h : Busy ch j needed call req) (hleft : req.remainingSectors ≠ 0) :
    ch.schedule onDone (fuel + 1) = some ch := by
  rw [Channel.schedule, h.peek]
  dsimp only
  rw [if_pos h.inProgress, if_neg hleft]

/-- The first request is started. -/
theorem Idle.schedule (h : Idle ch j) (hlt : j < ch.accepted.length) (fuel : Nat) :
    ∃ ch' call req, ch.schedule onDone (fuel + 1) = some ch' ∧ ch'.accepted = ch.accepted ∧
      Busy ch' j call.needed call req ∧ req.remainingSectors ≠ 0 := by
  have hcall := getElem?_eq_getElem hlt
  obtain ⟨req, hbusy, hleft, haccepted⟩ := h.start hcall
  refine ⟨_, _, req, ?_, haccepted, hbusy, hleft⟩
  rw [Channel.schedule, peek_eq, h.contents, waiting_cons hcall, head?_cons]
  dsimp only
  rw [if_neg (by simp [h.inProgress])]

/-- An empty queue. -/
theorem Idle.schedule_empty (h : Idle ch j) (hlen : ch.accepted.length = j) :
    ch.schedule onDone (fuel + 1) = some ch := by
  rw [Channel.schedule, peek_eq, h.contents, waiting_eq_nil (Nat.le_of_eq hlen)]
  rfl

theorem Open.schedule (h : Open ch j) (fuel : Nat) :
    ∃ ch', ch.schedule onDone (fuel + 1) = some ch' ∧ ch'.accepted = ch.accepted ∧ Settled ch' j := by
  rcases h with hidle | ⟨needed, call, req, hbusy, hleft⟩
  · rcases Nat.lt_or_ge j ch.accepted.length with hlt | hge
    · obtain ⟨ch', call, req, hschedule, haccepted, hbusy, -⟩ := hidle.schedule hlt fuel
      exact ⟨ch', hschedule, haccepted, .inr ⟨_, call, req, hbusy⟩⟩
    · have hlen := Nat.le_antisymm hge hidle.le
      exact ⟨ch, hidle.schedule_empty hlen, rfl, .inl ⟨hidle, hlen⟩⟩
  · exact ⟨ch, hbusy.schedule hleft, rfl, .inr ⟨needed, call, req, hbusy⟩⟩

/-- A plain call while the first request has sectors left, or no request is being handled. -/
theorem Open.enqueue (h : Open ch j) (hplain : call.Plain) (fuel : Nat) :
    ∃ ch', ch.enqueueWith (Channel.schedule onDone (fuel + 1)) call = some ch' ∧
      ch.accepted <+: ch'.accepted ∧
      (ch' = ch ∨ ∃ needed call req, Busy ch' j needed call req ∧ req.remainingSectors ≠ 0) := by
  have hqueue : QueueOk ch := by
    rcases h with hidle | ⟨needed, call, req, hbusy, -⟩
    · exact hidle.queueOk
    · exact hbusy.queueOk
  rcases enqueueWith_cases hqueue call with ⟨-, hfull⟩ | ⟨queue, hrefuses, hcontents, heq⟩
  · exact ⟨ch, hfull _, prefix_refl _, .inl rfl⟩
  rw [heq]
  rcases h with hidle | ⟨needed, old, req, hbusy, hleft⟩
  · have hidle' := hidle.accept hplain hrefuses hcontents
    have hlt : j < (ch.accepted ++ [call]).length := by
      rw [length_append]
      exact lt_succ_of_le hidle.le
    obtain ⟨ch', call', req, hschedule, haccepted, hbusy, hleft⟩ := hidle'.schedule hlt fuel
    refine ⟨ch', hschedule, ?_, .inr ⟨_, call', req, hbusy, hleft⟩⟩
    rw [haccepted]
    exact prefix_append _ _
  · have hbusy' := hbusy.accept hplain hrefuses hcontents
    exact ⟨_, hbusy'.schedule hleft, prefix_append _ _, .inr ⟨needed, old, req, hbusy', hleft⟩⟩

theorem Finished.finish (h : Finished ch j req) : Idle (ch.finish req) (j + 1) := by
  have hpop : ∃ queue, ch.queue.pop = some (req, queue) ∧ queue.failOnFull = true ∧
      queue.contents = waiting ch.accepted (j + 1) := by
    cases hpop : ch.queue.pop with
    | none =>
      rw [pop_eq_none_iff, h.contents] at hpop
      cases hpop
    | some p =>
      obtain ⟨x, queue⟩ := p
      obtain ⟨hrefuses, hcontents⟩ := pop_spec hpop
      rw [h.contents] at hcontents
      obtain ⟨rfl, hrest⟩ := cons.inj hcontents
      exact ⟨queue, rfl, hrefuses.trans h.queueOk.refuses, hrest.symm⟩
  obtain ⟨queue, hpop, hrefuses, hcontents⟩ := hpop
  rw [Channel.finish, hpop, Channel.note, h.number]
  exact ⟨⟨hrefuses, h.queueOk.plain⟩, rfl, hcontents, h.lt, h.pending, h.log.callback h.transferred⟩

/-- The request is taken out of the queue, its callback makes its calls, and the next request is
started. -/
theorem Finished.schedule (h : Finished ch j req) (hdone : ∀ n, ∀ call ∈ onDone n, call.Plain)
    (fuel : Nat) :
    ∃ ch', ch.schedule onDone (fuel + 2) = some ch' ∧ ch.accepted <+: ch'.accepted ∧
      Settled ch' (j + 1) := by
  have hpeek : ch.queue.peek = some req := by
    rw [peek_eq, h.contents]
    rfl
  obtain ⟨mid, hfold, hprefix, hopen⟩ : ∃ mid, (onDone req.number).foldlM
      (Channel.enqueueWith (Channel.schedule onDone (fuel + 1))) (ch.finish req) = some mid ∧
      ch.accepted <+: mid.accepted ∧ Open mid (j + 1) := by
    refine foldlM_total ⟨prefix_refl _, .inl h.finish⟩ fun b x hx hb => ?_
    obtain ⟨b', henqueue, hprefix, hopen⟩ := hb.2.enqueue (hdone _ x hx) fuel
    refine ⟨b', henqueue, hb.1.trans hprefix, ?_⟩
    rcases hopen with rfl | hbusy
    · exact hb.2
    · exact .inr hbusy
  obtain ⟨ch', hschedule, haccepted, hsettled⟩ := hopen.schedule fuel
  refine ⟨ch', ?_, haccepted ▸ hprefix, hsettled⟩
  rw [Channel.schedule, hpeek]
  dsimp only
  rw [if_pos h.inProgress, if_pos h.remaining, hfold, bind_some, hschedule]

/-! ## Interrupts -/

theorem sectors_lt (call : AtaCall) : call.sectors < 256 := mod_lt _ (by decide)

/-- A poke replaces the first request. -/
theorem poke_eq (ch : Channel) {rest : List Request} (h : ch.queue.contents = req :: rest)
    (req' : Request) :
    ∃ queue : RingBuf Request, ch.poke req' = { ch with queue := queue } ∧
      queue.failOnFull = ch.queue.failOnFull ∧ queue.contents = req' :: rest := by
  obtain ⟨queue, hpoke, -, hrefuses, hcontents⟩ := poke_spec h req'
  exact ⟨queue, by rw [Channel.poke, hpoke]; rfl, hrefuses, hcontents⟩

theorem count_sector (log : List Entry) (j : Nat) :
    (log ++ [Entry.interrupt (.sector j) (some j)]).count (.interrupt (.sector j) (some j)) =
      log.count (.interrupt (.sector j) (some j)) + 1 := by
  rw [count_append, count_singleton_self]

section Handler

variable {cause : Cause} (hpeek : ch.queue.peek = some req)

include hpeek

theorem irqHandler_read (hread : req.isWrite = false) :
    ch.irqHandler onDone fuel cause =
      (ch.note (.interrupt cause (some req.number))).irqHandlerRead onDone fuel req := by
  rw [irqHandler, hpeek]
  dsimp only
  by_cases hphase : req.atapiPhase = .awaitingData
  · rw [if_pos hphase]
  · rw [if_neg hphase, if_neg (by simp [hread]), if_neg (by simp [hread])]

theorem irqHandler_write (hphase : req.atapiPhase = .none) (hwrite : req.isWrite = true)
    (hflush : req.awaitingFlush = false) :
    ch.irqHandler onDone fuel cause =
      some ((ch.note (.interrupt cause (some req.number))).irqHandlerWrite req) := by
  rw [irqHandler, hpeek]
  dsimp only
  rw [if_neg (by simp [hphase]), if_neg (by simp [hflush]), if_pos hwrite]

theorem irqHandler_flush (hphase : req.atapiPhase = .none) (hwrite : req.isWrite = true)
    (hflush : req.awaitingFlush = true) :
    ch.irqHandler onDone fuel cause =
      (ch.note (.interrupt cause (some req.number))).schedule onDone fuel := by
  rw [irqHandler, hpeek]
  dsimp only
  rw [if_neg (by simp [hphase]), if_pos ⟨hwrite, hflush⟩]

end Handler

/-- An interrupt brings the request one step further, or its callback is called. -/
theorem Busy.interrupt (h : Busy ch j needed call req)
    (hdone : ∀ n, ∀ call ∈ onDone n, call.Plain) (fuel : Nat) :
    ∃ ch', ch.interrupt onDone (fuel + 2) = some ch' ∧ ch.accepted <+: ch'.accepted ∧
      ((∃ left req', needed = left + 1 ∧ Busy ch' j left call req') ∨ Settled ch' (j + 1)) := by
  obtain ⟨hqueue, hprogress, haccepted, hcontents, hstage, hlog, hcount⟩ := h
  have hlt := sectors_lt call
  have hpeek : ∀ causes, ({ ch with pending := causes } : Channel).queue.peek = some req := by
    intro causes
    rw [peek_eq, hcontents]
    rfl
  have hnumber := (List.getElem?_eq_some_iff.mp haccepted).1
  rw [Channel.interrupt]
  generalize hpending : ch.pending = pending at hstage
  cases hstage with
  | reading hread hpos hle =>
    obtain ⟨left, rfl⟩ : ∃ left, needed = left + 1 := ⟨needed - 1, by omega⟩
    rw [replicate_succ]
    dsimp only at hcount ⊢
    rw [irqHandler_read (hpeek _) rfl, irqHandlerRead]
    set ch1 := ({ ch with pending := List.replicate left (.sector j) } : Channel).note
      (.interrupt (.sector j) (some j)) with hch1
    have hlog' : LogOk ch1.accepted ch1.log j (j + 1) := hlog.interrupt (.sector j) (lt_succ_self j)
    have hcount' := count_sector ch.log j
    obtain ⟨queue, hpoke, hrefuses, hcontents'⟩ := poke_eq ch1 hcontents
      ⟨j, call.sectors, left, false, false, if call.atapi then .awaitingData else .none⟩
    dsimp only
    rw [show (left + 1 + 255) % 256 = left by omega, hpoke]
    have hqueue' : QueueOk { ch1 with queue := queue } := ⟨hrefuses.trans hqueue.refuses, hqueue.plain⟩
    rcases Nat.eq_zero_or_pos left with rfl | hleft
    · have hfinished : Finished { ch1 with queue := queue } j
          ⟨j, call.sectors, 0, false, false, if call.atapi then .awaitingData else .none⟩ :=
        ⟨hqueue', hprogress, hnumber, rfl, rfl, hcontents', rfl, hlog', call, haccepted,
          hcount'.trans hcount, by simp [hread]⟩
      obtain ⟨ch', hschedule, hprefix, hsettled⟩ := hfinished.schedule hdone fuel
      exact ⟨ch', hschedule, hprefix, .inr hsettled⟩
    · rw [if_neg (by omega)]
      refine ⟨_, rfl, prefix_refl _, .inl ⟨left, _, rfl, hqueue', hprogress, haccepted, hcontents',
        Stage.reading hread hleft (by omega), hlog', ?_⟩⟩
      exact (congrArg (· + left) hcount').trans (by omega)
  | @writing remaining hwrite hpos hle =>
    obtain ⟨left, rfl⟩ : ∃ left, remaining = left + 1 := ⟨remaining - 1, by omega⟩
    dsimp only at hcount ⊢
    rw [irqHandler_write (hpeek _) rfl rfl rfl, irqHandlerWrite]
    set ch1 := ({ ch with pending := [] } : Channel).note (.interrupt (.sector j) (some j)) with hch1
    have hlog' : LogOk ch1.accepted ch1.log j (j + 1) := hlog.interrupt (.sector j) (lt_succ_self j)
    have hcount' := count_sector ch.log j
    dsimp only
    rw [show (left + 1 + 255) % 256 = left by omega]
    rcases Nat.eq_zero_or_pos left with rfl | hleft
    · obtain ⟨queue, hpoke, hrefuses, hcontents'⟩ := poke_eq (ch1.expect [.flush j]) hcontents
        ⟨j, call.sectors, 0, true, true, .none⟩
      rw [if_pos rfl, hpoke]
      exact ⟨_, rfl, prefix_refl _, .inl ⟨1, _, rfl, ⟨hrefuses.trans hqueue.refuses, hqueue.plain⟩,
        hprogress, haccepted, hcontents', Stage.flushing hwrite, hlog', hcount'.trans hcount⟩⟩
    · obtain ⟨queue, hpoke, hrefuses, hcontents'⟩ := poke_eq (ch1.expect [.sector j]) hcontents
        ⟨j, call.sectors, left, true, false, .none⟩
      rw [if_neg (by omega), hpoke]
      refine ⟨_, rfl, prefix_refl _, .inl ⟨left + 1, _, rfl,
        ⟨hrefuses.trans hqueue.refuses, hqueue.plain⟩, hprogress, haccepted, hcontents',
        Stage.writing hwrite hleft (by omega), hlog', ?_⟩⟩
      exact (congrArg (· + left) hcount').trans (by omega)
  | flushing hwrite =>
    dsimp only at hcount ⊢
    rw [irqHandler_flush (hpeek _) rfl rfl rfl]
    have hlog' := hlog.interrupt (.flush j) (lt_succ_self j)
    have hcount' : (ch.log ++ [Entry.interrupt (.flush j) (some j)]).count
        (.interrupt (.sector j) (some j)) = call.sectors := by
      rw [count_append, ← hcount]
      simp
    have hfinished : Finished (({ ch with pending := [] } : Channel).note
        (.interrupt (.flush j) (some j))) j ⟨j, call.sectors, 0, true, true, .none⟩ :=
      ⟨⟨hqueue.refuses, hqueue.plain⟩, hprogress, hnumber, rfl, rfl, hcontents, rfl, hlog', call, haccepted,
        hcount', fun _ => mem_append_right _ mem_cons_self⟩
    obtain ⟨ch', hschedule, hprefix, hsettled⟩ := hfinished.schedule hdone fuel
    exact ⟨ch', hschedule, hprefix, .inr hsettled⟩

/-! ## Runs -/

theorem Settled.logOk (h : Settled ch j) : ∃ k ≤ ch.accepted.length, LogOk ch.accepted ch.log j k := by
  rcases h with ⟨hidle, -⟩ | ⟨needed, call, req, hbusy⟩
  · exact ⟨j, hidle.le, hidle.log⟩
  · exact ⟨j + 1, hbusy.lt, hbusy.log⟩

theorem Settled.le (h : Settled ch j) : j ≤ ch.accepted.length := by
  rcases h with ⟨hidle, -⟩ | ⟨needed, call, req, hbusy⟩
  · exact hidle.le
  · exact Nat.le_of_lt hbusy.lt

theorem Interrupts.trans {ch'' : Channel} (h : Interrupts onDone ch ch') (h' : Interrupts onDone ch' ch'') :
    Interrupts onDone ch ch'' := by
  induction h with
  | refl _ => exact h'
  | step hstep _ ih => exact .step hstep (ih h')

section

variable (hdone : ∀ n, ∀ call ∈ onDone n, call.Plain)

include hdone

/-- Interrupts alone lead to the callback of the first request. -/
theorem Busy.finishes (h : Busy ch j needed call req) :
    ∃ ch', Interrupts onDone ch ch' ∧ ch.accepted <+: ch'.accepted ∧ Settled ch' (j + 1) := by
  induction needed generalizing ch req with
  | zero =>
    obtain ⟨ch', hstep, hprefix, ⟨left, req', hneeded, -⟩ | hsettled⟩ := h.interrupt hdone 0
    · omega
    · exact ⟨ch', .step hstep (.refl ch'), hprefix, hsettled⟩
  | succ needed ih =>
    obtain ⟨ch1, hstep, hprefix, ⟨left, req', hneeded, hbusy⟩ | hsettled⟩ := h.interrupt hdone 0
    · obtain rfl : needed = left := succ.inj hneeded
      obtain ⟨ch', hinterrupts, hprefix', hsettled⟩ := ih hbusy
      exact ⟨ch', .step hstep hinterrupts, hprefix.trans hprefix', hsettled⟩
    · exact ⟨ch1, .step hstep (.refl ch1), hprefix, hsettled⟩

/-- Interrupts alone lead to the callback of each request. -/
theorem Settled.finishes (h : Settled ch j) (hn : n < ch.accepted.length) :
    ∃ ch', Interrupts onDone ch ch' ∧ n ∈ calledOf ch'.log := by
  -- by induction on the number of requests before the one that is wanted
  obtain ⟨d, hd⟩ : ∃ d, n + 1 - j = d := ⟨_, rfl⟩
  induction d generalizing ch j with
  | zero =>
    obtain ⟨k, -, hlog⟩ := h.logOk
    refine ⟨ch, .refl ch, ?_⟩
    rw [hlog.calls, mem_range]
    omega
  | succ d ih =>
    rcases h with ⟨-, hlen⟩ | ⟨needed, call, req, hbusy⟩
    · omega
    · obtain ⟨ch1, hinterrupts, hprefix, hsettled⟩ := hbusy.finishes hdone
      obtain ⟨ch', hinterrupts', hmem⟩ := ih hsettled
        (Nat.lt_of_lt_of_le hn hprefix.length_le) (by omega)
      exact ⟨ch', hinterrupts.trans hinterrupts', hmem⟩

theorem Settled.served (h : Settled ch j) : Served onDone ch := by
  obtain ⟨k, hk, hlog⟩ := h.logOk
  exact ⟨⟨k, hk, hlog.starts⟩, ⟨j, h.le, hlog.calls⟩, hlog.late,
    fun cause owner hmem => (hlog.owners cause owner hmem).1, fun n hn => h.finishes hdone hn⟩

theorem Settled.interrupt (h : Settled ch j) (hstep : ch.interrupt onDone fuel = some ch') :
    ∃ j', Settled ch' j' := by
  rcases h with ⟨hidle, -⟩ | ⟨needed, call, req, hbusy⟩
  · rw [Channel.interrupt, hidle.pending] at hstep
    cases hstep
  · obtain ⟨ch1, hstep1, -, hnext⟩ := hbusy.interrupt hdone fuel
    obtain rfl := some.inj (hstep1.symm.trans (interrupt_mono 2 hstep))
    rcases hnext with ⟨left, req', -, hbusy'⟩ | hsettled
    · exact ⟨j, .inr ⟨left, call, req', hbusy'⟩⟩
    · exact ⟨j + 1, hsettled⟩

omit hdone in
theorem Stage.remaining_ne_zero {pending : List Cause}
    (h : Stage call j req needed pending) (hflush : req.awaitingFlush = false) :
    req.remainingSectors ≠ 0 := by
  cases h with
  | reading _ hpos _ => exact Nat.ne_of_gt hpos
  | writing _ hpos _ => exact Nat.ne_of_gt hpos
  | flushing _ => cases hflush

omit hdone in
theorem Settled.enqueue (h : Settled ch j) (hcareful : Careful ch call)
    (hstep : ch.enqueue onDone fuel call = some ch') : Settled ch' j := by
  have hqueue : QueueOk ch := by
    rcases h with ⟨hidle, -⟩ | ⟨needed, call, req, hbusy⟩
    · exact hidle.queueOk
    · exact hbusy.queueOk
  rcases hcareful with hfull | ⟨hplain, hflush⟩
  · have hrefused : ch.queue.push (createRequest ch.accepted.length call) = none :=
      push_eq_none_iff.mpr ⟨hfull, hqueue.refuses⟩
    rw [Channel.enqueue, Channel.enqueueWith, hrefused] at hstep
    obtain rfl := some.inj hstep
    exact h
  · have hopen : Open ch j := by
      rcases h with ⟨hidle, -⟩ | ⟨needed, old, req, hbusy⟩
      · exact .inl hidle
      · exact .inr ⟨needed, old, req, hbusy, hbusy.stage.remaining_ne_zero (hflush req hbusy.peek)⟩
    have hmore : ch.enqueueWith (Channel.schedule onDone (fuel + 1)) call = some ch' :=
      enqueueWith_mono (fun _ _ => schedule_mono) hstep
    obtain ⟨ch1, hstep1, -, hnext⟩ := hopen.enqueue hplain fuel
    obtain rfl := some.inj (hstep1.symm.trans hmore)
    rcases hnext with rfl | ⟨needed, call', req, hbusy, -⟩
    · exact h
    · exact .inr ⟨needed, call', req, hbusy⟩

theorem Run.settled (run : Run onDone Careful ch) : ∃ j, Settled ch j := by
  induction run with
  | init storage =>
    exact ⟨0, .inl ⟨⟨⟨rfl, by simp [Channel.init]⟩, rfl, rfl, zero_le _, rfl, LogOk.init⟩, rfl⟩⟩
  | enqueue _ hcareful hstep ih =>
    obtain ⟨j, h⟩ := ih
    exact ⟨j, h.enqueue hcareful hstep⟩
  | interrupt _ hstep ih =>
    obtain ⟨j, h⟩ := ih
    exact h.interrupt hdone hstep

end

/-- In all runs whose calls are plain and not made while the first request waits for its flush: requests
are served in their order, each one once. -/
theorem run_served {onDone : Nat → List AtaCall} (hdone : ∀ n, ∀ call ∈ onDone n, call.Plain)
    {ch : Channel} (run : Run onDone Careful ch) : Served onDone ch := by
  obtain ⟨j, h⟩ := run.settled hdone
  exact h.served hdone

/-- A channel before its first request. -/
def unused : Channel := init fun n => createRequest n ⟨0, false, false⟩

/-- A channel on which a sector has been written and flushed. -/
theorem run_served_write : ∃ ch, Run (fun _ => []) Careful ch ∧ calledOf ch.log = [0] ∧
    Served (fun _ => []) ch := by
  obtain ⟨ch1, hstep1, ch2, hstep2, ch, hstep3, hcalled⟩ :
      ∃ ch1 ∈ unused.enqueue (fun _ => []) 1 ⟨1, true, false⟩,
        ∃ ch2 ∈ ch1.interrupt (fun _ => []) 0, ∃ ch ∈ ch2.interrupt (fun _ => []) 2,
          calledOf ch.log = [0] := by
    decide +kernel
  have hcareful : Careful unused ⟨1, true, false⟩ := .inr ⟨by decide, by decide⟩
  have run := (((Run.init _).enqueue hcareful hstep1).interrupt hstep2).interrupt hstep3
  exact ⟨ch, run, hcalled, run_served (by simp) run⟩

/-- A read is requested while a write waits for its flush: the callback of the write is called before
the flush. -/
theorem run_callsBeforeFlush : ∃ ch, Run (fun _ => []) (fun _ _ => True) ch ∧ ¬ Served (fun _ => []) ch := by
  obtain ⟨ch1, hstep1, ch2, hstep2, ch, hstep3, hlog, haccepted⟩ :
      ∃ ch1 ∈ unused.enqueue (fun _ => []) 1 ⟨1, true, false⟩,
        ∃ ch2 ∈ ch1.interrupt (fun _ => []) 0, ∃ ch ∈ ch2.enqueue (fun _ => []) 2 ⟨1, false, false⟩,
          ch.log = [.started 0, .interrupt (.sector 0) (some 0), .called 0, .started 1] ∧
          ch.accepted = [⟨1, true, false⟩, ⟨1, false, false⟩] := by
    decide +kernel
  refine ⟨ch, (((Run.init _).enqueue trivial hstep1).interrupt hstep2).enqueue trivial hstep3,
    fun h => ?_⟩
  obtain ⟨call, hcall, -, hflush⟩ := h.late 0 [.started 0, .interrupt (.sector 0) (some 0)] [.started 1] hlog
  rw [haccepted] at hcall
  obtain rfl := some.inj hcall
  exact absurd (hflush rfl) (by decide)

end Stos.Kernel.Ata
