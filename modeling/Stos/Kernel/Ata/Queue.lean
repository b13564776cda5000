import Stos.Libds.RingBuf

/-!
# The requests of an ATA channel

The queue of a channel (`kernel/arch/i386/drivers/ata/queue.c`) and its interrupt handler
(`irq_handler.c`). The two channels do the same, each with its own queue. The drive raises one interrupt
for each sector and one for each flush; which interrupts are still to come, and what has caused them, is
part of the state. The data of a sector, its address and errors of the drive are left out.

Both functions run with interrupts disabled. A callback may call `ata_read` and `ata_write` itself.
-/

namespace Stos.Kernel.Ata

open Stos.Libds List

inductive AtapiPhase
  | none
  | awaitingPacket
  | awaitingData
  deriving DecidableEq

/-- `ata_request_t` (`common.h:73-97`). The number stands for the callback: it is the position of the
request among all accepted ones. -/
structure Request where
  number : Nat
  totalSectors : Nat
  remainingSectors : Nat
  isWrite : Bool
  awaitingFlush : Bool
  atapiPhase : AtapiPhase
  deriving DecidableEq

/-- Why the drive raises an interrupt: a sector or the flush of a request. -/
inductive Cause
  | sector (number : Nat)
  | flush (number : Nat)
  deriving DecidableEq

def Cause.number : Cause → Nat
  | sector n => n
  | flush n => n

/-- What happens on a channel. An interrupt is attributed to the request that is first in the queue, if
there is one. -/
inductive Entry
  | started (number : Nat)
  | called (number : Nat)
  | interrupt (cause : Cause) (owner : Option Nat)
  deriving DecidableEq

/-- A call of `ata_read` or `ata_write`, and the type of its drive. -/
structure AtaCall where
  sectorsCount : Nat
  isWrite : Bool
  atapi : Bool
  deriving DecidableEq

/-- The number of sectors, a `uint8_t`. -/
def AtaCall.sectors (call : AtaCall) : Nat := call.sectorsCount % 256

/-- The request of a call (`queue.c:133-157`). -/
def createRequest (number : Nat) (call : AtaCall) : Request where
  number := number
  totalSectors := call.sectors
  remainingSectors := call.sectors
  isWrite := call.isWrite
  awaitingFlush := false
  atapiPhase := if call.atapi then .awaitingPacket else .none

/-- A channel: its queue and its flag, the interrupts that the drive is going to raise, the accepted
calls and what has happened. -/
structure Channel where
  queue : RingBuf Request
  inProgress : Bool
  pending : List Cause
  accepted : List AtaCall
  log : List Entry

/-- A channel before its first request. The queue has room for `QUEUE_SIZE` requests and refuses more. -/
def Channel.init (storage : Nat → Request) : Channel where
  queue := RingBuf.create 16 true storage (by decide)
  inProgress := false
  pending := []
  accepted := []
  log := []

variable (ch : Channel)

namespace Channel

def note (entry : Entry) : Channel := { ch with log := ch.log ++ [entry] }

/-- The drive is going to raise interrupts. -/
def expect (causes : List Cause) : Channel :=
  { ch with pending := ch.pending ++ causes }

/-- `ds_ringbuf_poke`, whose result is not used. -/
def poke (req : Request) : Channel :=
  { ch with queue := (ch.queue.poke req).getD ch.queue }

/-- `_ata_read` (`read.c:7-36`): one interrupt for each sector. The drive takes 0 for 256 sectors. -/
def ataRead (req : Request) : Channel :=
  if req.isWrite ∨ req.atapiPhase ≠ .none then ch
  else
    let sectors := if req.totalSectors = 0 then 256 else req.totalSectors
    ch.expect (replicate sectors (.sector req.number))

/-- `_ata_write` (`write.c:7-49`): the first sector is sent. -/
def ataWrite (req : Request) : Channel :=
  if ¬ req.isWrite ∨ req.atapiPhase ≠ .none then ch
  else ch.expect [.sector req.number]

/-- The start of a request (`queue.c:94-116`). -/
def start (req : Request) : Channel :=
  let ch := { ch with inProgress := true }.note (.started req.number)
  if req.atapiPhase = .awaitingPacket then
    (ch.expect (replicate req.totalSectors (.sector req.number))).poke
      { req with atapiPhase := .awaitingData }
  else if req.isWrite then ch.ataWrite req
  else ch.ataRead req

/-- `_ata_enqueue_request` (`queue.c:26-56`) with what `_ata_queue_schedule` does. A full queue refuses
the request. -/
def enqueueWith (schedule : Channel → Option Channel) (ch : Channel) (call : AtaCall) : Option Channel :=
  match ch.queue.push (createRequest ch.accepted.length call) with
  | none => some ch
  | some queue => schedule { ch with queue := queue, accepted := ch.accepted ++ [call] }

/-- The end of a request (`queue.c:77-83`). -/
def finish (req : Request) : Channel :=
  { ch with inProgress := false, queue := (ch.queue.pop.map Prod.snd).getD ch.queue }.note
    (.called req.number)

section

variable (onDone : Nat → List AtaCall)

/-- `_ata_queue_schedule` (`queue.c:58-117`). The callback of a request makes the calls that `onDone`
gives for its number. `none` if the fuel runs out. -/
def schedule : (fuel : Nat) → Channel → Option Channel
  | 0, _ => none
  | fuel + 1, ch =>
    match ch.queue.peek with
    | none => some ch
    | some req =>
      if ch.inProgress then
        if req.remainingSectors = 0 then
          ((onDone req.number).foldlM (enqueueWith (schedule fuel)) (ch.finish req)).bind (schedule fuel)
        else some ch
      else some (ch.start req)

/-- `ata_read` and `ata_write`. -/
def enqueue (fuel : Nat) (ch : Channel) (call : AtaCall) : Option Channel :=
  ch.enqueueWith (schedule onDone fuel) call

/-- `irq_handler_read` (`irq_handler.c:129-164`), and `irq_handler_atapi_awaiting_data` without an error
(`irq_handler.c:18-62`). -/
def irqHandlerRead (fuel : Nat) (ch : Channel) (req : Request) : Option Channel :=
  let req := { req with remainingSectors := (req.remainingSectors + 255) % 256 }
  let ch := ch.poke req
  if req.remainingSectors = 0 then ch.schedule onDone fuel else some ch

/-- `irq_handler_write` (`irq_handler.c:78-124`): the next sector or the flush command is sent. -/
def irqHandlerWrite (req : Request) : Channel :=
  let req := { req with remainingSectors := (req.remainingSectors + 255) % 256 }
  if req.remainingSectors = 0 then
    (ch.expect [.flush req.number]).poke { req with awaitingFlush := true }
  else (ch.expect [.sector req.number]).poke req

/-- `_ata_irq_handler` (`irq_handler.c:166-201`). -/
def irqHandler (fuel : Nat) (ch : Channel) (cause : Cause) : Option Channel :=
  match ch.queue.peek with
  | none => some (ch.note (.interrupt cause none))
  | some req =>
    let ch := ch.note (.interrupt cause (some req.number))
    if req.atapiPhase = .awaitingData then ch.irqHandlerRead onDone fuel req
    else if req.isWrite ∧ req.awaitingFlush then ch.schedule onDone fuel
    else if req.isWrite then some (ch.irqHandlerWrite req)
    else ch.irqHandlerRead onDone fuel req

/-- The drive raises its next interrupt, if there is one. -/
def interrupt (fuel : Nat) (ch : Channel) : Option Channel :=
  match ch.pending with
  | [] => none
  | cause :: pending => { ch with pending := pending }.irqHandler onDone fuel cause

end

end Channel

/-! ## Runs -/

section

variable (onDone : Nat → List AtaCall)

/-- The states of a channel whose calls, apart from those of callbacks, are made in states that allow
them. -/
inductive Run (Allowed : Channel → AtaCall → Prop) : Channel → Prop
  | init (storage : Nat → Request) : Run Allowed (Channel.init storage)
  | enqueue {ch ch' : Channel} {call : AtaCall} {fuel : Nat} : Run Allowed ch → Allowed ch call →
    ch.enqueue onDone fuel call = some ch' → Run Allowed ch'
  | interrupt {ch ch' : Channel} {fuel : Nat} : Run Allowed ch → ch.interrupt onDone fuel = some ch' →
    Run Allowed ch'

/-- States that follow by interrupts alone. -/
inductive Interrupts : Channel → Channel → Prop
  | refl (ch : Channel) : Interrupts ch ch
  | step {ch ch' ch'' : Channel} {fuel : Nat} : ch.interrupt onDone fuel = some ch' →
    Interrupts ch' ch'' → Interrupts ch ch''

end

/-- The requests that have been started. -/
def startedOf (log : List Entry) : List Nat :=
  log.filterMap fun
    | .started n => some n
    | _ => none

/-- The requests whose callback has been called. -/
def calledOf (log : List Entry) : List Nat :=
  log.filterMap fun
    | .called n => some n
    | _ => none

/-- All sectors of a request were transferred, and it was flushed if it is a write. -/
def Transferred (accepted : List AtaCall) (log : List Entry) (n : Nat) : Prop :=
  ∃ call, accepted[n]? = some call ∧ log.count (.interrupt (.sector n) (some n)) = call.sectors ∧
    (call.isWrite → .interrupt (.flush n) (some n) ∈ log)

/-- Requests are started and called back in the order in which they were accepted, each at most once and
not before it was transferred; interrupts are attributed to the request that caused them; and interrupts
alone lead to the callback of each request. -/
structure Served (onDone : Nat → List AtaCall) (ch : Channel) : Prop where
  starts : ∃ k ≤ ch.accepted.length, startedOf ch.log = range k
  calls : ∃ k ≤ ch.accepted.length, calledOf ch.log = range k
  late : ∀ n before after, ch.log = before ++ .called n :: after → Transferred ch.accepted before n
  owners : ∀ cause owner, .interrupt cause owner ∈ ch.log → owner = some cause.number
  done : ∀ n < ch.accepted.length, ∃ ch', Interrupts onDone ch ch' ∧ n ∈ calledOf ch'.log

/-- A call that asks for sectors, and not for a write to an ATAPI drive. -/
def AtaCall.Plain (call : AtaCall) : Prop := call.sectors ≠ 0 ∧ ¬ (call.isWrite ∧ call.atapi)

instance (call : AtaCall) : Decidable call.Plain := inferInstanceAs (Decidable (_ ∧ _))

/-- The call is refused, or it is a plain one and the first request does not wait for its flush. -/
def Careful (call : AtaCall) : Prop :=
  ch.queue.currentCount = ch.queue.capacity ∨
    call.Plain ∧ ∀ req ∈ ch.queue.peek, req.awaitingFlush = false

end Stos.Kernel.Ata
