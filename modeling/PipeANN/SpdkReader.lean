import Mathlib.Algebra.Group.Nat.Defs
import PipeANN.DiskLayout

/-! # Reads and writes through SPDK

A request is split into commands, one for each stripe that it touches, and the stripes go round
the SSDs.  Each SSD has a poller thread.  A worker pushes the commands of a request to the
command queues of the pollers (`send_io`), a poller takes all commands that it finds, hands them to
its device and runs the callback of those that have completed, and the callback pushes the request
to the completion queue of the worker.  `poll` takes what is there, and a request is finished when
as many of its commands have come back as were sent.

Both queues are bounded.  A worker that finds the command queue full tries again; the callback
(`io_cb`) does not look at the result of its push, so that a completion is lost if the completion
queue is full.

A worker here runs a list of operations: it sends a request, polls, or waits for all requests that
it has sent.  One step of the system is a step of the worker, of a poller, or of a device; a worker
that tries again and a poller whose device does not take the next command take none.
-/
namespace PipeANN
open Function List

def stripeSize : Nat := sectorLen

def pollerQueueCap : Nat := 4096

/-- The SSDs: how many there are, the size of their blocks, and how many commands one of them
takes at a time. -/
structure SpdkConfig where
  nSsds : Nat
  lbaShift : Nat
  depth : Nat
  nSsds_pos : 0 < nSsds
  depth_pos : 0 < depth

/-- A request of a worker. -/
structure SpdkRequest where
  offset : Nat
  len : Nat
  write : Bool
deriving DecidableEq, Repr

/-- A command: where its part of the buffer starts, the SSD, the first block there and the number
of blocks, and the request that it is part of. -/
structure SpdkCmd where
  start : Nat
  ssd : Nat
  lba : Nat
  lbaCount : Nat
  write : Bool
  parent : Nat
deriving DecidableEq, Repr

/-- The loop of `send_io` from byte `done` of the request on. -/
def sendIoLoop (cfg : SpdkConfig) (parent : Nat) (req : SpdkRequest) : Nat → Nat → List SpdkCmd
  | 0, _ => []
  | fuel + 1, done =>
    if done < req.len then
      let off := req.offset + done
      let stripeOff := off % stripeSize
      let chunkSize := min (req.len - done) (stripeSize - stripeOff)
      let stripeNo := off / stripeSize
      let nsOff := stripeNo / cfg.nSsds * stripeSize + stripeOff
      ⟨done, stripeNo % cfg.nSsds, nsOff / 2 ^ cfg.lbaShift,
        chunkSize / 2 ^ cfg.lbaShift % 2 ^ 32, req.write, parent⟩ ::
        sendIoLoop cfg parent req fuel (done + chunkSize)
    else []

/-- The commands of a request, in the order in which they are sent.  A command is for one byte at
least, so that there are no more than the request has bytes. -/
def sendIoCmds (cfg : SpdkConfig) (parent : Nat) (req : SpdkRequest) : List SpdkCmd :=
  sendIoLoop cfg parent req req.len 0

/-- What a worker does. -/
inductive SpdkOp where
  | send (req : SpdkRequest)
  | poll
  /-- The loops of `blocking`: until all requests are finished. -/
  | wait
deriving DecidableEq, Repr

/-- One SSD with its poller, as far as the worker is concerned. -/
structure SpdkLane where
  /-- The command queue, without what the poller has taken. -/
  queue : List SpdkCmd
  /-- The commands that the poller has taken and not submitted. -/
  batch : List SpdkCmd
  /-- The slots of what the poller has taken, which it frees at the end (`pop_all_fn`). -/
  taken : Nat
  /-- The commands in the device. -/
  inFlight : List SpdkCmd
  /-- The commands that have completed, before their callback. -/
  completed : List SpdkCmd
  /-- The completion queue of the worker for this SSD. -/
  cq : List SpdkCmd
deriving DecidableEq, Repr

/-- The steps of a poller and of its device. -/
inductive LaneAction where
  /-- The poller reads the head and the tail of the command queue. -/
  | take
  /-- It submits the next command that it has taken. -/
  | submit
  /-- It frees the slots of the commands. -/
  | endBatch
  /-- `io_cb`, for the oldest completed command. -/
  | callback
  /-- The device completes a command. -/
  | complete (k : Nat)
deriving DecidableEq, Repr

namespace SpdkLane

def empty : SpdkLane := ⟨[], [], 0, [], [], []⟩

/-- The device takes no further command: `-EAGAIN`. -/
def isFull (cfg : SpdkConfig) (lane : SpdkLane) : Bool :=
  cfg.depth ≤ lane.inFlight.length + lane.completed.length

/-- A push to the completion queue, whose result `io_cb` ignores. -/
def pushCq (cq : List SpdkCmd) (c : SpdkCmd) : List SpdkCmd :=
  if cq.length < pollerQueueCap then cq ++ [c] else cq

def act (cfg : SpdkConfig) (lane : SpdkLane) : LaneAction → Option SpdkLane
  | .take =>
    if lane.taken = 0 ∧ lane.queue ≠ [] then
      some { lane with queue := [], batch := lane.batch ++ lane.queue, taken := lane.queue.length }
    else none
  | .submit =>
    match lane.batch with
    | [] => none
    | c :: batch =>
      if lane.isFull cfg then none
      else some { lane with batch := batch, inFlight := lane.inFlight ++ [c] }
  | .endBatch => if lane.batch = [] ∧ 0 < lane.taken then some { lane with taken := 0 } else none
  | .callback =>
    match lane.completed with
    | [] => none
    | c :: completed =>
      -- completions are processed between two rounds, and while the device takes no command
      if lane.taken = 0 ∨ lane.batch ≠ [] ∧ lane.isFull cfg then
        some { lane with completed := completed, cq := pushCq lane.cq c }
      else none
  | .complete k =>
    match lane.inFlight[k]? with
    | none => none
    | some c =>
      some { lane with inFlight := lane.inFlight.eraseIdx k, completed := lane.completed ++ [c] }

/-- The commands that a step of the device completes. -/
def landedBy (lane : SpdkLane) : LaneAction → List SpdkCmd
  | .complete k => lane.inFlight[k]?.toList
  | _ => []

/-- All commands that were sent and have not come back. -/
def cmds (lane : SpdkLane) : List SpdkCmd :=
  lane.queue ++ lane.batch ++ lane.inFlight ++ lane.completed ++ lane.cq

end SpdkLane

structure SpdkState where
  ops : List SpdkOp
  /-- In `send_io`: the commands that are not pushed yet. -/
  sending : Option (List SpdkCmd)
  /-- The requests that have been sent; a request is named by its place. -/
  reqs : List SpdkRequest
  nPending : Nat → Nat
  finished : Nat → Bool
  /-- The requests that `poll` has found to be finished, in this order. -/
  reports : List Nat
  lanes : List SpdkLane
  /-- The commands that the devices have completed. -/
  landed : List SpdkCmd

inductive SpdkAction where
  /-- The worker begins or ends an operation, or pushes a command. -/
  | worker
  /-- The worker takes a completion from the queue for an SSD. -/
  | pop (i : Nat)
  | lane (i : Nat) (a : LaneAction)
deriving DecidableEq, Repr

/-- Who takes a step. -/
inductive SpdkAgent where
  | worker
  | poller (i : Nat)
  | device (i : Nat)
deriving DecidableEq, Repr

def SpdkAction.agent : SpdkAction → SpdkAgent
  | .worker => .worker
  | .pop _ => .worker
  | .lane i (.complete _) => .device i
  | .lane i _ => .poller i

namespace SpdkState

/-- A worker that will run `ops` and then wait for its requests. -/
def start (cfg : SpdkConfig) (ops : List SpdkOp) : SpdkState where
  ops := ops ++ [.wait]
  sending := none
  reqs := []
  nPending := fun _ => 0
  finished := fun _ => false
  reports := []
  lanes := List.replicate cfg.nSsds .empty
  landed := []

variable (s : SpdkState)

/-- One SSD and its poller have moved. -/
def setLane (i : Nat) (lane : SpdkLane) : SpdkState :=
  { s with lanes := s.lanes.set i lane }

/-- A command has been pushed, and one more is pending. -/
def pushed (c : SpdkCmd) (todo : List SpdkCmd) (lane : SpdkLane) : SpdkState :=
  { s.setLane c.ssd { lane with queue := lane.queue ++ [c] } with
    sending := some todo
    nPending := update s.nPending c.parent (s.nPending c.parent + 1) }

/-- One iteration of the loop of `send_io`. -/
def pushCmd (c : SpdkCmd) (todo : List SpdkCmd) : Option SpdkState :=
  s.lanes[c.ssd]?.bind fun lane =>
    if lane.queue.length + lane.taken < pollerQueueCap then some (s.pushed c todo lane) else none

variable (cfg : SpdkConfig) (s : SpdkState)

/-- `send_io` begins: the request has no pending command and is not finished. -/
def beginSend (req : SpdkRequest) (ops : List SpdkOp) :
    SpdkState :=
  { s with
    ops := ops
    sending := some (sendIoCmds cfg s.reqs.length req)
    reqs := s.reqs ++ [req]
    nPending := update s.nPending s.reqs.length 0
    finished := update s.finished s.reqs.length false }

def workerStep : Option SpdkState :=
  match s.sending with
  | some (c :: todo) => s.pushCmd c todo
  | some [] => some { s with sending := none }
  | none =>
    match s.ops with
    | [] => none
    | .send req :: ops => some (s.beginSend cfg req ops)
    | .poll :: ops => some { s with ops := ops }
    | .wait :: ops =>
      if (List.range s.reqs.length).all s.finished then some { s with ops := ops } else none

/-- Whether the worker is in `poll`, or in a loop around it. -/
def isPolling : Bool :=
  match s.sending, s.ops with
  | none, .poll :: _ => true
  | none, .wait :: _ => true
  | _, _ => false

/-- One iteration of the loop of `poll`, for a completion of request `r`. -/
def popDone (r : Nat) : SpdkState :=
  let nPending := update s.nPending r (s.nPending r - 1)
  if s.nPending r - 1 = 0 then
    { s with
      nPending := nPending
      finished := update s.finished r true
      reports := s.reports ++ [r] }
  else { s with nPending := nPending }

/-- The worker has taken a completion from the queue for an SSD. -/
def popped (i : Nat) (lane : SpdkLane) (c : SpdkCmd) (cq : List SpdkCmd) :
    SpdkState :=
  (s.setLane i { lane with cq := cq }).popDone c.parent

/-- A completion is taken from the queue that the round over the SSDs has come to. -/
def popStep (i : Nat) : Option SpdkState :=
  if s.isPolling then
    s.lanes[i]?.bind fun lane =>
      match lane.cq with
      | [] => none
      | c :: cq => some (s.popped i lane c cq)
  else none

def step : SpdkAction → Option SpdkState
  | .worker => s.workerStep cfg
  | .pop i => s.popStep i
  | .lane i a =>
    s.lanes[i]?.bind fun lane =>
      (lane.act cfg a).map fun lane' =>
        { s.setLane i lane' with landed := s.landed ++ lane.landedBy a }

end SpdkState

/-! ## The stripes of a request

The bytes of a part lie one after the other on one SSD, and no two bytes of the array share one
there. -/

/-- The SSD on which a byte of the array lies, and its offset there. -/
def SpdkConfig.place (cfg : SpdkConfig) (off : Nat) : Nat × Nat :=
  (off / stripeSize % cfg.nSsds, off / stripeSize / cfg.nSsds * stripeSize + off % stripeSize)

theorem SpdkConfig.place_injective (cfg : SpdkConfig) : Injective cfg.place := by
  intro a b h
  obtain ⟨hssd, hoff⟩ := Prod.mk.inj h
  obtain ⟨hrow, hin⟩ : a / stripeSize / cfg.nSsds = b / stripeSize / cfg.nSsds ∧
      a % stripeSize = b % stripeSize := by
    unfold stripeSize sectorLen at *
    omega
  have hstripe : a / stripeSize = b / stripeSize := by
    rw [← Nat.div_add_mod (a / stripeSize) cfg.nSsds, hrow, hssd, Nat.div_add_mod]
  rw [← Nat.div_add_mod a stripeSize, hstripe, hin, Nat.div_add_mod]

/-- The command for the part of a request that starts at byte `c.1` and has `c.2` bytes. -/
def chunkCmd (cfg : SpdkConfig) (parent : Nat) (req : SpdkRequest) (c : Nat × Nat) : SpdkCmd where
  start := c.1
  ssd := (cfg.place (req.offset + c.1)).1
  lba := (cfg.place (req.offset + c.1)).2 / 2 ^ cfg.lbaShift
  lbaCount := c.2 / 2 ^ cfg.lbaShift % 2 ^ 32
  write := req.write
  parent := parent

/-- `len` bytes from `off` on lie in one stripe, and so one after the other on its SSD. -/
def OneStripe (cfg : SpdkConfig) (off len : Nat) : Prop :=
  0 < len ∧ ∀ k < len, (off + k) / stripeSize = off / stripeSize ∧
    cfg.place (off + k) = ((cfg.place off).1, (cfg.place off).2 + k)

theorem oneStripe_of_le {cfg : SpdkConfig} {off len : Nat} (hpos : 0 < len)
    (hlen : len ≤ stripeSize - off % stripeSize) : OneStripe cfg off len := by
  refine ⟨hpos, fun k hk => ?_⟩
  obtain ⟨hdiv, hmod⟩ : (off + k) / stripeSize = off / stripeSize ∧
      (off + k) % stripeSize = off % stripeSize + k := by
    unfold stripeSize sectorLen at *
    omega
  refine ⟨hdiv, ?_⟩
  rw [SpdkConfig.place, SpdkConfig.place, hdiv, hmod, Nat.add_assoc]

/-- From byte `done` on, by induction on the rounds. -/
theorem sendIoLoop_chunks (cfg : SpdkConfig) (parent : Nat) (req : SpdkRequest) (fuel done : Nat)
    (hfuel : req.len - done ≤ fuel) :
    ∃ chunks : List (Nat × Nat),
      sendIoLoop cfg parent req fuel done = chunks.map (chunkCmd cfg parent req) ∧
      chunks.flatMap (fun c => range' c.1 c.2) = range' done (req.len - done) ∧
      ∀ c ∈ chunks, OneStripe cfg (req.offset + c.1) c.2 := by
  fun_induction sendIoLoop with
  | case1 done => exact ⟨[], rfl, by simp [Nat.le_zero.mp hfuel], by simp⟩
  | case2 fuel done hlt off stripeOff chunkSize stripeNo nsOff ih =>
    have hoff : stripeOff < stripeSize := Nat.mod_lt _ (by decide)
    have hpos : 0 < chunkSize := by omega
    obtain ⟨chunks, hcmds, hbytes, hall⟩ := ih (by omega)
    refine ⟨(done, chunkSize) :: chunks, by rw [hcmds]; rfl, ?_, fun c hc => ?_⟩
    · rw [flatMap_cons, hbytes, range'_append_1]
      congr 1
      omega
    · rcases mem_cons.mp hc with rfl | hc
      · exact oneStripe_of_le hpos (Nat.min_le_right _ _)
      · exact hall c hc
  | case3 fuel done hge =>
    exact ⟨[], rfl, by simp [Nat.sub_eq_zero_of_le (Nat.not_lt.mp hge)], by simp⟩

/-- **The commands of a request partition its bytes**, in order, none crosses a stripe, and
different bytes of the array lie at different places. -/
theorem sendIoCmds_stripes (cfg : SpdkConfig) (parent : Nat) (req : SpdkRequest) :
    (∃ chunks : List (Nat × Nat),
      sendIoCmds cfg parent req = chunks.map (chunkCmd cfg parent req) ∧
      chunks.flatMap (fun c => range' c.1 c.2) = range req.len ∧
      ∀ c ∈ chunks, OneStripe cfg (req.offset + c.1) c.2) ∧
    Injective cfg.place := by
  refine ⟨?_, cfg.place_injective⟩
  rw [range_eq_range']
  exact sendIoLoop_chunks cfg parent req req.len 0 (Nat.sub_le _ _)

end PipeANN
