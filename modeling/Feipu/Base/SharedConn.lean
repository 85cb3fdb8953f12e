import Feipu.Base.TcpConnection
import Feipu.Base.TcpServer
import Feipu.Lib.Memory
import Feipu.Lib.Trace

/-!
# A connection and the threads that share it

One connection of a server, with its io loop `loop`, the server's loop `main` (the two may be one)
and any number of foreign threads `κ` that call `send` and `shutdown`.  A foreign call is the check
of `status_`, the check of the thread, the push and the `wakeup`, each a step of its own.

What a functor was given is what it holds: `sendInLoop` holds a pointer into the caller's memory
and `this`, `removeConnection` and `connectDestory` hold a `shared_ptr`.  The functors of a batch are
destructed when `doFunctions` returns.  What the user does in a callback comes as steps of its own.
-/

namespace Feipu
open Memory

/-- a functor of the connection -/
inductive ConnTask (κ : Type) where
  /-- `asked` is a history: what the range held when `send` was called -/
  | sendInLoop (k : κ) (data : Nat) (asked : Bytes)
  | shutInLoop
  | removeConnection
  | connectDestory
deriving DecidableEq

/-- is `this` bound, and not a `shared_ptr`? -/
def ConnTask.raw {κ : Type} : ConnTask κ → Bool
  | .sendInLoop .. | .shutInLoop => true
  | .removeConnection | .connectDestory => false

/-- a call from a foreign thread; `asked` is what the range from `data` on holds -/
inductive ConnCall where
  | send (data : Nat) (asked : Bytes)
  | shutdown

/-- where a foreign thread is -/
inductive CallPc (κ : Type) where
  | idle
  /-- `status_` was `Connected` -/
  | checked (call : ConnCall)
  /-- `shutdown` has set `status_` -/
  | marked
  /-- the functor is made; the thread is not the loop's -/
  | bound (t : ConnTask κ)
  | pushed

/-- the functors of a loop -/
structure LoopQueue (κ : Type) where
  functions : List (ConnTask κ) := []
  /-- what is to run of the present batch -/
  batch : List (ConnTask κ) := []
  /-- what has run of it -/
  ran : List (ConnTask κ) := []

structure SharedConn (ι κ : Type) where
  /-- `loop_` of the server -/
  main : ι
  /-- `loop_` of the connection -/
  loop : ι
  sock : Sock
  /-- the calls of `write (2)` so far -/
  writes : Nat := 0
  /-- `handleClose` has run -/
  closed : Bool := false
  /-- `handleClose` has not yet called `close_cb_` -/
  closing : Bool := false
  /-- the channel is in the map of the poller -/
  registered : Bool := true
  /-- `connections_` has the connection -/
  connections : Bool := true
  queue : ι → LoopQueue κ := fun _ => {}
  /-- `handleEvent` is running, with the callbacks to come; it has locked `tie_` -/
  handling : Option (List EventCall) := none
  pc : κ → CallPc κ := fun _ => .idle
  /-- the foreign threads that have a `TcpConnectionPtr` -/
  holds : κ → Bool
  /-- the memory of each foreign thread -/
  store : κ → Nat → Option UInt8

/-- one step of a thread -/
inductive ConnAct (ι κ : Type) where
  /-- a foreign call: the check of `status_` -/
  | call (k : κ) (c : ConnCall)
  /-- `status_ = Disconnecting` -/
  | disconnecting (k : κ)
  /-- `isInLoopThread ()` is false; `std::bind` -/
  | bind (k : κ) (t : ConnTask κ)
  | push (k : κ) (t : ConnTask κ)
  | wakeup (k : κ)
  /-- a thread writes a cell, allocates one or frees it -/
  | poke (k : κ) (q : Nat) (b : Option UInt8)
  | acquire (k : κ)
  | release (k : κ)
  | swap (l : ι)
  /-- what `sendInLoop` reads through its pointer, and the answer of the `write` it may make -/
  | runTask (l : ι) (t : ConnTask κ) (read : Bytes) (n : Int)
  /-- `doFunctions` returns -/
  | endBatch (l : ι)
  | handleEvent (revents : BitVec 16)
  /-- `handleEvent` where `tie_` has expired -/
  | expired
  | callback (call : EventCall) (n : Int)
  /-- `close_cb_` -/
  | closeCb
  | endEvent
  /-- calls on the thread of the loop -/
  | send (data : Bytes) (n : Int)
  | shutdown
  /-- `write_cb_` returns -/
  | ret

/-- the foreign thread that makes the step -/
def ConnAct.thread {ι κ : Type} : ConnAct ι κ → Option κ
  | .call k _ | .disconnecting k | .bind k _ | .push k _ | .wakeup k | .poke k _ _ | .acquire k
  | .release k => some k
  | _ => none

namespace SharedConn
variable {ι κ : Type}

def start (main loop : ι) (hasWriteCb : Bool) (holds : κ → Bool)
    (store : κ → Nat → Option UInt8) : SharedConn ι κ where
  main := main
  loop := loop
  sock := .established hasWriteCb
  holds := holds
  store := store

/-- the functors that exist on a loop -/
def tasks (s : SharedConn ι κ) (l : ι) : List (ConnTask κ) :=
  (s.queue l).functions ++ (s.queue l).batch ++ (s.queue l).ran

/-- somebody owns the connection -/
def Owned (s : SharedConn ι κ) : Prop :=
  s.connections = true ∨ (∃ l, ∃ t ∈ s.tasks l, t.raw = false) ∨ s.handling ≠ none ∨
    ∃ k, s.holds k = true

/-- the thread of the connection's loop is in no callback of the user and not in `handleClose` -/
def Free (s : SharedConn ι κ) : Prop := s.sock.stack = [] ∧ s.closing = false

variable [DecidableEq ι] [DecidableEq κ]

def setPc (s : SharedConn ι κ) (k : κ) (pc : CallPc κ) : SharedConn ι κ :=
  { s with pc := Function.update s.pc k pc }

def setQueue (s : SharedConn ι κ) (l : ι) (q : LoopQueue κ) : SharedConn ι κ :=
  { s with queue := Function.update s.queue l q }

/-- the push of `runInLoop` -/
def enqueue (s : SharedConn ι κ) (l : ι) (t : ConnTask κ) : SharedConn ι κ :=
  s.setQueue l { s.queue l with functions := (s.queue l).functions ++ [t] }

def count (writes : Bool) : Nat := if writes then 1 else 0

def sendInLoop (s : SharedConn ι κ) (data : Bytes) (n : Int) : Except Fatal (SharedConn ι κ) := do
  let sock ← s.sock.sendInLoop data n
  return { s with sock, writes := s.writes + count s.sock.WritesDirectly }

/-- `send` on the thread of the loop -/
def send (s : SharedConn ι κ) (data : Bytes) (n : Int) : Except Fatal (SharedConn ι κ) :=
  if s.sock.conn.status ≠ .connected then .ok s else s.sendInLoop data n

def bufferIntoNet (s : SharedConn ι κ) (n : Int) : Except Fatal (SharedConn ι κ) := do
  let sock ← s.sock.bufferIntoNet n
  return { s with sock, writes := s.writes + count s.sock.conn.channel.isWriting }

/-- `handleClose`, up to `close_cb_` -/
def handleClose (s : SharedConn ι κ) : Except Fatal (SharedConn ι κ) := do
  let sock ← s.sock.handleClose
  return { s with sock, closed := true, closing := true }

/-- `NetIntoBuffer` when `readv` returns `n` -/
def netIntoBuffer (s : SharedConn ι κ) (n : Int) : Except Fatal (SharedConn ι κ) :=
  if n = 0 then s.handleClose else .ok s

def connectDestory (s : SharedConn ι κ) (l : ι) : Except Fatal (SharedConn ι κ) := do
  TcpServer.assertInLoopThread s.loop l
  asserted (if s.registered then some () else none)
  return { s with registered := false }

/-- `connections_` belongs to the loop of the server, which runs all of this -/
def removeConnection (s : SharedConn ι κ) (l : ι) : Except Fatal (SharedConn ι κ) := do
  TcpServer.assertInLoopThread s.main l
  asserted (if s.connections then some () else none)
  let s := { s with connections := false }
  if s.loop = l then s.connectDestory l else return s.enqueue s.loop .connectDestory

/-- `close_cb_`, called on the thread of the loop: `whenOldConnDisconnect` -/
def closeCb (s : SharedConn ι κ) : Except Fatal (SharedConn ι κ) :=
  let s := { s with closing := false }
  if s.main = s.loop then s.removeConnection s.loop else .ok (s.enqueue s.main .removeConnection)

def runTask (s : SharedConn ι κ) (l : ι) (read : Bytes) (n : Int) :
    ConnTask κ → Except Fatal (SharedConn ι κ)
  | .sendInLoop _ _ _ => do
    TcpServer.assertInLoopThread s.loop l
    s.sendInLoop read n
  | .shutInLoop => do
    TcpServer.assertInLoopThread s.loop l
    let sock ← s.sock.shutInLoop
    return { s with sock }
  | .removeConnection => s.removeConnection l
  | .connectDestory => s.connectDestory l

def runCallback (s : SharedConn ι κ) (n : Int) : EventCall → Except Fatal (SharedConn ι κ)
  | .close => s.handleClose
  | .read => s.netIntoBuffer n
  | .write => s.bufferIntoNet n

/-- the next functor of the batch is taken -/
def take (s : SharedConn ι κ) (l : ι) (t : ConnTask κ) : SharedConn ι κ :=
  s.setQueue l { s.queue l with
    batch := (s.queue l).batch.tail
    ran := (s.queue l).ran ++ [t] }

/-- the next callback of the event is taken -/
def nextCall (s : SharedConn ι κ) : SharedConn ι κ :=
  { s with handling := s.handling.map List.tail }

def exec (s : SharedConn ι κ) : ConnAct ι κ → Except Fatal (SharedConn ι κ)
  | .call k c => .ok (if s.sock.conn.status = .connected then s.setPc k (.checked c) else s)
  | .disconnecting k => .ok ({ s with sock := s.sock.disconnecting }.setPc k .marked)
  | .bind k t => .ok (s.setPc k (.bound t))
  | .push k t => .ok ((s.enqueue s.loop t).setPc k .pushed)
  | .wakeup k => .ok (s.setPc k .idle)
  | .poke k q b =>
    .ok { s with store := Function.update s.store k (Function.update (s.store k) q b) }
  | .acquire k => .ok { s with holds := Function.update s.holds k true }
  | .release k => .ok { s with holds := Function.update s.holds k false }
  | .swap l => .ok (s.setQueue l { batch := (s.queue l).functions })
  | .runTask l t read n => (s.take l t).runTask l read n t
  | .endBatch l => .ok (s.setQueue l { s.queue l with ran := [] })
  | .handleEvent revents => .ok { s with handling := some (Feipu.handleEvent revents) }
  | .expired => .error .assertion
  | .callback call n => s.nextCall.runCallback n call
  | .closeCb => s.closeCb
  | .endEvent => .ok { s with handling := none }
  | .send data n => s.send data n
  | .shutdown => do
    let sock ← s.sock.shutdown
    return { s with sock }
  | .ret => do
    let sock ← s.sock.ret
    return { s with sock }

/-! ## runs -/

/-- what `sendInLoop` may read through its pointer -/
def MayRead (s : SharedConn ι κ) (read : Bytes) : ConnTask κ → Prop
  | .sendInLoop k data asked => Reads (s.store k) data read ∧ read.length = asked.length
  | _ => True

/-- the thread is there to make the step -/
def Fits (s : SharedConn ι κ) : ConnAct ι κ → Prop
  | .call k c => s.holds k = true ∧ s.pc k = .idle ∧
      ∀ data asked, c = .send data asked → Holds (s.store k) data asked
  | .disconnecting k => s.pc k = .checked .shutdown
  | .bind k t => (s.pc k = .marked ∧ t = .shutInLoop) ∨
      ∃ data asked, s.pc k = .checked (.send data asked) ∧ t = .sendInLoop k data asked
  | .push k t => s.pc k = .bound t
  | .wakeup k => s.pc k = .pushed
  | .poke k _ _ => s.pc k = .idle
  | .acquire _ => s.Owned
  | .release k => s.pc k = .idle
  | .swap l => (s.queue l).batch = [] ∧ (s.queue l).ran = [] ∧
      (l = s.loop → s.Free ∧ s.handling = none)
  | .runTask l t read _ => (s.queue l).batch.head? = some t ∧ s.MayRead read t ∧
      (l = s.loop → s.Free ∧ s.handling = none)
  | .endBatch l => (s.queue l).batch = [] ∧ (l = s.loop → s.Free)
  | .handleEvent _ => s.Owned ∧ s.registered = true ∧ s.handling = none ∧ s.Free ∧
      (s.queue s.loop).batch = [] ∧ (s.queue s.loop).ran = []
  | .expired => ¬ s.Owned ∧ s.registered = true
  | .callback call _ => s.handling.bind List.head? = some call ∧ s.Free
  | .closeCb => s.closing = true ∧ s.sock.stack = []
  | .endEvent => s.handling = some [] ∧ s.Free
  | .send _ _ => True
  | .shutdown => True
  | .ret => s.sock.stack ≠ []

inductive Step : Except Fatal (SharedConn ι κ) → ConnAct ι κ → Except Fatal (SharedConn ι κ) →
    Prop where
  | mk {s : SharedConn ι κ} {a : ConnAct ι κ} : s.Fits a → Step (.ok s) a (s.exec a)

/-- consecutive transitions -/
abbrev ConnRun (ι κ : Type) :=
  List (Trace.Tr (Except Fatal (SharedConn ι κ)) (ConnAct ι κ))

/-- the steps can be made one after the other, and none ends the process -/
def Runs (s : SharedConn ι κ) : List (ConnAct ι κ) → Prop
  | [] => True
  | a :: acts => s.Fits a ∧ ∃ t, s.exec a = .ok t ∧ t.Runs acts

/-- the transitions of such a run -/
def trace (s : SharedConn ι κ) : List (ConnAct ι κ) → ConnRun ι κ
  | [] => []
  | a :: acts => ⟨.ok s, a, s.exec a⟩ ::
    match s.exec a with
    | .ok t => t.trace acts
    | .error _ => []

theorem Runs.path {s : SharedConn ι κ} {acts : List (ConnAct ι κ)} (h : s.Runs acts) :
    Trace.Path Step (.ok s) (s.trace acts) := by
  induction acts generalizing s with
  | nil => exact .nil _
  | cons a acts ih =>
    obtain ⟨hf, t, ht, hrest⟩ := h
    have hpath := ih hrest
    rw [trace, ht]
    exact .cons (ht ▸ .mk hf) hpath

end SharedConn

end Feipu
