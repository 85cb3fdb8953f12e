import Feipu.Base.Logging
import Feipu.Base.Poller
import Feipu.Base.TcpConnection

/-!
# `TcpServer` (base/src/TcpServer.cpp)

The life of the connections of one server: the main loop accepts them, every connection lives on
its io loop, and the loops hand over `std::function`s that own the connection they are about.  The
loops are the elements of `ι`; the connections are numbered as they are accepted.

What is sent is left out: `send` and `BufferIntoNet` matter by the interest in writing alone.  What
the user does in a callback comes as steps of its own.  `log` records which of the four functions of
a connection's life have run, and on which loop.
-/

namespace Feipu

inductive LifeEvent where
  | connectEstablished | handleClose | removeConnection | connectDestory
deriving DecidableEq

/-- a functor in the queue of a loop, with the connection it owns -/
inductive Task where
  | connectEstablished (c : Nat)
  | removeConnection (c : Nat)
  | connectDestory (c : Nat)
deriving DecidableEq

def Task.conn : Task → Nat
  | .connectEstablished c | .removeConnection c | .connectDestory c => c

structure Conn (ι : Type) where
  loop : ι
  fd : Int
  status : ConnStatus := .disconnected
  channel : Channel := .new
  /-- not destructed: the destructor closes the descriptor -/
  isOpen : Bool := true
  log : List (LifeEvent × ι) := []

structure TcpServer (ι : Type) where
  /-- `loop_` -/
  main : ι
  /-- counted from 0 here -/
  nextConnId : Nat := 0
  conn : Nat → Conn ι
  /-- `connections_` -/
  connections : Nat → Bool := fun _ => false
  poller : ι → Poller Nat := fun _ => .new
  functions : ι → List Task := fun _ => []
  /-- what the functors that have run in the present batch still own -/
  held : ι → List Nat := fun _ => []
  /-- the active channels whose turn is to come -/
  active : ι → List (Nat × BitVec 16) := fun _ => []
  /-- the channel in `handleEvent`, with the callbacks to come; its owner is tied -/
  handling : ι → Option (Nat × List EventCall) := fun _ => none
  /-- the copies of the pointer that the user keeps -/
  user : Nat → Bool := fun _ => false

namespace TcpServer
variable {ι : Type} [DecidableEq ι]

def new (main : ι) : TcpServer ι where
  main := main
  conn _ := { loop := main, fd := -1, isOpen := false }

/-- `loop_->assertInLoopThread ()` on the thread of the loop `l` -/
def assertInLoopThread (loop l : ι) : Except Fatal Unit :=
  if loop = l then .ok () else .error .loopThread

def setConn (s : TcpServer ι) (c : Nat) (k : Conn ι) : TcpServer ι :=
  { s with conn := Function.update s.conn c k }

def setPoller (s : TcpServer ι) (l : ι) (p : Poller Nat) : TcpServer ι :=
  { s with poller := Function.update s.poller l p }

/-- a function of a connection's life has run -/
def logged (s : TcpServer ι) (c : Nat) (ev : LifeEvent) (l : ι) : TcpServer ι :=
  s.setConn c { s.conn c with log := (s.conn c).log ++ [(ev, l)] }

/-- the channel of a connection changes and calls `update_channel` -/
def setChannel (s : TcpServer ι) (c : Nat) (channel : Channel) : TcpServer ι :=
  let k := s.conn c
  (s.setConn c { k with channel }).setPoller k.loop
    ((s.poller k.loop).updateChannel k.fd c channel)

/-- the push of `runInLoop` -/
def enqueue (s : TcpServer ι) (l : ι) (t : Task) : TcpServer ι :=
  { s with functions := Function.update s.functions l (s.functions l ++ [t]) }

def connectEstablished (s : TcpServer ι) (l : ι) (c : Nat) : Except Fatal (TcpServer ι) := do
  let k := s.conn c
  assertInLoopThread k.loop l
  return ((s.setConn c { k with status := .connected }).setChannel c k.channel.enableRead).logged
    c .connectEstablished l

def connectDestory (s : TcpServer ι) (l : ι) (c : Nat) : Except Fatal (TcpServer ι) := do
  let k := s.conn c
  assertInLoopThread k.loop l
  let p ← asserted ((s.poller k.loop).removeChannel k.fd c k.channel)
  return (s.setPoller k.loop p).logged c .connectDestory l

def removeConnection (s : TcpServer ι) (l : ι) (c : Nat) : Except Fatal (TcpServer ι) := do
  assertInLoopThread s.main l
  asserted (if s.connections c then some () else none)
  let s := { s with connections := Function.update s.connections c false }.logged
    c .removeConnection l
  let ioloop := (s.conn c).loop
  if ioloop = l then s.connectDestory l c else return s.enqueue ioloop (.connectDestory c)

/-- `whenOldConnDisconnect` -/
def whenOldConnDisconnect (s : TcpServer ι) (l : ι) (c : Nat) : Except Fatal (TcpServer ι) :=
  if s.main = l then s.removeConnection l c else .ok (s.enqueue s.main (.removeConnection c))

def handleClose (s : TcpServer ι) (l : ι) (c : Nat) : Except Fatal (TcpServer ι) := do
  let k := s.conn c
  assertInLoopThread k.loop l
  if k.status = .disconnected then .error .handleClose
  else
    let s := ((s.setConn c { k with status := .disconnected }).setChannel c
      k.channel.disableAll).logged c .handleClose l
    s.whenOldConnDisconnect l c

/-- `whenNewConnection` for the descriptor `fd`; `nextloop` is what `getNextLoop` returns -/
def whenNewConnection (s : TcpServer ι) (fd : Int) (nextloop : ι) : Except Fatal (TcpServer ι) :=
  let c := s.nextConnId
  let s := { s with
    nextConnId := c + 1
    conn := Function.update s.conn c { loop := nextloop, fd }
    connections := Function.update s.connections c true }
  if nextloop = s.main then s.connectEstablished s.main c
  else .ok (s.enqueue nextloop (.connectEstablished c))

def runTask (s : TcpServer ι) (l : ι) : Task → Except Fatal (TcpServer ι)
  | .connectEstablished c => s.connectEstablished l c
  | .removeConnection c => s.removeConnection l c
  | .connectDestory c => s.connectDestory l c

/-! ## what a callback of the channel does -/

/-- `NetIntoBuffer` when `readv` returns `n`; what the user does with a message comes on its own -/
def netIntoBuffer (s : TcpServer ι) (l : ι) (c : Nat) (n : Int) : Except Fatal (TcpServer ι) := do
  assertInLoopThread (s.conn c).loop l
  if n = 0 then s.handleClose l c else return s

/-- `BufferIntoNet` when `write` returns `n`; did this empty `outBuffer`? -/
def bufferIntoNet (s : TcpServer ι) (l : ι) (c : Nat) (n : Int) (drained : Bool) :
    Except Fatal (TcpServer ι) := do
  let k := s.conn c
  assertInLoopThread k.loop l
  if k.channel.isWriting = false then return s
  else if n > 0 then return (if drained then s.setChannel c k.channel.disableWrite else s)
  else .error .bufferIntoNet

def runCallback (s : TcpServer ι) (l : ι) (c : Nat) (n : Int) (drained : Bool) :
    EventCall → Except Fatal (TcpServer ι)
  | .close => s.handleClose l c
  | .read => s.netIntoBuffer l c n
  | .write => s.bufferIntoNet l c n drained

/-- `send` on the connection's own loop that leaves something in `outBuffer` -/
def send (s : TcpServer ι) (l : ι) (c : Nat) : Except Fatal (TcpServer ι) := do
  let k := s.conn c
  if k.status ≠ .connected then return s
  else
    assertInLoopThread k.loop l
    return s.setChannel c k.channel.enableWrite

/-- `shutdown` on the connection's own loop -/
def shutdown (s : TcpServer ι) (l : ι) (c : Nat) : Except Fatal (TcpServer ι) := do
  let k := s.conn c
  if k.status = .connected then
    assertInLoopThread k.loop l
    if k.channel.isWriting then .error .shutInLoop
    else return s.setConn c { k with status := .disconnecting }
  else return s

/-! ## runs -/

/-- nobody owns the connection any more -/
def Unowned (s : TcpServer ι) (c : Nat) : Prop :=
  s.connections c = false ∧ s.user c = false ∧
    ∀ l, (∀ t ∈ s.functions l, t.conn ≠ c) ∧ c ∉ s.held l ∧ ∀ p, s.handling l = some p → p.1 ≠ c

/-- what `epoll_wait` may report to the loop `l`: channels of its interest set, each once, and
`POLLPRI` and `POLLRDHUP` only together with `POLLIN` -/
def Reports (s : TcpServer ι) (l : ι) (evs : List (Nat × BitVec 16)) : Prop :=
  (evs.map (·.1)).Nodup ∧ ∀ e ∈ evs,
    (∃ fd mask, (s.poller l).kernel fd = some (mask, e.1)) ∧
    (e.2 &&& (pollPri ||| pollRdhup) ≠ 0 → e.2 &&& pollIn ≠ 0)

/-- `Poller::poll` finds every reported channel in its map, under the channel's descriptor -/
def pollAsserts (s : TcpServer ι) (l : ι) (evs : List (Nat × BitVec 16)) : Bool :=
  evs.all fun e => (s.poller l).fdChannelMap (s.conn e.1).fd == some e.1

/-- one step of a loop `l`, of the user or of the kernel -/
inductive Step : Except Fatal (TcpServer ι) → Unit → Except Fatal (TcpServer ι) → Prop where
  /-- `accept`: the kernel gives a descriptor that is not open -/
  | accept {s : TcpServer ι} (fd : Int) (nextloop : ι) :
      (∀ c, (s.conn c).isOpen = true → (s.conn c).fd ≠ fd) →
      Step (.ok s) () (s.whenNewConnection fd nextloop)
  | poll {s : TcpServer ι} (l : ι) (evs : List (Nat × BitVec 16)) :
      s.active l = [] → s.handling l = none → s.held l = [] → s.Reports l evs →
      Step (.ok s) () (if s.pollAsserts l evs then
        .ok { s with active := Function.update s.active l evs } else .error .assertion)
  /-- `handleEvent` is entered: the owner is alive and is tied -/
  | handleEvent {s : TcpServer ι} (l : ι) (c : Nat) (revents : BitVec 16)
      (rest : List (Nat × BitVec 16)) :
      s.active l = (c, revents) :: rest → s.handling l = none →
      Step (.ok s) () (if (s.conn c).isOpen then .ok { s with
          active := Function.update s.active l rest
          handling := Function.update s.handling l (some (c, handleEvent revents)) }
        else .error .assertion)
  | callback {s : TcpServer ι} (l : ι) (c : Nat) (call : EventCall) (calls : List EventCall)
      (n : Int) (drained : Bool) :
      s.handling l = some (c, call :: calls) →
      Step (.ok s) () ({ s with handling := Function.update s.handling l (some (c, calls)) }.runCallback
        l c n drained call)
  | endEvent {s : TcpServer ι} (l : ι) (c : Nat) : s.handling l = some (c, []) →
      Step (.ok s) () (.ok { s with handling := Function.update s.handling l none })
  /-- `doFunctions` -/
  | runTask {s : TcpServer ι} (l : ι) (t : Task) (rest : List Task) :
      s.functions l = t :: rest → s.active l = [] → s.handling l = none →
      Step (.ok s) () ({ s with
        functions := Function.update s.functions l rest
        held := Function.update s.held l (t.conn :: s.held l) }.runTask l t)
  /-- the functors of the batch are destructed -/
  | endBatch {s : TcpServer ι} (l : ι) :
      Step (.ok s) () (.ok { s with held := Function.update s.held l [] })
  | send {s : TcpServer ι} (c : Nat) : (s.conn c).isOpen = true →
      Step (.ok s) () (s.send (s.conn c).loop c)
  | shutdown {s : TcpServer ι} (c : Nat) : (s.conn c).isOpen = true →
      Step (.ok s) () (s.shutdown (s.conn c).loop c)
  /-- the user copies a pointer, and drops it -/
  | keep {s : TcpServer ι} (c : Nat) : (s.conn c).isOpen = true →
      Step (.ok s) () (.ok { s with user := Function.update s.user c true })
  | drop {s : TcpServer ι} (c : Nat) :
      Step (.ok s) () (.ok { s with user := Function.update s.user c false })
  /-- `~TcpConnection` -/
  | destruct {s : TcpServer ι} (c : Nat) : (s.conn c).isOpen = true → s.Unowned c →
      Step (.ok s) () (.ok (s.setConn c { s.conn c with isOpen := false }))

end TcpServer

end Feipu
