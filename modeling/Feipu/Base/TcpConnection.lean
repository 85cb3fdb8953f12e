import Feipu.Base.Buffer
import Feipu.Base.Channel
import Feipu.Base.Logging

/-!
# `TcpConnection` (base/src/TcpConnection.cpp)

The connection as its own loop thread sees it.  `Sock` adds to the object what the rest of the
world has seen of it: the bytes the kernel has taken, whether the write side has been shut, and
which calls of `write_cb_` have not returned yet (the callback may call `send` and `shutdown`).

The answer `n` of a `write (2)` is an argument of the function that makes the call; it is ignored
where no call is made.  `shutdown ()` runs `shutInLoop` at once, being called on the loop thread.
-/

namespace Feipu

inductive ConnStatus where
  | connected | disconnected | disconnecting
deriving DecidableEq

structure TcpConnection where
  channel : Channel := .new
  inBuffer : Buffer := .new
  outBuffer : Buffer := .new
  status : ConnStatus := .disconnected
  hasWriteCb : Bool

def TcpConnection.connectEstablished (c : TcpConnection) : TcpConnection :=
  { c with status := .connected, channel := c.channel.enableRead }

/-- the function that made a call of `write_cb_` -/
inductive Frame where
  | sendInLoop | bufferIntoNet
deriving DecidableEq

structure Sock where
  conn : TcpConnection
  /-- what the kernel has taken -/
  sent : Bytes := []
  halfClosed : Bool := false
  /-- the data of all calls of `sendInLoop` -/
  accepted : Bytes := []
  /-- what had been accepted when `shutdown ()` was called -/
  due : Bytes := []
  stack : List Frame := []

namespace Sock

def established (hasWriteCb : Bool) : Sock where
  conn := { hasWriteCb : TcpConnection }.connectEstablished

def shutInLoop (s : Sock) : Except Fatal Sock :=
  if s.conn.channel.isWriting then .error .shutInLoop
  else .ok { s with halfClosed := true }

/-- what follows the call of `write_cb_` -/
def afterWriteCb (s : Sock) : Frame → Except Fatal Sock
  | .sendInLoop => .ok s
  | .bufferIntoNet => if s.conn.status = .disconnecting then s.shutInLoop else .ok s

def writeCb (s : Sock) (f : Frame) : Except Fatal Sock :=
  if s.conn.hasWriteCb then .ok { s with stack := f :: s.stack } else s.afterWriteCb f

/-- `write_cb_` returns -/
def ret (s : Sock) : Except Fatal Sock :=
  match s.stack with
  | [] => .ok s
  | f :: stack => { s with stack }.afterWriteCb f

/-- `outBuffer_.append (data); channel_->enableWrite ()` -/
def enqueue (s : Sock) (data : Bytes) : Sock :=
  { s with conn := { s.conn with
      outBuffer := s.conn.outBuffer.append data
      channel := s.conn.channel.enableWrite } }

def disableWrite (s : Sock) : Sock :=
  { s with conn := { s.conn with channel := s.conn.channel.disableWrite } }

/-- `sendInLoop` writes at once -/
def WritesDirectly (s : Sock) : Prop :=
  s.conn.outBuffer.getReadableBytes = 0 ∧ s.conn.channel.isWriting = false

instance (s : Sock) : Decidable s.WritesDirectly := instDecidableAnd

def sendInLoop (s : Sock) (data : Bytes) (n : Int) : Except Fatal Sock :=
  let s := { s with accepted := s.accepted ++ data }
  if s.WritesDirectly then
    let s := { s with sent := s.sent ++ data.take n.toNat }
    if n < 0 then .ok s
    else if n < data.length then .ok (s.enqueue (data.drop n.toNat))
    else s.writeCb .sendInLoop
  else .ok (s.enqueue data)

def send (s : Sock) (data : Bytes) (n : Int) : Except Fatal Sock :=
  if s.conn.status ≠ .connected then .ok s else s.sendInLoop data n

def bufferIntoNet (s : Sock) (n : Int) : Except Fatal Sock :=
  if s.conn.channel.isWriting = false then .ok s
  else if n > 0 then do
    let b ← asserted (s.conn.outBuffer.retrieve n.toNat)
    let s := { s with
      sent := s.sent ++ s.conn.outBuffer.readable.take n.toNat
      conn := { s.conn with outBuffer := b } }
    if b.getReadableBytes = 0 then s.disableWrite.writeCb .bufferIntoNet
    else .ok s
  else .error .bufferIntoNet

def disconnecting (s : Sock) : Sock :=
  { s with conn := { s.conn with status := .disconnecting }, due := s.accepted }

def shutdown (s : Sock) : Except Fatal Sock :=
  if s.conn.status = .connected then s.disconnecting.shutInLoop else .ok s

/-- `handleClose`, up to the callbacks -/
def handleClose (s : Sock) : Except Fatal Sock :=
  if s.conn.status = .disconnected then .error .handleClose
  else .ok { s with conn := { s.conn with
    status := .disconnected
    channel := s.conn.channel.disableAll } }

/-! ## runs -/

/-- what can happen on the loop thread -/
inductive Act where
  | send (data : Bytes) (n : Int)
  | shutdown
  | writable (n : Int)
  | ret

def exec (s : Sock) : Act → Except Fatal Sock
  | .send data n => s.send data n
  | .shutdown => s.shutdown
  | .writable n => s.bufferIntoNet n
  | .ret => s.ret

/-- the event can happen, with an answer the kernel can give.  A failed `write` is admitted when
`mayFail` holds; one made by `BufferIntoNet` takes at least a byte otherwise.  Linux takes at most
`0x7ffff000` bytes a call, which the `int` of the source can hold. -/
def Fits (mayFail : Prop) (s : Sock) : Act → Prop
  | .send data n => n ≤ data.length ∧ (0 ≤ n ∨ mayFail ∧ n = -1)
  | .shutdown => True
  | .writable n => s.stack = [] ∧ (s.conn.channel.isWriting = true →
      n ≤ s.conn.outBuffer.readable.length ∧ (1 ≤ n ∨ mayFail ∧ n = -1))
  | .ret => s.stack ≠ []

/-- one event of a process that has not ended -/
inductive Step (mayFail : Prop) : Except Fatal Sock → Act → Except Fatal Sock → Prop where
  | mk {s : Sock} {a : Act} : s.Fits mayFail a → Step mayFail (.ok s) a (s.exec a)

/-! ## what a call leaves alone -/

/-- the calls that write change neither the status nor `inBuffer` -/
def Keeps (s t : Sock) : Prop :=
  t.conn.status = s.conn.status ∧ t.conn.inBuffer = s.conn.inBuffer

theorem keeps_afterWriteCb {s t : Sock} {f : Frame} (h : s.afterWriteCb f = .ok t) : s.Keeps t := by
  cases f with
  | sendInLoop =>
    obtain rfl := Except.ok.inj h
    exact ⟨rfl, rfl⟩
  | bufferIntoNet =>
    simp only [afterWriteCb, shutInLoop] at h
    split at h
    · split at h
      · cases h
      · obtain rfl := Except.ok.inj h
        exact ⟨rfl, rfl⟩
    · obtain rfl := Except.ok.inj h
      exact ⟨rfl, rfl⟩

theorem keeps_writeCb {s t : Sock} {f : Frame} (h : s.writeCb f = .ok t) : s.Keeps t := by
  unfold writeCb at h
  split at h
  · obtain rfl := Except.ok.inj h
    exact ⟨rfl, rfl⟩
  · exact keeps_afterWriteCb h

theorem keeps_send {s t : Sock} {data : Bytes} {n : Int} (h : s.send data n = .ok t) :
    s.Keeps t := by
  unfold send sendInLoop at h
  split at h
  · obtain rfl := Except.ok.inj h
    exact ⟨rfl, rfl⟩
  · dsimp only at h
    split at h
    · split at h
      · obtain rfl := Except.ok.inj h
        exact ⟨rfl, rfl⟩
      · split at h
        · obtain rfl := Except.ok.inj h
          exact ⟨rfl, rfl⟩
        · obtain ⟨h1, h2⟩ := keeps_writeCb h
          exact ⟨h1, h2⟩
    · obtain rfl := Except.ok.inj h
      exact ⟨rfl, rfl⟩

theorem keeps_bufferIntoNet {s t : Sock} {n : Int} (h : s.bufferIntoNet n = .ok t) :
    s.Keeps t ∧ (s.conn.channel.isWriting = false → t = s) := by
  unfold bufferIntoNet at h
  split at h
  · obtain rfl := Except.ok.inj h
    exact ⟨⟨rfl, rfl⟩, fun _ => rfl⟩
  · rename_i hw
    refine ⟨?_, fun hf => absurd hf hw⟩
    split at h
    · cases hb : s.conn.outBuffer.retrieve n.toNat with
      | none =>
        rw [hb] at h
        cases h
      | some b =>
        rw [hb] at h
        simp only [asserted] at h
        change (if b.getReadableBytes = 0 then _ else _) = Except.ok t at h
        split at h
        · obtain ⟨h1, h2⟩ := keeps_writeCb h
          exact ⟨h1, h2⟩
        · obtain rfl := Except.ok.inj h
          exact ⟨rfl, rfl⟩
    · cases h

theorem shutdown_cases {s t : Sock} (h : s.shutdown = .ok t) :
    t.conn.status ≠ .connected ∧ t.conn.inBuffer = s.conn.inBuffer := by
  unfold shutdown shutInLoop at h
  split at h
  · split at h
    · cases h
    · obtain rfl := Except.ok.inj h
      exact ⟨fun h => (by cases h), rfl⟩
  · rename_i hc
    obtain rfl := Except.ok.inj h
    exact ⟨hc, rfl⟩

theorem shutdown_ok {s : Sock}
    (h : s.conn.status = .connected → s.conn.channel.isWriting = false) :
    ∃ t, s.shutdown = .ok t := by
  unfold shutdown
  split
  · rename_i hc
    have hw : s.disconnecting.conn.channel.isWriting = false := h hc
    rw [shutInLoop, hw]
    exact ⟨_, rfl⟩
  · exact ⟨s, rfl⟩

end Sock

end Feipu
