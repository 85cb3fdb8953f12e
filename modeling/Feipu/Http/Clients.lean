import Feipu.Base.Frames
import Feipu.Http.Answer

/-!
# The clients of a server (http/HttpServer.cpp)

An `HttpServer` with all its connections: the `TcpServer` calls `on_connect` from
`connectEstablished`, and `on_recv` from the read events of its connections, whatever its loops and
the other clients do in between.

* `Hosts`        the invariant: status and channel of each client are those of its connection;
* `finds_step`   an event finds its connection with a handler, and not closed at the end of the
                 stream;
* `leads_step`   a step goes on exactly if it is for a connection that can handle it, and is then a
                 step of the `TcpServer` and of that client; otherwise it is this client's `on_recv`
                 that ends the process.
-/

namespace Feipu
open Trace

/-! ## the callbacks -/

/-- a callback of a connection's channel, with the answers of the kernel -/
inductive Called where
  | close
  | read (chunk : Bytes) (n : Int)
  /-- `readv` fails -/
  | readError
  | write (n : Int)

namespace Called

def call : Called → EventCall
  | .close => .close
  | .read _ _ | .readError => .read
  | .write _ => .write

/-- what happens to the connection; `handleClose` is what the end of the stream calls -/
def act : Called → Option HttpConn.Act
  | .close => some (.read [] 0)
  | .read chunk n => some (.read chunk n)
  | .readError => none
  | .write n => some (.writable n)

end Called

/-- The status and the channel of a connection stand in both parts: they are the same object's. -/
structure HttpServer (ι : Type) where
  /-- `*tcpserver_` -/
  tcpserver : TcpServer ι
  /-- the connections that `on_connect` has given a handler -/
  client : Nat → Option HttpConn := fun _ => none

namespace HttpServer
variable {ι : Type} [DecidableEq ι]

def new (main : ι) : HttpServer ι where
  tcpserver := .new main

section
variable (router : Option Router)

/-- `on_connect` for an established connection; `m` and `status` are what the memory of the new
messages held -/
def onConnect (s : HttpServer ι) (c : Nat) (m : HttpMethod) (status : HttpStatus) : HttpServer ι :=
  { s with client := Function.update s.client c (some (.onConnect router m status)) }

/-- a new connection: the main loop establishes it itself if it keeps it -/
def accept (s : HttpServer ι) (fd : Int) (nextloop : ι) (m : HttpMethod) (status : HttpStatus) :
    Except Fatal (HttpServer ι) := do
  let t ← s.tcpserver.whenNewConnection fd nextloop
  let s' := { s with tcpserver := t }
  if nextloop = s.tcpserver.main then return s'.onConnect router s.tcpserver.nextConnId m status
  else return s'

/-- a functor of the loop `l` -/
def runTask (s : HttpServer ι) (l : ι) (task : Task) (m : HttpMethod) (status : HttpStatus) :
    Except Fatal (HttpServer ι) := do
  let t ← s.tcpserver.runTask l task
  let s' := { s with tcpserver := t }
  match task with
  | .connectEstablished c => return s'.onConnect router c m status
  | .removeConnection _ | .connectDestory _ => return s'

end

/-- the event `a` of a connection, with the parser checked; without a handler `on_recv` follows a
null pointer -/
def exec (s : HttpServer ι) (c : Nat) (a : HttpConn.Act) : Except Fatal HttpConn :=
  match s.client c with
  | some h => h.execIn a
  | none => .error .undefined

/-- what the server sees of `on_recv`: has `send` left something to write, has the connection been
shut down? -/
def told (t : TcpServer ι) (l : ι) (c : Nat) (k : TcpConnection) : Except Fatal (TcpServer ι) := do
  let t ← if k.channel.isWriting then t.send l c else .ok t
  if k.status = .disconnecting then t.shutdown l c else .ok t

/-- a callback has made `t` of the server and `h` of the connection `c` -/
def answered (s : HttpServer ι) (t : TcpServer ι) (c : Nat) (h : HttpConn) : HttpServer ι where
  tcpserver := t
  client := Function.update s.client c (some h)

def callback (s : HttpServer ι) (l : ι) (c : Nat) : Called → Except Fatal (HttpServer ι)
  | .close => do
    let t ← s.tcpserver.handleClose l c
    let h ← s.exec c (.read [] 0)
    return s.answered t c h
  | .read chunk n => do
    let t ← s.tcpserver.netIntoBuffer l c chunk.length
    let h ← s.exec c (.read chunk n)
    let t ← told t l c h.sock.conn
    return s.answered t c h
  | .readError => do
    let t ← s.tcpserver.netIntoBuffer l c (-1)
    return { s with tcpserver := t }
  | .write n => do
    let h ← s.exec c (.writable n)
    let t ← s.tcpserver.bufferIntoNet l c n (!h.sock.conn.channel.isWriting)
    return s.answered t c h

/-- one step of a loop `l` or of the kernel; the label is the callback that runs -/
inductive Step (router : Option Router) : Except Fatal (HttpServer ι) → Option (Nat × Called) →
    Except Fatal (HttpServer ι) → Prop where
  | accept {s : HttpServer ι} (fd : Int) (nextloop : ι) (m : HttpMethod) (status : HttpStatus) :
      (∀ c, (s.tcpserver.conn c).isOpen = true → (s.tcpserver.conn c).fd ≠ fd) →
      Step router (.ok s) none (s.accept router fd nextloop m status)
  | poll {s : HttpServer ι} (l : ι) (evs : List (Nat × BitVec 16)) :
      s.tcpserver.active l = [] → s.tcpserver.handling l = none → s.tcpserver.held l = [] →
      s.tcpserver.Reports l evs →
      Step router (.ok s) none (if s.tcpserver.pollAsserts l evs then
        .ok { s with tcpserver := { s.tcpserver with
          active := Function.update s.tcpserver.active l evs } }
        else .error .assertion)
  | handleEvent {s : HttpServer ι} (l : ι) (c : Nat) (revents : BitVec 16)
      (rest : List (Nat × BitVec 16)) :
      s.tcpserver.active l = (c, revents) :: rest → s.tcpserver.handling l = none →
      Step router (.ok s) none (if (s.tcpserver.conn c).isOpen then
        .ok { s with tcpserver := { s.tcpserver with
          active := Function.update s.tcpserver.active l rest
          handling := Function.update s.tcpserver.handling l (some (c, handleEvent revents)) } }
        else .error .assertion)
  | callback {s : HttpServer ι} (l : ι) (c : Nat) (k : Called) (calls : List EventCall) :
      s.tcpserver.handling l = some (c, k.call :: calls) →
      Step router (.ok s) (some (c, k)) ({ s with tcpserver := { s.tcpserver with
        handling := Function.update s.tcpserver.handling l (some (c, calls)) } }.callback l c k)
  | endEvent {s : HttpServer ι} (l : ι) (c : Nat) : s.tcpserver.handling l = some (c, []) →
      Step router (.ok s) none (.ok { s with tcpserver := { s.tcpserver with
        handling := Function.update s.tcpserver.handling l none } })
  | runTask {s : HttpServer ι} (l : ι) (task : Task) (rest : List Task) (m : HttpMethod)
      (status : HttpStatus) :
      s.tcpserver.functions l = task :: rest → s.tcpserver.active l = [] →
      s.tcpserver.handling l = none →
      Step router (.ok s) none ({ s with tcpserver := { s.tcpserver with
        functions := Function.update s.tcpserver.functions l rest
        held := Function.update s.tcpserver.held l (task.conn :: s.tcpserver.held l) } }.runTask
          router l task m status)
  | endBatch {s : HttpServer ι} (l : ι) :
      Step router (.ok s) none (.ok { s with tcpserver := { s.tcpserver with
        held := Function.update s.tcpserver.held l [] } })
  /-- `~TcpConnection`; the server keeps no pointer of its own -/
  | destruct {s : HttpServer ι} (c : Nat) : (s.tcpserver.conn c).isOpen = true →
      s.tcpserver.Unowned c →
      Step router (.ok s) none (.ok { s with
        tcpserver := s.tcpserver.setConn c { s.tcpserver.conn c with isOpen := false } })

end HttpServer

/-! ## what a read event shows of its connection -/

namespace Sock
variable {s t u : Sock}

/-- the channel is the same, and nothing but `shutdown ()` has changed the status -/
structure Near (s t : Sock) : Prop where
  channel : t.conn.channel = s.conn.channel
  status : t.conn.status = s.conn.status ∨
    s.conn.status = .connected ∧ t.conn.status = .disconnecting

theorem Near.refl (s : Sock) : s.Near s := ⟨rfl, .inl rfl⟩

theorem Near.trans (h : s.Near t) (h' : t.Near u) : s.Near u := by
  refine ⟨h'.channel.trans h.channel, ?_⟩
  rcases h'.status with hsame | ⟨hc, hd⟩
  · rw [hsame]
    exact h.status
  · rcases h.status with hsame | ⟨-, hdis⟩
    · exact .inr ⟨hsame.symm.trans hc, hd⟩
    · rw [hdis] at hc
      cases hc

theorem shutdown_near (h : s.shutdown = .ok t) : s.Near t := by
  unfold shutdown shutInLoop at h
  split at h
  · rename_i hc
    split at h
    · cases h
    · obtain rfl := Except.ok.inj h
      exact ⟨rfl, .inr ⟨hc, rfl⟩⟩
  · obtain rfl := Except.ok.inj h
    exact .refl s

/-- what `send` leaves to be written shows in the channel -/
theorem send_near {data : Bytes} {n : Int} (h : s.send data n = .ok t) :
    t.conn.channel.isWriting = true ∨ s.Near t := by
  unfold send sendInLoop at h
  split at h
  · obtain rfl := Except.ok.inj h
    exact .inr (.refl s)
  · dsimp only at h
    split at h
    · split at h
      · obtain rfl := Except.ok.inj h
        exact .inr ⟨rfl, .inl rfl⟩
      · split at h
        · obtain rfl := Except.ok.inj h
          exact .inl rfl
        · unfold writeCb at h
          split at h
          · obtain rfl := Except.ok.inj h
            exact .inr ⟨rfl, .inl rfl⟩
          · obtain rfl := Except.ok.inj h
            exact .inr ⟨rfl, .inl rfl⟩
    · obtain rfl := Except.ok.inj h
      exact .inl rfl

theorem send_shutdown_near {data : Bytes} {n : Int}
    (h : (s.send data n >>= shutdown) = .ok t) : s.Near t := by
  obtain ⟨t1, hsend, hshut⟩ := bind_ok h
  by_cases hc : s.conn.status = .connected
  · rcases send_near hsend with hw | hnear
    · rw [shutdown_writing ((keeps_send hsend).1.trans hc) hw] at hshut
      cases hshut
    · exact hnear.trans (shutdown_near hshut)
  · rw [send_of_ne hc] at hsend
    obtain rfl := Except.ok.inj hsend
    exact shutdown_near hshut

end Sock

namespace HttpConn

theorem handleHttp_near {c c' : HttpConn} {n : Int} (h : (c.handleHttp n).2 >>= shutdown = .ok c') :
    c.sock.Near c'.sock := by
  cases hr : c.handler.router with
  | none =>
    rw [handleHttp_none hr] at h
    obtain ⟨t, ht, rfl⟩ := map_ok h
    exact Sock.shutdown_near ht
  | some r =>
    cases hd : r.deal c.handler.req c.handler.respon with
    | error f =>
      rw [handleHttp_error hr hd] at h
      cases h
    | ok q =>
      rw [handleHttp_ok hr hd] at h
      obtain ⟨t, ht, rfl⟩ := map_ok h
      exact Sock.send_shutdown_near ht

/-- the end of the stream, for a connection that has not ended -/
theorem execIn_end {c : HttpConn} (h : c.sock.conn.status ≠ .disconnected) (n : Int) :
    ∃ t : Sock, c.execIn (.read [] n) = .ok { c with sock := t } ∧ t.conn.status = .disconnected ∧
      t.conn.channel = c.sock.conn.channel.disableAll := by
  show ∃ t : Sock, (c.netIntoBufferIn [] n).after = .ok { c with sock := t } ∧ _
  rw [netIntoBufferIn, if_pos rfl, Sock.handleClose, if_neg h]
  exact ⟨_, rfl, rfl, rfl⟩

/-- with nothing to be written, `deal` and a response taken in part are what can fail -/
theorem handleHttp_shutdown_error {c : HttpConn} (hq : c.sock.Quiet) {n : Int} {f : Fatal}
    (h : (c.handleHttp n).2 >>= shutdown = .error f) : f = .routerMatch ∨ f = .shutInLoop := by
  cases hr : c.handler.router with
  | none =>
    obtain ⟨t, ht⟩ := Sock.shutdown_ok (s := c.sock) fun _ => hq.writing
    rw [handleHttp_none hr, ht] at h
    cases h
  | some r =>
    cases hd : r.deal c.handler.req c.handler.respon with
    | error f' =>
      rw [handleHttp_error hr hd] at h
      obtain rfl := Except.error.inj h
      exact .inl (Router.deal_error hd)
    | ok q =>
      rw [handleHttp_ok hr hd] at h
      by_cases hc : c.sock.conn.status = .connected
      · obtain ⟨hwhole, hpart⟩ := Sock.send_shutdown hc hq (q.2.dump true true) n
        by_cases hw : Sock.WholeOrNot (q.2.dump true true) n
        · obtain ⟨t, ht, -⟩ := hwhole hw
          rw [ht] at h
          cases h
        · rw [hpart hw] at h
          exact .inr (Except.error.inj h).symm
      · rw [Sock.send_of_ne hc] at h
        change (c.sock.shutdown).map _ = _ at h
        rw [Sock.shutdown_of_ne hc] at h
        cases h

/-- **What can end the process** at a read event: an overflow, a misused pattern, or a response that
is taken in part. -/
theorem execIn_error {c : HttpConn} (hc : c.Calm) {chunk : Bytes} (hne : chunk ≠ []) {n : Int}
    {f : Fatal} (h : c.execIn (.read chunk n) = .error f) :
    f = .undefined ∨ f = .routerMatch ∨ f = .shutInLoop := by
  obtain ⟨hin, hout⟩ := execIn_eq hc (.read chunk n)
  by_cases hcount : c.Counted (.read chunk n)
  · rw [hin hcount] at h
    cases hb : c.sock.conn.inBuffer.readFd chunk with
    | none =>
      rw [exec_overflow hne hb] at h
      exact .inl (Except.error.inj h).symm
    | some b =>
      obtain ⟨h1, b', -, -, -, ⟨-, hexec⟩ | ⟨c1, -, hcalm1, hexec, -⟩⟩ := read_cases hc hne hb n rfl
      · rw [hexec] at h
        cases h
      · rw [hexec] at h
        exact .inr (handleHttp_shutdown_error hcalm1.quiet h)
  · rw [hout hcount] at h
    exact .inl (Except.error.inj h).symm

/-- a read event changes no more of the connection than the server is told -/
theorem read_near {c c' : HttpConn} (hc : c.Calm) {chunk : Bytes} {n : Int} (hne : chunk ≠ [])
    (h : c.exec (.read chunk n) = .ok c') : c.sock.Near c'.sock := by
  cases hb : c.sock.conn.inBuffer.readFd chunk with
  | none =>
    rw [exec_overflow hne hb] at h
    cases h
  | some b =>
    obtain ⟨h1, b', -, -, -, ⟨-, hexec⟩ | ⟨c1, -, -, hexec, hcase⟩⟩ := read_cases hc hne hb n rfl
    · rw [hexec] at h
      obtain rfl := Except.ok.inj h
      exact ⟨rfl, .inl rfl⟩
    · rw [hexec] at h
      have hparsed : c.sock.Near (c.parsed h1 b').sock := ⟨rfl, .inl rfl⟩
      rcases hcase with ⟨-, rfl⟩ | ⟨-, hshut⟩
      · exact hparsed.trans (handleHttp_near h)
      · obtain ⟨t, ht, rfl⟩ := map_ok hshut
        exact (hparsed.trans (Sock.shutdown_near ht)).trans (handleHttp_near h)

end HttpConn

/-! ## one step -/

namespace HttpServer
variable {ι : Type} [DecidableEq ι] {router : Option Router}

/-- `k` and its HTTP part are one object -/
inductive Hosted (k : Conn ι) : Option HttpConn → Prop where
  | waiting : k.log = [] → Hosted k none
  | serving {h : HttpConn} : k.log ≠ [] → h.sock.conn.status = k.status →
      h.sock.conn.channel = k.channel → h.Calm → Hosted k (some h)

structure Hosts (s : HttpServer ι) : Prop where
  sound : s.tcpserver.Sound none
  hosted : ∀ c, Hosted (s.tcpserver.conn c) (s.client c)
  handled : ∀ l c calls, s.tcpserver.handling l = some (c, calls) → s.client c ≠ none

omit [DecidableEq ι] in
theorem Hosted.lives {k k' : Conn ι} {o : Option HttpConn} (h : Hosted k o) (hlog : k.log ≠ [])
    (hk : k.Lives k') : Hosted k' o := by
  cases h with
  | waiting hnil => exact absurd hnil hlog
  | serving _ hstatus hchannel hcalm =>
    refine .serving (fun hnil => hlog ?_) (hstatus.trans hk.status.symm)
      (hchannel.trans hk.channel.symm) hcalm
    exact List.prefix_nil.mp (hnil ▸ hk.log)

omit [DecidableEq ι] in
theorem Hosted.eq_none {k : Conn ι} {o : Option HttpConn} (h : Hosted k o) (hlog : k.log = []) :
    o = none := by
  cases h with
  | waiting => rfl
  | serving hne => exact absurd hlog hne

omit [DecidableEq ι] in
theorem Hosted.exists_client {k : Conn ι} {o : Option HttpConn} (h : Hosted k o) (hlog : k.log ≠ []) :
    ∃ h : HttpConn, o = some h ∧ h.sock.conn.status = k.status ∧
      h.sock.conn.channel = k.channel ∧ h.Calm := by
  cases h with
  | waiting hnil => exact absurd hnil hlog
  | serving _ hstatus hchannel hcalm => exact ⟨_, rfl, hstatus, hchannel, hcalm⟩

omit [DecidableEq ι] in
theorem log_ne_nil {t : TcpServer ι} {c : Nat} (h : 0 < t.stage c) : (t.conn c).log ≠ [] :=
  List.ne_nil_of_length_pos h

/-- the event that a step is for the client `c` -/
def actOf (c : Nat) (a : Option (Nat × Called)) : Option HttpConn.Act :=
  a.bind fun p => if p.1 = c then p.2.act else none

/-- what a step makes of one client -/
inductive Moves (router : Option Router) : Option HttpConn → Option HttpConn.Act →
    Option HttpConn → Prop where
  | same (o : Option HttpConn) : Moves router o none o
  | connect (m : HttpMethod) (status : HttpStatus) :
      Moves router none none (some (.onConnect router m status))
  | event {h h' : HttpConn} {a : HttpConn.Act} : h.exec a = .ok h' →
      Moves router (some h) (some a) (some h')

/-- the connection that the event is about has its handler, and is not closed yet if the stream
ends -/
def Finds (s : HttpServer ι) (a : Option (Nat × Called)) : Prop :=
  ∀ c b, actOf c a = some b → ∃ h : HttpConn, s.client c = some h ∧
    ∀ n, b = .read [] n → h.sock.conn.status ≠ .disconnected

/-- the connection that the event brings bytes for spares it -/
def Spared (s : HttpServer ι) (a : Option (Nat × Called)) : Prop :=
  ∀ c chunk n h, a = some (c, .read chunk n) → chunk ≠ [] → s.client c = some h →
    h.Spares (.read chunk n)

/-- it is `on_recv` for one client that ends the process -/
def Fails (s : HttpServer ι) (a : Option (Nat × Called)) (f : Fatal) : Prop :=
  ∃ c chunk n h, a = some (c, .read chunk n) ∧ chunk ≠ [] ∧ s.client c = some h ∧
    h.execIn (.read chunk n) = .error f ∧ (f = .undefined ∨ f = .routerMatch ∨ f = .shutInLoop)

/-- a step of the server is one of its `TcpServer` and of its clients -/
structure Goes (router : Option Router) (s : HttpServer ι) (a : Option (Nat × Called))
    (t : HttpServer ι) : Prop where
  hosts : Hosts t
  moves : ∀ c, Moves router (s.client c) (actOf c a) (t.client c)
  run : Reach TcpServer.Step (.ok s.tcpserver) (.ok t.tcpserver)

/-- what one step does -/
structure Leads (router : Option Router) (s : HttpServer ι) (a : Option (Nat × Called))
    (y : Except Fatal (HttpServer ι)) : Prop where
  survives : (∃ t, y = .ok t) ↔ s.Spared a
  goes : ∀ t, y = .ok t → Goes router s a t
  fails : ∀ f, y = .error f → s.Fails a f

theorem Goes.leads {s t : HttpServer ι} {a : Option (Nat × Called)} (h : Goes router s a t)
    (ha : s.Spared a) : Leads router s a (.ok t) := by
  refine ⟨⟨fun _ => ha, fun _ => ⟨t, rfl⟩⟩, fun t' ht => ?_, fun f hf => by cases hf⟩
  obtain rfl := Except.ok.inj ht
  exact h

omit [DecidableEq ι] in
/-- a step that brings no bytes -/
theorem spared_of_ne {s : HttpServer ι} {a : Option (Nat × Called)}
    (h : ∀ c chunk n, a = some (c, .read chunk n) → chunk = []) : s.Spared a :=
  fun c chunk n _ ha hne => absurd (h c chunk n ha) hne

omit [DecidableEq ι] in
/-- a step that is about no client -/
theorem spared_none (s : HttpServer ι) : s.Spared none := spared_of_ne fun _ _ _ h => by cases h

/-- a step in which no client has a part -/
theorem leads_plain {s : HttpServer ι} {t : TcpServer ι} (hsound : t.Sound none)
    (hconn : ∀ c, Hosted (t.conn c) (s.client c))
    (hhandled : ∀ l c calls, t.handling l = some (c, calls) → s.client c ≠ none)
    (hstep : TcpServer.Step (.ok s.tcpserver) () (.ok t)) :
    Leads router s none (.ok { s with tcpserver := t }) :=
  (Goes.mk ⟨hsound, hconn, hhandled⟩ (fun _ => .same _) (Reach.refl.snoc hstep)).leads
    (spared_none s)

/-- the client `c` is another one now -/
theorem Hosts.update {s : HttpServer ι} (h : Hosts s) {c : Nat} {t : TcpServer ι}
    (hsound : t.Sound none) (honly : TcpServer.Only s.tcpserver t c) {k : HttpConn}
    (hself : Hosted (t.conn c) (some k)) :
    Hosts { tcpserver := t, client := Function.update s.client c (some k) } where
  sound := hsound
  hosted := by
    refine (Function.forall_update_iff s.client fun c' o => Hosted (t.conn c') o).mpr
      ⟨hself, fun c' hne => ?_⟩
    rw [honly.conn c' hne]
    exact h.hosted c'
  handled l c' calls hh := by
    change t.handling l = _ at hh
    rw [honly.handling] at hh
    show Function.update s.client c _ c' ≠ none
    by_cases hne : c' = c
    · rw [hne, Function.update_self]
      exact fun hn => (by cases hn)
    · rw [Function.update_of_ne hne]
      exact h.handled l c' calls hh

/-- a step that gives one client its handler -/
theorem leads_connect {s : HttpServer ι} (h : Hosts s) {c : Nat} (hnone : s.client c = none)
    {t : TcpServer ι} (hsound : t.Sound none) (honly : TcpServer.Only s.tcpserver t c)
    (hlog : (t.conn c).log ≠ []) (hstatus : (t.conn c).status = .connected)
    (hchannel : (t.conn c).channel = Channel.new.enableRead)
    (hstep : TcpServer.Step (.ok s.tcpserver) () (.ok t)) (m : HttpMethod) (status : HttpStatus) :
    Leads router s none (.ok ({ s with tcpserver := t }.onConnect router c m status)) := by
  have hself : Hosted (t.conn c) (some (.onConnect router m status)) :=
    .serving hlog hstatus.symm hchannel.symm (HttpConn.calm_onConnect router m status)
  refine (Goes.mk (h.update hsound honly hself) ?_ (Reach.refl.snoc hstep)).leads (spared_none s)
  refine (Function.forall_update_iff s.client fun c' o => Moves router (s.client c') none o).mpr
    ⟨?_, fun _ _ => .same _⟩
  rw [hnone]
  exact .connect m status

theorem leads_accept {s : HttpServer ι} (h : Hosts s) {fd : Int}
    (hfd : ∀ c, (s.tcpserver.conn c).isOpen = true → (s.tcpserver.conn c).fd ≠ fd) (nextloop : ι)
    (m : HttpMethod) (status : HttpStatus) :
    Leads router s none (s.accept router fd nextloop m status) := by
  obtain ⟨t, ht, hsound⟩ := TcpServer.whenNewConnection_spec h.sound hfd nextloop
  have hstep := TcpServer.Step.accept fd nextloop hfd
  rw [ht] at hstep
  obtain ⟨honly, hconn⟩ := TcpServer.whenNewConnection_only ht
  have hnone : s.client s.tcpserver.nextConnId = none :=
    (h.hosted _).eq_none (h.sound.fresh _ (Nat.le_refl _)).1
  rw [accept, ht]
  show Leads router s none (if nextloop = s.tcpserver.main then _ else _)
  by_cases hmain : nextloop = s.tcpserver.main
  · rw [if_pos hmain]
    rw [if_pos hmain] at hconn
    refine leads_connect h hnone hsound honly ?_ ?_ ?_ hstep m status
    · rw [hconn]
      exact List.cons_ne_nil _ _
    · rw [hconn]
    · rw [hconn]
  · rw [if_neg hmain]
    rw [if_neg hmain] at hconn
    refine leads_plain hsound (fun c => ?_) (fun l c calls hh => ?_) hstep
    · by_cases hc : c = s.tcpserver.nextConnId
      · rw [hc, hnone, hconn]
        exact .waiting rfl
      · rw [honly.conn c hc]
        exact h.hosted c
    · rw [honly.handling] at hh
      exact h.handled l c calls hh

theorem leads_runTask {s : HttpServer ι} (h : Hosts s) {l : ι} {task : Task} {rest : List Task}
    (hq : s.tcpserver.functions l = task :: rest) (ha : s.tcpserver.active l = [])
    (hh : s.tcpserver.handling l = none) (m : HttpMethod) (status : HttpStatus) :
    Leads router s none ({ s with tcpserver := { s.tcpserver with
      functions := Function.update s.tcpserver.functions l rest
      held := Function.update s.tcpserver.held l (task.conn :: s.tcpserver.held l) } }.runTask
        router l task m status) := by
  have hstep := TcpServer.Step.runTask l task rest hq ha hh
  obtain ⟨hdue, hs⟩ := h.sound.dequeue hq
    (Function.update s.tcpserver.held l (task.conn :: s.tcpserver.held l))
  have hhost := h.hosted task.conn
  -- taking the functor off its queue changes no connection
  obtain ⟨s1, hs1⟩ : ∃ s1 : TcpServer ι, s1 = { s.tcpserver with
    functions := Function.update s.tcpserver.functions l rest
    held := Function.update s.tcpserver.held l (task.conn :: s.tcpserver.held l) } := ⟨_, rfl⟩
  rw [← hs1] at hs hstep ⊢
  have hconn1 : s1.conn = s.tcpserver.conn := by rw [hs1]
  have hmain1 : s1.main = s.tcpserver.main := by rw [hs1]
  have hhandling1 : s1.handling = s.tcpserver.handling := by rw [hs1]
  obtain ⟨hnext, hcases⟩ := TcpServer.due_cases hdue
  have hnext1 : task.conn < s1.nextConnId := by
    rw [hs1]
    exact hnext
  have hstage1 : s1.stage task.conn = s.tcpserver.stage task.conn := by
    rw [TcpServer.stage, hconn1, TcpServer.stage]
  rw [← hconn1, ← hmain1, ← hstage1] at hcases
  generalize task.conn = c at *
  rcases hcases with ⟨rfl, h0, rfl⟩ | hcases
  · obtain ⟨t, ht, hsound⟩ := TcpServer.connectEstablished_spec hs hnext1 h0
    have hrun : s1.runTask (s1.conn c).loop (.connectEstablished c) = .ok t := ht
    rw [hrun] at hstep
    obtain ⟨honly, hconn⟩ := TcpServer.connectEstablished_only ht
    obtain ⟨-, hr, hw⟩ := hs.idle (c := c) (by omega)
    have hlog : (s1.conn c).log = [] := List.length_eq_zero_iff.mp h0
    rw [runTask, hrun]
    refine leads_connect h (hhost.eq_none (by rw [← hconn1]; exact hlog)) hsound
      ⟨fun c' hne => ?_, ?_⟩ ?_ ?_ ?_ hstep m status
    · rw [honly.conn c' hne, hconn1]
    · rw [honly.handling, hhandling1]
    · rw [hconn, hlog]
      exact List.cons_ne_nil _ _
    · rw [hconn]
    · rw [hconn, Channel.eq_new hr hw]
  · -- the other two functors end a life, and the client has no part in them
    have hlog : (s.tcpserver.conn c).log ≠ [] := log_ne_nil (by omega)
    have hplain : ∀ t, t.Sound none → TcpServer.Only s1 t c → (s1.conn c).Lives (t.conn c) →
        TcpServer.Step (.ok s.tcpserver) () (.ok t) →
        Leads router s none (.ok { s with tcpserver := t }) := by
      intro t hsound honly hlives hstep
      refine leads_plain hsound (fun c' => ?_) (fun l' c' calls hh' => ?_) hstep
      · by_cases hc : c' = c
        · rw [hc]
          exact hhost.lives hlog (by rw [← hconn1]; exact hlives)
        · rw [honly.conn c' hc, hconn1]
          exact h.hosted c'
      · rw [honly.handling, hhandling1] at hh'
        exact h.handled l' c' calls hh'
    rcases hcases with ⟨rfl, h2, rfl⟩ | ⟨rfl, h3, rfl⟩
    · obtain ⟨t, ht, hsound⟩ := TcpServer.removeConnection_spec hs hnext1 h2
      have hrun : s1.runTask s1.main (.removeConnection c) = .ok t := ht
      rw [hrun] at hstep
      obtain ⟨honly, hlives⟩ := TcpServer.removeConnection_only ht
      rw [runTask, hrun]
      exact hplain t hsound honly hlives hstep
    · obtain ⟨t, ht, hsound⟩ := TcpServer.connectDestory_spec hs hnext1 h3
      have hrun : s1.runTask (s1.conn c).loop (.connectDestory c) = .ok t := ht
      rw [hrun] at hstep
      obtain ⟨honly, hlives⟩ := TcpServer.connectDestory_only ht
      rw [runTask, hrun]
      exact hplain t hsound honly hlives hstep

/-- the callback is under way -/
def entered (s : HttpServer ι) (l : ι) (c : Nat) (calls : List EventCall) : HttpServer ι :=
  { s with tcpserver := { s.tcpserver with
    handling := Function.update s.tcpserver.handling l (some (c, calls)) } }

/-- a loop goes on to `x` -/
theorem Hosts.handled_update {s : HttpServer ι} (h : Hosts s) (l : ι)
    {x : Option (Nat × List EventCall)}
    (hx : ∀ c calls, x = some (c, calls) → s.client c ≠ none) (l' : ι) (c : Nat)
    (calls : List EventCall) (hh : Function.update s.tcpserver.handling l x l' = some (c, calls)) :
    s.client c ≠ none := by
  by_cases hl : l' = l
  · rw [hl, Function.update_self] at hh
    exact hx c calls hh
  · rw [Function.update_of_ne hl] at hh
    exact h.handled l' c calls hh

/-- a callback is under way, on a connection that has its handler; it is established, unless the
callback is `BufferIntoNet` -/
theorem Hosts.enter {s : HttpServer ι} (h : Hosts s) {l : ι} {c : Nat} {call : EventCall}
    {calls : List EventCall} (hh : s.tcpserver.handling l = some (c, call :: calls)) :
    Hosts (s.entered l c calls) ∧ ((s.entered l c calls).tcpserver.conn c).loop = l ∧
      (call ≠ .write → s.tcpserver.stage c = 1 ∧ TcpServer.closing calls = []) := by
  obtain ⟨hloop, -, hle, h1⟩ := h.sound.handling l c (call :: calls) hh
  have hrest : (TcpServer.closing calls).length ≤ 1 ∧
      (TcpServer.closing calls ≠ [] → s.tcpserver.stage c = 1) ∧
      (call ≠ .write → s.tcpserver.stage c = 1 ∧ TcpServer.closing calls = []) := by
    by_cases hne : call = .write
    · rw [hne, TcpServer.closing_write] at hle h1
      exact ⟨hle, h1, fun hw => absurd hne hw⟩
    · rw [TcpServer.closing_cons hne] at hle h1
      rw [List.length_cons] at hle
      have hst := h1 (List.cons_ne_nil _ _)
      exact ⟨by omega, fun _ => hst, fun _ => ⟨hst, List.length_eq_zero_iff.mp (by omega)⟩⟩
  refine ⟨⟨h.sound.setHandling hh calls (.inr rfl) hrest.1 hrest.2.1, h.hosted,
    h.handled_update l fun c' calls' hx => ?_⟩, hloop, hrest.2.2⟩
  obtain ⟨rfl, -⟩ := Prod.mk.inj (Option.some.inj hx)
  exact h.handled l c _ hh

/-- the established connection that a callback finds -/
theorem Hosts.established {s : HttpServer ι} (h : Hosts s) {c : Nat} (h1 : s.tcpserver.stage c = 1) :
    ∃ k : HttpConn, s.client c = some k ∧ k.sock.conn.status = (s.tcpserver.conn c).status ∧
      k.sock.conn.channel = (s.tcpserver.conn c).channel ∧ k.Calm ∧
      k.sock.conn.status ≠ .disconnected := by
  obtain ⟨k, hk, hstatus, hchannel, hcalm⟩ :=
    (h.hosted c).exists_client (log_ne_nil (by omega))
  refine ⟨k, hk, hstatus, hchannel, hcalm, ?_⟩
  rw [hstatus]
  exact (h.sound.status c).mpr h1

theorem actOf_self (c : Nat) (k : Called) : actOf c (some (c, k)) = k.act := by
  show (if c = c then k.act else none) = k.act
  rw [if_pos rfl]

theorem actOf_of_ne {c c' : Nat} (hne : c' ≠ c) (k : Called) : actOf c' (some (c, k)) = none := by
  show (if c = c' then k.act else none) = none
  rw [if_neg (Ne.symm hne)]

omit [DecidableEq ι] in
/-- bytes are spared exactly if their connection spares them -/
theorem spared_iff {s : HttpServer ι} {c : Nat} {chunk : Bytes} {n : Int} {h : HttpConn}
    (hc : s.client c = some h) (hne : chunk ≠ []) :
    s.Spared (some (c, .read chunk n)) ↔ h.Spares (.read chunk n) := by
  constructor
  · exact fun hs => hs c chunk n h rfl hne hc
  · intro hspares c' chunk' n' h' ha _ hc'
    cases ha
    rw [hc] at hc'
    rw [← Option.some.inj hc']
    exact hspares

omit [DecidableEq ι] in
theorem spared_event {s : HttpServer ι} {c : Nat} {k : Called} {h : HttpConn} {b : HttpConn.Act}
    (hc : s.client c = some h) (hb : k.act = some b) (hspares : h.Spares b) :
    s.Spared (some (c, k)) := by
  intro c' chunk n h' ha _ hc'
  cases ha
  rw [hc] at hc'
  obtain rfl := Option.some.inj hb
  rw [← Option.some.inj hc']
  exact hspares

/-- a callback that returns, having made `k'` of the connection -/
theorem leads_event {s s1 : HttpServer ι} (h : Hosts s1) (hclient : s1.client = s.client) {c : Nat}
    {k : Called} {h0 k' : HttpConn} {b : HttpConn.Act} (hc : s.client c = some h0)
    (hb : k.act = some b) (hexec : h0.execIn b = .ok k') (hcalm : h0.Calm) {t : TcpServer ι}
    (hsound : t.Sound none) (honly : TcpServer.Only s1.tcpserver t c)
    (hlog : (s1.tcpserver.conn c).log <+: (t.conn c).log)
    (hstatus : k'.sock.conn.status = (t.conn c).status)
    (hchannel : k'.sock.conn.channel = (t.conn c).channel)
    (hrun : Reach TcpServer.Step (.ok s.tcpserver) (.ok t)) :
    Leads router s (some (c, k)) (.ok (s1.answered t c k')) := by
  have hspares := HttpConn.execIn_spares hcalm b
  obtain ⟨hexec', hcalm'⟩ := hspares.2 k' hexec
  have hself : Hosted (t.conn c) (some k') := by
    refine .serving (fun hnil => ?_) hstatus hchannel hcalm'
    rw [hnil] at hlog
    have hnone := (h.hosted c).eq_none (List.prefix_nil.mp hlog)
    rw [hclient, hc] at hnone
    cases hnone
  refine (Goes.mk (h.update hsound honly hself) ?_ hrun).leads
    (spared_event hc hb (hspares.1.mp ⟨k', hexec⟩))
  refine (Function.forall_update_iff s1.client fun c' o =>
    Moves router (s.client c') (actOf c' (some (c, k))) o).mpr ⟨?_, fun c' hne => ?_⟩
  · rw [hc, actOf_self, hb]
    exact .event hexec'
  · rw [actOf_of_ne hne, hclient]
    exact .same _

/-- what the server is told of a read event brings it to what the connection is -/
theorem told_spec {t : TcpServer ι} {c : Nat} {h k' : HttpConn} (hsound : t.Sound none)
    (h1 : t.stage c = 1) (hstatus : h.sock.conn.status = (t.conn c).status)
    (hchannel : h.sock.conn.channel = (t.conn c).channel) (hnear : h.sock.Near k'.sock)
    (hquiet : k'.sock.Quiet) :
    ∃ u, told t (t.conn c).loop c k'.sock.conn = .ok u ∧ u.Sound none ∧ TcpServer.Only t u c ∧
      (t.conn c).log <+: (u.conn c).log ∧ k'.sock.conn.status = (u.conn c).status ∧
      k'.sock.conn.channel = (u.conn c).channel ∧ Reach TcpServer.Step (.ok t) (.ok u) := by
  have hchannel' : k'.sock.conn.channel = (t.conn c).channel := hnear.channel.trans hchannel
  have hopen := hsound.isOpen c (hsound.lt_next (by omega)) (by omega)
  have hw : (t.conn c).channel.isWriting = false := by rw [← hchannel', hquiet.writing]
  have htold : told t (t.conn c).loop c k'.sock.conn =
      if k'.sock.conn.status = .disconnecting then t.shutdown (t.conn c).loop c else .ok t := by
    unfold told
    rw [hquiet.writing]
    rfl
  have hgood := TcpServer.good_shutdown hsound c
  have hstep := TcpServer.Step.shutdown c hopen
  have hshut : t.shutdown (t.conn c).loop c = if (t.conn c).status = .connected then
      .ok (t.setConn c { t.conn c with status := .disconnecting }) else .ok t := by
    rw [TcpServer.shutdown, TcpServer.assertInLoopThread, if_pos rfl, hw]
    rfl
  rw [htold]
  by_cases hd : k'.sock.conn.status = .disconnecting
  · rw [if_pos hd]
    rw [hshut] at hgood hstep ⊢
    by_cases hc : (t.conn c).status = .connected
    · rw [if_pos hc] at hgood hstep ⊢
      have hconn : (t.setConn c { t.conn c with status := .disconnecting }).conn c =
          { t.conn c with status := .disconnecting } := Function.update_self _ _ _
      refine ⟨_, rfl, hgood, ⟨fun c' hne => Function.update_of_ne hne _ _, rfl⟩, ?_, ?_, ?_,
        Reach.refl.snoc hstep⟩
      · exact ⟨[], by rw [hconn, List.append_nil]⟩
      · rw [hconn]
        exact hd
      · rw [hconn]
        exact hchannel'
    · rw [if_neg hc]
      refine ⟨t, rfl, hsound, .refl t c, List.prefix_rfl, ?_, hchannel', .refl⟩
      rcases hnear.status with hsame | ⟨hcon, -⟩
      · exact hsame.trans hstatus
      · exact absurd (hstatus.symm.trans hcon) hc
  · rw [if_neg hd]
    refine ⟨t, rfl, hsound, .refl t c, List.prefix_rfl, ?_, hchannel', .refl⟩
    rcases hnear.status with hsame | ⟨-, hdis⟩
    · exact hsame.trans hstatus
    · exact absurd hdis hd

/-- the callback of the server, without what it makes of the client -/
theorem entered_step {s : HttpServer ι} {l : ι} {c : Nat} {call : EventCall} {calls : List EventCall}
    (hh : s.tcpserver.handling l = some (c, call :: calls)) (n : Int) (drained : Bool) :
    TcpServer.Step (.ok s.tcpserver) ()
      ((s.entered l c calls).tcpserver.runCallback l c n drained call) :=
  .callback l c call calls n drained hh

omit [DecidableEq ι] in
theorem exec_client {s : HttpServer ι} {c : Nat} {h : HttpConn} (hc : s.client c = some h)
    (a : HttpConn.Act) : s.exec c a = h.execIn a := by
  unfold exec
  rw [hc]

/-- the end of the stream, whichever callback finds it -/
theorem leads_close {s : HttpServer ι} (h : Hosts s) {l : ι} {c : Nat} {k : Called}
    {calls : List EventCall} (hh : s.tcpserver.handling l = some (c, k.call :: calls))
    (hk : k.call ≠ .write) {n : Int} (hact : k.act = some (.read [] n))
    (hstep : TcpServer.Step (.ok s.tcpserver) ()
      ((s.entered l c calls).tcpserver.handleClose l c)) :
    ∃ t k', (s.entered l c calls).tcpserver.handleClose l c = .ok t ∧
      (s.entered l c calls).exec c (.read [] n) = .ok k' ∧
      k'.sock.conn.channel.isWriting = false ∧ k'.sock.conn.status = .disconnected ∧
      Leads router s (some (c, k)) (.ok ((s.entered l c calls).answered t c k')) := by
  obtain ⟨henter, hloop, hstage⟩ := h.enter hh
  obtain ⟨h1, hnil⟩ := hstage hk
  have h1 : (s.entered l c calls).tcpserver.stage c = 1 := h1
  obtain ⟨h0, hc, hstatus, hchannel, hcalm, hne⟩ := henter.established h1
  have hhand : (s.entered l c calls).tcpserver.handling l = some (c, calls) :=
    Function.update_self _ _ _
  obtain ⟨hactive, hcalls⟩ := henter.sound.alone hhand
  obtain ⟨t, ht, hsound⟩ := TcpServer.handleClose_spec henter.sound h1 hactive
    fun l' calls' hh' => by rw [hcalls l' calls' hh', hnil]
  rw [hloop] at ht
  rw [ht] at hstep
  obtain ⟨honly, hcloses⟩ := TcpServer.handleClose_only ht
  obtain ⟨sock, hexec, hs, hch⟩ := HttpConn.execIn_end hne n
  refine ⟨t, _, ht, (exec_client hc _).trans hexec, ?_, hs, ?_⟩
  · rw [hch]
    rfl
  · refine leads_event (s := s) henter rfl hc hact hexec hcalm hsound honly hcloses.log ?_ ?_
      (Reach.refl.snoc hstep)
    · rw [hcloses.status]
      exact hs
    · rw [hcloses.channel, ← hchannel]
      exact hch

/-- a read event with bytes -/
theorem leads_read {s : HttpServer ι} (h : Hosts s) {l : ι} {c : Nat} {chunk : Bytes} {n : Int}
    {calls : List EventCall} (hne : chunk ≠ [])
    (hh : s.tcpserver.handling l = some (c, .read :: calls)) :
    Leads router s (some (c, .read chunk n))
      ((s.entered l c calls).callback l c (.read chunk n)) := by
  obtain ⟨henter, hloop, hstage⟩ := h.enter hh
  have h1 : (s.entered l c calls).tcpserver.stage c = 1 := (hstage (by decide)).1
  have hstep := entered_step hh chunk.length false
  obtain ⟨s1, hs1⟩ : ∃ s1, s1 = s.entered l c calls := ⟨_, rfl⟩
  have hclient : s1.client = s.client := by rw [hs1]; rfl
  rw [← hs1] at henter hloop h1 hstep ⊢
  obtain ⟨h0, hc, hstatus, hchannel, hcalm, -⟩ := henter.established h1
  have hlen : (chunk.length : Int) ≠ 0 := by
    have := List.length_pos_iff.mpr hne
    omega
  have hnet := TcpServer.netIntoBuffer_of_ne hloop hlen
  have hstep' : TcpServer.Step (.ok s.tcpserver) () (.ok s1.tcpserver) := by
    rw [← hnet]
    exact hstep
  have hspares := HttpConn.execIn_spares hcalm (.read chunk n)
  have hc0 : s.client c = some h0 := by rw [← hclient]; exact hc
  rw [callback, hnet]
  show Leads router s _ (s1.exec c (.read chunk n) >>= fun k' => told s1.tcpserver l c k'.sock.conn >>=
    fun t => return s1.answered t c k')
  rw [exec_client hc]
  cases hexec : h0.execIn (.read chunk n) with
  | error f =>
    -- the connection is not spared, and the process ends
    refine ⟨⟨fun ⟨t, ht⟩ => (by cases ht), fun hs => ?_⟩, (fun t ht => by cases ht), fun f' hf => ?_⟩
    · obtain ⟨k', hk'⟩ := hspares.1.mpr ((spared_iff hc0 hne).mp hs)
      rw [hexec] at hk'
      cases hk'
    · obtain rfl := Except.error.inj hf
      exact ⟨c, chunk, n, h0, rfl, hne, hc0, hexec, HttpConn.execIn_error hcalm hne hexec⟩
  | ok k' =>
    obtain ⟨hexec', hcalm'⟩ := hspares.2 k' hexec
    have hquiet := hcalm'.quiet
    obtain ⟨u, hu, hsound, honly, hlog, hst, hch, hrun⟩ := told_spec henter.sound h1 hstatus hchannel
      (HttpConn.read_near hcalm hne hexec') hquiet
    rw [hloop] at hu
    show Leads router s _ (told s1.tcpserver l c k'.sock.conn >>= fun t => return s1.answered t c k')
    rw [hu]
    exact leads_event henter hclient hc0 rfl hexec hcalm hsound honly hlog
      hst hch ((Reach.refl.snoc hstep').trans hrun)

/-- **One callback.** -/
theorem leads_callback {s : HttpServer ι} (h : Hosts s) {l : ι} {c : Nat} {k : Called}
    {calls : List EventCall} (hh : s.tcpserver.handling l = some (c, k.call :: calls)) :
    Leads router s (some (c, k)) ((s.entered l c calls).callback l c k) := by
  cases k with
  | close =>
    obtain ⟨t, k', ht, hexec, -, -, hleads⟩ := leads_close h hh
      (fun hk => (by cases hk)) rfl (entered_step hh 0 false)
    rw [callback, ht]
    show Leads router s _ ((s.entered l c calls).exec c (.read [] 0) >>= _)
    rw [hexec]
    exact hleads
  | read chunk n =>
    by_cases hne : chunk = []
    · subst hne
      have hloop := (h.enter hh).2.1
      have hnet : (s.entered l c calls).tcpserver.netIntoBuffer l c ([] : Bytes).length =
          (s.entered l c calls).tcpserver.handleClose l c := by
        rw [TcpServer.netIntoBuffer, TcpServer.assertInLoopThread, if_pos hloop]
        rfl
      have hstep := entered_step hh ([] : Bytes).length false
      change TcpServer.Step _ _ ((s.entered l c calls).tcpserver.netIntoBuffer l c _) at hstep
      rw [hnet] at hstep
      obtain ⟨t, k', ht, hexec, hw, hd, hleads⟩ := leads_close h hh
        (fun hk => (by cases hk)) rfl hstep
      rw [callback, hnet, ht]
      show Leads router s _ ((s.entered l c calls).exec c (.read [] n) >>= _)
      rw [hexec]
      show Leads router s _ (told t l c k'.sock.conn >>= _)
      have htold : told t l c k'.sock.conn = .ok t := by
        unfold told
        rw [hw, hd]
        rfl
      rw [htold]
      exact hleads
    · exact leads_read h hne hh
  | readError =>
    obtain ⟨henter, hloop, -⟩ := h.enter hh
    have hnet := TcpServer.netIntoBuffer_of_ne hloop (n := -1) (by decide)
    have hstep := entered_step hh (-1) false
    change TcpServer.Step _ _ ((s.entered l c calls).tcpserver.netIntoBuffer l c (-1)) at hstep
    rw [hnet] at hstep
    rw [callback, hnet]
    refine (Goes.mk henter (fun c' => ?_) (Reach.refl.snoc hstep)).leads
      (spared_of_ne fun _ _ _ ha => by cases ha)
    by_cases hc : c' = c
    · rw [hc, actOf_self]
      exact .same _
    · rw [actOf_of_ne hc]
      exact .same _
  | write n =>
    obtain ⟨henter, hloop, -⟩ := h.enter hh
    have hclient := h.handled l c _ hh
    cases hc : s.client c with
    | none => exact absurd hc hclient
    | some h0 =>
      obtain ⟨hlog, hstatus, hchannel, hcalm⟩ : (s.tcpserver.conn c).log ≠ [] ∧
          h0.sock.conn.status = (s.tcpserver.conn c).status ∧
          h0.sock.conn.channel = (s.tcpserver.conn c).channel ∧ h0.Calm := by
        have hhost := h.hosted c
        rw [hc] at hhost
        cases hhost with
        | serving hlog hstatus hchannel hcalm => exact ⟨hlog, hstatus, hchannel, hcalm⟩
      -- nothing waits to be written, and `BufferIntoNet` returns at once
      have hexec : h0.execIn (.writable n) = .ok h0 := HttpConn.exec_writable hcalm n
      have hw : (s.tcpserver.conn c).channel.isWriting = false := by
        rw [← hchannel]
        exact hcalm.quiet.writing
      have hbuf := TcpServer.bufferIntoNet_idle (s := (s.entered l c calls).tcpserver) hloop hw n
      have hstep := entered_step hh n false
      change TcpServer.Step _ _ ((s.entered l c calls).tcpserver.bufferIntoNet l c n false) at hstep
      rw [hbuf] at hstep
      rw [callback, exec_client (s := s.entered l c calls) hc, hexec]
      show Leads router s _ ((s.entered l c calls).tcpserver.bufferIntoNet l c n _ >>= _)
      rw [hbuf]
      exact leads_event (s := s) henter rfl hc rfl hexec hcalm henter.sound (.refl _ c)
        List.prefix_rfl hstatus hchannel (Reach.refl.snoc hstep)

/-- **No event goes astray**: it finds its connection with a handler, and a stream ends once. -/
theorem finds_step {s : HttpServer ι} (h : Hosts s) {a : Option (Nat × Called)}
    {y : Except Fatal (HttpServer ι)} (hst : Step router (.ok s) a y) : s.Finds a := by
  cases hst with
  | callback l c k calls hh =>
    intro c' b hb
    by_cases hne : c' = c
    · subst hne
      rw [actOf_self] at hb
      cases hclient : s.client c' with
      | none => exact absurd hclient (h.handled l c' _ hh)
      | some h0 =>
        refine ⟨h0, rfl, fun n hn => ?_⟩
        have hk : k.call ≠ .write := by
          subst hn
          cases k with
          | write n' => cases hb
          | close => exact fun hw => by cases hw
          | read chunk n' => exact fun hw => by cases hw
          | readError => cases hb
        obtain ⟨h1, hh1, -, -, -, hopen⟩ := h.established ((h.enter hh).2.2 hk).1
        rw [hclient] at hh1
        rw [Option.some.inj hh1]
        exact hopen
    · rw [actOf_of_ne hne] at hb
      cases hb
  | accept fd nextloop m status hfd => exact fun c b hb => by cases hb
  | poll l evs ha hl hheld hr => exact fun c b hb => by cases hb
  | handleEvent l c revents rest ha hl => exact fun c b hb => by cases hb
  | endEvent l c hh => exact fun c b hb => by cases hb
  | runTask l task rest m status hq ha hh => exact fun c b hb => by cases hb
  | endBatch l => exact fun c b hb => by cases hb
  | destruct c hopen hu => exact fun c b hb => by cases hb

/-- **One step** goes on exactly if it is spared. -/
theorem leads_step {s : HttpServer ι} (h : Hosts s) {a : Option (Nat × Called)}
    {y : Except Fatal (HttpServer ι)} (hst : Step router (.ok s) a y) : Leads router s a y := by
  cases hst with
  | accept fd nextloop m status hfd => exact leads_accept h hfd nextloop m status
  | poll l evs ha hl hheld hr =>
    obtain ⟨hassert, hs⟩ := h.sound.poll hl hr
    have hstep := TcpServer.Step.poll l evs ha hl hheld hr
    rw [if_pos hassert] at hstep ⊢
    exact leads_plain hs h.hosted h.handled hstep
  | handleEvent l c revents rest ha hl =>
    obtain ⟨hopen, hs⟩ := h.sound.enterEvent ha
    have hstep := TcpServer.Step.handleEvent l c revents rest ha hl
    rw [if_pos hopen] at hstep ⊢
    refine leads_plain hs h.hosted (h.handled_update l fun c' calls hx => ?_) hstep
    -- the kernel reports established connections only
    obtain ⟨rfl, -⟩ := Prod.mk.inj (Option.some.inj hx)
    have h1 : s.tcpserver.stage c = 1 :=
      ((h.sound.active l).2 (c, revents) (by rw [ha]; exact List.mem_cons_self)).2.1
    obtain ⟨k, hk, -⟩ := h.established h1
    rw [hk]
    exact fun hn => (by cases hn)
  | callback l c k calls hh => exact leads_callback h hh
  | endEvent l c hh =>
    exact leads_plain (h.sound.setHandling hh [] (.inl rfl) (Nat.zero_le 1)
      fun hne => absurd rfl hne) h.hosted (h.handled_update l fun c' calls hx => by cases hx)
      (.endEvent l c hh)
  | runTask l task rest m status hq ha hh => exact leads_runTask h hq ha hh m status
  | endBatch l =>
    exact leads_plain (h.sound.withLoops h.sound.tasks h.sound.active h.sound.handling) h.hosted
      h.handled (.endBatch l)
  | destruct c hopen hu =>
    have h4 := h.sound.unowned hopen hu
    have hlog : (s.tcpserver.conn c).log ≠ [] := log_ne_nil (by omega)
    refine leads_plain (h.sound.destruct hopen hu) (fun c' => ?_) h.handled
      (.destruct c hopen hu)
    show Hosted (Function.update s.tcpserver.conn c _ c') (s.client c')
    by_cases hc : c' = c
    · rw [hc, Function.update_self]
      exact (h.hosted c).lives hlog ⟨rfl, rfl, List.prefix_rfl⟩
    · rw [Function.update_of_ne hc]
      exact h.hosted c'

theorem hosts_new (main : ι) : Hosts (new main) where
  sound := TcpServer.sound_new main
  hosted _ := .waiting rfl
  handled _ _ _ h := by cases h

end HttpServer

end Feipu
