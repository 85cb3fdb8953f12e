import Feipu.Base.Output
import Feipu.Http.Bounds
import Feipu.Http.Dispatch
import Feipu.Http.Response
import Feipu.Http.Serialize

/-!
# The reply to a stream

One connection of the server over a whole run: the stream comes in any pieces, and may end at any
point; every `write` may take any number of bytes, or fail.

* `replies`        what has been handed to `send` is the `reply` to the bytes read so far; the client
                   has got all of it, or nothing where the write failed;
* `survives_iff`   the events that do not end the process, for a connection in any state.
-/

namespace Feipu
open CStr Lines Consume Trace

/-! ## the reply -/

/-- what `handle_http` sends for a request -/
def replyTo (router : Option Router) (req : HttpRequest) (respon : HttpResponse) : Bytes :=
  match router with
  | none => []
  | some router =>
    match router.deal req respon with
    | .error _ => []
    | .ok (_, respon) => respon.dump true true

/-- the reply to a stream: nothing before it holds a request, and nothing if it breaks the grammar.
`c` is what the memory of `status_code` held. -/
def reply (router : Option Router) (c : HttpStatus) (s : Bytes) : Bytes :=
  match run textStep (.requestline, .new .get) s with
  | (some .parseEnd, p, _) => replyTo router p.2 (.new c)
  | _ => []

theorem reply_of_end {router : Option Router} {m : HttpMethod} {c : HttpStatus} {s rest : Bytes}
    {p : Parse} (h : run textStep (.requestline, .new m) s = (some .parseEnd, p, rest)) :
    reply router c s = replyTo router p.2 (.new c) := by
  rw [reply, run_new h .get]

theorem reply_of_ne {router : Option Router} {m : HttpMethod} {c : HttpStatus} {s : Bytes}
    (h : (run textStep (.requestline, .new m) s).1 ≠ some .parseEnd) : reply router c s = [] := by
  unfold reply
  split
  · rename_i hend
    exact absurd (congrArg Prod.fst (run_new hend m)) h
  · rfl

/-- a reply does not change as more is read -/
theorem reply_append (router : Option Router) (c : HttpStatus) {m : HttpMethod} {s : Bytes}
    (h : (run textStep (.requestline, .new m) s).1 ≠ none) (e : Bytes) :
    reply router c (s ++ e) = reply router c s ∧
      (run textStep (.requestline, .new m) (s ++ e)).1 ≠ none := by
  rcases hr : run textStep (.requestline, .new m) s with ⟨_ | status, p, rest⟩
  · rw [hr] at h
    exact absurd rfl h
  · obtain ⟨rest', hr'⟩ := run_append_of_some stable_textStep e _ s hr
    rw [hr']
    refine ⟨?_, fun hn => by cases hn⟩
    rcases run_status hr with rfl | rfl
    · have hne : (run textStep (.requestline, .new m) s).1 ≠ some .parseEnd := by
        rw [hr]
        exact fun hx => (by cases hx)
      have hne' : (run textStep (.requestline, .new m) (s ++ e)).1 ≠ some .parseEnd := by
        rw [hr']
        exact fun hx => (by cases hx)
      rw [reply_of_ne hne, reply_of_ne hne']
    · rw [reply_of_end hr, reply_of_end hr']

/-! ## one write and a half-close -/

namespace Sock

/-- nothing waits to be written -/
structure Quiet (s : Sock) : Prop where
  pending : s.pending = []
  writing : s.conn.channel.isWriting = false

theorem Quiet.writesDirectly {s : Sock} (h : s.Quiet) : s.WritesDirectly :=
  ⟨(pending_nil_iff s).mpr h.pending, h.writing⟩

/-- the write takes all of the data, or fails -/
def WholeOrNot (data : Bytes) (n : Int) : Prop := n < 0 ∨ (data.length : Int) ≤ n

/-- what `send` and then `shutdown ()` leave of a connection that had sent nothing -/
structure Told (data : Bytes) (n : Int) (s t : Sock) : Prop where
  status : t.conn.status ≠ .connected
  inBuffer : t.conn.inBuffer = s.conn.inBuffer
  quiet : t.Quiet
  halfClosed : t.halfClosed = true
  accepted : t.accepted = s.accepted ++ data
  sent : t.sent = s.sent ++ data ∨ n < 0 ∧ t.sent = s.sent

theorem shutdown_connected {s : Sock} (hc : s.conn.status = .connected)
    (hw : s.conn.channel.isWriting = false) :
    s.shutdown = .ok { s.disconnecting with halfClosed := true } := by
  rw [shutdown, if_pos hc]
  exact shutInLoop_idle (s := s.disconnecting) hw

theorem shutdown_of_ne {s : Sock} (hc : s.conn.status ≠ .connected) : s.shutdown = .ok s := by
  rw [shutdown, if_neg hc]

theorem send_of_ne {s : Sock} (hc : s.conn.status ≠ .connected) (data : Bytes) (n : Int) :
    s.send data n = .ok s := by
  rw [send, if_pos hc]

/-- **A response and the half-close**: with one `write` all is well, and a `write` that takes a part
of it ends the process. -/
theorem send_shutdown {s : Sock} (hc : s.conn.status = .connected) (hq : s.Quiet) (data : Bytes)
    (n : Int) :
    (WholeOrNot data n → ∃ t, (s.send data n >>= shutdown) = .ok t ∧ s.Told data n t) ∧
      (¬ WholeOrNot data n → (s.send data n >>= shutdown) = .error .shutInLoop) := by
  obtain ⟨s1, hs1⟩ : ∃ s1, s1 = { s with accepted := s.accepted ++ data } := ⟨_, rfl⟩
  obtain ⟨s2, hs2⟩ : ∃ s2, s2 = { s1 with sent := s1.sent ++ data.take n.toNat } := ⟨_, rfl⟩
  have hd : s1.WritesDirectly := by rw [hs1]; exact hq.writesDirectly
  have hsend : s.send data n = if n < 0 then .ok s2
      else if n < data.length then .ok (s2.enqueue (data.drop n.toNat))
      else s2.writeCb .sendInLoop := by
    rw [send, if_neg (not_not.mpr hc), sendInLoop, ← hs1]
    simp only [hd, ite_true]
    rw [hs2]
  have hc2 : s2.conn.status = .connected := by rw [hs2, hs1]; exact hc
  have hw2 : s2.conn.channel.isWriting = false := by rw [hs2, hs1]; exact hq.writing
  have hq2 : s2.Quiet := by rw [hs2, hs1]; exact ⟨hq.pending, hq.writing⟩
  constructor
  · rintro (hneg | hall)
    · rw [hsend, if_pos hneg]
      have hzero : n.toNat = 0 := by omega
      refine ⟨_, shutdown_connected hc2 hw2, ?_⟩
      rw [hs2, hs1]
      refine ⟨fun h => (by cases h), rfl, ⟨hq.pending, hq.writing⟩, rfl, rfl, .inr ⟨hneg, ?_⟩⟩
      show s.sent ++ data.take n.toNat = s.sent
      rw [hzero, List.take_zero, List.append_nil]
    · rw [hsend, if_neg (by omega), if_neg (by omega)]
      have htake : data.take n.toNat = data := List.take_of_length_le (by omega)
      have hsent : s2.sent = s.sent ++ data := by
        rw [hs2, hs1]
        exact congrArg (s.sent ++ ·) htake
      have hrest : s2.conn.inBuffer = s.conn.inBuffer ∧ s2.accepted = s.accepted ++ data := by
        rw [hs2, hs1]
        exact ⟨rfl, rfl⟩
      unfold writeCb
      split
      · refine ⟨_, shutdown_connected (s := { s2 with stack := .sendInLoop :: s2.stack }) hc2 hw2, ?_⟩
        exact ⟨fun h => (by cases h), hrest.1, ⟨hq2.pending, hq2.writing⟩, rfl, hrest.2, .inl hsent⟩
      · refine ⟨_, shutdown_connected hc2 hw2, ?_⟩
        exact ⟨fun h => (by cases h), hrest.1, ⟨hq2.pending, hq2.writing⟩, rfl, hrest.2, .inl hsent⟩
  · intro hpart
    obtain ⟨h0, hlt⟩ := not_or.mp hpart
    rw [hsend, if_neg h0, if_pos (by omega)]
    exact shutdown_writing (s := s2.enqueue _) hc2 rfl

end Sock

namespace HttpConn

/-! ## one event -/

/-- the bytes of a read event in the parser: the visit follows what the parser finds -/
theorem netIntoBuffer_run {c : HttpConn} (ht : Tracks c.handler c.sock.conn.inBuffer) {chunk : Bytes}
    (hne : chunk ≠ []) {b : Buffer} (hb : c.sock.conn.inBuffer.readFd chunk = some b) (n : Int)
    {o : Option ParseStatus} {p : Parse} {rest : Bytes}
    (hr : run textStep (c.handler.checkState, c.handler.req)
      (c.sock.conn.inBuffer.readable ++ chunk) = (o, p, rest)) :
    ∃ h b', c.handler.parseHttp b = some (statusOf o, h, b') ∧
      Follows c.handler.router c.handler.respon p rest h b' ∧
      (o = none → c.exec (.read chunk n) = .ok (c.parsed h b')) ∧
      (o = some .parseError → c.exec (.read chunk n) =
        (c.parsed h b').shutdown >>= fun c1 => (c1.handleHttp n).2 >>= shutdown) ∧
      (o = some .parseEnd → c.exec (.read chunk n) = ((c.parsed h b').handleHttp n).2 >>= shutdown) := by
  have hread := Buffer.readable_readFd hb
  have htb : Tracks c.handler b := by
    intro hcs
    rw [hread]
    exact (ht hcs).append chunk
  obtain ⟨h, b', hrun, hf⟩ := parseHttp_spec htb
  rw [hread, hr] at hrun hf
  have hparse : (c.parsed c.handler b).handler.parseHttp (c.parsed c.handler b).sock.conn.inBuffer =
      some (statusOf o, h, b') := hrun
  have hexec : c.exec (.read chunk n) = ((c.parsed c.handler b).onRecv n).after := by
    show (c.netIntoBuffer chunk n).after = _
    rw [netIntoBuffer, if_neg hne, hb]
  refine ⟨h, b', hrun, hf, ?_, ?_, ?_⟩
  · rintro rfl
    rw [hexec, onRecv, hparse]
    rfl
  · rintro rfl
    rw [hexec, onRecv, hparse]
    have hparsed : (c.parsed c.handler b).parsed h b' = c.parsed h b' := rfl
    dsimp only [statusOf, decided]
    rw [hparsed]
    cases (c.parsed h b').shutdown with
    | error f => rfl
    | ok c1 => rfl
  · rintro rfl
    rw [hexec, onRecv, hparse]
    rfl

/-- the reply can be made, and a write that is made takes all of it or fails -/
def CanReply (c : HttpConn) (n : Int) : Prop :=
  ∀ r, c.handler.router = some r → ∃ q, r.deal c.handler.req c.handler.respon = .ok q ∧
    (c.sock.conn.status = .connected → Sock.WholeOrNot (q.2.dump true true) n)

/-- what `handle_http` and `shutdown ()` leave -/
structure Replied (c : HttpConn) (n : Int) (c' : HttpConn) : Prop where
  checkState : c'.handler.checkState = c.handler.checkState
  lineIndex : c'.handler.lineIndex = c.handler.lineIndex
  told : c.sock.conn.status = .connected →
    c.sock.Told (replyTo c.handler.router c.handler.req c.handler.respon) n c'.sock
  still : c.sock.conn.status ≠ .connected → c'.sock = c.sock

theorem map_ok {α β : Type} {f : α → β} {x : Except Fatal α} {b : β} (h : x.map f = .ok b) :
    ∃ a, x = .ok a ∧ f a = b := by
  cases x with
  | error e => cases h
  | ok a => exact ⟨a, rfl, Except.ok.inj h⟩

/-- what `deal` makes of the request, in the handler -/
def dealt (c : HttpConn) (q : HttpRequest × HttpResponse) : HttpHandler :=
  { c.handler with req := q.1, respon := q.2 }

theorem handleHttp_none {c : HttpConn} (hr : c.handler.router = none) (n : Int) :
    (c.handleHttp n).2 >>= shutdown = c.sock.shutdown.map fun sock => { c with sock } := by
  rw [handleHttp, hr]
  rfl

theorem handleHttp_error {c : HttpConn} {r : Router} (hr : c.handler.router = some r) {f : Fatal}
    (hd : r.deal c.handler.req c.handler.respon = .error f) (n : Int) :
    (c.handleHttp n).2 >>= shutdown = .error f := by
  rw [handleHttp, hr]
  dsimp only
  rw [hd]
  rfl

theorem handleHttp_ok {c : HttpConn} {r : Router} (hr : c.handler.router = some r)
    {q : HttpRequest × HttpResponse} (hd : r.deal c.handler.req c.handler.respon = .ok q) (n : Int) :
    (c.handleHttp n).2 >>= shutdown =
      (c.sock.send (q.2.dump true true) n >>= Sock.shutdown).map fun sock => ⟨sock, c.dealt q⟩ := by
  rw [handleHttp, hr]
  dsimp only
  rw [hd]
  show (c.sock.send (q.2.dump true true) n >>= fun sock =>
    pure (⟨sock, c.dealt q⟩ : HttpConn)) >>= shutdown = _
  cases c.sock.send (q.2.dump true true) n with
  | error f => rfl
  | ok t =>
    show t.shutdown.map _ = t.shutdown.map _
    cases t.shutdown with
    | error f => rfl
    | ok t' => rfl

theorem canReply_iff {c : HttpConn} {r : Router} (hr : c.handler.router = some r)
    {q : HttpRequest × HttpResponse} (hd : r.deal c.handler.req c.handler.respon = .ok q) (n : Int) :
    c.CanReply n ↔
      (c.sock.conn.status = .connected → Sock.WholeOrNot (q.2.dump true true) n) := by
  constructor
  · intro h
    obtain ⟨q', hq', hw⟩ := h r hr
    rw [hd] at hq'
    rw [Except.ok.inj hq']
    exact hw
  · intro hw r' hr'
    rw [hr] at hr'
    obtain rfl := Option.some.inj hr'
    exact ⟨q, hd, hw⟩

theorem replyTo_none {router : Option Router} (hr : router = none) (req : HttpRequest)
    (respon : HttpResponse) : replyTo router req respon = [] := by
  rw [hr]
  rfl

theorem replyTo_ok {router : Option Router} {r : Router} (hr : router = some r) {req : HttpRequest}
    {respon : HttpResponse} {q : HttpRequest × HttpResponse} (hd : r.deal req respon = .ok q) :
    replyTo router req respon = q.2.dump true true := by
  unfold replyTo
  rw [hr]
  dsimp only
  rw [hd]

/-- **`handle_http` and `shutdown ()`** return exactly where the reply can be made and written. -/
theorem handleHttp_shutdown {c : HttpConn} (hq : c.sock.Quiet) (n : Int) :
    ((∃ c', (c.handleHttp n).2 >>= shutdown = .ok c') ↔ c.CanReply n) ∧
      ∀ c', (c.handleHttp n).2 >>= shutdown = .ok c' → c.Replied n c' := by
  cases hr : c.handler.router with
  | none =>
    rw [handleHttp_none hr]
    obtain ⟨t, ht⟩ := Sock.shutdown_ok (s := c.sock) fun _ => hq.writing
    rw [ht]
    have hcan : c.CanReply n := by
      intro r hr'
      rw [hr] at hr'
      cases hr'
    refine ⟨⟨fun _ => hcan, fun _ => ⟨_, rfl⟩⟩, ?_⟩
    intro c' h
    obtain rfl := Except.ok.inj h
    refine ⟨rfl, rfl, fun hc => ?_, fun hc => ?_⟩
    · rw [Sock.shutdown_connected hc hq.writing] at ht
      obtain rfl := Except.ok.inj ht
      rw [replyTo_none hr]
      exact ⟨fun h => (by cases h), rfl, ⟨hq.pending, hq.writing⟩, rfl, (List.append_nil _).symm,
        .inl (List.append_nil _).symm⟩
    · rw [Sock.shutdown_of_ne hc] at ht
      exact (Except.ok.inj ht).symm
  | some r =>
    cases hd : r.deal c.handler.req c.handler.respon with
    | error f =>
      rw [handleHttp_error hr hd]
      refine ⟨⟨fun ⟨c', h⟩ => (by cases h), fun h => ?_⟩, fun c' h => by cases h⟩
      obtain ⟨q, hq', -⟩ := h r hr
      rw [hd] at hq'
      cases hq'
    | ok q =>
      rw [handleHttp_ok hr hd, canReply_iff hr hd]
      by_cases hc : c.sock.conn.status = .connected
      · obtain ⟨hwhole, hpart⟩ := Sock.send_shutdown hc hq (q.2.dump true true) n
        by_cases hw : Sock.WholeOrNot (q.2.dump true true) n
        · obtain ⟨t, ht, htold⟩ := hwhole hw
          rw [ht]
          refine ⟨⟨fun _ _ => hw, fun _ => ⟨_, rfl⟩⟩, ?_⟩
          intro c' h
          obtain rfl := Except.ok.inj h
          refine ⟨rfl, rfl, fun _ => ?_, fun hne => absurd hc hne⟩
          rw [replyTo_ok hr hd]
          exact htold
        · rw [hpart hw]
          exact ⟨⟨fun ⟨c', h⟩ => (by cases h), fun h => absurd (h hc) hw⟩, fun c' h => by cases h⟩
      · have hsock : (c.sock.send (q.2.dump true true) n >>= Sock.shutdown) = .ok c.sock := by
          rw [Sock.send_of_ne hc]
          exact Sock.shutdown_of_ne hc
        rw [hsock]
        refine ⟨⟨fun _ hc' => absurd hc' hc, fun _ => ⟨_, rfl⟩⟩, ?_⟩
        intro c' h
        obtain rfl := Except.ok.inj h
        exact ⟨rfl, rfl, fun hc' => absurd hc' hc, fun _ => rfl⟩

/-- between two events the scan position fits the buffer, and nothing waits to be written -/
structure Calm (c : HttpConn) : Prop where
  tracks : Tracks c.handler c.sock.conn.inBuffer
  quiet : c.sock.Quiet

theorem Replied.inBuffer {c c' : HttpConn} {n : Int} (h : c.Replied n c') :
    c'.sock.conn.inBuffer = c.sock.conn.inBuffer := by
  by_cases hst : c.sock.conn.status = .connected
  · exact (h.told hst).inBuffer
  · rw [h.still hst]

theorem Replied.calm {c c' : HttpConn} {n : Int} (h : c.Replied n c') (hc : c.Calm) : c'.Calm := by
  refine ⟨fun hne => ?_, ?_⟩
  · rw [h.inBuffer, h.lineIndex]
    exact hc.tracks (by rw [← h.checkState]; exact hne)
  · by_cases hst : c.sock.conn.status = .connected
    · exact (h.told hst).quiet
    · rw [h.still hst]
      exact hc.quiet

/-- `shutdown ()` where nothing waits -/
theorem shutdown_calm {c : HttpConn} (hc : c.Calm) : ∃ t, c.shutdown = .ok { c with sock := t } ∧
    t.conn.status ≠ .connected ∧ t.conn.inBuffer = c.sock.conn.inBuffer ∧ t.Quiet ∧
      t.accepted = c.sock.accepted ∧ t.sent = c.sock.sent ∧
      (c.sock.conn.status = .connected → t.halfClosed = true) ∧
      (c.sock.conn.status ≠ .connected → t = c.sock) := by
  by_cases hst : c.sock.conn.status = .connected
  · refine ⟨_, by rw [shutdown, Sock.shutdown_connected hst hc.quiet.writing]; rfl, ?_⟩
    exact ⟨fun h => (by cases h), rfl, ⟨hc.quiet.pending, hc.quiet.writing⟩, rfl, rfl, fun _ => rfl,
      fun hne => absurd hst hne⟩
  · refine ⟨c.sock, by rw [shutdown, Sock.shutdown_of_ne hst]; rfl, ?_⟩
    exact ⟨hst, rfl, hc.quiet, rfl, rfl, fun h => absurd h hst, fun _ => rfl⟩

/-- **What a read event does**, given what the parser finds in the bytes at hand: `handle_http` is
called where it stops, and after `PARSE_ERROR` the connection has been shut before. -/
theorem read_cases {c : HttpConn} (hc : c.Calm) {chunk : Bytes} (hne : chunk ≠ []) {b : Buffer}
    (hb : c.sock.conn.inBuffer.readFd chunk = some b) (n : Int) {o : Option ParseStatus} {p : Parse}
    {rest : Bytes} (hr : run textStep (c.handler.checkState, c.handler.req)
      (c.sock.conn.inBuffer.readable ++ chunk) = (o, p, rest)) :
    ∃ h b', c.handler.parseHttp b = some (statusOf o, h, b') ∧
      Follows c.handler.router c.handler.respon p rest h b' ∧ (c.parsed h b').Calm ∧
      (o = none ∧ c.exec (.read chunk n) = .ok (c.parsed h b') ∨
        ∃ c1 : HttpConn, c1.handler = h ∧ c1.Calm ∧
          c.exec (.read chunk n) = (c1.handleHttp n).2 >>= shutdown ∧
          (o = some .parseEnd ∧ c1 = c.parsed h b' ∨
            o = some .parseError ∧ (c.parsed h b').shutdown = .ok c1)) := by
  obtain ⟨h, b', hparse, hf, hmore, herror, hend⟩ := netIntoBuffer_run hc.tracks hne hb n hr
  have hcalm : (c.parsed h b').Calm := ⟨hf.tracks, hc.quiet.pending, hc.quiet.writing⟩
  refine ⟨h, b', hparse, hf, hcalm, ?_⟩
  rcases o with _ | status
  · exact .inl ⟨rfl, hmore rfl⟩
  · rcases run_status hr with rfl | rfl
    · obtain ⟨t, ht, -, hin, hq, -⟩ := shutdown_calm hcalm
      have hexec := herror rfl
      rw [ht] at hexec
      refine .inr ⟨_, rfl, ⟨?_, hq⟩, hexec, .inr ⟨rfl, ht⟩⟩
      show Tracks h t.conn.inBuffer
      rw [hin]
      exact hf.tracks
    · exact .inr ⟨_, rfl, hcalm, hend rfl, .inl ⟨rfl, rfl⟩⟩

/-! ## the events that the process survives -/

/-- the event can be handled: the buffer takes the bytes, the reply can be made, the kernel takes
it whole, and the end of the stream comes once -/
def Handles (c : HttpConn) : Act → Prop
  | .read chunk n =>
    if chunk = [] then c.sock.conn.status ≠ .disconnected
    else (∃ b, c.sock.conn.inBuffer.readFd chunk = some b) ∧
      ∀ status p rest, run textStep (c.handler.checkState, c.handler.req)
          (c.sock.conn.inBuffer.readable ++ chunk) = (some status, p, rest) →
        ∀ r, c.handler.router = some r → ∃ q, r.deal p.2 c.handler.respon = .ok q ∧
          (status = .parseEnd → c.sock.conn.status = .connected →
            Sock.WholeOrNot (q.2.dump true true) n)
  | .writable _ => True

theorem exec_read_nil (c : HttpConn) (n : Int) :
    c.exec (.read [] n) = c.sock.handleClose.map fun sock => { c with sock } := by
  show (c.netIntoBuffer [] n).after = _
  rw [netIntoBuffer, if_pos rfl]

theorem exec_close {c : HttpConn} (hc : c.Calm) (n : Int) :
    (c.sock.conn.status = .disconnected → c.exec (.read [] n) = .error .handleClose) ∧
      (c.sock.conn.status ≠ .disconnected → ∃ t, c.exec (.read [] n) = .ok { c with sock := t } ∧
        t.conn.status ≠ .connected ∧ t.conn.inBuffer = c.sock.conn.inBuffer ∧ t.Quiet ∧
        t.accepted = c.sock.accepted ∧ t.sent = c.sock.sent ∧ t.halfClosed = c.sock.halfClosed) := by
  rw [exec_read_nil, Sock.handleClose]
  constructor
  · intro h
    rw [if_pos h]
    rfl
  · intro h
    rw [if_neg h]
    exact ⟨_, rfl, fun h => (by cases h), rfl, ⟨hc.quiet.pending, rfl⟩, rfl, rfl, rfl⟩

theorem exec_writable {c : HttpConn} (hc : c.Calm) (n : Int) : c.exec (.writable n) = .ok c := by
  show (c.sock.bufferIntoNet n).map (fun sock => { c with sock }) = .ok c
  rw [Sock.bufferIntoNet, if_pos hc.quiet.writing]
  rfl

theorem exec_overflow {c : HttpConn} {chunk : Bytes} (hne : chunk ≠ [])
    (hb : c.sock.conn.inBuffer.readFd chunk = none) (n : Int) :
    c.exec (.read chunk n) = .error .undefined := by
  show (c.netIntoBuffer chunk n).after = _
  rw [netIntoBuffer, if_neg hne, hb]

/-- a read event with bytes -/
theorem read_handles {c : HttpConn} (hc : c.Calm) {chunk : Bytes} (hne : chunk ≠ []) {b : Buffer}
    (hb : c.sock.conn.inBuffer.readFd chunk = some b) (n : Int) :
    ((∃ c', c.exec (.read chunk n) = .ok c') ↔ c.Handles (.read chunk n)) ∧
      ∀ c', c.exec (.read chunk n) = .ok c' → c'.Calm := by
  unfold Handles
  dsimp only
  rw [if_neg hne]
  rcases hr : run textStep (c.handler.checkState, c.handler.req)
    (c.sock.conn.inBuffer.readable ++ chunk) with ⟨o, p, rest⟩
  obtain ⟨h, b', -, hf, hcalm, ⟨rfl, hexec⟩ | ⟨c1, hh, hcalm1, hexec, hcase⟩⟩ :=
    read_cases hc hne hb n hr
  · rw [hexec]
    refine ⟨⟨fun _ => ⟨⟨b, hb⟩, fun _ _ _ h => (by cases h)⟩, fun _ => ⟨_, rfl⟩⟩, fun c' h => ?_⟩
    rw [← Except.ok.inj h]
    exact hcalm
  · obtain ⟨hiff, hrep⟩ := handleHttp_shutdown hcalm1.quiet n
    rw [hexec, hiff]
    refine ⟨?_, fun c' h => (hrep c' h).calm hcalm1⟩
    have hreq : h.req = p.2 := congrArg Prod.snd hf.state
    unfold CanReply
    rw [hh, hf.router, hf.respon, hreq]
    rcases hcase with ⟨rfl, rfl⟩ | ⟨rfl, hshut⟩
    · constructor
      · intro hcan
        refine ⟨⟨b, hb⟩, fun status p' rest' heq r hro => ?_⟩
        cases heq
        obtain ⟨q, hq, hw⟩ := hcan r hro
        exact ⟨q, hq, fun _ => hw⟩
      · rintro ⟨-, hcan⟩ r hro
        obtain ⟨q, hq, hw⟩ := hcan _ _ _ rfl r hro
        exact ⟨q, hq, hw rfl⟩
    · -- the connection has been shut, and nothing is written
      obtain ⟨t, ht, hst, -⟩ := shutdown_calm hcalm
      rw [hshut] at ht
      obtain rfl := Except.ok.inj ht
      constructor
      · intro hcan
        refine ⟨⟨b, hb⟩, fun status p' rest' heq r hro => ?_⟩
        cases heq
        obtain ⟨q, hq, -⟩ := hcan r hro
        exact ⟨q, hq, fun h => (by cases h)⟩
      · rintro ⟨-, hcan⟩ r hro
        obtain ⟨q, hq, -⟩ := hcan _ _ _ rfl r hro
        exact ⟨q, hq, fun h => absurd h hst⟩

/-- a calm connection survives exactly the events that it handles, and is calm again -/
theorem exec_handles {c : HttpConn} (hc : c.Calm) (a : Act) :
    ((∃ c', c.exec a = .ok c') ↔ c.Handles a) ∧ ∀ c', c.exec a = .ok c' → c'.Calm := by
  cases a with
  | writable n =>
    rw [exec_writable hc]
    refine ⟨⟨fun _ => trivial, fun _ => ⟨c, rfl⟩⟩, fun c' h => ?_⟩
    rw [← Except.ok.inj h]
    exact hc
  | read chunk n =>
    by_cases hne : chunk = []
    · subst hne
      obtain ⟨hdis, hconn⟩ := exec_close hc n
      by_cases hst : c.sock.conn.status = .disconnected
      · rw [hdis hst]
        refine ⟨⟨fun ⟨c', h⟩ => (by cases h), fun h => ?_⟩, fun c' h => by cases h⟩
        have h : c.sock.conn.status ≠ .disconnected := h
        exact absurd hst h
      · obtain ⟨t, ht, -, hin, hq, -⟩ := hconn hst
        rw [ht]
        refine ⟨⟨fun _ => hst, fun _ => ⟨_, rfl⟩⟩, fun c' h => ?_⟩
        rw [← Except.ok.inj h]
        refine ⟨?_, hq⟩
        show Tracks c.handler t.conn.inBuffer
        rw [hin]
        exact hc.tracks
    · cases hb : c.sock.conn.inBuffer.readFd chunk with
      | some b => exact read_handles hc hne hb n
      | none =>
        have hnot : ¬ c.Handles (.read chunk n) := by
          unfold Handles
          dsimp only
          rw [if_neg hne, hb]
          rintro ⟨⟨b, h⟩, -⟩
          cases h
        rw [exec_overflow hne hb]
        exact ⟨⟨fun ⟨c', h⟩ => (by cases h), fun h => absurd h hnot⟩, fun c' h => by cases h⟩

theorem calm_onConnect (router : Option Router) (m : HttpMethod) (c : HttpStatus) :
    (onConnect router m c).Calm where
  tracks := tracks_zero _ _ rfl
  quiet := ⟨Buffer.readable_new, rfl⟩

/-! ## the checked parser -/

/-- `on_recv` with every read of the parser checked -/
def onRecvIn (c : HttpConn) (n : Int) : Visit :=
  match c.handler.parseHttpIn c.sock.conn.inBuffer with
  | none => { after := .error .undefined }
  | some (status, handler, inBuffer) => (c.parsed handler inBuffer).decided status n

def netIntoBufferIn (c : HttpConn) (chunk : Bytes) (n : Int) : Visit :=
  if chunk = [] then { after := c.sock.handleClose.map fun sock => { c with sock } }
  else match c.sock.conn.inBuffer.readFd chunk with
  | none => { after := .error .undefined }
  | some inBuffer => (c.parsed c.handler inBuffer).onRecvIn n

def execIn (c : HttpConn) : Act → Except Fatal HttpConn
  | .read chunk n => (c.netIntoBufferIn chunk n).after
  | .writable n => (c.sock.bufferIntoNet n).map fun sock => { c with sock }

inductive StepIn : Except Fatal HttpConn → Act → Except Fatal HttpConn → Prop where
  | mk (c : HttpConn) (a : Act) : StepIn (.ok c) a (c.execIn a)

/-- an `int` can count the request line that the event brings in -/
def Counted (c : HttpConn) (a : Act) : Prop := ∀ b, c.Reads a b → c.handler.Countable b

/-- the process survives the event -/
def Spares (c : HttpConn) (a : Act) : Prop := c.Counted a ∧ c.Handles a

/-- `on_recv` fails with the checked parser, or is what it is with the other -/
theorem onRecvIn_eq {c : HttpConn} (ht : Tracks c.handler c.sock.conn.inBuffer) (n : Int) :
    (c.handler.Countable c.sock.conn.inBuffer → c.onRecvIn n = c.onRecv n) ∧
      (¬c.handler.Countable c.sock.conn.inBuffer → (c.onRecvIn n).after = .error .undefined) := by
  obtain ⟨hin, hout⟩ := parseHttpIn_spec ht
  unfold onRecvIn
  refine ⟨fun hcount => ?_, fun hcount => ?_⟩
  · obtain ⟨h1, b1, hrun, -⟩ := parseHttp_spec ht
    rw [onRecv, hin hcount, hrun]
  · rw [hout hcount]

/-- the two servers differ where the `int` overflows -/
theorem execIn_eq {c : HttpConn} (hc : c.Calm) (a : Act) :
    (c.Counted a → c.execIn a = c.exec a) ∧ (¬c.Counted a → c.execIn a = .error .undefined) := by
  cases a with
  | writable n =>
    refine ⟨fun _ => rfl, fun h => absurd ?_ h⟩
    rintro b ⟨chunk, n', he, -⟩
    cases he
  | read chunk n =>
    by_cases hne : chunk = []
    · subst hne
      refine ⟨fun _ => ?_, fun h => absurd ?_ h⟩
      · rw [exec_read_nil]
        show (c.netIntoBufferIn [] n).after = _
        rw [netIntoBufferIn, if_pos rfl]
      · rintro b ⟨chunk, n', he, hne, -⟩
        cases he
        exact absurd rfl hne
    cases hb : c.sock.conn.inBuffer.readFd chunk with
    | none =>
      refine ⟨fun _ => ?_, fun h => absurd ?_ h⟩
      · rw [exec_overflow hne hb]
        show (c.netIntoBufferIn chunk n).after = _
        rw [netIntoBufferIn, if_neg hne, hb]
      · rintro b ⟨chunk', n', he, -, hb'⟩
        cases he
        rw [hb] at hb'
        cases hb'
    | some b =>
      have hreads : c.Reads (.read chunk n) b := ⟨chunk, n, rfl, hne, hb⟩
      have hcounted : c.Counted (.read chunk n) ↔ c.handler.Countable b := by
        refine ⟨fun h => h b hreads, fun h b' hb' => ?_⟩
        rw [hb'.unique hreads]
        exact h
      have htb : Tracks c.handler b := by
        intro hcs
        rw [Buffer.readable_readFd hb]
        exact (hc.tracks hcs).append chunk
      obtain ⟨hin, hout⟩ := onRecvIn_eq (c := c.parsed c.handler b) htb n
      have hexec : c.exec (.read chunk n) = ((c.parsed c.handler b).onRecv n).after := by
        show (c.netIntoBuffer chunk n).after = _
        rw [netIntoBuffer, if_neg hne, hb]
      have hexecIn : c.execIn (.read chunk n) = ((c.parsed c.handler b).onRecvIn n).after := by
        show (c.netIntoBufferIn chunk n).after = _
        rw [netIntoBufferIn, if_neg hne, hb]
      rw [hcounted, hexec, hexecIn]
      exact ⟨fun hcount => congrArg Visit.after (hin hcount), hout⟩

/-- **One event**: a calm connection survives exactly those that it spares, as `exec` says. -/
theorem execIn_spares {c : HttpConn} (hc : c.Calm) (a : Act) :
    ((∃ c', c.execIn a = .ok c') ↔ c.Spares a) ∧
      ∀ c', c.execIn a = .ok c' → c.exec a = .ok c' ∧ c'.Calm := by
  obtain ⟨hin, hout⟩ := execIn_eq hc a
  obtain ⟨hiff, hcalm⟩ := exec_handles hc a
  by_cases hcount : c.Counted a
  · rw [hin hcount, hiff]
    exact ⟨⟨fun h => ⟨hcount, h⟩, And.right⟩, fun c' h => ⟨h, hcalm c' h⟩⟩
  · rw [hout hcount]
    exact ⟨⟨fun ⟨c', h⟩ => (by cases h), fun h => absurd h.1 hcount⟩, fun c' h => by cases h⟩

/-- **The process survives** a run of a connection exactly if every event spares it. -/
theorem survives_iff (router : Option Router) (m : HttpMethod) (c : HttpStatus)
    {tr : List (Tr (Except Fatal HttpConn) Act)} (h : Path StepIn (.ok (onConnect router m c)) tr) :
    (∀ e ∈ tr, ∃ c', e.post = .ok c') ↔ ∀ e ∈ tr, Alive (fun c => c.Spares e.act) e.pre := by
  have h0 : Alive Calm (.ok (onConnect router m c)) := alive_ok (calm_onConnect router m c)
  refine h.all_iff (G := fun x a => Alive (fun c => c.Spares a) x)
    (P := fun e => ∃ c', e.post = .ok c') ?_ h0
  intro x a y hx hst
  cases hst with
  | mk c a =>
    obtain ⟨hiff, hcalm⟩ := execIn_spares (hx c rfl) a
    exact ⟨hiff.trans ⟨fun h => alive_ok h, fun h => h c rfl⟩, fun _ c' h => (hcalm c' h).2⟩

/-- the line of a short request is counted -/
theorem execIn_getRequest : ∃ c, freshConn.execIn (.read getRequest 32) = .ok c ∧
    freshConn.exec (.read getRequest 32) = .ok c := by
  obtain ⟨c, hexec, -⟩ := exec_getRequest
  have hcount : freshConn.Counted (.read getRequest 32) := by
    rintro b ⟨chunk, n, he, hne, hb⟩
    cases he
    have hread : b.readable = getRequest := by
      rw [Buffer.readable_readFd hb]
      show Buffer.new.readable ++ getRequest = getRequest
      rw [Buffer.readable_new, List.nil_append]
    have hcut : cut 13 10 b.readable = .line (asc "GET / HTTP/1.1") [13, 10] := by
      rw [hread]
      decide
    exact (countable_line hcut).mpr fun _ => counts_of_short (by decide) _
  have hcalm : freshConn.Calm := calm_onConnect (some ⟨[]⟩) .get 0
  exact ⟨c, ((execIn_eq hcalm _).1 hcount).trans hexec, hexec⟩

/-- the same request, with the response taken whole and taken in part -/
theorem survives_getRequest :
    freshConn.Spares (.read getRequest 32) ∧ ¬ freshConn.Spares (.read getRequest 1) := by
  constructor
  · obtain ⟨c, hexec, -⟩ := execIn_getRequest
    have hst := StepIn.mk freshConn (.read getRequest 32)
    rw [hexec] at hst
    refine (survives_iff (some ⟨[]⟩) .get 0 (.cons hst (.nil _))).mp ?_ _ List.mem_cons_self _ rfl
    intro e he
    rw [List.mem_singleton.mp he]
    exact ⟨c, rfl⟩
  · intro hspares
    have hst := StepIn.mk freshConn (.read getRequest 1)
    have hdead : (freshConn.exec (.read getRequest 1)).toOption.isNone = true := by decide +kernel
    cases hexec : freshConn.execIn (.read getRequest 1) with
    | ok c =>
      have hcalm : freshConn.Calm := calm_onConnect (some ⟨[]⟩) .get 0
      rw [((execIn_spares hcalm _).2 c hexec).1] at hdead
      cases hdead
    | error f =>
      rw [hexec] at hst
      obtain ⟨c, hc⟩ := (survives_iff (some ⟨[]⟩) .get 0 (.cons hst (.nil _))).mpr (by
        intro e he
        rw [List.mem_singleton.mp he]
        exact alive_ok hspares) _ List.mem_cons_self
      cases hc

/-! ## the reply over a run -/

/-- the bytes of the read events, up to the end of the stream -/
def delivered : List Act → Bytes
  | [] => []
  | .read chunk _ :: acts => if chunk = [] then [] else chunk ++ delivered acts
  | .writable _ :: acts => delivered acts

/-- the connection has read `s`, and the parser asks for more -/
structure Waiting (router : Option Router) (m : HttpMethod) (status : HttpStatus) (s : Bytes)
    (c : HttpConn) : Prop where
  calm : c.Calm
  connected : c.sock.conn.status = .connected
  run : run textStep (.requestline, .new m) s =
    (none, (c.handler.checkState, c.handler.req), c.sock.conn.inBuffer.readable)
  router : c.handler.router = router
  respon : c.handler.respon = .new status
  accepted : c.sock.accepted = []
  sent : c.sock.sent = []
  halfClosed : c.sock.halfClosed = false

/-- the connection takes no more output; `bytes` has been handed to `send` -/
structure Spent (failed : Prop) (bytes : Bytes) (shut : Bool) (c : HttpConn) : Prop where
  calm : c.Calm
  status : c.sock.conn.status ≠ .connected
  accepted : c.sock.accepted = bytes
  sent : c.sock.sent = bytes ∨ failed ∧ c.sock.sent = []
  halfClosed : c.sock.halfClosed = shut

theorem waiting_onConnect (router : Option Router) (m : HttpMethod) (c : HttpStatus) :
    Waiting router m c [] (onConnect router m c) where
  calm := calm_onConnect router m c
  connected := rfl
  run := by
    show _ = (none, (RequestState.requestline, HttpRequest.new m), Buffer.new.readable)
    rw [Buffer.readable_new]
    rfl
  router := rfl
  respon := rfl
  accepted := rfl
  sent := rfl
  halfClosed := rfl

/-- a waiting connection has not been answered -/
theorem Waiting.reply_eq {router : Option Router} {m : HttpMethod} {status : HttpStatus} {s : Bytes}
    {c : HttpConn} (h : Waiting router m status s c) : reply router status s = [] := by
  refine reply_of_ne (m := m) ?_
  rw [h.run]
  exact fun h => (by cases h)

/-- nothing is sent any more -/
theorem Spent.exec {failed : Prop} {bytes : Bytes} {shut : Bool} {c c' : HttpConn}
    (h : Spent failed bytes shut c) {a : Act} (hst : c.exec a = .ok c') : Spent failed bytes shut c' := by
  have hcalm := (exec_handles h.calm a).2 c' hst
  cases a with
  | writable n =>
    rw [exec_writable h.calm] at hst
    rw [← Except.ok.inj hst]
    exact h
  | read chunk n =>
    by_cases hne : chunk = []
    · subst hne
      obtain ⟨hdis, hconn⟩ := exec_close h.calm n
      by_cases hd : c.sock.conn.status = .disconnected
      · rw [hdis hd] at hst
        cases hst
      · obtain ⟨t, ht, hs, -, -, hacc, hsent, hhalf⟩ := hconn hd
        rw [ht] at hst
        obtain rfl := Except.ok.inj hst
        exact ⟨hcalm, hs, hacc.trans h.accepted, by rw [hsent]; exact h.sent,
          hhalf.trans h.halfClosed⟩
    · cases hb : c.sock.conn.inBuffer.readFd chunk with
      | none =>
        rw [exec_overflow hne hb] at hst
        cases hst
      | some b =>
        obtain ⟨h1, b', -, -, hcalm0, ⟨-, hexec⟩ | ⟨c1, -, hcalm1, hexec, hcase⟩⟩ :=
          read_cases h.calm hne hb n rfl
        · rw [hexec] at hst
          obtain rfl := Except.ok.inj hst
          exact ⟨hcalm, h.status, h.accepted, h.sent, h.halfClosed⟩
        · have hsock : c1.sock.conn.status = c.sock.conn.status ∧ c1.sock.accepted = c.sock.accepted ∧
              c1.sock.sent = c.sock.sent ∧ c1.sock.halfClosed = c.sock.halfClosed := by
            rcases hcase with ⟨-, rfl⟩ | ⟨-, hshut⟩
            · exact ⟨rfl, rfl, rfl, rfl⟩
            · obtain ⟨t, ht, -, -, -, -, -, -, hstill⟩ := shutdown_calm hcalm0
              rw [hshut] at ht
              obtain rfl := Except.ok.inj ht
              rw [hstill h.status]
              exact ⟨rfl, rfl, rfl, rfl⟩
          obtain ⟨hs, hacc, hsent, hhalf⟩ := hsock
          rw [hexec] at hst
          have hstill := ((handleHttp_shutdown hcalm1.quiet n).2 c' hst).still (by
            rw [hs]
            exact h.status)
          refine ⟨hcalm, ?_, ?_, ?_, ?_⟩
          · rw [hstill, hs]
            exact h.status
          · rw [hstill, hacc]
            exact h.accepted
          · rw [hstill, hsent]
            exact h.sent
          · rw [hstill, hhalf]
            exact h.halfClosed

/-- more bytes for a waiting connection -/
theorem Waiting.read {failed : Prop} {router : Option Router} {m : HttpMethod} {status : HttpStatus}
    {s chunk : Bytes} {c c' : HttpConn} {n : Int} (h : Waiting router m status s c)
    (hne : chunk ≠ []) (hst : c.exec (.read chunk n) = .ok c') (hn : n < 0 → failed) :
    Waiting router m status (s ++ chunk) c' ∨
      Spent failed (reply router status (s ++ chunk)) true c' ∧
        (Consume.run textStep (.requestline, .new m) (s ++ chunk)).1 ≠ none := by
  have hcalm := (exec_handles h.calm _).2 c' hst
  have hrun := run_append_of_none stable_textStep chunk _ s h.run
  cases hb : c.sock.conn.inBuffer.readFd chunk with
  | none =>
    rw [exec_overflow hne hb] at hst
    cases hst
  | some b =>
    rcases hr : Consume.run textStep (c.handler.checkState, c.handler.req)
      (c.sock.conn.inBuffer.readable ++ chunk) with ⟨o, p, rest⟩
    rw [hr] at hrun
    obtain ⟨h1, b', -, hf, hcalm0, ⟨rfl, hexec⟩ | ⟨c1, hh, hcalm1, hexec, hcase⟩⟩ :=
      read_cases h.calm hne hb n hr
    · rw [hexec] at hst
      obtain rfl := Except.ok.inj hst
      refine .inl ⟨hcalm, h.connected, ?_, hf.router.trans h.router, hf.respon.trans h.respon,
        h.accepted, h.sent, h.halfClosed⟩
      rw [hrun]
      show _ = (none, (h1.checkState, h1.req), b'.readable)
      rw [hf.state, hf.rest]
    · right
      rw [hexec] at hst
      have hrep := (handleHttp_shutdown hcalm1.quiet n).2 c' hst
      rcases hcase with ⟨rfl, rfl⟩ | ⟨rfl, hshut⟩
      · have htold := hrep.told h.connected
        rw [hrun]
        refine ⟨⟨hcalm, htold.status, ?_, ?_, htold.halfClosed⟩, fun h => by cases h⟩
        · rw [htold.accepted, reply_of_end hrun, hh, hf.router, hf.respon, h.router, h.respon,
            show h1.req = p.2 from congrArg Prod.snd hf.state]
          show c.sock.accepted ++ _ = _
          rw [h.accepted, List.nil_append]
        · rcases htold.sent with hsent | ⟨hneg, hsent⟩
          · left
            rw [hsent, reply_of_end hrun, hh, hf.router, hf.respon, h.router, h.respon,
              show h1.req = p.2 from congrArg Prod.snd hf.state]
            show c.sock.sent ++ _ = _
            rw [h.sent, List.nil_append]
          · exact .inr ⟨hn hneg, hsent.trans h.sent⟩
      · -- nothing is sent for a stream that breaks the grammar
        obtain ⟨t, ht, hstat, -, -, hacc, hsent, hhalf, -⟩ := shutdown_calm hcalm0
        rw [hshut] at ht
        obtain rfl := Except.ok.inj ht
        have hstill := hrep.still hstat
        have hnil : reply router status (s ++ chunk) = [] := by
          refine reply_of_ne (m := m) ?_
          rw [hrun]
          exact fun h => (by cases h)
        rw [hrun, hnil]
        refine ⟨⟨hcalm, ?_, ?_, .inl ?_, ?_⟩, fun h => by cases h⟩
        · rw [hstill]
          exact hstat
        · rw [hstill]
          exact hacc.trans h.accepted
        · rw [hstill]
          exact hsent.trans h.sent
        · rw [hstill]
          exact hhalf h.connected

/-- the end of the stream for a waiting connection -/
theorem Waiting.close {failed : Prop} {router : Option Router} {m : HttpMethod} {status : HttpStatus}
    {s : Bytes} {c c' : HttpConn} {n : Int} (h : Waiting router m status s c)
    (hst : c.exec (.read [] n) = .ok c') :
    Spent failed (reply router status s) false c' := by
  obtain ⟨t, ht, hs, -, -, hacc, hsent, hhalf⟩ := (exec_close h.calm n).2 (by
    rw [h.connected]
    decide)
  have hcalm := (exec_handles h.calm _).2 c' hst
  rw [ht] at hst
  obtain rfl := Except.ok.inj hst
  rw [h.reply_eq]
  exact ⟨hcalm, hs, hacc.trans h.accepted, .inl (hsent.trans h.sent), hhalf.trans h.halfClosed⟩

/-- the event is a read event at which a `write` fails -/
def FailsWrite (a : Act) : Prop := ∃ chunk n, a = .read chunk n ∧ n < 0

theorem no_path_error {f : Fatal} {tr : List (Tr (Except Fatal HttpConn) Act)}
    (h : Path Step (.error f) tr) : tr = [] := by
  cases h with
  | nil => rfl
  | cons hst => cases hst

theorem spent_path {failed : Prop} {bytes : Bytes} {shut : Bool} {c c' : HttpConn}
    {tr : List (Tr (Except Fatal HttpConn) Act)} (h : Path Step (.ok c) tr)
    (hc : Spent failed bytes shut c) (hlast : last (.ok c) tr = .ok c') :
    Spent failed bytes shut c' := by
  have hstep : ∀ x a y, Alive (Spent failed bytes shut) x → Step x a y → True →
      Alive (Spent failed bytes shut) y := by
    intro x a y hx hst _
    cases hst with
    | mk c a => exact fun c' hexec => (hx c rfl).exec hexec
  exact h.guarded_last (G := fun _ _ => True) hstep (alive_ok hc) (fun _ _ => trivial) c' hlast

/-- what a run makes of a connection that waits, and of one that has replied -/
theorem session_path (failed : Prop) {router : Option Router} {m : HttpMethod} {status : HttpStatus}
    {s : Bytes} {c c' : HttpConn} {tr : List (Tr (Except Fatal HttpConn) Act)}
    (h : Path Step (.ok c) tr) (hfail : ∀ e ∈ tr, FailsWrite e.act → failed)
    (hc : Waiting router m status s c) (hlast : last (.ok c) tr = .ok c') :
    Waiting router m status (s ++ delivered (tr.map Tr.act)) c' ∨
      ∃ shut, Spent failed (reply router status (s ++ delivered (tr.map Tr.act))) shut c' ∧
        (shut = true ↔ (Consume.run textStep (.requestline, .new m)
          (s ++ delivered (tr.map Tr.act))).1 ≠ none) := by
  induction tr generalizing c s with
  | nil =>
    obtain rfl := Except.ok.inj hlast
    exact .inl (by rw [List.map_nil, delivered, List.append_nil]; exact hc)
  | cons e tr ih =>
    cases h with
    | @cons _ a y _ hst hp =>
      cases hst with
      | mk _ _ =>
        cases hy : c.exec a with
        | error f =>
          rw [hy] at hp
          obtain rfl := no_path_error hp
          rw [hy] at hlast
          cases hlast
        | ok c1 =>
          rw [hy] at hp hlast
          have hfail' : ∀ e ∈ tr, FailsWrite e.act → failed :=
            fun e he => hfail e (List.mem_cons_of_mem _ he)
          cases a with
          | writable n =>
            rw [exec_writable hc.calm] at hy
            obtain rfl := Except.ok.inj hy
            exact ih hp hfail' hc hlast
          | read chunk n =>
            have hn : n < 0 → failed := fun hneg =>
              hfail _ List.mem_cons_self ⟨chunk, n, rfl, hneg⟩
            rw [List.map_cons]
            show Waiting _ _ _ (s ++ if chunk = [] then [] else chunk ++ delivered _) _ ∨ ∃ shut,
              Spent _ (reply _ _ (s ++ if chunk = [] then [] else chunk ++ delivered _)) _ _ ∧
                (_ ↔ (Consume.run _ _ (s ++ if chunk = [] then [] else chunk ++ delivered _)).1 ≠ none)
            by_cases hne : chunk = []
            · subst hne
              rw [if_pos rfl, List.append_nil, hc.run]
              exact .inr ⟨false, spent_path hp (hc.close hy) hlast,
                ⟨fun h => (by cases h), fun h => absurd rfl h⟩⟩
            · rw [if_neg hne, ← List.append_assoc]
              rcases hc.read hne hy hn with hw | ⟨hspent, hsome⟩
              · exact ih hp hfail' hw hlast
              · obtain ⟨hreply, hsome'⟩ := reply_append router status hsome
                  (delivered (tr.map Tr.act))
                rw [hreply]
                exact .inr ⟨true, spent_path hp hspent hlast, ⟨fun _ => hsome', fun _ => rfl⟩⟩

/-- the session stands where the bytes `s` have brought it: their reply has been made, and the
connection is shut once they are decided -/
structure Served (failed : Prop) (router : Option Router) (m : HttpMethod) (status : HttpStatus)
    (s : Bytes) (c : HttpConn) : Prop where
  accepted : c.sock.accepted = reply router status s
  pending : c.sock.conn.outBuffer.readable = []
  sent : c.sock.sent = c.sock.accepted ∨ c.sock.sent = [] ∧ failed
  halfClosed : c.sock.halfClosed = true ↔ (Consume.run textStep (.requestline, .new m) s).1 ≠ none

/-- every run that the process survives answers the bytes it delivers -/
theorem served_path (router : Option Router) (m : HttpMethod) (status : HttpStatus)
    {tr : List (Tr (Except Fatal HttpConn) Act)} {c : HttpConn}
    (h : Path Step (.ok (onConnect router m status)) tr)
    (hlast : last (.ok (onConnect router m status)) tr = .ok c) :
    Served (∃ e ∈ tr, FailsWrite e.act) router m status (delivered (tr.map Tr.act)) c := by
  have hsession := session_path (∃ e ∈ tr, FailsWrite e.act) h
    (fun e he hf => ⟨e, he, hf⟩) (waiting_onConnect router m status) hlast
  rw [List.nil_append] at hsession
  rcases hsession with hw | ⟨shut, hspent, hshut⟩
  · refine ⟨hw.accepted.trans hw.reply_eq.symm, hw.calm.quiet.pending,
      .inl (hw.sent.trans hw.accepted.symm), ?_⟩
    rw [hw.halfClosed, hw.run]
    exact ⟨fun h => (by cases h), fun h => absurd rfl h⟩
  · refine ⟨hspent.accepted, hspent.calm.quiet.pending, ?_, ?_⟩
    · rw [hspent.accepted]
      exact hspent.sent.imp_right And.symm
    · rw [hspent.halfClosed, hshut]

/-- the parser has stopped exactly where the bytes hold a request or break the grammar -/
theorem run_ne_none_iff (m : HttpMethod) (s : Bytes) :
    (Consume.run textStep (.requestline, .new m) s).1 ≠ none ↔
      Accepts .requestline 0 s ∨ Rejects .requestline s := by
  obtain ⟨hrej, hacc⟩ := run_decides (.requestline, .new m) s
  rw [← hrej]
  show _ ↔ Accepts _ (HttpRequest.new m).contentLenth _ ∨ _
  rw [← hacc]
  rcases hr : Consume.run textStep (.requestline, .new m) s with ⟨_ | st, p, rest⟩
  · exact ⟨fun h => absurd rfl h, fun h => by rcases h with h | h <;> cases h⟩
  · rcases run_status hr with rfl | rfl
    · exact ⟨fun _ => .inr rfl, fun _ h => by cases h⟩
    · exact ⟨fun _ => .inl rfl, fun _ h => by cases h⟩

/-- **The reply is a function of the stream.**  Whatever its pieces and the events between them, in
every run that the process survives the connection has been handed the reply to the bytes it has
read; the client has got all of it, or nothing where a `write` failed; and the write side is shut
exactly once the bytes hold a request or break the grammar. -/
theorem replies (router : Option Router) (m : HttpMethod) (status : HttpStatus)
    {tr : List (Tr (Except Fatal HttpConn) Act)} {c : HttpConn}
    (h : Path Step (.ok (onConnect router m status)) tr)
    (hlast : last (.ok (onConnect router m status)) tr = .ok c) :
    c.sock.accepted = reply router status (delivered (tr.map Tr.act)) ∧
      c.sock.conn.outBuffer.readable = [] ∧
      (c.sock.sent = c.sock.accepted ∨ c.sock.sent = [] ∧ ∃ e ∈ tr, FailsWrite e.act) ∧
      (c.sock.halfClosed = true ↔ Accepts .requestline 0 (delivered (tr.map Tr.act)) ∨
        Rejects .requestline (delivered (tr.map Tr.act))) := by
  have hc := served_path router m status h hlast
  exact ⟨hc.accepted, hc.pending, hc.sent, hc.halfClosed.trans (run_ne_none_iff m _)⟩

/-- a request in one piece, and a server without routes -/
theorem replies_getRequest : ∃ c, freshConn.exec (.read getRequest 32) = .ok c ∧
    c.sock.sent = reply (some ⟨[]⟩) 0 getRequest ∧ c.sock.halfClosed = true := by
  obtain ⟨c, hexec, -⟩ := exec_getRequest
  have hst := Step.mk freshConn (.read getRequest 32)
  rw [hexec] at hst
  obtain ⟨hacc, -, hsent, hhalf⟩ := replies (some ⟨[]⟩) .get 0 (.cons hst (.nil _)) (c := c) rfl
  have hget : delivered [.read getRequest 32] = getRequest := by
    rw [delivered, if_neg (by decide), delivered, List.append_nil]
  have hend : (Consume.run textStep (.requestline, .new .get) getRequest).1 = some .parseEnd := by
    decide +kernel
  rw [List.map_cons, List.map_nil, hget] at hacc hhalf
  refine ⟨c, hexec, ?_, hhalf.mpr (.inl ((run_decides _ _).2.mp hend))⟩
  rcases hsent with hsent | ⟨-, e, he, chunk, n, ha, hneg⟩
  · exact hsent.trans hacc
  · obtain rfl := List.mem_singleton.mp he
    cases ha
    omega

end HttpConn

end Feipu
