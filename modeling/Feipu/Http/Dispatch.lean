import Feipu.Http.HttpServer
import Feipu.Http.Grammar
import Feipu.Lib.Trace

/-!
# What the server dispatches

Runs of one connection of the server: read events, each with the bytes `readv` delivered, and
writable events.

* `dispatch_iff`   `handle_http` runs on complete requests only exactly in the runs where no read
                   event finds the grammar broken: the branch of `PARSE_ERROR` falls through.
* `one_dispatch`   at most one request is dispatched, and it is not touched afterwards, as long as
                   the bytes read after the answer complete nothing: they are still parsed.
-/

namespace Feipu
open CStr Lines Consume Trace

namespace HttpConn

/-! ## one event -/

/-- between two events the scan position fits the buffer, and nothing waits to be written before
the connection has been answered -/
structure Ready (c : HttpConn) : Prop where
  tracks : Tracks c.handler c.sock.conn.inBuffer
  idle : c.sock.conn.status = .connected → c.sock.conn.channel.isWriting = false

/-- the connection has been answered -/
structure Answered (c : HttpConn) : Prop where
  tracks : Tracks c.handler c.sock.conn.inBuffer
  status : c.sock.conn.status ≠ .connected

theorem Answered.ready {c : HttpConn} (h : c.Answered) : c.Ready :=
  ⟨h.tracks, fun hc => absurd hc h.status⟩

theorem handleHttp_spec {c c' : HttpConn} {n : Int} (h : (c.handleHttp n).2 = .ok c') :
    c.sock.Keeps c'.sock ∧ c'.handler.checkState = c.handler.checkState ∧
      c'.handler.lineIndex = c.handler.lineIndex := by
  unfold handleHttp at h
  cases hr : c.handler.router with
  | none =>
    rw [hr] at h
    obtain rfl := Except.ok.inj h
    exact ⟨⟨rfl, rfl⟩, rfl, rfl⟩
  | some router =>
    rw [hr] at h
    dsimp only at h
    cases hd : router.deal c.handler.req c.handler.respon with
    | error f =>
      rw [hd] at h
      cases h
    | ok p =>
      rw [hd] at h
      change (do
        let sock ← c.sock.send (p.2.dump true true) n
        return { sock, handler := { c.handler with req := p.1, respon := p.2 } }) = Except.ok c' at h
      cases hs : c.sock.send (p.2.dump true true) n with
      | error f =>
        rw [hs] at h
        cases h
      | ok t =>
        rw [hs] at h
        obtain rfl := Except.ok.inj h
        exact ⟨Sock.keeps_send hs, rfl, rfl⟩

theorem finish_spec {c c' : HttpConn} {status : ParseStatus} {n : Int}
    (ht : Tracks c.handler c.sock.conn.inBuffer) (h : (c.finish status n).after = .ok c') :
    c'.Answered := by
  change (c.handleHttp n).2 >>= shutdown = .ok c' at h
  cases hh : (c.handleHttp n).2 with
  | error f =>
    rw [hh] at h
    cases h
  | ok c1 =>
    rw [hh] at h
    obtain ⟨⟨-, hin⟩, hcs, hli⟩ := handleHttp_spec hh
    change c1.sock.shutdown.map (fun sock => { c1 with sock }) = .ok c' at h
    cases hs : c1.sock.shutdown with
    | error f =>
      rw [hs] at h
      cases h
    | ok t =>
      rw [hs] at h
      obtain rfl := Except.ok.inj h
      obtain ⟨hst, hin'⟩ := Sock.shutdown_cases hs
      refine ⟨?_, hst⟩
      show Tracks c1.handler t.conn.inBuffer
      intro hne
      rw [hin', hin, hli]
      exact ht (by rw [← hcs]; exact hne)

/-- the event delivers bytes, and `b` is `inBuffer` with them -/
def Reads (c : HttpConn) (a : Act) (b : Buffer) : Prop :=
  ∃ chunk n, a = .read chunk n ∧ chunk ≠ [] ∧ c.sock.conn.inBuffer.readFd chunk = some b

/-- what the event does, if it is a read event -/
def visit (c : HttpConn) : Act → Option Visit
  | .read chunk n => some (c.netIntoBuffer chunk n)
  | .writable _ => none

/-- the visit `v` does what the parser finds in the bytes at hand -/
def Serves (c : HttpConn) (b : Buffer) (v : Visit) : Prop :=
  match run textStep (c.handler.checkState, c.handler.req) b.readable with
  | (none, p, _) => ∃ c', v = { status := some .parseRecv, after := .ok c' } ∧ c'.Ready ∧
      c'.sock.conn.status = c.sock.conn.status ∧ c'.handler.req = p.2
  | (some status, p, rest) => ∃ (c1 : HttpConn) (n : Int), v = c1.finish status n ∧
      Follows c.handler.router c.handler.respon p rest c1.handler c1.sock.conn.inBuffer

theorem netIntoBuffer_spec {c : HttpConn} (hc : c.Ready) {chunk : Bytes} (hne : chunk ≠ [])
    {b : Buffer} (hb : c.sock.conn.inBuffer.readFd chunk = some b) (n : Int) :
    c.Serves b (c.netIntoBuffer chunk n) := by
  have ht : Tracks c.handler b := by
    intro hcs
    rw [Buffer.readable_readFd hb]
    exact (hc.tracks hcs).append chunk
  obtain ⟨h', b', hrun, hf⟩ := parseHttp_spec ht
  have hparse : (c.parsed c.handler b).handler.parseHttp (c.parsed c.handler b).sock.conn.inBuffer =
      some (_, h', b') := hrun
  have hvisit : c.netIntoBuffer chunk n = (c.parsed c.handler b).onRecv n := by
    rw [netIntoBuffer, if_neg hne, hb]
  unfold Serves
  rcases hr : run textStep (c.handler.checkState, c.handler.req) b.readable with ⟨_ | status, p, rest⟩
  · rw [hr] at hparse hf
    refine ⟨c.parsed h' b', ?_, ⟨hf.tracks, hc.idle⟩, rfl, congrArg Prod.snd hf.state⟩
    rw [hvisit, onRecv, hparse]
    rfl
  · rw [hr] at hparse hf
    rcases run_status hr with rfl | rfl
    · obtain ⟨t, ht'⟩ := Sock.shutdown_ok (s := (c.parsed h' b').sock) hc.idle
      have hsh : (c.parsed h' b').shutdown = .ok { c.parsed h' b' with sock := t } := by
        rw [shutdown, ht']
        rfl
      refine ⟨{ c.parsed h' b' with sock := t }, n, ?_, ?_⟩
      · rw [hvisit, onRecv, hparse]
        have hsh' : ((c.parsed c.handler b).parsed h' b').shutdown = .ok _ := hsh
        dsimp only [statusOf, decided]
        rw [hsh']
      · have hin := (Sock.shutdown_cases ht').2
        show Follows _ _ p rest h' t.conn.inBuffer
        rw [hin]
        exact hf
    · refine ⟨c.parsed h' b', n, ?_, hf⟩
      rw [hvisit, onRecv, hparse]
      rfl

/-- an event at which nothing reaches the parser -/
structure Aside (c : HttpConn) (a : Act) : Prop where
  reads : ∀ b, ¬ c.Reads a b
  visit : ∀ v, c.visit a = some v → v.handled = false ∧ v.dealt = false ∧ v.status = none
  exec : ∀ c', c.exec a = .ok c' → c'.handler = c.handler ∧
    c'.sock.conn.inBuffer = c.sock.conn.inBuffer ∧
    (c'.sock.conn.status = .connected →
      c.sock.conn.status = .connected ∧ c'.sock.conn.channel.isWriting = false)

theorem aside_writable {c : HttpConn} (hc : c.Ready) (n : Int) : c.Aside (.writable n) := by
  refine ⟨?_, ?_, ?_⟩
  · rintro b ⟨_, _, h, -⟩
    cases h
  · intro v h
    cases h
  · intro c' h
    change (c.sock.bufferIntoNet n).map (fun sock => { c with sock }) = .ok c' at h
    cases hs : c.sock.bufferIntoNet n with
    | error f =>
      rw [hs] at h
      cases h
    | ok t =>
      rw [hs] at h
      obtain rfl := Except.ok.inj h
      obtain ⟨⟨hst, hin⟩, hidle⟩ := Sock.keeps_bufferIntoNet hs
      refine ⟨rfl, hin, fun hconn => ?_⟩
      have hconn' := hst.symm.trans hconn
      have hw := hc.idle hconn'
      refine ⟨hconn', ?_⟩
      show t.conn.channel.isWriting = false
      rw [hidle hw]
      exact hw

theorem aside_close (c : HttpConn) (n : Int) : c.Aside (.read [] n) := by
  refine ⟨?_, ?_, ?_⟩
  · rintro b ⟨chunk, n', h, hne, -⟩
    cases h
    exact hne rfl
  · intro v h
    obtain rfl := Option.some.inj h
    exact ⟨rfl, rfl, rfl⟩
  · intro c' h
    change c.sock.handleClose.map (fun sock => { c with sock }) = .ok c' at h
    unfold Sock.handleClose at h
    split at h
    · cases h
    · obtain rfl := Except.ok.inj h
      exact ⟨rfl, rfl, fun h => (by cases h)⟩

/-- **Every event** goes past the parser or does what the parser finds. -/
theorem exec_cases {c : HttpConn} (hc : c.Ready) (a : Act) :
    c.Aside a ∨ ∃ b v, c.Reads a b ∧ c.visit a = some v ∧ c.exec a = v.after ∧ c.Serves b v := by
  cases a with
  | writable n => exact .inl (aside_writable hc n)
  | read chunk n =>
    by_cases hne : chunk = []
    · subst hne
      exact .inl (aside_close c n)
    · cases hb : c.sock.conn.inBuffer.readFd chunk with
      | some b => exact .inr ⟨b, _, ⟨chunk, n, rfl, hne, hb⟩, rfl, rfl, netIntoBuffer_spec hc hne hb n⟩
      | none =>
        have hv : c.netIntoBuffer chunk n = { after := .error .undefined } := by
          rw [netIntoBuffer, if_neg hne, hb]
        refine .inl ⟨?_, ?_, ?_⟩
        · rintro b ⟨chunk', n', h, -, hb'⟩
          cases h
          rw [hb] at hb'
          cases hb'
        · intro v h
          obtain rfl := Option.some.inj h
          rw [hv]
          exact ⟨rfl, rfl, rfl⟩
        · intro c' h
          change (c.netIntoBuffer chunk n).after = .ok c' at h
          rw [hv] at h
          cases h

theorem Reads.unique {c : HttpConn} {a : Act} {b b' : Buffer} (h : c.Reads a b)
    (h' : c.Reads a b') : b = b' := by
  obtain ⟨chunk, n, rfl, -, hb⟩ := h
  obtain ⟨chunk', n', h1, -, hb'⟩ := h'
  cases h1
  rw [hb] at hb'
  exact Option.some.inj hb'

theorem ready_exec {c c' : HttpConn} (hc : c.Ready) {a : Act} (h : c.exec a = .ok c') :
    c'.Ready := by
  rcases exec_cases hc a with haside | ⟨b, v, -, -, hv, hf⟩
  · obtain ⟨hh, hin, hidle⟩ := haside.exec c' h
    refine ⟨?_, fun hconn => (hidle hconn).2⟩
    rw [hh, hin]
    exact hc.tracks
  · rw [hv] at h
    unfold Serves at hf
    rcases hr : run textStep (c.handler.checkState, c.handler.req) b.readable with
      ⟨_ | status, p, rest⟩
    · rw [hr] at hf
      obtain ⟨c1, rfl, hready, -⟩ := hf
      obtain rfl := Except.ok.inj h
      exact hready
    · rw [hr] at hf
      obtain ⟨c1, n, rfl, hf1⟩ := hf
      exact (finish_spec hf1.tracks h).ready

theorem ready_onConnect (router : Option Router) (m : HttpMethod) (c : HttpStatus) :
    (onConnect router m c).Ready where
  tracks := tracks_zero _ _ rfl
  idle _ := rfl

/-! ## the visits of a run -/

/-- the visit made by the event has the property -/
def Visits (P : Visit → Prop) (e : Tr (Except Fatal HttpConn) Act) : Prop :=
  ∃ c v, e.pre = .ok c ∧ c.visit e.act = some v ∧ P v

/-- `parse_http` returned the status -/
def Parsed (status : ParseStatus) : Tr (Except Fatal HttpConn) Act → Prop :=
  Visits fun v => v.status = some status

/-- `handle_http` was called -/
def Handled : Tr (Except Fatal HttpConn) Act → Prop := Visits fun v => v.handled = true

/-- `Router::deal` was called -/
def Dealt : Tr (Except Fatal HttpConn) Act → Prop := Visits fun v => v.dealt = true

/-- the bytes at hand at a read event do not break the grammar -/
def WellFormed (x : Except Fatal HttpConn) (a : Act) : Prop :=
  ∀ c b, x = .ok c → c.Reads a b → ¬ Rejects c.handler.checkState b.readable

/-- the process has not ended, and then the connection is ready for the next event -/
def Serving (x : Except Fatal HttpConn) : Prop := ∀ c, x = .ok c → c.Ready

theorem serving_step {x y : Except Fatal HttpConn} {a : Act} (hx : Serving x) (h : Step x a y) :
    Serving y := by
  cases h with
  | mk c a => exact fun c' h' => ready_exec (hx c rfl) h'

theorem serving_onConnect (router : Option Router) (m : HttpMethod) (c : HttpStatus) :
    Serving (.ok (onConnect router m c)) := by
  intro c' h
  obtain rfl := Except.ok.inj h
  exact ready_onConnect router m c

theorem visits_iff {P : Visit → Prop} {c : HttpConn} {a : Act} {y : Except Fatal HttpConn} {v : Visit}
    (hv : c.visit a = some v) : Visits P ⟨.ok c, a, y⟩ ↔ P v := by
  constructor
  · rintro ⟨c', v', hc, hv', hp⟩
    obtain rfl := Except.ok.inj hc
    rw [hv] at hv'
    obtain rfl := Option.some.inj hv'
    exact hp
  · exact fun hp => ⟨c, v, rfl, hv, hp⟩

theorem Aside.not_visits {c : HttpConn} {a : Act} {y : Except Fatal HttpConn} (h : c.Aside a) :
    ¬ Handled ⟨.ok c, a, y⟩ ∧ ¬ Dealt ⟨.ok c, a, y⟩ ∧ ∀ status, ¬ Parsed status ⟨.ok c, a, y⟩ := by
  have hno : ∀ {P : Visit → Prop}, (∀ v, c.visit a = some v → ¬ P v) → ¬ Visits P ⟨.ok c, a, y⟩ := by
    rintro P hP ⟨c', v, hc, hv, hp⟩
    obtain rfl := Except.ok.inj hc
    exact hP v hv hp
  refine ⟨hno fun v hv => ?_, hno fun v hv => ?_, fun status => hno fun v hv => ?_⟩
  · rw [(h.visit v hv).1]
    decide
  · rw [(h.visit v hv).2.1]
    decide
  · rw [(h.visit v hv).2.2]
    exact fun h => (by cases h)

/-- at one event: `handle_http` runs on complete requests only, exactly if the grammar holds -/
theorem handled_step {x y : Except Fatal HttpConn} {a : Act} (hx : Serving x) (h : Step x a y) :
    ((Handled ⟨x, a, y⟩ → Parsed .parseEnd ⟨x, a, y⟩) ↔ WellFormed x a) ∧
      (WellFormed x a → ¬ Parsed .parseError ⟨x, a, y⟩) := by
  cases h with
  | mk c a =>
    rcases exec_cases (hx c rfl) a with haside | ⟨b, v, hreads, hv, -, hf⟩
    · obtain ⟨hh, -, hp⟩ := haside.not_visits (y := c.exec a)
      refine ⟨⟨fun _ c' b hc hr => ?_, fun _ h' => absurd h' hh⟩, fun _ => hp _⟩
      obtain rfl := Except.ok.inj hc
      exact absurd hr (haside.reads b)
    · -- the grammar holds exactly if the parser does not return `PARSE_ERROR`
      have hwf : WellFormed (.ok c) a ↔ ¬ Rejects c.handler.checkState b.readable := by
        constructor
        · exact fun hw => hw c b rfl hreads
        · intro hr c' b' hc hreads'
          obtain rfl := Except.ok.inj hc
          rw [hreads'.unique hreads]
          exact hr
      have hdec := (run_decides (c.handler.checkState, c.handler.req) b.readable).1
      unfold Serves at hf
      rw [hwf, Handled, Parsed, Parsed, visits_iff hv, visits_iff hv, visits_iff hv]
      rcases hr : run textStep (c.handler.checkState, c.handler.req) b.readable with
        ⟨_ | status, p, rest⟩
      · rw [hr] at hf hdec
        obtain ⟨c', rfl, -⟩ := hf
        have hno : ¬ Rejects c.handler.checkState b.readable := by
          intro h'
          cases hdec.mpr h'
        exact ⟨⟨fun _ => hno, fun _ he => by cases he⟩, fun _ he => by cases he⟩
      · rw [hr] at hf hdec
        obtain ⟨c', n, rfl, -⟩ := hf
        show ((true = true → some status = some ParseStatus.parseEnd) ↔ _) ∧
          (_ → ¬ some status = some ParseStatus.parseError)
        rcases run_status hr with rfl | rfl
        · have hrej := hdec.mp rfl
          exact ⟨⟨fun h' => absurd (h' rfl) (by decide), fun h' => absurd hrej h'⟩,
            fun h' => absurd hrej h'⟩
        · have hnot : ¬ Rejects c.handler.checkState b.readable := by
            intro h'
            cases hdec.mpr h'
          exact ⟨⟨fun _ => hnot, fun _ _ => rfl⟩, fun _ => by decide⟩

/-- **Only complete requests are handled, exactly in well-formed runs.** -/
theorem dispatch_iff (router : Option Router) (m : HttpMethod) (c : HttpStatus)
    {tr : List (Tr (Except Fatal HttpConn) Act)} (h : Path Step (.ok (onConnect router m c)) tr) :
    ((∀ e ∈ tr, Handled e → Parsed .parseEnd e) ∧
      ∀ l e r, tr = l ++ e :: r → Parsed .parseError e → ∀ e' ∈ e :: r, ¬ Dealt e') ↔
    ∀ e ∈ tr, WellFormed e.pre e.act := by
  have h0 := serving_onConnect router m c
  have hiff := h.all_iff (G := WellFormed) (P := fun e => Handled e → Parsed .parseEnd e)
    (fun x a y hx hst => ⟨(handled_step hx hst).1, fun _ => serving_step hx hst⟩) h0
  constructor
  · exact fun hall => hiff.mp hall.1
  · intro hG
    refine ⟨hiff.mpr hG, ?_⟩
    have hok := h.guarded (G := WellFormed) (P := fun e => ¬ Parsed .parseError e)
      (fun x a y hx hst hg => ⟨serving_step hx hst, (handled_step hx hst).2 hg⟩) h0 hG
    intro l e r htr herr
    have he : e ∈ tr := by rw [htr]; simp
    exact absurd herr (hok e he).2.2

/-! ## after the answer -/

/-- once the connection has been answered, the bytes at hand complete neither a line nor a body -/
def Quiet (x : Except Fatal HttpConn) (a : Act) : Prop :=
  ∀ c b, x = .ok c → c.Reads a b → c.sock.conn.status ≠ .connected →
    if c.handler.checkState = .content then b.readable.length < c.handler.req.contentLenth
    else cut 13 10 b.readable = .more

/-- the event leaves the stored request alone -/
def KeepsRequest (e : Tr (Except Fatal HttpConn) Act) : Prop :=
  ∀ c c', e.pre = .ok c → e.post = .ok c' → c'.handler.req = c.handler.req

/-- the process has not ended, and then the connection has been answered -/
def Over (x : Except Fatal HttpConn) : Prop := ∀ c, x = .ok c → c.Answered

theorem textStep_quiet {cs : RequestState} {req : HttpRequest} {s : Bytes}
    (h : if cs = .content then s.length < req.contentLenth else cut 13 10 s = .more) :
    textStep (cs, req) s = .more := by
  by_cases hcs : cs = .content
  · rw [if_pos hcs] at h
    have hlt : ¬ s.length ≥ req.contentLenth := by omega
    rw [textStep_content hcs]
    exact if_neg hlt
  · rw [if_neg hcs] at h
    exact textStep_more hcs h

/-- nothing happens to an answered connection at a quiet event -/
theorem over_step {x y : Except Fatal HttpConn} {a : Act} (hx : Over x) (h : Step x a y)
    (hq : Quiet x a) : Over y ∧ ¬ Dealt ⟨x, a, y⟩ ∧ KeepsRequest ⟨x, a, y⟩ := by
  cases h with
  | mk c a =>
    have hc := hx c rfl
    rcases exec_cases hc.ready a with haside | ⟨b, v, hreads, hv, hexec, hf⟩
    · refine ⟨?_, haside.not_visits.2.1, ?_⟩
      · intro c' h'
        obtain ⟨hh, hin, hidle⟩ := haside.exec c' h'
        refine ⟨?_, fun hconn => hc.status (hidle hconn).1⟩
        rw [hh, hin]
        exact hc.tracks
      · intro c1 c' h1 h'
        obtain rfl := Except.ok.inj h1
        exact congrArg HttpHandler.req (haside.exec c' h').1
    · have hmore := textStep_quiet (hq c b rfl hreads hc.status)
      unfold Serves at hf
      rw [run_more hmore] at hf
      obtain ⟨c', rfl, hready, hst, hreq⟩ := hf
      rw [hexec]
      refine ⟨?_, ?_, ?_⟩
      · intro c1 h1
        obtain rfl := Except.ok.inj h1
        exact ⟨hready.tracks, by rw [hst]; exact hc.status⟩
      · rw [Dealt, visits_iff hv]
        exact fun h => (by cases h)
      · intro c1 c2 h1 h2
        obtain rfl := Except.ok.inj h1
        obtain rfl := Except.ok.inj h2
        exact hreq

/-- the event that dispatches, or completes a request, answers the connection -/
theorem over_of_handled {x y : Except Fatal HttpConn} {a : Act} (hx : Serving x) (h : Step x a y)
    (hd : Dealt ⟨x, a, y⟩ ∨ Parsed .parseEnd ⟨x, a, y⟩) : Over y := by
  cases h with
  | mk c a =>
    rcases exec_cases (hx c rfl) a with haside | ⟨b, v, -, hv, hexec, hf⟩
    · obtain ⟨-, hnd, hnp⟩ := haside.not_visits (y := c.exec a)
      exact absurd hd (not_or.mpr ⟨hnd, hnp _⟩)
    · rw [Dealt, Parsed, visits_iff hv, visits_iff hv] at hd
      unfold Serves at hf
      rcases hr : run textStep (c.handler.checkState, c.handler.req) b.readable with
        ⟨_ | status, p, rest⟩
      · rw [hr] at hf
        obtain ⟨c', rfl, -⟩ := hf
        exact absurd hd (not_or.mpr ⟨fun h => (by cases h), fun h => (by cases h)⟩)
      · rw [hr] at hf
        obtain ⟨c1, n, rfl, hf1⟩ := hf
        intro c' h'
        rw [hexec] at h'
        exact finish_spec hf1.tracks h'

/-- **At most one dispatch.** -/
theorem one_dispatch (router : Option Router) (m : HttpMethod) (c : HttpStatus)
    {tr : List (Tr (Except Fatal HttpConn) Act)} (h : Path Step (.ok (onConnect router m c)) tr)
    (hG : ∀ e ∈ tr, Quiet e.pre e.act) {l r : List (Tr (Except Fatal HttpConn) Act)}
    {e : Tr (Except Fatal HttpConn) Act} (htr : tr = l ++ e :: r)
    (he : Dealt e ∨ Parsed .parseEnd e) : ∀ e' ∈ r, ¬ Dealt e' ∧ KeepsRequest e' :=
  h.after (E := fun e => Dealt e ∨ Parsed .parseEnd e) (P := fun e => ¬ Dealt e ∧ KeepsRequest e)
    (fun _ _ _ hx hst _ => ⟨serving_step hx hst, over_of_handled hx hst⟩)
    (fun _ _ _ _ hx hst hq => over_step hx hst hq)
    (serving_onConnect router m c) hG htr he

/-! ## concrete runs -/

/-- a fresh connection of a server with an empty router -/
def freshConn : HttpConn := onConnect (some ⟨[]⟩) .get 0

/-- a request without body -/
def getRequest : Bytes := asc "GET / HTTP/1.1\r\n\r\n"

/-- `X CRLF`: the line is no request line, and `Router::deal` is called -/
theorem dispatch_badRequest :
    ¬ ∀ tr, Path Step (.ok freshConn) tr →
      (∀ e ∈ tr, Handled e → Parsed .parseEnd e) ∧
        ∀ l e r, tr = l ++ e :: r → Parsed .parseError e → ∀ e' ∈ e :: r, ¬ Dealt e' := by
  intro hall
  have hv : (freshConn.netIntoBuffer (asc "X\r\n") 0).status = some .parseError ∧
      (freshConn.netIntoBuffer (asc "X\r\n") 0).dealt = true := by decide +kernel
  have hpath := Path.cons (Step.mk freshConn (.read (asc "X\r\n") 0)) (.nil _)
  exact (hall _ hpath).2 [] _ [] rfl ⟨freshConn, _, rfl, rfl, hv.1⟩ _ List.mem_cons_self
    ⟨freshConn, _, rfl, rfl, hv.2⟩

/-- a whole request in one read event -/
theorem dispatch_getRequest :
    Handled ⟨.ok freshConn, .read getRequest 32, freshConn.exec (.read getRequest 32)⟩ ∧
      Parsed .parseEnd ⟨.ok freshConn, .read getRequest 32, freshConn.exec (.read getRequest 32)⟩ := by
  have hrun : (run textStep (.requestline, .new .get) getRequest).1 = some .parseEnd := by
    decide +kernel
  have hrej : ¬ Rejects .requestline getRequest := by
    intro h
    have h' := (run_decides (.requestline, .new .get) getRequest).1.mpr h
    rw [hrun] at h'
    cases h'
  have hpath := Path.cons (Step.mk freshConn (.read getRequest 32)) (.nil _)
  have hhandled : Handled ⟨.ok freshConn, .read getRequest 32, freshConn.exec (.read getRequest 32)⟩ :=
    ⟨freshConn, _, rfl, rfl, by decide +kernel⟩
  refine ⟨hhandled, ((dispatch_iff (some ⟨[]⟩) .get 0 hpath).mpr ?_).1 _ List.mem_cons_self hhandled⟩
  intro e he c b hc hb
  obtain rfl := List.mem_singleton.mp he
  obtain rfl := Except.ok.inj hc
  obtain ⟨chunk, n, ha, -, hb⟩ := hb
  cases ha
  have hs : b.readable = getRequest := by
    rw [Buffer.readable_readFd hb]
    show Buffer.new.readable ++ getRequest = getRequest
    rw [Buffer.readable_new, List.nil_append]
  rw [hs]
  exact hrej

/-- what the first request leaves behind -/
theorem exec_getRequest : ∃ c1, freshConn.exec (.read getRequest 32) = .ok c1 ∧
    (freshConn.netIntoBuffer getRequest 32).dealt = true ∧
    c1.sock.conn.inBuffer.readable = [] ∧ c1.handler.checkState = .header ∧
    (c1.netIntoBuffer (asc "\r\n") 0).dealt = true := by
  have hd : (freshConn.netIntoBuffer getRequest 32).dealt = true := by decide +kernel
  have hev : (freshConn.exec (.read getRequest 32)).toOption.any (fun c1 =>
      c1.sock.conn.inBuffer.readable == [] && (c1.handler.checkState == .header &&
        (c1.netIntoBuffer (asc "\r\n") 0).dealt)) = true := by decide +kernel
  cases hx : freshConn.exec (.read getRequest 32) with
  | error f =>
    rw [hx] at hev
    cases hev
  | ok c1 =>
    rw [hx] at hev
    change (_ && (_ && _)) = true at hev
    rw [Bool.and_eq_true, Bool.and_eq_true, beq_iff_eq, beq_iff_eq] at hev
    exact ⟨c1, rfl, hd, hev⟩

/-- a request, and two more bytes: the router is asked twice -/
theorem dispatch_twice :
    ¬ ∀ tr, Path Step (.ok freshConn) tr →
      ∀ l e r, tr = l ++ e :: r → Dealt e → ∀ e' ∈ r, ¬ Dealt e' := by
  intro hall
  obtain ⟨c1, hx, hd, -, -, hd'⟩ := exec_getRequest
  have h1 := Step.mk freshConn (.read getRequest 32)
  rw [hx] at h1
  have hpath := Path.cons h1 (.cons (Step.mk c1 (.read (asc "\r\n") 0)) (.nil _))
  exact hall _ hpath [] _ _ rfl ⟨freshConn, _, rfl, rfl, hd⟩ _ List.mem_cons_self
    ⟨c1, _, rfl, rfl, hd'⟩

/-- a request, and one more byte -/
theorem one_dispatch_getRequest :
    ∃ c1, freshConn.exec (.read getRequest 32) = .ok c1 ∧
      ¬ Dealt ⟨.ok c1, .read (asc "X") 0, c1.exec (.read (asc "X") 0)⟩ := by
  obtain ⟨c1, hx, hd, hrest, hcs, -⟩ := exec_getRequest
  have h1 := Step.mk freshConn (.read getRequest 32)
  rw [hx] at h1
  have hpath := Path.cons h1 (.cons (Step.mk c1 (.read (asc "X") 0)) (.nil _))
  have hquiet : ∀ e ∈ [(⟨.ok freshConn, .read getRequest 32, .ok c1⟩ : Tr (Except Fatal HttpConn) Act),
      ⟨.ok c1, .read (asc "X") 0, c1.exec (.read (asc "X") 0)⟩], Quiet e.pre e.act := by
    intro e he c b hc hb hst
    rcases List.mem_cons.mp he with rfl | he
    · obtain rfl := Except.ok.inj hc
      exact absurd rfl hst
    · obtain rfl := List.mem_singleton.mp he
      obtain rfl := Except.ok.inj hc
      obtain ⟨chunk, n, ha, -, hb⟩ := hb
      cases ha
      rw [if_neg (by rw [hcs]; decide), Buffer.readable_readFd hb, hrest]
      decide
  exact ⟨c1, hx, (one_dispatch (some ⟨[]⟩) .get 0 hpath hquiet (l := []) rfl
    (.inl ⟨freshConn, _, rfl, rfl, hd⟩) _ List.mem_cons_self).1⟩

end HttpConn

end Feipu
