import Feipu.Http.Answer

/-!
# How often a byte is looked at

`line_index_` remembers how far the current line has been scanned, and when more bytes arrive the
scan goes on from there: from the end, or from the CR or the bad byte at which it has stopped.

* `scan_linear`   over every run of a connection the loop of `parse_line` makes at most one round for
                  each byte that has been read, and one for each read event.
-/

namespace Feipu
open CStr Lines Consume Trace

/-! ## the rounds of the loop -/

/-- the rounds of the loop of `parse_line` from `i` on, `k` bytes before the end of what is
readable -/
def parseLineSteps (b : Buffer) : Nat → Nat → Nat
  | 0, _ => 0
  | k + 1, i =>
    let tmp := at' b.peek i
    if tmp = 13 ∨ tmp = 10 then 1 else parseLineSteps b k (i + 1) + 1

namespace HttpHandler

/-- the rounds that one round of `parse_http` makes in `parse_line` -/
def roundSteps (h : HttpHandler) (b : Buffer) : Nat :=
  if h.checkState = .content then 0
  else parseLineSteps b (b.getReadableBytes - h.lineIndex) h.lineIndex

def roundsSteps : Nat → HttpHandler → Buffer → Nat
  | 0, _, _ => 0
  | k + 1, h, b =>
    h.roundSteps b + match h.round b with
      | some (.again h b) => roundsSteps k h b
      | _ => 0

/-- the rounds that a call of `parse_http` makes in `parse_line` -/
def parseHttpSteps (h : HttpHandler) (b : Buffer) : Nat :=
  roundsSteps (b.getReadableBytes + 1) h b

end HttpHandler

/-- where the loop stands when it is left: it went back by nothing, and past at most one byte that
it will see again -/
theorem parseLineLoop_steps (b : Buffer) (k i : Nat) {status : LineStatus} {i' : Nat} {b' : Buffer}
    (h : parseLineLoop b k i = some (status, i', b')) :
    i ≤ i' ∧ parseLineSteps b k i + i ≤ i' + 1 ∧
      (status = .lineOk → parseLineSteps b k i + i ≤ i') := by
  induction k generalizing i with
  | zero =>
    obtain ⟨rfl, rfl, rfl⟩ := h
    exact ⟨Nat.le_refl _, by rw [parseLineSteps]; omega, fun h => (by cases h)⟩
  | succ k ih =>
    unfold parseLineLoop at h
    unfold parseLineSteps
    dsimp only at h ⊢
    by_cases hcr : at' b.peek i = 13
    · rw [if_pos hcr] at h
      rw [if_pos (.inl hcr)]
      split at h
      · obtain ⟨rfl, rfl, rfl⟩ := h
        exact ⟨Nat.le_refl _, by omega, fun h => (by cases h)⟩
      · split at h
        · obtain ⟨b1, -, hb⟩ := Option.map_eq_some_iff.mp h
          obtain ⟨rfl, rfl, rfl⟩ := hb
          exact ⟨by omega, by omega, fun _ => by omega⟩
        · obtain ⟨rfl, rfl, rfl⟩ := h
          exact ⟨Nat.le_refl _, by omega, fun h => (by cases h)⟩
    · rw [if_neg hcr] at h
      by_cases hlf : at' b.peek i = 10
      · rw [if_pos hlf] at h
        rw [if_pos (.inr hlf)]
        split at h
        · obtain ⟨b1, -, hb⟩ := Option.map_eq_some_iff.mp h
          obtain ⟨rfl, rfl, rfl⟩ := hb
          exact ⟨by omega, by omega, fun _ => by omega⟩
        · obtain ⟨rfl, rfl, rfl⟩ := h
          exact ⟨Nat.le_refl _, by omega, fun h => (by cases h)⟩
      · rw [if_neg hlf] at h
        rw [if_neg (not_or.mpr ⟨hcr, hlf⟩)]
        obtain ⟨hle, hsteps, hok⟩ := ih (i + 1) h
        exact ⟨by omega, by omega, fun hs => by have := hok hs; omega⟩

/-! ## a round of `parse_http` -/

/-- the scan position lies in the buffer; a body is not scanned -/
structure Placed (x : HttpHandler × Buffer) : Prop where
  tracks : Tracks x.1 x.2
  le : x.1.lineIndex ≤ x.2.getReadableBytes
  content : x.1.checkState = .content → x.1.lineIndex = 0

/-- the bytes of the buffer that no scan has passed -/
def unscanned (x : HttpHandler × Buffer) : Nat := x.2.getReadableBytes - x.1.lineIndex

/-- 1 for the round that ends the call -/
def Round.ends : Round → Nat
  | .ret .. => 1
  | .again .. => 0

theorem retrieve_bytes {b b' : Buffer} {n : Nat} (h : b.retrieve n = some b') :
    b'.getReadableBytes + n = b.getReadableBytes := by
  unfold Buffer.retrieve at h
  split at h
  · rename_i hle
    obtain rfl := Option.some.inj h
    unfold Buffer.getReadableBytes at hle ⊢
    dsimp only
    omega
  · cases h

/-- a line is taken off whole -/
theorem dispatch_line {h : HttpHandler} {b : Buffer} {rd : Round} (hcs : h.checkState ≠ .content)
    (hd : h.dispatch b = some rd) :
    rd.state.1.lineIndex = 0 ∧ b.retrieve h.lineIndex = some rd.state.2 := by
  unfold HttpHandler.dispatch at hd
  cases hst : h.checkState with
  | content => exact absurd hst hcs
  | requestline =>
    rw [hst] at hd
    dsimp only at hd
    obtain ⟨b', hb', hd⟩ := Option.bind_eq_some_iff.mp hd
    split at hd <;> obtain rfl := Option.some.inj hd <;> exact ⟨rfl, hb'⟩
  | header =>
    rw [hst] at hd
    dsimp only at hd
    obtain ⟨b', hb', hd⟩ := Option.bind_eq_some_iff.mp hd
    split at hd
    · obtain rfl := Option.some.inj hd
      exact ⟨rfl, hb'⟩
    · split at hd <;> obtain rfl := Option.some.inj hd <;> exact ⟨rfl, hb'⟩

/-- a body is taken or waited for -/
theorem dispatch_content {h : HttpHandler} {b : Buffer} {rd : Round} (hcs : h.checkState = .content)
    (hd : h.dispatch b = some rd) :
    rd.state.1.lineIndex = h.lineIndex ∧ rd.state.2.getReadableBytes ≤ b.getReadableBytes := by
  have htake : ∀ b', b.retrieve b.getReadableBytes = some b' →
      b'.getReadableBytes ≤ b.getReadableBytes := by
    intro b' hb'
    have := retrieve_bytes hb'
    omega
  unfold HttpHandler.dispatch at hd
  rw [hcs] at hd
  dsimp only at hd
  split at hd
  · obtain rfl := Option.some.inj hd
    exact ⟨rfl, Nat.le_refl _⟩
  · split at hd
    · obtain ⟨b', hb', hd⟩ := Option.bind_eq_some_iff.mp hd
      split at hd <;> obtain rfl := Option.some.inj hd <;> exact ⟨rfl, htake b' hb'⟩
    · obtain ⟨b', hb', hd⟩ := Option.bind_eq_some_iff.mp hd
      obtain rfl := Option.some.inj hb'
      split at hd <;> obtain rfl := Option.some.inj hd <;> exact ⟨rfl, Nat.le_refl _⟩

theorem unscanned_line {h : HttpHandler} {b b' : Buffer} {i : Nat} {rd : Round}
    (h0 : rd.state.1.lineIndex = 0) (hb : b'.retrieve i = some rd.state.2)
    (hlen : b'.getReadableBytes = b.getReadableBytes) (hi : h.lineIndex ≤ i) :
    unscanned rd.state + (i - h.lineIndex) ≤ unscanned (h, b) := by
  have hbytes := retrieve_bytes hb
  unfold unscanned
  rw [h0]
  show rd.state.2.getReadableBytes - 0 + (i - h.lineIndex) ≤ b.getReadableBytes - h.lineIndex
  omega

/-- **One round** scans new bytes only, but for the one at which it stops to wait. -/
theorem round_steps {h : HttpHandler} {b : Buffer} {rd : Round} (hx : Placed (h, b))
    (hr : h.round b = some rd) :
    Placed rd.state ∧ h.roundSteps b + unscanned rd.state ≤ unscanned (h, b) + rd.ends := by
  have htracks := (round_roundOn hx.tracks hr).1
  by_cases hcs : h.checkState = .content
  · have h0 : h.lineIndex = 0 := hx.content hcs
    rw [HttpHandler.round, if_pos hcs] at hr
    obtain ⟨hindex, hle⟩ := dispatch_content (h := { h with lineState := .lineOk }) hcs hr
    have hindex : rd.state.1.lineIndex = 0 := hindex.trans h0
    refine ⟨⟨htracks, by rw [hindex]; exact Nat.zero_le _, fun _ => hindex⟩, ?_⟩
    rw [HttpHandler.roundSteps, if_pos hcs]
    unfold unscanned
    rw [hindex]
    show 0 + (rd.state.2.getReadableBytes - 0) ≤ b.getReadableBytes - h.lineIndex + rd.ends
    omega
  · obtain ⟨status, i, b', hline, hspec⟩ :=
      parseLine_spec (b := b) (i := h.lineIndex) (hx.tracks hcs)
    obtain ⟨hle, hsteps, hok⟩ := parseLineLoop_steps b _ _ hline
    have hfit : h.lineIndex ≤ b.getReadableBytes := hx.le
    rw [HttpHandler.round, if_neg hcs, hline] at hr
    rw [HttpHandler.roundSteps, if_neg hcs]
    unfold LineSpec at hspec
    -- where no line is taken the scan position has moved on, and stays in the buffer
    have hstay : b' = b → Scanned b.readable i → rd = .ret .parseRecv { h with
          lineState := status, lineIndex := i } b' ∨ rd = .ret .parseError { h with
          lineState := status, lineIndex := i } b' → Placed rd.state ∧
        parseLineSteps b (b.getReadableBytes - h.lineIndex) h.lineIndex + unscanned rd.state ≤
          unscanned (h, b) + rd.ends := by
      rintro rfl ⟨hi, -⟩ hrd
      rw [b'.length_readable] at hi
      have hstate : rd.state = ({ h with lineState := status, lineIndex := i }, b') ∧
          rd.ends = 1 := by
        rcases hrd with rfl | rfl <;> exact ⟨rfl, rfl⟩
      rw [hstate.1] at htracks ⊢
      rw [hstate.2]
      refine ⟨⟨htracks, hi, fun hc => absurd hc hcs⟩, ?_⟩
      show _ + (b'.getReadableBytes - i) ≤ b'.getReadableBytes - h.lineIndex + 1
      omega
    cases hcut : cut 13 10 b.readable with
    | more =>
      rw [hcut] at hspec
      obtain ⟨rfl, hb, hscan⟩ := hspec
      exact hstay hb hscan (.inl (Option.some.inj hr).symm)
    | bad =>
      rw [hcut] at hspec
      obtain ⟨rfl, hb, hscan⟩ := hspec
      exact hstay hb hscan (.inr (Option.some.inj hr).symm)
    | line l r =>
      rw [hcut] at hspec
      obtain ⟨rfl, hread, rfl⟩ := hspec
      have hlen : b'.getReadableBytes = b.getReadableBytes := by
        rw [← b'.length_readable, ← b.length_readable, hread,
          ((cut_line_iff cr_ne_lf).mp hcut).2]
        simp
      obtain ⟨h0, hb⟩ := dispatch_line
        (h := { h with lineState := .lineOk, lineIndex := l.length + 2 })
        hcs hr
      have hun : unscanned rd.state + (l.length + 2 - h.lineIndex) ≤ unscanned (h, b) :=
        unscanned_line h0 hb hlen hle
      have hline : parseLineSteps b (b.getReadableBytes - h.lineIndex) h.lineIndex + h.lineIndex ≤
          l.length + 2 := hok rfl
      refine ⟨⟨htracks, by rw [h0]; exact Nat.zero_le _, fun _ => h0⟩, ?_⟩
      omega

/-- **A call of `parse_http`** scans the bytes that are new to it, and one more at most. -/
theorem parseHttp_steps {h h' : HttpHandler} {b b' : Buffer} {status : ParseStatus}
    (hx : Placed (h, b)) (hp : h.parseHttp b = some (status, h', b')) :
    Placed (h', b') ∧ h.parseHttpSteps b + unscanned (h', b') ≤ unscanned (h, b) + 1 := by
  have hrounds : ∀ (k : Nat) (h : HttpHandler) (b : Buffer), Placed (h, b) →
      HttpHandler.rounds k h b = some (status, h', b') → Placed (h', b') ∧
        HttpHandler.roundsSteps k h b + unscanned (h', b') ≤ unscanned (h, b) + 1 := by
    intro k
    induction k with
    | zero =>
      intro h b hx hk
      obtain ⟨rfl, rfl, rfl⟩ := hk
      refine ⟨hx, ?_⟩
      show 0 + unscanned (h', b') ≤ _
      omega
    | succ k ih =>
      intro h b hx hk
      rw [HttpHandler.rounds] at hk
      rw [HttpHandler.roundsSteps]
      cases hr : h.round b with
      | none =>
        rw [hr] at hk
        cases hk
      | some rd =>
        rw [hr] at hk
        obtain ⟨hplaced, hsteps⟩ := round_steps hx hr
        cases rd with
        | ret status1 h1 b1 =>
          obtain ⟨rfl, rfl, rfl⟩ := hk
          exact ⟨hplaced, hsteps⟩
        | again h1 b1 =>
          obtain ⟨hend, hrest⟩ := ih h1 b1 hplaced hk
          have hsteps : h.roundSteps b + unscanned (h1, b1) ≤ unscanned (h, b) + 0 := hsteps
          refine ⟨hend, ?_⟩
          dsimp only
          omega
  exact hrounds _ h b hx hp

/-! ## runs -/

namespace HttpConn

/-- the rounds that the event makes in `parse_line` -/
def scanSteps (c : HttpConn) : Act → Nat
  | .read chunk _ =>
    if chunk = [] then 0
    else match c.sock.conn.inBuffer.readFd chunk with
    | some b => c.handler.parseHttpSteps b
    | none => 0
  | .writable _ => 0

/-- the same, of a step of a run -/
def scanCost (e : Tr (Except Fatal HttpConn) Act) : Nat :=
  match e.pre with
  | .ok c => c.scanSteps e.act
  | .error _ => 0

/-- the bytes that the event delivers -/
def Act.bytes : Act → Nat
  | .read chunk _ => chunk.length
  | .writable _ => 0

/-- the bytes of the connection that no scan has passed; none once the process has ended -/
def waitingBytes : Except Fatal HttpConn → Nat
  | .ok c => unscanned (c.handler, c.sock.conn.inBuffer)
  | .error _ => 0

/-- a connection between two events -/
structure Scanning (c : HttpConn) : Prop where
  calm : c.Calm
  placed : Placed (c.handler, c.sock.conn.inBuffer)

theorem Scanning.congr {c c' : HttpConn} (hp : Placed (c.handler, c.sock.conn.inBuffer))
    (hc' : c'.Calm) (hcs : c'.handler.checkState = c.handler.checkState)
    (hli : c'.handler.lineIndex = c.handler.lineIndex)
    (hin : c'.sock.conn.inBuffer = c.sock.conn.inBuffer) :
    c'.Scanning ∧ waitingBytes (.ok c') = waitingBytes (.ok c) := by
  refine ⟨⟨hc', hc'.tracks, ?_, fun hcont => ?_⟩, ?_⟩
  · show c'.handler.lineIndex ≤ c'.sock.conn.inBuffer.getReadableBytes
    rw [hli, hin]
    exact hp.le
  · exact hli.trans (hp.content (hcs.symm.trans hcont))
  · show c'.sock.conn.inBuffer.getReadableBytes - c'.handler.lineIndex = _
    rw [hli, hin]
    rfl

/-- more bytes arrive -/
theorem placed_readFd {c : HttpConn} (hp : Placed (c.handler, c.sock.conn.inBuffer)) {chunk : Bytes}
    {b : Buffer} (hb : c.sock.conn.inBuffer.readFd chunk = some b) : Placed (c.handler, b) ∧
      unscanned (c.handler, b) = unscanned (c.handler, c.sock.conn.inBuffer) + chunk.length := by
  have hread := Buffer.readable_readFd hb
  have hle : c.handler.lineIndex ≤ c.sock.conn.inBuffer.getReadableBytes := hp.le
  have hlen : b.getReadableBytes = c.sock.conn.inBuffer.getReadableBytes + chunk.length := by
    rw [← b.length_readable, hread, List.length_append, Buffer.length_readable]
  refine ⟨⟨fun hcs => ?_, ?_, hp.content⟩, ?_⟩
  · show Scanned b.readable c.handler.lineIndex
    rw [hread]
    exact (hp.tracks hcs).append chunk
  · show c.handler.lineIndex ≤ b.getReadableBytes
    omega
  · show b.getReadableBytes - c.handler.lineIndex =
      c.sock.conn.inBuffer.getReadableBytes - c.handler.lineIndex + chunk.length
    omega

/-- the handler and the buffer after a read event are those that `parse_http` left -/
theorem scanning_read {c : HttpConn} (hc : c.Scanning) {chunk : Bytes} (hne : chunk ≠ [])
    {b : Buffer} (hb : c.sock.conn.inBuffer.readFd chunk = some b) (n : Int) :
    (∀ c', c.exec (.read chunk n) = .ok c' → c'.Scanning) ∧
      c.handler.parseHttpSteps b + waitingBytes (c.exec (.read chunk n)) ≤
        waitingBytes (.ok c) + (chunk.length + 1) := by
  obtain ⟨hplaced, hnew⟩ := placed_readFd hc.placed hb
  obtain ⟨h, b', hparse, -, hcalm, hcases⟩ := read_cases hc.calm hne hb n rfl
  obtain ⟨hplaced', hsteps⟩ := parseHttp_steps hplaced hparse
  have hwait : waitingBytes (.ok c) = unscanned (c.handler, c.sock.conn.inBuffer) := rfl
  -- whatever follows the call leaves the two alone
  have hend : ∀ c', c.exec (.read chunk n) = .ok c' → c'.Scanning ∧
      waitingBytes (.ok c') = unscanned (h, b') := by
    intro c' hexec'
    rcases hcases with ⟨-, hexec⟩ | ⟨c1, hh, hcalm1, hexec, hcase⟩
    · rw [hexec] at hexec'
      obtain rfl := Except.ok.inj hexec'
      exact Scanning.congr (c := c.parsed h b') hplaced' hcalm rfl rfl rfl
    · rw [hexec] at hexec'
      have hrep := (handleHttp_shutdown hcalm1.quiet n).2 c' hexec'
      have hin : c1.sock.conn.inBuffer = b' := by
        rcases hcase with ⟨-, rfl⟩ | ⟨-, hshut⟩
        · rfl
        · obtain ⟨t, ht, -, hin, -⟩ := shutdown_calm hcalm
          rw [hshut] at ht
          obtain rfl := Except.ok.inj ht
          exact hin
      have hcs : c'.handler.checkState = h.checkState := by
        rw [hrep.checkState, hh]
      have hli : c'.handler.lineIndex = h.lineIndex := by
        rw [hrep.lineIndex, hh]
      exact Scanning.congr (c := c.parsed h b') hplaced' (hrep.calm hcalm1) hcs hli
        (hrep.inBuffer.trans hin)
  refine ⟨fun c' h' => (hend c' h').1, ?_⟩
  cases hexec : c.exec (.read chunk n) with
  | error f =>
    show c.handler.parseHttpSteps b + 0 ≤ _
    omega
  | ok c' =>
    rw [(hend c' hexec).2]
    omega

theorem scanning_step {x y : Except Fatal HttpConn} {a : Act} (hx : Alive Scanning x)
    (hst : Step x a y) : Alive Scanning y ∧
      scanCost ⟨x, a, y⟩ + waitingBytes y ≤ waitingBytes x + (a.bytes + 1) := by
  cases hst with
  | mk c a =>
    have hc := hx c rfl
    show _ ∧ c.scanSteps a + _ ≤ _
    cases a with
    | writable n =>
      rw [exec_writable hc.calm]
      exact ⟨alive_ok hc, by rw [scanSteps]; omega⟩
    | read chunk n =>
      by_cases hne : chunk = []
      · subst hne
        have hz : c.scanSteps (.read [] n) = 0 := by rw [scanSteps, if_pos rfl]
        rw [hz]
        obtain ⟨hdis, hconn⟩ := exec_close hc.calm n
        by_cases hst : c.sock.conn.status = .disconnected
        · rw [hdis hst]
          exact ⟨fun c' h => (by cases h), Nat.zero_le _⟩
        · obtain ⟨t, ht, -, hin, hq, -⟩ := hconn hst
          have hcalm := (exec_handles hc.calm (.read [] n)).2 _ ht
          obtain ⟨hscan, hwait⟩ := Scanning.congr (c := c) hc.placed hcalm rfl rfl hin
          rw [ht, hwait]
          exact ⟨alive_ok hscan, by omega⟩
      · have hs : c.scanSteps (.read chunk n) = match c.sock.conn.inBuffer.readFd chunk with
            | some b => c.handler.parseHttpSteps b
            | none => 0 := by
          rw [scanSteps, if_neg hne]
        rw [hs]
        cases hb : c.sock.conn.inBuffer.readFd chunk with
        | none =>
          rw [exec_overflow hne hb]
          exact ⟨fun c' h => (by cases h), Nat.zero_le _⟩
        | some b => exact scanning_read hc hne hb n

/-- **The scan is linear**: one round for each byte that is read, and one for each event. -/
theorem scan_linear (router : Option Router) (m : HttpMethod) (status : HttpStatus)
    {tr : List (Tr (Except Fatal HttpConn) Act)}
    (h : Path Step (.ok (onConnect router m status)) tr) :
    (tr.map scanCost).sum ≤ (tr.map fun e => e.act.bytes + 1).sum := by
  have h0 : Alive Scanning (.ok (onConnect router m status)) := by
    refine alive_ok ⟨calm_onConnect router m status, tracks_zero _ _ rfl, Nat.zero_le _, ?_⟩
    exact fun _ => rfl
  have hsum := h.amortized (g := fun e => e.act.bytes + 1) (w := scanCost)
    (fun x a y hx hst => scanning_step hx hst) h0
  have hz : waitingBytes (.ok (onConnect router m status)) = 0 := rfl
  rw [hz] at hsum
  omega

/-- a request of eighteen bytes, cut between CR and LF: the CR is looked at twice -/
theorem scan_linear_cut : ∃ c y, Step (.ok freshConn) (.read (getRequest.take 15) 32) (.ok c) ∧
    Step (.ok c) (.read (getRequest.drop 15) 32) y ∧
    freshConn.scanSteps (.read (getRequest.take 15) 32) = 15 ∧
    c.scanSteps (.read (getRequest.drop 15) 32) = 2 ∧
    scanCost ⟨.ok freshConn, .read (getRequest.take 15) 32, .ok c⟩ +
      scanCost ⟨.ok c, .read (getRequest.drop 15) 32, y⟩ ≤ 20 := by
  have hfirst : freshConn.scanSteps (.read (getRequest.take 15) 32) = 15 := by decide +kernel
  have hsecond : (match freshConn.exec (.read (getRequest.take 15) 32) with
      | .ok c => c.scanSteps (.read (getRequest.drop 15) 32)
      | .error _ => 0) = 2 := by decide +kernel
  have hst := Step.mk freshConn (.read (getRequest.take 15) 32)
  cases hc : freshConn.exec (.read (getRequest.take 15) 32) with
  | error f =>
    rw [hc] at hsecond
    cases hsecond
  | ok c =>
    rw [hc] at hsecond hst
    have hst' := Step.mk c (.read (getRequest.drop 15) 32)
    generalize c.exec (.read (getRequest.drop 15) 32) = y at hst'
    have hsum := scan_linear (some ⟨[]⟩) .get 0 (.cons hst (.cons hst' (.nil _)))
    have hbytes : (Act.read (getRequest.take 15) 32).bytes + 1 +
        ((Act.read (getRequest.drop 15) 32).bytes + 1) = 20 := by decide
    rw [List.map_cons, List.map_singleton, List.map_cons, List.map_singleton, List.sum_cons,
      List.sum_singleton, List.sum_cons, List.sum_singleton, hbytes] at hsum
    exact ⟨c, y, hst, hst', hfirst, hsecond, hsum⟩

end HttpConn

end Feipu
