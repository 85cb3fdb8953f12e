import Feipu.Base.Tasks

/-!
# Foreign calls and the close

What the functors of foreign calls do to a connection that `handleClose` has closed, and whether
somebody still owns it when they run.

* `quiet_iff`   a closed connection neither writes nor takes output nor asks for events, in exactly
                the runs in which no `sendInLoop` runs after the close.
-/

namespace Feipu
open Trace Memory

/-! ## a connection without interest -/

namespace Sock

/-- nothing is sent any more, and the channel asks for nothing -/
def Dead (s : Sock) : Prop :=
  s.conn.status ≠ .connected ∧ s.conn.channel.isNoneEvent = true

theorem Dead.not_writing {s : Sock} (h : s.Dead) : s.conn.channel.isWriting = false :=
  ((Channel.isNoneEvent_iff _).mp h.2).2

theorem afterWriteCb_conn {s t : Sock} {f : Frame} (h : s.afterWriteCb f = .ok t) :
    t.conn = s.conn := by
  cases f with
  | sendInLoop => rw [← Except.ok.inj h]
  | bufferIntoNet =>
    simp only [afterWriteCb, shutInLoop] at h
    split at h
    · split at h
      · cases h
      · rw [← Except.ok.inj h]
    · rw [← Except.ok.inj h]

theorem ret_conn {s t : Sock} (h : s.ret = .ok t) : t.conn = s.conn := by
  unfold ret at h
  split at h
  · rw [← Except.ok.inj h]
  · exact (afterWriteCb_conn h).trans rfl

theorem shutInLoop_conn {s t : Sock} (h : s.shutInLoop = .ok t) : t.conn = s.conn := by
  unfold shutInLoop at h
  split at h
  · cases h
  · rw [← Except.ok.inj h]

theorem handleClose_dead {s t : Sock} (h : s.handleClose = .ok t) :
    t.Dead ∧ t.conn.outBuffer = s.conn.outBuffer := by
  unfold handleClose at h
  split at h
  · cases h
  · obtain rfl := Except.ok.inj h
    exact ⟨⟨fun h => (by cases h), (Channel.isNoneEvent_iff _).mpr ⟨rfl, rfl⟩⟩, rfl⟩

/-- `sendInLoop` returns, and asks for `POLLOUT` unless it has written -/
theorem sendInLoop_returns (s : Sock) (data : Bytes) (n : Int) :
    ∃ t, s.sendInLoop data n = .ok t ∧
      (¬ s.WritesDirectly → t.conn.channel.isWriting = true) := by
  by_cases hd : s.WritesDirectly
  · have hd' : { s with accepted := s.accepted ++ data }.WritesDirectly := hd
    unfold sendInLoop writeCb
    simp only [hd', ite_true]
    split
    · exact ⟨_, rfl, fun h => absurd hd h⟩
    · split
      · exact ⟨_, rfl, fun h => absurd hd h⟩
      · split
        · exact ⟨_, rfl, fun h => absurd hd h⟩
        · exact ⟨_, rfl, fun h => absurd hd h⟩
  · have hd' : ¬ { s with accepted := s.accepted ++ data }.WritesDirectly := hd
    unfold sendInLoop
    simp only [hd', ite_false]
    exact ⟨_, rfl, fun _ => rfl⟩

end Sock

namespace SharedConn
variable {ι κ : Type} [DecidableEq ι] [DecidableEq κ] {s t : SharedConn ι κ} {l : ι}

/-- the step runs a `sendInLoop` of a foreign call -/
def RunsSend (a : ConnAct ι κ) : Prop :=
  ∃ l k data asked read n, a = .runTask l (.sendInLoop k data asked) read n

/-- no `write` was called, and no output was taken -/
def Still (s t : SharedConn ι κ) : Prop :=
  t.writes = s.writes ∧ t.sock.conn.outBuffer = s.sock.conn.outBuffer

omit [DecidableEq κ] in
theorem still_removeConnection (h : s.removeConnection l = .ok t) :
    t.sock = s.sock ∧ t.writes = s.writes ∧ t.closed = s.closed := by
  obtain ⟨-, -, ⟨-, rfl⟩ | ⟨-, rfl⟩⟩ := removeConnection_ok h <;> exact ⟨rfl, rfl, rfl⟩

omit [DecidableEq κ] in
theorem still_closeCb (h : s.closeCb = .ok t) :
    t.sock = s.sock ∧ t.writes = s.writes ∧ t.closed = s.closed := by
  rcases closeCb_ok h with ⟨-, h⟩ | ⟨-, rfl⟩
  · exact still_removeConnection (s := { s with closing := false }) h
  · exact ⟨rfl, rfl, rfl⟩

omit [DecidableEq ι] [DecidableEq κ] in
theorem still_handleClose (h : s.handleClose = .ok t) :
    t.sock.Dead ∧ s.Still t := by
  obtain ⟨sock, hs, rfl⟩ := handleClose_ok h
  obtain ⟨hd, hout⟩ := Sock.handleClose_dead hs
  exact ⟨hd, rfl, hout⟩

omit [DecidableEq ι] [DecidableEq κ] in
theorem dead_runCallback {n : Int} {call : EventCall} (hd : s.sock.Dead)
    (h : s.runCallback n call = .ok t) : t.sock.Dead ∧ s.Still t := by
  cases call with
  | close => exact still_handleClose h
  | read =>
    unfold runCallback netIntoBuffer at h
    dsimp only at h
    split at h
    · exact still_handleClose h
    · obtain rfl := Except.ok.inj h
      exact ⟨hd, rfl, rfl⟩
  | write =>
    obtain ⟨sock, hs, rfl⟩ := bufferIntoNet_ok h
    obtain rfl := (Sock.keeps_bufferIntoNet hs).2 hd.not_writing
    refine ⟨hd, ?_, rfl⟩
    show s.writes + count s.sock.conn.channel.isWriting = s.writes
    rw [hd.not_writing]
    rfl

/-- of a dead connection only a `sendInLoop` of a foreign call makes something -/
theorem dead_exec {a : ConnAct ι κ} (hd : s.sock.Dead) (ha : ¬ RunsSend a)
    (h : s.exec a = .ok t) : t.sock.Dead ∧ s.Still t := by
  cases a with
  | call k c =>
    obtain rfl := Except.ok.inj h
    split <;> exact ⟨hd, rfl, rfl⟩
  | disconnecting k =>
    obtain rfl := Except.ok.inj h
    exact ⟨⟨fun h => (by cases h), hd.2⟩, rfl, rfl⟩
  | bind | push | wakeup | poke | acquire | release | swap | endBatch | handleEvent | endEvent =>
    obtain rfl := Except.ok.inj h
    exact ⟨hd, rfl, rfl⟩
  | runTask l task read n =>
    cases task with
    | sendInLoop k data asked => exact absurd ⟨l, k, data, asked, read, n, rfl⟩ ha
    | shutInLoop =>
      obtain ⟨_, _, h⟩ := bind_ok h
      obtain ⟨sock, hs, h⟩ := bind_ok h
      obtain rfl := Except.ok.inj h
      have hconn : sock.conn = s.sock.conn := Sock.shutInLoop_conn hs
      exact ⟨by rw [Sock.Dead, hconn]; exact hd, rfl, congrArg _ hconn⟩
    | removeConnection =>
      obtain ⟨hsock, hw, -⟩ := still_removeConnection (s := s.take l _) h
      exact ⟨hsock ▸ hd, hw, by rw [hsock]; rfl⟩
    | connectDestory =>
      obtain ⟨-, rfl⟩ := connectDestory_ok h
      exact ⟨hd, rfl, rfl⟩
  | expired => cases h
  | callback call n => exact dead_runCallback (s := s.nextCall) hd h
  | closeCb =>
    obtain ⟨hsock, hw, -⟩ := still_closeCb h
    exact ⟨hsock ▸ hd, hw, by rw [hsock]⟩
  | send data n =>
    have hsend : s.exec (.send data n) = .ok s := if_pos hd.1
    rw [hsend] at h
    obtain rfl := Except.ok.inj h
    exact ⟨hd, rfl, rfl⟩
  | shutdown =>
    obtain ⟨sock, hs, h⟩ := bind_ok h
    obtain rfl := Except.ok.inj h
    have hshut : s.sock.shutdown = .ok s.sock := if_neg hd.1
    rw [hshut] at hs
    obtain rfl := Except.ok.inj hs
    exact ⟨hd, rfl, rfl⟩
  | ret =>
    obtain ⟨sock, hs, h⟩ := bind_ok h
    obtain rfl := Except.ok.inj h
    have hconn := Sock.ret_conn hs
    exact ⟨by rw [Sock.Dead, hconn]; exact hd, rfl, congrArg _ hconn⟩

/-- the loops are the same, and the connection is closed as before or by `handleClose` -/
structure Keeps (s t : SharedConn ι κ) : Prop where
  loop : t.loop = s.loop
  main : t.main = s.main
  closed : t.closed = s.closed ∨ ∃ u : SharedConn ι κ, u.handleClose = .ok t

omit [DecidableEq κ] in
theorem keeps_removeConnection (h : s.removeConnection l = .ok t) : s.Keeps t := by
  obtain ⟨-, -, ⟨-, rfl⟩ | ⟨-, rfl⟩⟩ := removeConnection_ok h <;> exact ⟨rfl, rfl, .inl rfl⟩

omit [DecidableEq ι] [DecidableEq κ] in
theorem keeps_onSock (h : s.OnSock t) : s.Keeps t := by
  rw [h]
  exact ⟨rfl, rfl, .inl rfl⟩

theorem keeps_exec {a : ConnAct ι κ} (h : s.exec a = .ok t) : s.Keeps t := by
  cases a with
  | call k c =>
    obtain rfl := Except.ok.inj h
    split <;> exact ⟨rfl, rfl, .inl rfl⟩
  | disconnecting | bind | push | wakeup | poke | acquire | release | swap | endBatch
  | handleEvent | endEvent =>
    obtain rfl := Except.ok.inj h
    exact ⟨rfl, rfl, .inl rfl⟩
  | runTask l task read n =>
    rcases runTask_ok h with ⟨-, -, h⟩ | ⟨-, h⟩ | ⟨-, h⟩
    · have hk := keeps_onSock h
      exact ⟨hk.loop, hk.main, hk.closed⟩
    · have hk := keeps_removeConnection h
      exact ⟨hk.loop, hk.main, hk.closed⟩
    · obtain ⟨-, rfl⟩ := connectDestory_ok h
      exact ⟨rfl, rfl, .inl rfl⟩
  | expired => cases h
  | callback call n =>
    rcases runCallback_ok (s := s.nextCall) h with h | h
    · have hk := keeps_onSock h
      exact ⟨hk.loop, hk.main, hk.closed⟩
    · obtain ⟨sock, _, rfl⟩ := handleClose_ok h
      exact ⟨rfl, rfl, .inr ⟨_, h⟩⟩
  | closeCb =>
    rcases closeCb_ok h with ⟨-, h⟩ | ⟨-, rfl⟩
    · have hk := keeps_removeConnection h
      exact ⟨hk.loop, hk.main, hk.closed⟩
    · exact ⟨rfl, rfl, .inl rfl⟩
  | send data n => exact keeps_onSock (onSock_exec h (.inl ⟨_, _, rfl⟩))
  | shutdown => exact keeps_onSock (onSock_exec h (.inr (.inl rfl)))
  | ret => exact keeps_onSock (onSock_exec h (.inr (.inr rfl)))

/-! ## no activity after the close -/

/-- the functors that hold `this` are on the connection's loop -/
def Placed (s : SharedConn ι κ) : Prop :=
  ∀ l, ∀ task ∈ s.waiting l, task.raw = true → l = s.loop

theorem Placed.exec {a : ConnAct ι κ} (h : s.Placed) (ht : s.exec a = .ok t) : t.Placed := by
  intro l task hm hraw
  rw [(keeps_exec ht).loop]
  rcases waiting_exec ht hm with hm | ⟨hl, -⟩ | ⟨hl, -⟩ | ⟨rfl, -⟩
  · exact h l task hm hraw
  · exact hl
  · exact hl
  · cases hraw

omit [DecidableEq ι] [DecidableEq κ] in
theorem placed_start (main loop : ι) (cb : Bool) (holds : κ → Bool)
    (store : κ → Nat → Option UInt8) : (start main loop cb holds store).Placed :=
  fun _ _ hm => absurd hm List.not_mem_nil

/-- a closed connection has no interest, and a step of it writes nothing and takes no output -/
def Quiet (e : Tr (Except Fatal (SharedConn ι κ)) (ConnAct ι κ)) : Prop :=
  ∀ s t, e.pre = .ok s → e.post = .ok t → t.closed = true →
    (t.sock.conn.channel.events = noneEvent ∧ t.sock.conn.channel.isWriting = false) ∧
    (s.closed = true → t.writes = s.writes ∧
      t.sock.conn.outBuffer.getReadableBytes ≤ s.sock.conn.outBuffer.getReadableBytes)

/-- the step is not the run of a `sendInLoop` of a foreign call on a closed connection -/
def NoLateSend (s : SharedConn ι κ) (a : ConnAct ι κ) : Prop :=
  s.closed = true → ¬ RunsSend a

/-- what is closed is dead -/
def Settled (s : SharedConn ι κ) : Prop := s.Placed ∧ (s.closed = true → s.sock.Dead)

theorem Settled.exec {a : ConnAct ι κ} (h : s.Settled) (ha : s.NoLateSend a)
    (ht : s.exec a = .ok t) : t.Settled := by
  refine ⟨h.1.exec ht, ?_⟩
  intro hc
  rcases (keeps_exec ht).closed with hs | ⟨u, hclose⟩
  · have hs : s.closed = true := hs.symm.trans hc
    exact (dead_exec (h.2 hs) (ha hs) ht).1
  · exact (still_handleClose hclose).1

theorem quiet_of_noLateSend {a : ConnAct ι κ} (h : s.Settled) (ha : s.NoLateSend a) :
    Quiet ⟨.ok s, a, s.exec a⟩ := by
  intro s' t hs ht hc
  obtain rfl := Except.ok.inj hs
  have hd := (h.exec ha ht).2 hc
  refine ⟨⟨eq_of_beq hd.2, hd.not_writing⟩, ?_⟩
  intro hclosed
  obtain ⟨-, hw, hout⟩ := dead_exec (h.2 hclosed) (ha hclosed) ht
  exact ⟨hw, le_of_eq (congrArg _ hout)⟩

/-- a late `sendInLoop` writes, or asks for `POLLOUT` -/
theorem noLateSend_of_quiet {a : ConnAct ι κ} (h : s.Settled) (hf : s.Fits a)
    (hq : Quiet ⟨.ok s, a, s.exec a⟩) : s.NoLateSend a := by
  rintro hc ⟨l, k, data, asked, read, n, rfl⟩
  have hmem : ConnTask.sendInLoop k data asked ∈ s.waiting l :=
    List.mem_append_right _ (List.mem_of_head? hf.1)
  have hl : s.loop = l := (h.1 l _ hmem rfl).symm
  obtain ⟨sock, hsock, hwriting⟩ := s.sock.sendInLoop_returns read n
  have hrun : s.exec (.runTask l (.sendInLoop k data asked) read n) =
      .ok { s.take l (.sendInLoop k data asked) with
        sock, writes := s.writes + count s.sock.WritesDirectly } := by
    show (do
      TcpServer.assertInLoopThread s.loop l
      (s.take l (.sendInLoop k data asked)).sendInLoop read n) = _
    have hassert : TcpServer.assertInLoopThread s.loop l = .ok () := if_pos hl
    rw [hassert]
    show ((s.sock.sendInLoop read n) >>= fun sock => _) = _
    rw [hsock]
    rfl
  obtain ⟨⟨-, hnone⟩, hkept⟩ := hq s _ rfl hrun hc
  obtain ⟨hw, -⟩ := hkept hc
  by_cases hd : s.sock.WritesDirectly
  · have hw : s.writes + count s.sock.WritesDirectly = s.writes := hw
    simp [hd, count] at hw
  · have hnone : sock.conn.channel.isWriting = false := hnone
    rw [hwriting hd] at hnone
    cases hnone

/-- **No activity after disconnect.** -/
theorem quiet_iff (main loop : ι) (cb : Bool) (holds : κ → Bool)
    (store : κ → Nat → Option UInt8) {tr : ConnRun ι κ}
    (h : Path Step (.ok (start main loop cb holds store)) tr) :
    (∀ e ∈ tr, Quiet e) ↔ ∀ e ∈ tr, Alive (fun s => s.NoLateSend e.act) e.pre := by
  have h0 : Alive Settled (.ok (start main loop cb holds store)) :=
    alive_ok ⟨placed_start main loop cb holds store, fun hc => (by cases hc)⟩
  refine h.all_iff (G := fun x a => Alive (fun s => s.NoLateSend a) x) ?_ h0
  intro x a y hx hst
  cases hst with
  | @mk s a hf =>
    refine ⟨⟨?_, ?_⟩, ?_⟩
    · exact fun hq => alive_ok (noLateSend_of_quiet (hx s rfl) hf hq)
    · exact fun ha => quiet_of_noLateSend (hx s rfl) (ha s rfl)
    · exact fun ha t ht => (hx s rfl).exec (ha s rfl) ht

/-- the peer hangs up, and the loop closes the connection -/
def hangUp {ι : Type} : List (ConnAct ι Unit) :=
  [.handleEvent pollHup, .callback .close 0, .closeCb, .endEvent]

/-- the functor of a foreign `send` runs after the close; the kernel refuses the byte -/
def sendThenHangUp : List (ConnAct Unit Unit) :=
  sendOne ++ hangUp ++ [.swap (), .runTask () (.sendInLoop () 0 [1]) [1] (-1)]

/-- the functor runs before the peer hangs up -/
def sendAndHangUp : List (ConnAct Unit Unit) := sendAndKeep ++ .endBatch () :: hangUp

theorem runs_sendAndHangUp : fresh.Runs sendAndHangUp := by
  refine ⟨fits_call, _, rfl, .inr ⟨0, [1], rfl, rfl⟩, _, rfl, rfl, _, rfl, rfl, _, rfl,
    ⟨rfl, rfl, fun _ => ⟨⟨rfl, rfl⟩, rfl⟩⟩, _, rfl,
    ⟨rfl, ⟨⟨?_, trivial⟩, rfl⟩, fun _ => ⟨⟨rfl, rfl⟩, rfl⟩⟩, _, rfl, ⟨rfl, fun _ => ⟨rfl, rfl⟩⟩,
    _, rfl, ⟨.inl rfl, rfl, rfl, ⟨rfl, rfl⟩, rfl, rfl⟩, _, rfl, ⟨rfl, rfl, rfl⟩, _, rfl,
    ⟨rfl, rfl⟩, _, rfl, ⟨rfl, rfl, rfl⟩, _, rfl, trivial⟩
  intro b hb
  exact Option.some.inj hb

theorem runs_sendThenHangUp : fresh.Runs sendThenHangUp := by
  refine ⟨fits_call, _, rfl, .inr ⟨0, [1], rfl, rfl⟩, _, rfl, rfl, _, rfl, rfl, _, rfl,
    ⟨.inl rfl, rfl, rfl, ⟨rfl, rfl⟩, rfl, rfl⟩, _, rfl, ⟨rfl, rfl, rfl⟩, _, rfl, ⟨rfl, rfl⟩,
    _, rfl, ⟨rfl, rfl, rfl⟩, _, rfl, ⟨rfl, rfl, fun _ => ⟨⟨rfl, rfl⟩, rfl⟩⟩, _, rfl,
    ⟨rfl, ⟨⟨?_, trivial⟩, rfl⟩, fun _ => ⟨⟨rfl, rfl⟩, rfl⟩⟩, _, rfl, trivial⟩
  intro b hb
  exact Option.some.inj hb

/-- a foreign `send`, and then the close -/
theorem quiet_hangUp : fresh.Runs sendAndHangUp ∧ ∀ e ∈ fresh.trace sendAndHangUp, Quiet e := by
  refine ⟨runs_sendAndHangUp, ?_⟩
  have hopen : ∀ e ∈ fresh.trace sendAndHangUp, Alive (fun s => s.closed = false) e.pre ∨
      e.act = .closeCb ∨ e.act = .endEvent := by
    -- the six steps of the call and its functor, the batch, the event and its callback
    iterate 9 refine List.forall_mem_cons.mpr ⟨.inl (alive_ok rfl), ?_⟩
    exact List.forall_mem_cons.mpr ⟨.inr (.inl rfl), List.forall_mem_cons.mpr ⟨.inr (.inr rfl),
      fun _ h => absurd h List.not_mem_nil⟩⟩
  apply (quiet_iff () () false (fun _ => true) oneByte runs_sendAndHangUp.path).mpr
  intro e he s hs hclosed hsend
  obtain ⟨l, k, data, asked, read, n, ha⟩ := hsend
  rcases hopen e he with h | h | h
  · rw [h s hs] at hclosed
    cases hclosed
  · rw [ha] at h
    cases h
  · rw [ha] at h
    cases h

/-- the functor calls `write` on the closed connection -/
theorem writes_after_close : ¬ ∀ tr, Path Step (.ok fresh) tr → ∀ e ∈ tr, Quiet e := by
  intro hall
  obtain ⟨e, he, s, t, hpre, hpost, hclosed, hclosed', hwrites⟩ :
      ∃ e ∈ fresh.trace sendThenHangUp, ∃ s t, e.pre = .ok s ∧ e.post = .ok t ∧
        s.closed = true ∧ t.closed = true ∧ t.writes = s.writes + 1 :=
    ⟨_, List.getLast_mem (l := fresh.trace sendThenHangUp) (List.cons_ne_nil _ _), _, _, rfl, rfl,
      rfl, rfl, rfl⟩
  have hkept := ((hall _ runs_sendThenHangUp.path e he) s t hpre hpost hclosed').2 hclosed
  rw [hwrites] at hkept
  omega

end SharedConn

end Feipu
