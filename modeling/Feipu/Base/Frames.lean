import Feipu.Base.Lifecycle

/-!
# What a `TcpServer` does to its connections

The functions of a connection's life change the status, the channel and the log of that connection
alone.

* `Only`          at most one connection changes, and no event is entered;
* `due_cases`     the functor that is due, by how far the life of its connection is.
-/

namespace Feipu

theorem Channel.eq_new {ch : Channel} (hr : ch.isReading = false) (hw : ch.isWriting = false) :
    ch = .new := by
  obtain ⟨events, isReading, isWriting, heq⟩ := ch
  dsimp only at hr hw
  subst hr hw heq
  rfl

/-- a life goes on, and nothing else of the connection changes -/
structure Conn.Lives {ι : Type} (k k' : Conn ι) : Prop where
  status : k'.status = k.status
  channel : k'.channel = k.channel
  log : k.log <+: k'.log

theorem Conn.Lives.trans {ι : Type} {k k' k'' : Conn ι} (h : k.Lives k') (h' : k'.Lives k'') :
    k.Lives k'' :=
  ⟨h'.status.trans h.status, h'.channel.trans h.channel, h.log.trans h'.log⟩

/-- what `handleClose` makes of a connection -/
structure Conn.Closes {ι : Type} (k k' : Conn ι) : Prop where
  status : k'.status = .disconnected
  channel : k'.channel = k.channel.disableAll
  log : k.log <+: k'.log

namespace TcpServer
variable {ι : Type} [DecidableEq ι] {s t : TcpServer ι} {l : ι} {c : Nat}

/-- at most the connection `c` changes, and no event is entered -/
structure Only (s t : TcpServer ι) (c : Nat) : Prop where
  conn : ∀ c' ≠ c, t.conn c' = s.conn c'
  handling : t.handling = s.handling

omit [DecidableEq ι] in
theorem Only.refl (s : TcpServer ι) (c : Nat) : Only s s c := ⟨fun _ _ => rfl, rfl⟩

omit [DecidableEq ι] in
theorem Only.trans {u : TcpServer ι} (h : Only s t c) (h' : Only t u c) : Only s u c :=
  ⟨fun c' hne => (h'.conn c' hne).trans (h.conn c' hne), h'.handling.trans h.handling⟩

theorem connectEstablished_only (h : s.connectEstablished l c = .ok t) :
    Only s t c ∧ t.conn c = { s.conn c with
      status := .connected
      channel := (s.conn c).channel.enableRead
      log := (s.conn c).log ++ [(.connectEstablished, l)] } := by
  unfold connectEstablished at h
  obtain ⟨u, -, h⟩ := bind_ok h
  obtain rfl := Except.ok.inj h
  refine ⟨⟨fun c' hne => ?_, rfl⟩, ?_⟩
  · simp [logged, setChannel, setPoller, setConn, hne]
  · simp [logged, setChannel, setPoller, setConn]

theorem connectDestory_only (h : s.connectDestory l c = .ok t) :
    Only s t c ∧ Conn.Lives (s.conn c) (t.conn c) := by
  unfold connectDestory at h
  obtain ⟨u, -, h⟩ := bind_ok h
  obtain ⟨p, -, h⟩ := bind_ok h
  obtain rfl := Except.ok.inj h
  refine ⟨⟨fun c' hne => Function.update_of_ne hne _ _, rfl⟩, ?_⟩
  have hconn : ((s.setPoller (s.conn c).loop p).logged c .connectDestory l).conn c =
      { s.conn c with log := (s.conn c).log ++ [(.connectDestory, l)] } := Function.update_self _ _ _
  rw [hconn]
  exact ⟨rfl, rfl, List.prefix_append _ _⟩

theorem removeConnection_only (h : s.removeConnection l c = .ok t) :
    Only s t c ∧ Conn.Lives (s.conn c) (t.conn c) := by
  unfold removeConnection at h
  obtain ⟨u, -, h⟩ := bind_ok h
  obtain ⟨u', -, h⟩ := bind_ok h
  generalize hs1 : ({ s with connections := Function.update s.connections c false } :
    TcpServer ι).logged c .removeConnection l = s1 at h
  have honly : Only s s1 c := by
    rw [← hs1]
    exact ⟨fun c' hne => Function.update_of_ne hne _ _, rfl⟩
  have hlives : Conn.Lives (s.conn c) (s1.conn c) := by
    have hconn : s1.conn c =
        { s.conn c with log := (s.conn c).log ++ [(.removeConnection, l)] } := by
      rw [← hs1]
      exact Function.update_self _ _ _
    rw [hconn]
    exact ⟨rfl, rfl, List.prefix_append _ _⟩
  dsimp only at h
  split at h
  · obtain ⟨honly', hlives'⟩ := connectDestory_only h
    exact ⟨honly.trans honly', hlives.trans hlives'⟩
  · obtain rfl := Except.ok.inj h
    exact ⟨honly.trans ⟨fun _ _ => rfl, rfl⟩, hlives⟩

theorem handleClose_only (h : s.handleClose l c = .ok t) :
    Only s t c ∧ Conn.Closes (s.conn c) (t.conn c) := by
  unfold handleClose at h
  obtain ⟨u, -, h⟩ := bind_ok h
  dsimp only at h
  split at h
  · cases h
  · generalize hs1 : ((s.setConn c { s.conn c with status := .disconnected }).setChannel c
      (s.conn c).channel.disableAll).logged c .handleClose l = s1 at h
    have honly : Only s s1 c := by
      rw [← hs1]
      refine ⟨fun c' hne => ?_, rfl⟩
      simp [logged, setChannel, setPoller, setConn, hne]
    have hcloses : Conn.Closes (s.conn c) (s1.conn c) := by
      have hconn : s1.conn c = { s.conn c with
          status := .disconnected
          channel := (s.conn c).channel.disableAll
          log := (s.conn c).log ++ [(.handleClose, l)] } := by
        rw [← hs1]
        simp [logged, setChannel, setPoller, setConn]
      rw [hconn]
      exact ⟨rfl, rfl, List.prefix_append _ _⟩
    unfold whenOldConnDisconnect at h
    split at h
    · obtain ⟨honly', hlives⟩ := removeConnection_only h
      exact ⟨honly.trans honly', hlives.status.trans hcloses.status,
        hlives.channel.trans hcloses.channel, hcloses.log.trans hlives.log⟩
    · obtain rfl := Except.ok.inj h
      exact ⟨honly.trans ⟨fun _ _ => rfl, rfl⟩, hcloses⟩

/-- a new connection is established here, or waits for its loop -/
theorem whenNewConnection_only {fd : Int} {nextloop : ι}
    (h : s.whenNewConnection fd nextloop = .ok t) :
    Only s t s.nextConnId ∧ t.conn s.nextConnId = if nextloop = s.main then
      { loop := nextloop, fd, status := .connected, channel := Channel.new.enableRead,
        log := [(.connectEstablished, s.main)] }
      else { loop := nextloop, fd } := by
  unfold whenNewConnection at h
  dsimp only at h
  obtain ⟨s1, hs1⟩ : ∃ s1 : TcpServer ι, s1 = { s with
    nextConnId := s.nextConnId + 1
    conn := Function.update s.conn s.nextConnId { loop := nextloop, fd }
    connections := Function.update s.connections s.nextConnId true } := ⟨_, rfl⟩
  have honly : Only s s1 s.nextConnId := by
    rw [hs1]
    exact ⟨fun c hne => Function.update_of_ne hne _ _, rfl⟩
  have hconn : s1.conn s.nextConnId = { loop := nextloop, fd } := by
    rw [hs1]
    exact Function.update_self _ _ _
  split at h
  · rename_i hmain
    rw [← hs1] at h
    obtain ⟨honly', hconn'⟩ := connectEstablished_only h
    rw [if_pos hmain, hconn', hconn]
    exact ⟨honly.trans honly', rfl⟩
  · rename_i hmain
    rw [← hs1] at h
    obtain rfl := Except.ok.inj h
    rw [if_neg hmain]
    exact ⟨honly.trans ⟨fun _ _ => rfl, rfl⟩, hconn⟩

/-- a `readv` that does not find the end of the stream -/
theorem netIntoBuffer_of_ne (hloop : (s.conn c).loop = l) {n : Int} (hn : n ≠ 0) :
    s.netIntoBuffer l c n = .ok s := by
  rw [netIntoBuffer, assertInLoopThread, if_pos hloop]
  show (if n = 0 then _ else _) = _
  rw [if_neg hn]
  rfl

/-- `BufferIntoNet` on a channel that does not write -/
theorem bufferIntoNet_idle (hloop : (s.conn c).loop = l) (hw : (s.conn c).channel.isWriting = false)
    (n : Int) (drained : Bool) : s.bufferIntoNet l c n drained = .ok s := by
  rw [bufferIntoNet, assertInLoopThread, if_pos hloop]
  show (if (s.conn c).channel.isWriting = false then _ else _) = _
  rw [if_pos hw]
  rfl

omit [DecidableEq ι] in
/-- the functor that is due, by how far the life of its connection is -/
theorem due_cases {task : Task} (h : s.due c = some (l, task)) :
    c < s.nextConnId ∧ (task = .connectEstablished c ∧ s.stage c = 0 ∧ l = (s.conn c).loop ∨
      task = .removeConnection c ∧ s.stage c = 2 ∧ l = s.main ∨
      task = .connectDestory c ∧ s.stage c = 3 ∧ l = (s.conn c).loop) := by
  unfold due dueTask at h
  split at h
  · rename_i hc
    refine ⟨hc, ?_⟩
    split at h
    · rename_i h0
      obtain ⟨hl, ht⟩ := Prod.mk.inj (Option.some.inj h)
      exact .inl ⟨ht.symm, h0, hl.symm⟩
    · rename_i h2
      obtain ⟨hl, ht⟩ := Prod.mk.inj (Option.some.inj h)
      exact .inr (.inl ⟨ht.symm, h2, hl.symm⟩)
    · rename_i h3
      obtain ⟨hl, ht⟩ := Prod.mk.inj (Option.some.inj h)
      exact .inr (.inr ⟨ht.symm, h3, hl.symm⟩)
    · cases h
  · cases h

end TcpServer

end Feipu
