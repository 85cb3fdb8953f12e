import Feipu.Base.Sound
import Feipu.Lib.Trace

/-!
# The life of a connection

Every step of a server keeps `Sound`, or ends the process with one of the two errors of sending.

* `lifecycle`   in every run: the four functions run in order, at most once and on their loops, no
                assertion fails, and a descriptor is closed after its channel has left the map.
-/

namespace Feipu
open Trace

namespace TcpServer
variable {ι : Type} [DecidableEq ι] {s : TcpServer ι} {c : Nat}

/-! ## the four functions -/

theorem connectEstablished_spec (h : s.Sound (some c)) (hc : c < s.nextConnId)
    (h0 : s.stage c = 0) :
    ∃ t, s.connectEstablished (s.conn c).loop c = .ok t ∧ t.Sound none := by
  have hopen := h.isOpen c hc (by omega)
  obtain ⟨hmap, hker⟩ := h.poller_at hopen
  rw [h0] at hmap hker
  have hmem := (h.member c).mpr ⟨hc, by omega⟩
  have hlen := length_log_snoc h0 (.connectEstablished, (s.conn c).loop)
  refine ⟨s.became s.nextConnId c { s.conn c with
      status := .connected
      channel := (s.conn c).channel.enableRead
      log := (s.conn c).log ++ [(.connectEstablished, (s.conn c).loop)] }
    ((s.poller (s.conn c).loop).updateChannel (s.conn c).fd c (s.conn c).channel.enableRead)
    (s.connections c), ?_, ?_⟩
  · simp [connectEstablished, assertInLoopThread, logged, setChannel, setConn, setPoller, became]
  · refine h.became (h.place hc hopen rfl rfl) ⟨?_, ?_, ?_, ?_, ?_, ?_, ?_, ?_, ?_, ?_, ?_⟩
      (.inr rfl) (.inl rfl) (.inl rfl) (.inr ?_)
    · exact h.log_snoc (by rw [h0]; rfl)
    · simp [hlen, hmem]
    · simp [hlen]
    · simp [hlen, Channel.enableRead]
    · exact fun _ => hlen
    · simp [hlen, Poller.updateChannel_map, hmap]
    · have hnone : (s.poller (s.conn c).loop).fdChannelMap (s.conn c).fd = none := hmap
      have hknone : (s.poller (s.conn c).loop).kernel (s.conn c).fd = none := hker
      simp [hlen, Poller.updateChannel_new hnone hknone]
    · exact Poller.updateChannel_local _ _ _ _
    · exact fun _ => hopen
    · exact .inl hlen
    · exact fun l calls hcalls => ⟨rfl, hopen, fun _ => hlen⟩
    · rw [hlen]
      rfl

theorem connectDestory_spec (h : s.Sound (some c)) (hc : c < s.nextConnId)
    (h3 : s.stage c = 3) :
    ∃ t, s.connectDestory (s.conn c).loop c = .ok t ∧ t.Sound none := by
  have hopen := h.isOpen c hc (by omega)
  obtain ⟨hmap, hker⟩ := h.poller_at hopen
  rw [h3] at hmap hker
  have hmapc : (s.poller (s.conn c).loop).fdChannelMap (s.conn c).fd = some c := hmap
  have hmem : s.connections c = false := by
    rw [← Bool.not_eq_true, h.member c]
    omega
  obtain ⟨hstatus, hread, hwrite⟩ := h.idle (c := c) (by omega)
  have hlen := length_log_snoc h3 (.connectDestory, (s.conn c).loop)
  refine ⟨s.became s.nextConnId c { s.conn c with
      log := (s.conn c).log ++ [(.connectDestory, (s.conn c).loop)] }
    { (s.poller (s.conn c).loop).ctl .del (s.conn c).fd c (s.conn c).channel with
      fdChannelMap := Function.update (s.poller (s.conn c).loop).fdChannelMap (s.conn c).fd none }
    (s.connections c), ?_, ?_⟩
  · simp [connectDestory, assertInLoopThread, Poller.removeChannel, hmapc, asserted, logged, setConn,
      setPoller, became]
    rfl
  · refine h.became (h.place hc hopen rfl rfl) ⟨?_, ?_, ?_, ?_, ?_, ?_, ?_, ?_, ?_, ?_, ?_⟩
      (.inr rfl) (.inl rfl) (.inl rfl) (.inr ?_)
    · exact h.log_snoc (by rw [h3]; rfl)
    · simp [hlen, hmem]
    · simp [hlen, hstatus]
    · simp [hlen, hread]
    · simp [hwrite]
    · simp [hlen]
    · rw [hlen]
      exact Poller.ctl_del _ _ _ _
    · intro fd hne
      exact ⟨Function.update_of_ne hne _ _, Poller.ctl_other _ _ hne _ _⟩
    · exact fun _ => hopen
    · exact .inr (h.not_active (by omega))
    · intro l calls hcalls
      obtain ⟨ho, hnil⟩ := h.not_closing (by omega) hcalls
      exact ⟨rfl, ho, fun hne => absurd hnil hne⟩
    · rw [hlen]
      rfl

theorem removeConnection_spec (h : s.Sound (some c)) (hc : c < s.nextConnId)
    (h2 : s.stage c = 2) : ∃ t, s.removeConnection s.main c = .ok t ∧ t.Sound none := by
  have hopen := h.isOpen c hc (by omega)
  obtain ⟨hmap, hker⟩ := h.poller_at hopen
  rw [h2] at hmap hker
  have hmem := (h.member c).mpr ⟨hc, by omega⟩
  obtain ⟨hstatus, hread, hwrite⟩ := h.idle (c := c) (by omega)
  have hlen := length_log_snoc h2 (.removeConnection, s.main)
  generalize ht : s.became s.nextConnId c { s.conn c with
      log := (s.conn c).log ++ [(.removeConnection, s.main)] } (s.poller (s.conn c).loop) false = t
  have hsound : t.Sound (some c) := by
    subst ht
    refine h.became (h.place hc hopen rfl rfl) ⟨?_, ?_, ?_, ?_, ?_, ?_, ?_, ?_, ?_, ?_, ?_⟩
      (.inr rfl) (.inr rfl) (.inl rfl) (.inl rfl)
    · exact h.log_snoc (by rw [h2]; rfl)
    · simp [hlen]
    · simp [hlen, hstatus]
    · simp [hlen, hread]
    · simp [hwrite]
    · simp [hlen, hmap]
    · simpa [hlen] using hker
    · exact fun _ _ => ⟨rfl, rfl⟩
    · exact fun _ => hopen
    · exact .inr (h.not_active (by omega))
    · intro l calls hcalls
      obtain ⟨ho, hnil⟩ := h.not_closing (by omega) hcalls
      exact ⟨rfl, ho, fun hne => absurd hnil hne⟩
  have hstage : t.stage c = 3 := by
    rw [← ht, became_stage]
    exact hlen
  have hnext : c < t.nextConnId := by
    rw [← ht]
    exact hc
  have hloop : (t.conn c).loop = (s.conn c).loop := by
    rw [← ht, became_conn]
  have hrun : s.removeConnection s.main c =
      if (s.conn c).loop = s.main then t.connectDestory s.main c
      else .ok (t.enqueue (s.conn c).loop (.connectDestory c)) := by
    rw [← ht]
    simp [removeConnection, assertInLoopThread, hmem, asserted, logged, setConn, became]
    rfl
  rw [hrun]
  by_cases hl : (s.conn c).loop = s.main
  · rw [if_pos hl, ← hl, ← hloop]
    exact connectDestory_spec hsound hnext hstage
  · rw [if_neg hl]
    refine ⟨_, rfl, hsound.enqueue ?_⟩
    rw [due, if_pos hnext, hstage, hloop]
    rfl

/-- a connection is closed while no other event of it is pending -/
theorem handleClose_spec (h : s.Sound none) (h1 : s.stage c = 1)
    (hactive : ∀ l, c ∉ (s.active l).map (·.1))
    (hcalls : ∀ l calls, s.handling l = some (c, calls) → closing calls = []) :
    ∃ t, s.handleClose (s.conn c).loop c = .ok t ∧ t.Sound none := by
  have hc : c < s.nextConnId := h.lt_next (by omega)
  have hopen := h.isOpen c hc (by omega)
  obtain ⟨hmap, -⟩ := h.poller_at hopen
  rw [h1] at hmap
  have hmem := (h.member c).mpr ⟨hc, by omega⟩
  have hstatus : (s.conn c).status ≠ .disconnected := (h.status c).mpr h1
  have hlen := length_log_snoc h1 (.handleClose, (s.conn c).loop)
  generalize ht : s.became s.nextConnId c { s.conn c with
      status := .disconnected
      channel := (s.conn c).channel.disableAll
      log := (s.conn c).log ++ [(.handleClose, (s.conn c).loop)] }
    ((s.poller (s.conn c).loop).updateChannel (s.conn c).fd c (s.conn c).channel.disableAll)
    (s.connections c) = t
  have hsound : t.Sound (some c) := by
    subst ht
    refine h.became (h.place hc hopen rfl rfl) ⟨?_, ?_, ?_, ?_, ?_, ?_, ?_, ?_, ?_, ?_, ?_⟩
      (.inl rfl) (.inr rfl) (.inr ?_) (.inl rfl)
    · exact h.log_snoc (by rw [h1]; rfl)
    · simp [hlen, hmem]
    · simp [hlen]
    · simp [hlen, Channel.disableAll]
    · simp [Channel.disableAll]
    · simp [hlen, Poller.updateChannel_map, hmap]
    · have hmapc : (s.poller (s.conn c).loop).fdChannelMap (s.conn c).fd = some c := hmap
      have hnone : (s.conn c).channel.disableAll.isNoneEvent = true := by
        rw [Channel.isNoneEvent_iff]
        exact ⟨rfl, rfl⟩
      simp [hlen, Poller.updateChannel_old hmapc, hnone]
    · exact Poller.updateChannel_local _ _ _ _
    · exact fun _ => hopen
    · exact .inr hactive
    · exact fun l calls hl => ⟨rfl, hopen, fun hne => absurd (hcalls l calls hl) hne⟩
    · rw [due, if_pos hc, h1]
      rfl
  have hstage : t.stage c = 2 := by
    rw [← ht, became_stage]
    exact hlen
  have hnext : c < t.nextConnId := by
    rw [← ht]
    exact hc
  have hrun : s.handleClose (s.conn c).loop c = t.whenOldConnDisconnect (s.conn c).loop c := by
    rw [← ht]
    simp [handleClose, assertInLoopThread, hstatus, logged, setChannel, setConn, setPoller, became]
    rfl
  rw [hrun, whenOldConnDisconnect]
  by_cases hl : t.main = (s.conn c).loop
  · rw [if_pos hl, ← hl]
    exact removeConnection_spec hsound hnext hstage
  · rw [if_neg hl]
    refine ⟨_, rfl, hsound.enqueue ?_⟩
    rw [due, if_pos hnext, hstage]
    rfl

theorem whenNewConnection_spec (h : s.Sound none) {fd : Int}
    (hfd : ∀ c, (s.conn c).isOpen = true → (s.conn c).fd ≠ fd) (nextloop : ι) :
    ∃ t, s.whenNewConnection fd nextloop = .ok t ∧ t.Sound none := by
  generalize hn : s.nextConnId = n
  obtain ⟨hlog, hclosed, -⟩ := h.fresh n (Nat.le_of_eq hn)
  have h0 : s.stage n = 0 := by rw [stage, hlog]; rfl
  generalize ht : s.became (n + 1) n { loop := nextloop, fd } (s.poller nextloop) true = t
  have hsound : t.Sound (some n) := by
    subst ht
    -- the descriptor is free: whatever a map has is open
    have hmap : (s.poller nextloop).fdChannelMap fd = none := by
      cases hm : (s.poller nextloop).fdChannelMap fd with
      | none => rfl
      | some c =>
        obtain ⟨-, he, h1, h3⟩ := (h.mapped _ _ _).mp hm
        exact absurd he (hfd c (h.isOpen c (h.lt_next h1) h3))
    have hker : (s.poller nextloop).kernel fd = none := by
      cases hk : (s.poller nextloop).kernel fd with
      | none => rfl
      | some e =>
        obtain ⟨-, he, h1, -⟩ := (h.kernel _ _ _).mp hk
        exact absurd he (hfd e.2 (h.isOpen e.2 (h.lt_next (by omega)) (by omega)))
    refine h.became ⟨Nat.lt_succ_self n, ?_, .inl h0, fun c' _ => hfd c'⟩
      ⟨?_, ?_, ?_, ?_, ?_, ?_, ?_, ?_, ?_, ?_, ?_⟩ (.inl rfl) (.inr rfl) (.inr ?_) (.inl rfl)
    · intro c' hne
      omega
    · exact List.nil_prefix
    · simp
    · simp
    · simp [Channel.new]
    · simp [Channel.new]
    · exact hmap
    · exact hker
    · exact fun _ _ => ⟨rfl, rfl⟩
    · exact fun _ => rfl
    · exact .inr (h.not_active (by omega))
    · intro l calls hcalls
      rw [(h.not_closing (by omega) hcalls).1] at hclosed
      cases hclosed
    · exact if_neg (by omega)
  have hself : t.conn n = { loop := nextloop, fd } := by rw [← ht, became_conn]
  have hstage : t.stage n = 0 := by rw [stage, hself]; rfl
  have hnext : n < t.nextConnId := by
    rw [← ht]
    exact Nat.lt_succ_self n
  have hrun : s.whenNewConnection fd nextloop =
      if nextloop = t.main then t.connectEstablished t.main n
      else .ok (t.enqueue nextloop (.connectEstablished n)) := by
    have hsame : Function.update s.poller nextloop (s.poller nextloop) = s.poller :=
      Function.update_eq_self _ _
    subst ht hn
    unfold became
    rw [hsame]
    rfl
  rw [hrun]
  by_cases hl : nextloop = t.main
  · have hloop : (t.conn n).loop = t.main := by rw [hself, ← hl]
    rw [if_pos hl, ← hloop]
    exact connectEstablished_spec hsound hnext hstage
  · rw [if_neg hl]
    refine ⟨_, rfl, hsound.enqueue ?_⟩
    rw [due, if_pos hnext, hstage, hself]
    rfl

/-! ## the other steps -/

/-- the interest of an established connection changes, but not in reading -/
theorem Sound.setChannel (h : s.Sound none) (h1 : s.stage c = 1) {ch : Channel}
    (hch : ch.isReading = true) : (s.setChannel c ch).Sound none := by
  have hc : c < s.nextConnId := h.lt_next (by omega)
  have hopen := h.isOpen c hc (by omega)
  obtain ⟨hmap, hker⟩ := h.poller_at hopen
  rw [h1] at hmap hker
  have hmem := (h.member c).mpr ⟨hc, by omega⟩
  have hlen : (s.conn c).log.length = 1 := h1
  have hrun : s.setChannel c ch = s.became s.nextConnId c { s.conn c with channel := ch }
      ((s.poller (s.conn c).loop).updateChannel (s.conn c).fd c ch) (s.connections c) := by
    simp [TcpServer.setChannel, setConn, setPoller, TcpServer.became]
  rw [hrun]
  refine h.became (h.place hc hopen rfl rfl) ⟨h.log c, ?_, h.status c, ?_, fun _ => hlen, ?_, ?_,
    Poller.updateChannel_local _ _ _ _, fun _ => hopen, .inl hlen,
    fun _ _ _ => ⟨rfl, hopen, fun _ => hlen⟩⟩
    (.inl rfl) (.inl rfl) (.inr ?_) (.inr ?_)
  · simp [hlen, hmem]
  · simp [hlen, hch]
  · simp [hlen, Poller.updateChannel_map, hmap]
  · have hmapc : (s.poller (s.conn c).loop).fdChannelMap (s.conn c).fd = some c := hmap
    have hsome : ch.isNoneEvent = false := by
      rw [← Bool.not_eq_true, Channel.isNoneEvent_iff, hch]
      exact fun h => by cases h.1
    simp [hlen, Poller.updateChannel_old hmapc, hsome, hker]
  · rw [due, if_pos hc, h1]
    rfl
  · rw [hlen]
    rfl

theorem Sound.disconnecting (h : s.Sound none) (h1 : s.stage c = 1) :
    (s.setConn c { s.conn c with status := .disconnecting }).Sound none := by
  have hc : c < s.nextConnId := h.lt_next (by omega)
  have hopen := h.isOpen c hc (by omega)
  obtain ⟨hmap, hker⟩ := h.poller_at hopen
  have hmem := (h.member c).mpr ⟨hc, by omega⟩
  have hlen : (s.conn c).log.length = 1 := h1
  have hrun : s.setConn c { s.conn c with status := .disconnecting } =
      s.became s.nextConnId c { s.conn c with status := .disconnecting }
        (s.poller (s.conn c).loop) (s.connections c) := by
    simp [setConn, TcpServer.became]
  rw [hrun]
  refine h.became (h.place hc hopen rfl rfl) ⟨h.log c, ?_, ?_, h.reading c, h.writing c, hmap, hker,
    fun _ _ => ⟨rfl, rfl⟩, fun _ => hopen, .inl hlen, fun _ _ _ => ⟨rfl, hopen, fun _ => hlen⟩⟩
    (.inl rfl) (.inl rfl) (.inr ?_) (.inr ?_)
  · simp [hlen, hmem]
  · simp [hlen]
  · rw [due, if_pos hc, h1]
    rfl
  · rw [hlen]
    rfl

/-- whoever is still to run a function of its life owns the connection -/
theorem Sound.unowned (h : s.Sound none) (hopen : (s.conn c).isOpen = true) (hu : s.Unowned c) :
    s.stage c = 4 := by
  obtain ⟨hconn, -, hloops⟩ := hu
  have hc : c < s.nextConnId := by
    by_contra hn
    rw [(h.fresh c (Nat.le_of_not_lt hn)).2.1] at hopen
    cases hopen
  have h4 : s.stage c ≤ 4 := (h.log c).length_le
  have h2 : ¬ s.stage c ≤ 2 := by
    intro hle
    rw [(h.member c).mpr ⟨hc, hle⟩] at hconn
    cases hconn
  have h3 : s.stage c ≠ 3 := by
    intro h3
    have hdue : s.due c = some ((s.conn c).loop, .connectDestory c) := by
      rw [due, if_pos hc, h3]
      rfl
    have hmem : Task.connectDestory c ∈ s.queued (s.conn c).loop c := by
      rw [h.tasks, dueAt_none hdue, if_pos rfl]
      exact List.mem_singleton.mpr rfl
    exact (hloops _).1 _ (List.mem_of_mem_filter hmem) rfl
  omega

theorem Sound.destruct (h : s.Sound none) (hopen : (s.conn c).isOpen = true) (hu : s.Unowned c) :
    (s.setConn c { s.conn c with isOpen := false }).Sound none := by
  have h4 := h.unowned hopen hu
  have hlen : (s.conn c).log.length = 4 := h4
  have hc : c < s.nextConnId := h.lt_next (by omega)
  obtain ⟨hmap, hker⟩ := h.poller_at hopen
  have hrun : s.setConn c { s.conn c with isOpen := false } =
      s.became s.nextConnId c { s.conn c with isOpen := false } (s.poller (s.conn c).loop)
        (s.connections c) := by
    simp [setConn, TcpServer.became]
  rw [hrun]
  refine h.became (h.place hc hopen rfl rfl) ⟨h.log c, ?_, h.status c, h.reading c, h.writing c,
    hmap, hker, fun _ _ => ⟨rfl, rfl⟩, ?_, .inr (h.not_active (by omega)), ?_⟩
    (.inl rfl) (.inl rfl) (.inr ?_) (.inr ?_)
  · simp [hlen, hu.1]
  · simp [hlen]
  · intro l calls hcalls
    exact absurd rfl ((hu.2.2 l).2.2 _ hcalls)
  · rw [due, if_pos hc, h4]
    rfl
  · rw [hlen]
    rfl

theorem closing_cons {call : EventCall} (hne : call ≠ .write) (calls : List EventCall) :
    closing (call :: calls) = call :: closing calls := by
  rw [closing, List.filter_cons, if_pos (bne_iff_ne.mpr hne)]
  rfl

theorem closing_write (calls : List EventCall) : closing (.write :: calls) = closing calls := rfl

/-- `POLLPRI` and `POLLRDHUP` come with `POLLIN`: at most one callback of an event may close -/
theorem closing_handleEvent {revents : BitVec 16}
    (h : revents &&& (pollPri ||| pollRdhup) ≠ 0 → revents &&& pollIn ≠ 0) :
    (closing (handleEvent revents)).length ≤ 1 := by
  have hor : revents &&& (pollIn ||| pollPri ||| pollRdhup) ≠ 0 → revents &&& pollIn ≠ 0 := by
    intro hne hin
    apply hne
    have hpr : revents &&& (pollPri ||| pollRdhup) = 0 := by
      by_contra hn
      exact h hn hin
    rw [BitVec.or_assoc, BitVec.and_or_distrib_left, hin, hpr]
    rfl
  unfold handleEvent closing
  by_cases hin : revents &&& pollIn = 0
  · have hnot : ¬ revents &&& (pollIn ||| pollPri ||| pollRdhup) ≠ 0 := fun hne => hor hne hin
    rw [if_neg hnot]
    split <;> split <;> decide
  · rw [if_neg (fun h => hin h.2)]
    split <;> split <;> decide

theorem Sound.poll (h : s.Sound none) {l : ι} {evs : List (Nat × BitVec 16)}
    (hl : s.handling l = none) (hr : s.Reports l evs) :
    s.pollAsserts l evs = true ∧
      ({ s with active := Function.update s.active l evs } : TcpServer ι).Sound none := by
  obtain ⟨hnd, hall⟩ := hr
  have hat : ∀ e ∈ evs, (s.conn e.1).loop = l ∧ s.stage e.1 = 1 := by
    intro e he
    obtain ⟨⟨fd, mask, hk⟩, -⟩ := hall e he
    obtain ⟨h1, -, h3, -⟩ := (h.kernel l fd (mask, e.1)).mp hk
    exact ⟨h1, h3⟩
  refine ⟨?_, h.withLoops h.tasks ?_ h.handling⟩
  · refine List.all_eq_true.mpr fun e he => ?_
    obtain ⟨h1, h3⟩ := hat e he
    exact beq_iff_eq.mpr ((h.mapped l _ e.1).mpr ⟨h1, rfl, by omega, by omega⟩)
  · intro l'
    by_cases hne : l' = l
    · subst hne
      rw [Function.update_self]
      refine ⟨hnd, fun e he => ⟨(hat e he).1, (hat e he).2, (hall e he).2, ?_⟩⟩
      intro p hp
      rw [hl] at hp
      cases hp
    · rw [Function.update_of_ne hne]
      exact h.active l'

theorem Sound.enterEvent (h : s.Sound none) {l : ι} {revents : BitVec 16}
    {rest : List (Nat × BitVec 16)} (ha : s.active l = (c, revents) :: rest) :
    (s.conn c).isOpen = true ∧ ({ s with
      active := Function.update s.active l rest
      handling := Function.update s.handling l (some (c, handleEvent revents)) } :
        TcpServer ι).Sound none := by
  obtain ⟨hnd, hall⟩ := h.active l
  rw [ha] at hnd hall
  obtain ⟨hloop, h1, hrev, -⟩ := hall _ List.mem_cons_self
  change s.stage c = 1 at h1
  have hopen := h.isOpen c (h.lt_next (by omega)) (by omega)
  refine ⟨hopen, h.withLoops h.tasks ?_ ?_⟩
  · intro l'
    by_cases hne : l' = l
    · subst hne
      rw [Function.update_self, Function.update_self]
      refine ⟨(List.nodup_cons.mp hnd).2, fun e he => ?_⟩
      obtain ⟨e1, e2, e3, -⟩ := hall e (List.mem_cons_of_mem _ he)
      refine ⟨e1, e2, e3, fun p hp => ?_⟩
      obtain rfl := Option.some.inj hp
      intro heq
      change c = e.1 at heq
      have hmem : c ∈ rest.map (·.1) := heq ▸ List.mem_map_of_mem he
      exact (List.nodup_cons.mp hnd).1 hmem
    · rw [Function.update_of_ne hne, Function.update_of_ne hne]
      exact h.active l'
  · intro l' c' calls hcalls
    by_cases hne : l' = l
    · subst hne
      rw [Function.update_self] at hcalls
      obtain ⟨rfl, rfl⟩ := Prod.mk.inj (Option.some.inj hcalls)
      exact ⟨hloop, hopen, closing_handleEvent hrev, fun _ => h1⟩
    · rw [Function.update_of_ne hne] at hcalls
      exact h.handling l' c' calls hcalls

/-- the channel in `handleEvent` goes on, or is done -/
theorem Sound.setHandling (h : s.Sound none) {l : ι} {calls : List EventCall}
    (hh : s.handling l = some (c, calls)) (calls' : List EventCall)
    {x : Option (Nat × List EventCall)} (hx : x = none ∨ x = some (c, calls'))
    (hle : (closing calls').length ≤ 1) (h1 : closing calls' ≠ [] → s.stage c = 1) :
    ({ s with handling := Function.update s.handling l x } : TcpServer ι).Sound none := by
  refine h.withLoops h.tasks ?_ ?_
  · intro l'
    by_cases hne : l' = l
    · subst hne
      obtain ⟨hnd, hall⟩ := h.active l'
      rw [Function.update_self]
      refine ⟨hnd, fun e he => ?_⟩
      obtain ⟨e1, e2, e3, e4⟩ := hall e he
      refine ⟨e1, e2, e3, fun p hp => ?_⟩
      have hpc : p.1 = c := by
        rcases hx with rfl | rfl
        · cases hp
        · obtain rfl := Option.some.inj hp
          rfl
      rw [hpc]
      exact e4 _ hh
    · rw [Function.update_of_ne hne]
      exact h.active l'
  · intro l' c' calls'' hcalls
    by_cases hne : l' = l
    · subst hne
      rw [Function.update_self] at hcalls
      obtain ⟨hloop, hopen, -, -⟩ := h.handling l' c calls hh
      rcases hx with rfl | rfl
      · cases hcalls
      · obtain ⟨rfl, rfl⟩ := Prod.mk.inj (Option.some.inj hcalls)
        exact ⟨hloop, hopen, hle, h1⟩
    · rw [Function.update_of_ne hne] at hcalls
      exact h.handling l' c' calls'' hcalls

/-- a run goes on soundly, or ends with one of the two errors of sending -/
def Good : Except Fatal (TcpServer ι) → Prop
  | .ok s => s.Sound none
  | .error f => f = .shutInLoop ∨ f = .bufferIntoNet

theorem Good.of_ok {x : Except Fatal (TcpServer ι)} (h : ∃ t, x = .ok t ∧ t.Sound none) :
    Good x := by
  obtain ⟨t, rfl, ht⟩ := h
  exact ht

theorem good_runTask (h : s.Sound none) {l : ι} {t : Task} {rest : List Task}
    (hq : s.functions l = t :: rest) (held : ι → List Nat) :
    Good ({ s with functions := Function.update s.functions l rest, held }.runTask l t) := by
  obtain ⟨hd, hs⟩ := h.dequeue hq held
  generalize hs' : ({ s with functions := Function.update s.functions l rest, held } :
    TcpServer ι) = s' at hs ⊢
  have hconn : s'.conn = s.conn := by rw [← hs']
  have hmain : s'.main = s.main := by rw [← hs']
  have hnext : s'.nextConnId = s.nextConnId := by rw [← hs']
  have hstage : s'.stage t.conn = s.stage t.conn := by rw [stage, hconn, stage]
  unfold due dueTask at hd
  split at hd
  · rename_i hc
    rw [← hnext] at hc
    split at hd
    · rename_i h0
      obtain ⟨hl, ht⟩ := Prod.mk.inj (Option.some.inj hd)
      rw [← hl, ← hconn]
      generalize t.conn = c at *
      rw [← ht]
      exact .of_ok (connectEstablished_spec hs hc (hstage.trans h0))
    · rename_i h2
      obtain ⟨hl, ht⟩ := Prod.mk.inj (Option.some.inj hd)
      rw [← hl, ← hmain]
      generalize t.conn = c at *
      rw [← ht]
      exact .of_ok (removeConnection_spec hs hc (hstage.trans h2))
    · rename_i h3
      obtain ⟨hl, ht⟩ := Prod.mk.inj (Option.some.inj hd)
      rw [← hl, ← hconn]
      generalize t.conn = c at *
      rw [← ht]
      exact .of_ok (connectDestory_spec hs hc (hstage.trans h3))
    · cases hd
  · cases hd

/-- the connection in a callback is not in a second one, and has no event to come -/
theorem Sound.alone (h : s.Sound none) {l : ι} {calls : List EventCall}
    (hh : s.handling l = some (c, calls)) :
    (∀ l', c ∉ (s.active l').map (·.1)) ∧
      ∀ l' calls', s.handling l' = some (c, calls') → calls' = calls := by
  obtain ⟨hloop, -⟩ := h.handling l c calls hh
  constructor
  · intro l' hm
    obtain ⟨e, he, rfl⟩ := List.mem_map.mp hm
    obtain ⟨e1, -, -, e4⟩ := (h.active l').2 e he
    have hl : l' = l := e1.symm.trans hloop
    rw [hl] at e4
    exact e4 _ hh rfl
  · intro l' calls' hh'
    have hl : l' = l := (h.handling l' c calls' hh').1.symm.trans hloop
    rw [hl, hh] at hh'
    exact (Prod.mk.inj (Option.some.inj hh')).2.symm

theorem good_callback (h : s.Sound none) {l : ι} {call : EventCall} {calls : List EventCall}
    (hh : s.handling l = some (c, call :: calls)) (n : Int) (drained : Bool) :
    Good ({ s with handling := Function.update s.handling l (some (c, calls)) }.runCallback
      l c n drained call) := by
  obtain ⟨hloop, -, hle, h1⟩ := h.handling l c (call :: calls) hh
  -- a callback that may close is the last such callback
  have hlast : call ≠ .write → closing calls = [] ∧ s.stage c = 1 := by
    intro hne
    rw [closing_cons hne] at hle h1
    rw [List.length_cons] at hle
    exact ⟨List.length_eq_zero_iff.mp (by omega), h1 (List.cons_ne_nil _ _)⟩
  have hrest : (closing calls).length ≤ 1 ∧ (closing calls ≠ [] → s.stage c = 1) := by
    by_cases hne : call = .write
    · rw [hne, closing_write] at hle h1
      exact ⟨hle, h1⟩
    · rw [(hlast hne).1]
      exact ⟨Nat.zero_le 1, fun hn => absurd rfl hn⟩
  have hs := h.setHandling hh calls (.inr rfl) hrest.1 hrest.2
  generalize hs' : ({ s with handling := Function.update s.handling l (some (c, calls)) } :
    TcpServer ι) = s' at hs ⊢
  have hconn : s'.conn = s.conn := by rw [← hs']
  have hhand : s'.handling l = some (c, calls) := by
    rw [← hs']
    exact Function.update_self _ _ _
  have hl : (s'.conn c).loop = l := by rw [hconn, hloop]
  obtain ⟨hact, hcalls⟩ := hs.alone hhand
  have hclose : call ≠ .write → Good (s'.handleClose l c) := by
    intro hne
    obtain ⟨hnil, hst⟩ := hlast hne
    have hst' : s'.stage c = 1 := by rw [stage, hconn]; exact hst
    rw [← hl]
    refine .of_ok (handleClose_spec hs hst' hact fun l' calls' hh' => ?_)
    rw [hcalls l' calls' hh', hnil]
  cases call with
  | close => exact hclose (by decide)
  | read =>
    rw [runCallback, netIntoBuffer, assertInLoopThread, if_pos hl]
    show Good (if n = 0 then _ else _)
    split
    · exact hclose (by decide)
    · exact hs
  | write =>
    rw [runCallback, bufferIntoNet, assertInLoopThread, if_pos hl]
    show Good (if (s'.conn c).channel.isWriting = false then _ else _)
    split
    · exact hs
    · rename_i hw
      have hst : s'.stage c = 1 := hs.writing c (by simpa using hw)
      have hr : (s'.conn c).channel.disableWrite.isReading = true := (hs.reading c).mpr hst
      split
      · show Good (.ok (if drained then _ else _))
        split
        · exact hs.setChannel hst hr
        · exact hs
      · exact .inr rfl

theorem good_send (h : s.Sound none) (c : Nat) : Good (s.send (s.conn c).loop c) := by
  rw [send, assertInLoopThread, if_pos rfl]
  show Good (if (s.conn c).status ≠ .connected then _ else _)
  split
  · exact h
  · rename_i hst
    have h1 : s.stage c = 1 := by
      rw [← h.status c]
      intro he
      exact hst (by rw [he]; decide)
    exact h.setChannel h1 ((h.reading c).mpr h1)

theorem good_shutdown (h : s.Sound none) (c : Nat) : Good (s.shutdown (s.conn c).loop c) := by
  rw [shutdown, assertInLoopThread, if_pos rfl]
  show Good (if (s.conn c).status = .connected then _ else _)
  split
  · rename_i hst
    have h1 : s.stage c = 1 := by
      rw [← h.status c, hst]
      decide
    show Good (if (s.conn c).channel.isWriting then _ else _)
    split
    · exact .inl rfl
    · exact h.disconnecting h1
  · exact h

/-- **One step** -/
theorem good_step (h : s.Sound none) {y : Except Fatal (TcpServer ι)} (hst : Step (.ok s) () y) :
    Good y := by
  cases hst with
  | accept fd nextloop hfd => exact .of_ok (whenNewConnection_spec h hfd nextloop)
  | poll l evs _ hl _ hr =>
    obtain ⟨hassert, hs⟩ := h.poll hl hr
    rw [if_pos hassert]
    exact hs
  | handleEvent l c revents rest ha _ =>
    obtain ⟨hopen, hs⟩ := h.enterEvent ha
    rw [if_pos hopen]
    exact hs
  | callback l c call calls n drained hh => exact good_callback h hh n drained
  | endEvent l c hh =>
    exact h.setHandling hh [] (.inl rfl) (Nat.zero_le 1) (fun hne => absurd rfl hne)
  | runTask l t rest hq _ _ => exact good_runTask h hq _
  | endBatch l => exact h.withLoops h.tasks h.active h.handling
  | send c _ => exact good_send h c
  | shutdown c _ => exact good_shutdown h c
  | keep c _ => exact h.withLoops h.tasks h.active h.handling
  | drop c => exact h.withLoops h.tasks h.active h.handling
  | destruct c hopen hu => exact h.destruct hopen hu

theorem sound_new (main : ι) : (new main).Sound none := by
  refine ⟨?_, ?_, ?_, ?_, ?_, ?_, ?_, ?_, ?_, ?_, ?_, ?_, ?_⟩
  · intro c
    exact List.nil_prefix
  · intro c _
    exact ⟨rfl, rfl, rfl⟩
  · intro l c
    have hdue : (new main).due c = none := if_neg (Nat.not_lt_zero c)
    rw [dueAt, hdue]
    rfl
  · intro c
    exact ⟨fun h => (by cases h), fun h => absurd h.1 (Nat.not_lt_zero c)⟩
  · intro c
    exact ⟨fun h => absurd rfl h, fun h => (by cases h)⟩
  · intro c
    exact ⟨fun h => (by cases h), fun h => (by cases h)⟩
  · intro c h
    cases h
  · intro l fd c
    exact ⟨fun h => (by cases h), fun h => absurd h.2.2.1 (Nat.not_succ_le_zero 0)⟩
  · intro l fd e
    exact ⟨fun h => (by cases h), fun h => (by cases h.2.2.1)⟩
  · intro c hc
    exact absurd hc (Nat.not_lt_zero c)
  · intro c c' h
    cases h
  · intro l
    exact ⟨List.nodup_nil, fun e he => absurd he List.not_mem_nil⟩
  · intro l c calls h
    cases h

theorem good_of_reach {main : ι} {x : Except Fatal (TcpServer ι)}
    (h : Reach Step (.ok (new main)) x) : Good x := by
  refine h.inv ?_ (sound_new main)
  intro x a y hx hst
  obtain ⟨s, rfl⟩ : ∃ s, x = .ok s := by cases hst <;> exact ⟨_, rfl⟩
  exact good_step hx hst

/-- **The life of a connection.**  In every run `connectEstablished`, `handleClose`,
`removeConnection` and `connectDestory` of a connection run in this order, each at most once and on
its loop.  No assertion fails, no connection is closed twice.  The descriptor is closed after all
four, when the channel is in no map any more; a connection that is not yet established finds its
descriptor free in the map and in the interest set of its loop. -/
theorem lifecycle (main : ι) {x : Except Fatal (TcpServer ι)} (h : Reach Step (.ok (new main)) x) :
    (∀ f, x = .error f → f = .shutInLoop ∨ f = .bufferIntoNet) ∧
    ∀ s, x = .ok s → ∀ c < s.nextConnId,
      (s.conn c).log <+: s.script c ∧
      ((s.conn c).isOpen = false → (s.conn c).log = s.script c ∧
        ∀ l fd, (s.poller l).fdChannelMap fd ≠ some c) ∧
      ((s.conn c).log = [] →
        (s.poller (s.conn c).loop).fdChannelMap (s.conn c).fd = none ∧
        (s.poller (s.conn c).loop).kernel (s.conn c).fd = none) := by
  have hgood := good_of_reach h
  constructor
  · rintro f rfl
    exact hgood
  · rintro s rfl c hc
    change s.Sound none at hgood
    refine ⟨hgood.log c, fun hclosed => ?_, fun hnil => ?_⟩
    · have h3 : ¬ s.stage c ≤ 3 := by
        intro hle
        rw [hgood.isOpen c hc hle] at hclosed
        cases hclosed
      refine ⟨(hgood.log c).eq_of_length_le ?_, fun l fd hm => ?_⟩
      · show 4 ≤ s.stage c
        omega
      · exact h3 ((hgood.mapped l fd c).mp hm).2.2.2
    · have h0 : s.stage c = 0 := by rw [stage, hnil]; rfl
      obtain ⟨hmap, hker⟩ := hgood.poller_at (hgood.isOpen c hc (by omega))
      rw [h0] at hmap hker
      exact ⟨hmap, hker⟩

/-- descriptor 5 is accepted for the second loop, which establishes the connection and reads the end
of its stream; the main loop removes it, the second loop destroys it, and its last owner goes -/
theorem lifecycle_whole : ∃ s, Reach Step (.ok (new false)) (.ok s) ∧ 0 < s.nextConnId ∧
    (s.conn 0).isOpen = false ∧ (s.conn 0).log = s.script 0 ∧
    ∀ l fd, (s.poller l).fdChannelMap fd ≠ some 0 := by
  have h1 : Reach Step (.ok (new false)) (.ok _) :=
    Reach.snoc .refl (.accept (s := new false) 5 true fun c h => by cases h)
  have h2 : Reach Step (.ok (new false)) (.ok _) :=
    h1.snoc (.runTask true (.connectEstablished 0) [] rfl rfl rfl)
  have h3 : Reach Step (.ok (new false)) (.ok _) := h2.snoc (.endBatch true)
  have h4 : Reach Step (.ok (new false)) (.ok _) :=
    h3.snoc (.poll true [(0, pollIn)] rfl rfl rfl ⟨List.pairwise_singleton _ _, fun e he =>
      List.mem_singleton.mp he ▸ ⟨⟨5, _, rfl⟩, by decide⟩⟩)
  have h5 : Reach Step (.ok (new false)) (.ok _) := h4.snoc (.handleEvent true 0 pollIn [] rfl rfl)
  have h6 : Reach Step (.ok (new false)) (.ok _) := h5.snoc (.callback true 0 .read [] 0 true rfl)
  have h7 : Reach Step (.ok (new false)) (.ok _) := h6.snoc (.endEvent true 0 rfl)
  have h8 : Reach Step (.ok (new false)) (.ok _) :=
    h7.snoc (.runTask false (.removeConnection 0) [] rfl rfl rfl)
  have h9 : Reach Step (.ok (new false)) (.ok _) := h8.snoc (.endBatch false)
  have h10 : Reach Step (.ok (new false)) (.ok _) :=
    h9.snoc (.runTask true (.connectDestory 0) [] rfl rfl rfl)
  have h11 : Reach Step (.ok (new false)) (.ok _) := h10.snoc (.endBatch true)
  have h12 : Reach Step (.ok (new false)) (.ok _) :=
    h11.snoc (.destruct 0 rfl ⟨rfl, rfl, fun l => by
      cases l <;> exact ⟨fun t ht => (by cases ht), fun hc => (by cases hc), fun p hp => by cases hp⟩⟩)
  obtain ⟨hlog, hfree⟩ := ((lifecycle false h12).2 _ rfl 0 Nat.one_pos).2.1 rfl
  exact ⟨_, h12, Nat.one_pos, rfl, hlog, hfree⟩

end TcpServer

end Feipu
