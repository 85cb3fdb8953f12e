import Mathlib.Data.List.TakeDrop
import Feipu.Base.UdpServer
import Feipu.Lib.Trace

/-!
# Datagrams from one `UdpServer` to another

The queue of the sender, the datagrams the kernel has taken, and the receiving half of a
`UdpServer`: `NetToBuffer`, the queue it fills and the `DatagramStream` that the message callback
reads.  The network is perfect.

* `carries_iff`  the payloads received and under way are the payloads sent, exactly where no
                 payload read is longer than the buffer of `NetToBuffer`, and the sender does not
                 empty its queue without a refill.
-/

namespace Feipu
open CStr Trace

/-! ## the receiving half -/

/-- `MAX_BUF_LEN` -/
def maxBufLen : Nat := 548

/-- what `recvfrom` answers, with the `InetAddress` made of the `sockaddr_in` it fills in -/
inductive RecvFrom where
  | datagram (payload : Bytes) (addr : Net.ValidAddress)
  | wouldBlock
  | error

/-- the queue of a `UdpServer`; `received` is history: the valid datagrams handed out -/
structure UdpReceiver where
  inBuffer : List Datagram := []
  /-- is there a message callback? -/
  messageCb : Bool := true
  received : List Datagram := []

namespace UdpReceiver

/-- the loop of `NetToBuffer`, with the datagrams counted so far: `recvfrom` cuts a datagram to the
buffer.  `none` is the `LOG_SYSFATAL`, or a loop that waits for the next answer. -/
def netToBufferLoop (inBuffer : List Datagram) (count : Nat) :
    List RecvFrom → Option (List Datagram × Nat)
  | [] => none
  | .wouldBlock :: _ => some (inBuffer, count)
  | .error :: _ => none
  | .datagram payload addr :: ns =>
    netToBufferLoop (inBuffer ++ [⟨payload.take maxBufLen, addr⟩]) (count + 1) ns

/-- `DatagramStream::reciveDatagram`; `none` is the invalid datagram -/
def reciveDatagram : List Datagram → Option Datagram × List Datagram
  | [] => (none, [])
  | d :: ds => (some d, ds)

/-- a callback that calls `reciveDatagram` so many times -/
def read (r : UdpReceiver) : Nat → UdpReceiver
  | 0 => r
  | n + 1 =>
    match reciveDatagram r.inBuffer with
    | (none, inBuffer) => read { r with inBuffer } n
    | (some d, inBuffer) => read { r with inBuffer, received := r.received ++ [d] } n

def netToBuffer (r : UdpReceiver) (ns : List RecvFrom) (reads : Nat) : Option UdpReceiver :=
  (netToBufferLoop r.inBuffer 0 ns).map fun (inBuffer, count) =>
    let r := { r with inBuffer }
    if count > 0 ∧ r.messageCb then r.read reads else r

/-- what the receiver has got -/
def got (r : UdpReceiver) : List Bytes := (r.received ++ r.inBuffer).map Datagram.data

theorem got_read (r : UdpReceiver) (n : Nat) : (r.read n).got = r.got := by
  induction n generalizing r with
  | zero => rfl
  | succ n ih =>
    unfold read
    cases hb : r.inBuffer with
    | nil =>
      show (read { r with inBuffer := [] } n).got = r.got
      rw [ih, got, got, hb]
    | cons d ds =>
      show (read { r with inBuffer := ds, received := r.received ++ [d] } n).got = r.got
      rw [ih, got, got, hb, List.append_assoc, List.singleton_append]

/-- the datagrams that have arrived, and then would-block -/
def arrivals (addr : Net.ValidAddress) (payloads : List Bytes) : List RecvFrom :=
  payloads.map (fun p => .datagram p addr) ++ [.wouldBlock]

/-- what the receiver makes of them -/
def cut (addr : Net.ValidAddress) (payloads : List Bytes) : List Datagram :=
  payloads.map fun p => ⟨p.take maxBufLen, addr⟩

theorem data_cut (addr : Net.ValidAddress) (payloads : List Bytes) :
    (cut addr payloads).map Datagram.data = payloads.map (List.take maxBufLen) := by
  rw [cut, List.map_map]
  rfl

theorem netToBufferLoop_arrivals (addr : Net.ValidAddress) (payloads : List Bytes)
    (inBuffer : List Datagram) (count : Nat) :
    netToBufferLoop inBuffer count (arrivals addr payloads) =
      some (inBuffer ++ cut addr payloads, count + payloads.length) := by
  induction payloads generalizing inBuffer count with
  | nil =>
    show some (inBuffer, count) = some (inBuffer ++ [], count)
    rw [List.append_nil]
  | cons p payloads ih =>
    show netToBufferLoop (inBuffer ++ [⟨p.take maxBufLen, addr⟩]) (count + 1)
      (arrivals addr payloads) = _
    rw [ih, List.append_assoc, List.singleton_append, List.length_cons, Nat.add_right_comm,
      Nat.add_assoc]
    rfl

/-- **One readable event** adds the payloads, each cut to the buffer. -/
theorem netToBuffer_spec (r : UdpReceiver) (addr : Net.ValidAddress) (payloads : List Bytes)
    (reads : Nat) : ∃ t, r.netToBuffer (arrivals addr payloads) reads = some t ∧
      t.got = r.got ++ payloads.map (List.take maxBufLen) := by
  unfold netToBuffer
  rw [netToBufferLoop_arrivals, Option.map_some]
  dsimp only
  have hgot : ({ r with inBuffer := r.inBuffer ++ cut addr payloads } : UdpReceiver).got =
      r.got ++ payloads.map (List.take maxBufLen) := by
    rw [got, got, ← List.append_assoc, List.map_append, data_cut]
  refine ⟨_, rfl, ?_⟩
  split
  · rw [got_read, hgot]
  · exact hgot

end UdpReceiver

/-! ## the link -/

/-- `sender` is `none` after it has taken the front of an empty queue; `net` are the payloads that
the kernel has taken and `recvfrom` has not returned -/
structure Link where
  sender : Option UdpServer
  net : List Bytes := []
  receiver : UdpReceiver

namespace Link

inductive Act where
  /-- `send` on the sender -/
  | send (d : Datagram)
  /-- `BufferToNet`, with what `sendto` returns -/
  | writable (ns : List SendTo)
  /-- `NetToBuffer` reads `k` datagrams, and the callback then `reads` -/
  | readable (k reads : Nat)

/-- the payload of a `sendto` that took the whole datagram -/
def taken : Datagram × SendTo → Option Bytes
  | (d, .sent n) => if d.data.length ≤ n then some d.data else none
  | _ => none

/-- the payloads the kernel has taken from `s` to `t` -/
def delivered (s t : UdpServer) : List Bytes :=
  (t.sendtos.drop s.sendtos.length).filterMap taken

/-- a step, where the sender still runs.  `BufferToNet` is called for a channel that is writing; the
kernel has no errors, and its answers are those up to the return. -/
def exec (peer : Net.ValidAddress) (l : Link) : Act → Option Link
  | .send d => l.sender.map fun s => { l with sender := some (s.send d) }
  | .writable ns =>
    l.sender.bind fun s =>
      if s.channel.isWriting then
        match s.bufferToNet ns with
        | .returned t => some { l with sender := some t, net := l.net ++ delivered s t }
        | .asserted | .emptyFront => some { l with sender := none }
        | .running _ | .fatal => none
      else none
  | .readable k reads =>
    if k ≤ l.net.length then
      (l.receiver.netToBuffer (UdpReceiver.arrivals peer (l.net.take k)) reads).map fun receiver =>
        { l with net := l.net.drop k, receiver }
    else none

inductive Step (peer : Net.ValidAddress) : Link → Act → Link → Prop where
  | mk {l t : Link} {a : Act} : l.exec peer a = some t → Step peer l a t

/-- two servers with the given callbacks -/
def start (writeAllCb : Option (Nat → List Datagram)) (messageCb : Bool) : Link where
  sender := some { writeAllCb }
  receiver := { messageCb }

/-- what was handed out, what waits in the three queues, and nothing else, is what was sent -/
def Carries (l : Link) : Prop :=
  ∃ s, l.sender = some s ∧
    l.receiver.got ++ l.net ++ s.outBuffer.map Datagram.data = s.queued.map Datagram.data

/-- the payloads read fit the buffer; the sender's queue is refilled when it runs empty -/
def Fits (l : Link) : Act → Prop
  | .send _ => True
  | .writable ns => ∀ s, l.sender = some s → s.Refilled ns
  | .readable k _ => ∀ p ∈ l.net.take k, p.length ≤ maxBufLen

/-- `Carries`, and the sender's channel is writing exactly when there is something to write -/
structure Inv (l : Link) : Prop where
  carries : l.Carries
  writing : ∀ s, l.sender = some s → (s.channel.isWriting = true ↔ s.outBuffer ≠ [])

theorem inv_start (writeAllCb : Option (Nat → List Datagram)) (messageCb : Bool) :
    (start writeAllCb messageCb).Inv where
  carries := ⟨_, rfl, rfl⟩
  writing s hs := by
    rw [← Option.some.inj hs]
    exact iff_of_false (fun h => by cases h) fun h => h rfl

/-! ## one step -/

theorem send_step {l t : Link} {d : Datagram} {peer : Net.ValidAddress} (h : l.Inv)
    (hst : l.exec peer (.send d) = some t) : t.Inv := by
  obtain ⟨s, hs, rfl⟩ := Option.map_eq_some_iff.mp hst
  obtain ⟨s', hs', hcarry⟩ := h.carries
  obtain rfl := Option.some.inj (hs.symm.trans hs')
  refine ⟨⟨_, rfl, ?_⟩, ?_⟩
  · show _ ++ l.net ++ (s.outBuffer ++ [d]).map Datagram.data = (s.queued ++ [d]).map Datagram.data
    rw [List.map_append, List.map_append, ← List.append_assoc, hcarry]
  · intro s'' hs''
    rw [← Option.some.inj hs'']
    exact iff_of_true rfl (List.append_ne_nil_of_right_ne_nil _ (List.cons_ne_nil d []))

theorem taken_of_not_whole {d : Datagram} {n : SendTo} (h : ¬ n.Whole d) : taken (d, n) = none := by
  cases n with
  | sent n => exact if_neg h
  | wouldBlock => rfl
  | error => rfl

theorem taken_whole {sent : List Datagram} {whole : List SendTo}
    (h : List.Forall₂ SendTo.Whole sent whole) :
    (sent.zip whole).filterMap taken = sent.map Datagram.data := by
  induction h with
  | nil => rfl
  | @cons d n sent whole hn _ ih =>
    have htaken : taken (d, n) = some d.data := by
      cases n with
      | sent n => exact if_pos hn
      | wouldBlock => exact absurd hn id
      | error => exact absurd hn id
    rw [List.zip_cons_cons, List.filterMap_cons, htaken, ih, List.map_cons]

/-- what leaves the queue of the sender enters the network -/
theorem delivered_eq {s t : UdpServer} {ns : List SendTo} (h : s.Sends ns (.returned t)) :
    (∃ added, t.queued = s.queued ++ added ∧
      (s.outBuffer ++ added).map Datagram.data = delivered s t ++ t.outBuffer.map Datagram.data) ∧
    (t.channel.isWriting = true ↔ t.outBuffer ≠ []) := by
  obtain ⟨whole, tail, rest, -, hmoves, htail⟩ := h
  obtain ⟨sent, added, hq, hout, hwhole, hsendtos⟩ := hmoves.order
  refine ⟨⟨added, hq, ?_⟩, hmoves.writing⟩
  have hnone : tail.filterMap taken = [] := by
    rcases htail with rfl | ⟨d, n, rfl, -, hn⟩
    · rfl
    · rw [List.filterMap_cons, taken_of_not_whole hn, List.filterMap_nil]
  rw [delivered, hsendtos, List.append_assoc, List.drop_left, List.filterMap_append,
    taken_whole hwhole, hnone, List.append_nil, ← List.map_append, hout]

theorem writable_step {l t : Link} {ns : List SendTo} {peer : Net.ValidAddress} (h : l.Inv)
    (hst : l.exec peer (.writable ns) = some t) :
    (t.Carries ↔ l.Fits (.writable ns)) ∧ (l.Fits (.writable ns) → t.Inv) := by
  obtain ⟨s, hs, hst⟩ := Option.bind_eq_some_iff.mp hst
  obtain ⟨s', hs', hcarry⟩ := h.carries
  obtain rfl := Option.some.inj (hs.symm.trans hs')
  rw [Option.ite_none_right_eq_some] at hst
  obtain ⟨hw, hst⟩ := hst
  have hne := (h.writing s hs).mp hw
  have hfits : l.Fits (.writable ns) ↔ s.Refilled ns := by
    refine ⟨fun hf => hf s hs, fun hr s' hs' => ?_⟩
    rw [Option.some.inj (hs'.symm.trans hs)]
    exact hr
  have hloop : s.bufferToNet ns = UdpServer.bufferToNetLoop ns s :=
    if_pos ⟨List.length_pos_of_ne_nil hne, hw⟩
  rw [hloop] at hst
  rw [hfits]
  rcases UdpServer.loop_spec hne hw ns with ⟨hrefilled, hsends⟩ | ⟨hrefilled, hempty⟩
  · have hinv : t.Inv := by
      cases hret : UdpServer.bufferToNetLoop ns s with
      | returned u =>
        rw [hret] at hst hsends
        obtain rfl := Option.some.inj hst
        obtain ⟨⟨added, hq, hout⟩, hwriting⟩ := delivered_eq hsends
        refine ⟨⟨u, rfl, ?_⟩, ?_⟩
        · show l.receiver.got ++ (l.net ++ delivered s u) ++ u.outBuffer.map Datagram.data = _
          rw [hq, List.map_append, ← hcarry, List.append_assoc, List.append_assoc l.net, ← hout,
            List.map_append]
          simp only [List.append_assoc]
        · intro u' hu'
          rw [← Option.some.inj hu']
          exact hwriting
      | running u =>
        rw [hret] at hst
        cases hst
      | fatal =>
        rw [hret] at hst
        cases hst
      | asserted =>
        rw [hret] at hsends
        exact absurd hsends id
      | emptyFront =>
        rw [hret] at hsends
        exact absurd hsends id
    exact ⟨iff_of_true hinv.carries hrefilled, fun _ => hinv⟩
  · rw [hempty] at hst
    obtain rfl := Option.some.inj hst
    refine ⟨iff_of_false ?_ hrefilled, fun hr => absurd hr hrefilled⟩
    rintro ⟨u, hu, -⟩
    cases hu

/-- cutting loses nothing exactly where there is nothing to cut -/
theorem map_take_eq_iff {n : Nat} {l : List Bytes} :
    l.map (List.take n) = l ↔ ∀ p ∈ l, p.length ≤ n := by
  induction l with
  | nil => exact iff_of_true rfl fun p hp => absurd hp List.not_mem_nil
  | cons p l ih =>
    rw [List.map_cons, List.cons.injEq, ih, List.take_eq_self_iff, List.forall_mem_cons]

theorem readable_step {l t : Link} {k reads : Nat} {peer : Net.ValidAddress} (h : l.Inv)
    (hst : l.exec peer (.readable k reads) = some t) :
    (t.Carries ↔ l.Fits (.readable k reads)) ∧ (l.Fits (.readable k reads) → t.Inv) := by
  rw [exec, Option.ite_none_right_eq_some] at hst
  obtain ⟨-, hst⟩ := hst
  obtain ⟨r, hr, rfl⟩ := Option.map_eq_some_iff.mp hst
  obtain ⟨r', hr', hgot⟩ := l.receiver.netToBuffer_spec peer (l.net.take k) reads
  obtain rfl := Option.some.inj (hr.symm.trans hr')
  obtain ⟨s, hs, hcarry⟩ := h.carries
  have hiff : ({ l with net := l.net.drop k, receiver := r } : Link).Carries ↔
      l.Fits (.readable k reads) := by
    show _ ↔ ∀ p ∈ l.net.take k, p.length ≤ maxBufLen
    rw [← map_take_eq_iff]
    have hsplit : s.queued.map Datagram.data = l.receiver.got ++ (l.net.take k ++
        (l.net.drop k ++ s.outBuffer.map Datagram.data)) := by
      rw [← hcarry, ← List.append_assoc (l.net.take k), List.take_append_drop, List.append_assoc]
    constructor
    · rintro ⟨s', hs', hcarry'⟩
      obtain rfl := Option.some.inj (hs.symm.trans hs')
      rw [hgot, hsplit] at hcarry'
      simp only [List.append_assoc] at hcarry'
      exact List.append_cancel_right (List.append_cancel_left hcarry')
    · intro hcut
      refine ⟨s, hs, ?_⟩
      rw [hgot, hcut, hsplit]
      simp only [List.append_assoc]
  exact ⟨hiff, fun hf => ⟨hiff.mpr hf, h.writing⟩⟩

/-- the same for a whole run -/
theorem carries_path {peer : Net.ValidAddress} {l : Link} {tr : List (Tr Link Act)} (h0 : l.Inv)
    (h : Path (Step peer) l tr) : (∀ e ∈ tr, e.post.Carries) ↔ ∀ e ∈ tr, e.pre.Fits e.act := by
  apply h.all_iff (P := fun e => e.post.Carries) _ h0
  intro l a t hl hst
  cases hst with
  | mk hexec =>
    cases a with
    | send d =>
      have hinv := send_step hl hexec
      exact ⟨iff_of_true hinv.carries trivial, fun _ => hinv⟩
    | writable ns => exact writable_step hl hexec
    | readable k reads => exact readable_step hl hexec

/-- **Datagrams arrive whole, once and in order**, exactly in the runs that read no payload longer
than the buffer and never leave the sender's loop without a datagram. -/
theorem carries_iff (peer : Net.ValidAddress) (writeAllCb : Option (Nat → List Datagram))
    (messageCb : Bool) (tr : List (Tr Link Act))
    (h : Path (Step peer) (start writeAllCb messageCb) tr) :
    (∀ e ∈ tr, e.post.Carries) ↔ ∀ e ∈ tr, e.pre.Fits e.act :=
  carries_path (inv_start writeAllCb messageCb) h

/-- three bytes, with the sender's queue refilled by its callback -/
theorem carries_hello : ∃ tr, Path (Step (.ofPort 9001))
    (start (some fun _ => [UdpServer.hello]) true) tr ∧ tr.map Tr.act =
      [.send UdpServer.hello, .writable [.sent 3, .wouldBlock], .readable 1 2] ∧
    ∀ e ∈ tr, e.post.Carries := by
  have hsend : Step (.ofPort 9001) (start (some fun _ => [UdpServer.hello]) true)
      (.send UdpServer.hello) _ := .mk rfl
  have hpath := Path.cons hsend <| .cons (.mk (a := .writable [.sent 3, .wouldBlock]) rfl) <|
    .cons (.mk (a := .readable 1 2) rfl) <| .nil _
  refine ⟨_, hpath, rfl, (carries_iff _ _ true _ hpath).mpr ?_⟩
  rw [List.forall_mem_cons, List.forall_mem_cons, List.forall_mem_cons]
  refine ⟨trivial, ?_, ?_, fun e he => absurd he List.not_mem_nil⟩
  · intro s hs
    obtain rfl := Option.some.inj hs
    exact fun _ _ => List.cons_ne_nil _ _
  · intro p hp
    obtain rfl := List.mem_singleton.mp hp
    decide

/-- one byte more than the buffer of `NetToBuffer` -/
def long : Datagram := ⟨List.replicate 549 0, .ofPort 9000⟩

set_option maxRecDepth 8000 in
theorem long_cut : ¬ ∀ peer writeAllCb messageCb tr,
    Path (Step peer) (start writeAllCb messageCb) tr → ∀ e ∈ tr, e.post.Carries := by
  intro hall
  let cb : Nat → List Datagram := fun _ => [UdpServer.hello]
  have hsend : Step (.ofPort 9001) (start (some cb) true) (.send long) _ := .mk rfl
  have hpath := Path.cons hsend <| .cons (.mk (a := .writable [.sent 549, .wouldBlock]) rfl) <|
    .cons (.mk (a := .readable 1 1) rfl) <| .nil _
  have hfits := (carries_path (inv_start (some cb) true) hpath).mp (hall _ _ true _ hpath)
  rw [List.forall_mem_cons, List.forall_mem_cons, List.forall_mem_cons] at hfits
  have hlong : long.data.length ≤ maxBufLen := hfits.2.2.1 _ List.mem_cons_self
  rw [long, List.length_replicate] at hlong
  exact absurd hlong (by decide)

end Link

end Feipu
