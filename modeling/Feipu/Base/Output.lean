import Feipu.Base.TcpConnection
import Feipu.Lib.Trace

/-!
# What a connection writes

Runs of a connection on its loop thread: sends (also from inside `write_cb_`), `shutdown ()` and
writable events, with any partial writes.

* `output_stream`      what the kernel has taken and what waits in `outBuffer` make up, in order,
                       all that was sent; the channel is writing exactly while something waits.
* `graceful_iff`       the half-close comes after all bytes due and never ends the process exactly
                       in the runs where no `shutdown ()` finds output pending: `shutdown` does not
                       defer `shutInLoop` itself.
* `prefix_of_noLoss`   what the kernel has taken is a prefix of what was sent as long as no write
                       fails on bytes that must not be lost.
-/

namespace Feipu
open Trace

namespace Sock

/-- what waits in `outBuffer` -/
def pending (s : Sock) : Bytes := s.conn.outBuffer.readable

/-- what holds at every point of a run: nothing is lost, the channel is writing while something
waits, and a half-closed connection has sent all of it -/
structure Good (s : Sock) : Prop where
  stream : s.sent ++ s.pending = s.accepted
  writing : s.conn.channel.isWriting = true ↔ s.pending ≠ []
  isOpen : s.conn.status = .connected → s.halfClosed = false
  closing : s.conn.status ≠ .connected → s.halfClosed = true ∧ s.pending = [] ∧ s.due = s.accepted

/-- the data that the event hands to `sendInLoop` -/
def takes (s : Sock) : Act → Bytes
  | .send data _ => if s.conn.status = .connected then data else []
  | _ => []

/-- no `write` that the event makes loses anything -/
def NoLoss (s : Sock) : Act → Prop
  | .send data n => s.conn.status = .connected → s.WritesDirectly → 0 ≤ n ∨ data = []
  | .writable n => s.conn.channel.isWriting = true → 1 ≤ n
  | _ => True

/-- what the event `a` leads to -/
structure After (s : Sock) (a : Act) (t : Sock) : Prop where
  good : t.Good
  accepted : t.accepted = s.accepted ++ s.takes a
  callback : (∃ f, t.stack = f :: s.stack) → t.pending = []

theorem good_established (cb : Bool) : (established cb).Good where
  stream := rfl
  writing := by
    show false = true ↔ Buffer.new.readable ≠ []
    rw [Buffer.readable_new]
    simp
  isOpen _ := rfl
  closing h := absurd rfl h

theorem pending_nil_iff (s : Sock) : s.conn.outBuffer.getReadableBytes = 0 ↔ s.pending = [] := by
  rw [pending, ← Buffer.length_readable, List.length_eq_zero_iff]

theorem Good.writesDirectly_iff {s : Sock} (h : s.Good) : s.WritesDirectly ↔ s.pending = [] := by
  rw [WritesDirectly, pending_nil_iff]
  constructor
  · intro hd
    exact hd.1
  · intro hp
    refine ⟨hp, ?_⟩
    rw [← Bool.not_eq_true, h.writing]
    exact not_not.mpr hp

theorem good_enqueue {s : Sock} {data : Bytes} (hs : s.sent ++ (s.pending ++ data) = s.accepted)
    (hne : s.pending ++ data ≠ []) (hc : s.conn.status = .connected) (ho : s.halfClosed = false) :
    (s.enqueue data).Good := by
  have hp : (s.enqueue data).pending = s.pending ++ data := Buffer.readable_append _ _
  refine ⟨?_, ?_, fun _ => ho, fun h => absurd hc h⟩
  · rw [hp]
    exact hs
  · rw [hp]
    exact ⟨fun _ => hne, fun _ => rfl⟩

theorem shutInLoop_idle {s : Sock} (h : s.conn.channel.isWriting = false) :
    s.shutInLoop = .ok { s with halfClosed := true } := by
  rw [shutInLoop, h]
  rfl

theorem shutInLoop_writing {s : Sock} (h : s.conn.channel.isWriting = true) :
    s.shutInLoop = .error .shutInLoop := by
  rw [shutInLoop, h]
  rfl

/-- what follows a callback only shuts the write side once more -/
theorem afterWriteCb_spec {s : Sock} (h : s.Good) (f : Frame) : s.afterWriteCb f = .ok s := by
  cases f with
  | sendInLoop => rfl
  | bufferIntoNet =>
    show (if s.conn.status = .disconnecting then s.shutInLoop else .ok s) = .ok s
    split
    · rename_i hst
      obtain ⟨hcl, hp, -⟩ := h.closing (by rw [hst]; decide)
      have hw : s.conn.channel.isWriting = false := by
        rw [← Bool.not_eq_true, h.writing]
        exact not_not.mpr hp
      rw [shutInLoop_idle hw, ← hcl]
    · rfl

theorem writeCb_spec {s : Sock} (h : s.Good) (hp : s.pending = []) (f : Frame) :
    ∃ t, s.writeCb f = .ok t ∧ t.Good ∧ t.accepted = s.accepted ∧ t.pending = [] := by
  unfold writeCb
  split
  · exact ⟨_, rfl, ⟨h.stream, h.writing, h.isOpen, h.closing⟩, rfl, hp⟩
  · exact ⟨s, afterWriteCb_spec h f, h, rfl, hp⟩

/-- nothing was pushed on the stack: `write_cb_` was not called -/
theorem not_called {st st' : List Frame} (h : st' = st) : ¬ ∃ f, st' = f :: st := by
  intro ⟨f, hf⟩
  have hlen := congrArg List.length (h.symm.trans hf)
  rw [List.length_cons] at hlen
  omega

theorem sendInLoop_spec {s : Sock} (h : s.Good) (hc : s.conn.status = .connected) {data : Bytes}
    {n : Int} (hn : n ≤ data.length) (h0 : s.WritesDirectly → 0 ≤ n ∨ data = []) :
    ∃ t, s.sendInLoop data n = .ok t ∧ t.Good ∧ t.accepted = s.accepted ++ data ∧
      ((∃ f, t.stack = f :: s.stack) → t.pending = []) := by
  unfold sendInLoop
  by_cases hd : s.WritesDirectly
  · have hp := h.writesDirectly_iff.mp hd
    have hs : s.sent = s.accepted := by rw [← h.stream, hp, List.append_nil]
    have hd' : { s with accepted := s.accepted ++ data }.WritesDirectly := hd
    simp only [hd', ite_true]
    split
    · -- the write failed, on nothing
      have hdata : data = [] := (h0 hd).resolve_left (by omega)
      refine ⟨_, rfl, ⟨?_, h.writing, h.isOpen, fun hne => absurd hc hne⟩, rfl, ?_⟩
      · subst hdata
        show (s.sent ++ [].take n.toNat) ++ s.pending = s.accepted ++ []
        rw [hp, hs]
        simp
      · exact fun hcall => absurd hcall (not_called rfl)
    · split
      · refine ⟨_, rfl, ?_, rfl, ?_⟩
        · refine good_enqueue ?_ ?_ hc (h.isOpen hc)
          · show (s.sent ++ data.take n.toNat) ++ (s.pending ++ data.drop n.toNat) = s.accepted ++ data
            rw [hp, hs, List.nil_append, List.append_assoc, List.take_append_drop]
          · show s.pending ++ data.drop n.toNat ≠ []
            rw [hp, List.nil_append, ne_eq, List.drop_eq_nil_iff]
            omega
        · exact fun hcall => absurd hcall (not_called rfl)
      · have hall : data.take n.toNat = data := List.take_of_length_le (by omega)
        obtain ⟨t, ht, hgood, hacc, hpt⟩ := writeCb_spec
          (s := { s with accepted := s.accepted ++ data, sent := s.sent ++ data.take n.toNat })
          ⟨by
            show (s.sent ++ data.take n.toNat) ++ s.pending = s.accepted ++ data
            rw [hp, hs, hall, List.append_nil], h.writing, h.isOpen,
            fun hne => absurd hc hne⟩ hp .sendInLoop
        exact ⟨t, ht, hgood, hacc, fun _ => hpt⟩
  · have hp : s.pending ≠ [] := mt h.writesDirectly_iff.mpr hd
    have hd' : ¬ { s with accepted := s.accepted ++ data }.WritesDirectly := hd
    simp only [hd', ite_false]
    refine ⟨_, rfl, ?_, rfl, ?_⟩
    · refine good_enqueue ?_ ?_ hc (h.isOpen hc)
      · show s.sent ++ (s.pending ++ data) = s.accepted ++ data
        rw [← List.append_assoc, h.stream]
      · exact fun e => hp (List.append_eq_nil_iff.mp e).1
    · exact fun hcall => absurd hcall (not_called rfl)

theorem bufferIntoNet_spec {s : Sock} (h : s.Good) {n : Int}
    (hn : s.conn.channel.isWriting = true → n ≤ s.pending.length ∧ 1 ≤ n) :
    ∃ t, s.bufferIntoNet n = .ok t ∧ t.Good ∧ t.accepted = s.accepted ∧
      ((∃ f, t.stack = f :: s.stack) → t.pending = []) := by
  unfold bufferIntoNet
  cases hw : s.conn.channel.isWriting with
  | false =>
    rw [if_pos rfl]
    refine ⟨s, rfl, h, rfl, ?_⟩
    exact fun hcall => absurd hcall (not_called rfl)
  | true =>
    obtain ⟨hle, h1⟩ := hn hw
    have hp : s.pending ≠ [] := h.writing.mp hw
    -- a half-closed connection has nothing left to write
    have hc : s.conn.status = .connected := by
      by_contra hne
      exact hp (h.closing hne).2.1
    have hle' : n.toNat ≤ s.conn.outBuffer.readable.length := by
      have : (n.toNat : Int) ≤ s.pending.length := by omega
      exact_mod_cast this
    obtain ⟨b, hb, hr⟩ := Buffer.readable_retrieve hle'
    have hstream : (s.sent ++ s.pending.take n.toNat) ++ b.readable = s.accepted := by
      rw [hr, List.append_assoc]
      show s.sent ++ (s.pending.take n.toNat ++ s.pending.drop n.toNat) = s.accepted
      rw [List.take_append_drop, h.stream]
    rw [if_neg (by simp), if_pos (by omega), hb]
    simp only [asserted]
    show ∃ t, (if b.getReadableBytes = 0 then _ else _) = Except.ok t ∧ _
    split
    · rename_i hz
      rw [← Buffer.length_readable, List.length_eq_zero_iff] at hz
      obtain ⟨t, ht, hgood, hacc, hpt⟩ := writeCb_spec
        (s := disableWrite { s with
          sent := s.sent ++ s.conn.outBuffer.readable.take n.toNat
          conn := { s.conn with outBuffer := b } })
        ⟨hstream, by
          show false = true ↔ b.readable ≠ []
          rw [hz]
          simp, fun _ => h.isOpen hc, fun hne => absurd hc hne⟩ hz .bufferIntoNet
      exact ⟨t, ht, hgood, hacc, fun _ => hpt⟩
    · rename_i hz
      rw [← Buffer.length_readable, List.length_eq_zero_iff] at hz
      refine ⟨_, rfl, ⟨hstream, ?_, fun _ => h.isOpen hc, fun hne => absurd hc hne⟩, rfl, ?_⟩
      · show s.conn.channel.isWriting = true ↔ b.readable ≠ []
        exact ⟨fun _ => hz, fun _ => hw⟩
      · exact fun hcall => absurd hcall (not_called rfl)

/-! ## one event -/

theorem shutdown_idle {s : Sock} (h : s.Good)
    (hw : s.conn.status = .connected → s.conn.channel.isWriting = false) :
    ∃ t, s.shutdown = .ok t ∧ t.Good ∧ t.accepted = s.accepted ∧ t.stack = s.stack := by
  unfold shutdown
  split
  · rename_i hc
    have hidle := hw hc
    have hp : s.pending = [] := by
      by_contra hne
      rw [h.writing.mpr hne] at hidle
      cases hidle
    rw [shutInLoop_idle (s := s.disconnecting) hidle]
    exact ⟨_, rfl, ⟨h.stream, h.writing, fun h => (by cases h), fun _ => ⟨rfl, hp, rfl⟩⟩, rfl, rfl⟩
  · exact ⟨s, rfl, h, rfl, rfl⟩

theorem shutdown_writing {s : Sock} (hc : s.conn.status = .connected)
    (hw : s.conn.channel.isWriting = true) : s.shutdown = .error .shutInLoop := by
  rw [shutdown, if_pos hc]
  exact shutInLoop_writing (s := s.disconnecting) hw

/-- the event is a call of `shutdown ()` that finds output pending -/
def ShutsEarly (s : Sock) : Act → Prop
  | .shutdown => s.conn.status = .connected ∧ s.conn.channel.isWriting = true
  | _ => False

theorem exec_shutsEarly {s : Sock} {a : Act} (h : s.ShutsEarly a) :
    s.exec a = .error .shutInLoop := by
  cases a with
  | shutdown => exact shutdown_writing h.1 h.2
  | send | writable | ret => exact absurd h id

theorem exec_spec {mayFail : Prop} {s : Sock} {a : Act} (h : s.Good) (hf : s.Fits mayFail a)
    (hl : s.NoLoss a) (he : ¬ s.ShutsEarly a) : ∃ t, s.exec a = .ok t ∧ s.After a t := by
  cases a with
  | send data n =>
    show ∃ t, (if s.conn.status ≠ .connected then .ok s else s.sendInLoop data n) = .ok t ∧ _
    by_cases hc : s.conn.status = .connected
    · obtain ⟨t, ht, hgood, hacc, hcb⟩ := sendInLoop_spec h hc hf.1 (hl hc)
      refine ⟨t, by rw [if_neg (not_not.mpr hc), ht], hgood, ?_, hcb⟩
      show t.accepted = s.accepted ++ if s.conn.status = .connected then data else []
      rw [hacc, if_pos hc]
    · refine ⟨s, if_pos hc, h, ?_, ?_⟩
      · show s.accepted = s.accepted ++ if s.conn.status = .connected then data else []
        rw [if_neg hc, List.append_nil]
      · exact fun hcall => absurd hcall (not_called rfl)
  | shutdown =>
    have hidle : s.conn.status = .connected → s.conn.channel.isWriting = false := by
      intro hc
      rw [← Bool.not_eq_true]
      exact fun hw => he ⟨hc, hw⟩
    obtain ⟨t, ht, hgood, hacc, hst⟩ := shutdown_idle h hidle
    refine ⟨t, ht, hgood, by rw [hacc]; exact (List.append_nil _).symm, ?_⟩
    exact fun hcall => absurd hcall (not_called hst)
  | writable n =>
    obtain ⟨t, ht, hgood, hacc, hcb⟩ := bufferIntoNet_spec h
      (fun hw => ⟨(hf.2 hw).1, hl hw⟩)
    exact ⟨t, ht, hgood, by rw [hacc]; exact (List.append_nil _).symm, hcb⟩
  | ret =>
    cases hst : s.stack with
    | nil => exact absurd hst hf
    | cons f st =>
      have hgood : { s with stack := st }.Good := ⟨h.stream, h.writing, h.isOpen, h.closing⟩
      refine ⟨{ s with stack := st }, ?_, hgood, (List.append_nil _).symm, ?_⟩
      · show s.ret = _
        rw [ret, hst]
        exact afterWriteCb_spec hgood f
      · rintro ⟨f', hf'⟩
        have e : st.length = s.stack.length + 1 := congrArg List.length hf'
        rw [hst, List.length_cons] at e
        omega

/-- a kernel that takes at least a byte from `BufferIntoNet` loses nothing -/
theorem noLoss_of_fits {s : Sock} {a : Act} (hf : s.Fits False a) : s.NoLoss a := by
  cases a with
  | send data n => exact fun _ _ => .inl (hf.2.resolve_right (fun h => h.1))
  | writable n => exact fun hw => (hf.2 hw).2.resolve_right (fun h => h.1)
  | shutdown | ret => trivial

/-! ## runs -/

/-- the process has not ended, and then the socket is in order -/
def Fine (x : Except Fatal Sock) : Prop := ∀ s, x = .ok s → s.Good

theorem fine_step {x y : Except Fatal Sock} {a : Act} (hx : Fine x) (h : Step False x a y) :
    Fine y ∧ ∃ s, x = .ok s ∧ (s.ShutsEarly a ∧ y = .error .shutInLoop ∨
      ¬ s.ShutsEarly a ∧ ∃ t, y = .ok t ∧ s.After a t) := by
  cases h with
  | @mk s _ hf =>
    by_cases he : s.ShutsEarly a
    · have hy := exec_shutsEarly he
      rw [hy]
      exact ⟨fun _ h => (by cases h), s, rfl, .inl ⟨he, rfl⟩⟩
    · obtain ⟨t, ht, hafter⟩ := exec_spec (hx s rfl) hf (noLoss_of_fits hf) he
      rw [ht]
      refine ⟨?_, s, rfl, .inr ⟨he, t, rfl, hafter⟩⟩
      intro t' e
      cases e
      exact hafter.good

theorem fine_established (cb : Bool) : Fine (.ok (established cb)) := by
  intro s e
  cases e
  exact good_established cb

/-- **Output stream integrity.** -/
theorem output_stream (cb : Bool) {tr : List (Tr (Except Fatal Sock) Act)}
    (h : Path (Step False) (.ok (established cb)) tr) :
    ∀ e ∈ tr, (e.act ≠ .shutdown → ∃ t, e.post = .ok t) ∧
      ∀ s t, e.pre = .ok s → e.post = .ok t →
        t.accepted = s.accepted ++ s.takes e.act ∧
        t.sent ++ t.conn.outBuffer.readable = t.accepted ∧
        (t.conn.channel.isWriting = true ↔ t.conn.outBuffer.readable ≠ []) ∧
        ((∃ f, t.stack = f :: s.stack) → t.conn.outBuffer.readable = []) := by
  have hstep : ∀ x a y, Fine x → Step False x a y → Fine y ∧
      ((a ≠ .shutdown → ∃ t, y = .ok t) ∧ ∀ s t, x = .ok s → y = .ok t → s.After a t) := by
    intro x a y hx hst
    obtain ⟨hy, s, rfl, ⟨he, rfl⟩ | ⟨-, t, rfl, hafter⟩⟩ := fine_step hx hst
    · refine ⟨hy, fun ha => ?_, fun s' t' _ e => by cases e⟩
      cases a with
      | shutdown => exact absurd rfl ha
      | send | writable | ret => exact absurd he id
    · refine ⟨hy, fun _ => ⟨t, rfl⟩, ?_⟩
      intro s' t' e e'
      cases e
      cases e'
      exact hafter
  intro e he
  obtain ⟨-, -, hok, hafter⟩ := h.inv (P := fun e => (e.act ≠ .shutdown → ∃ t, e.post = .ok t) ∧
    ∀ s t, e.pre = .ok s → e.post = .ok t → s.After e.act t) hstep (fine_established cb) e he
  refine ⟨hok, ?_⟩
  intro s t hpre hpost
  have ha := hafter s t hpre hpost
  exact ⟨ha.accepted, ha.good.stream, ha.good.writing, ha.callback⟩

/-- two bytes have been sent and the kernel has taken one of them -/
def halfSent : Sock := { established false with accepted := [1, 2], sent := [1] }.enqueue [2]

theorem step_halfSent (mayFail : Prop) :
    Step mayFail (.ok (established false)) (.send [1, 2] 1) (.ok halfSent) :=
  have hsend : (established false).exec (.send [1, 2] 1) = .ok halfSent := rfl
  hsend ▸ Step.mk ⟨by decide, .inl (by decide)⟩

theorem output_stream_halfSent : halfSent.sent ++ halfSent.conn.outBuffer.readable = [1, 2] :=
  ((output_stream false (.cons (step_halfSent False) (.nil _)) _ List.mem_cons_self).2 _ _ rfl
    rfl).2.1

/-- the process runs, and the write side is shut after all bytes due and not before -/
def Graceful (x : Except Fatal Sock) : Prop :=
  ∃ t, x = .ok t ∧ (t.halfClosed = true → t.due <+: t.sent) ∧
    (t.conn.status = .disconnecting → t.conn.outBuffer.readable = [] → t.stack = [] →
      t.halfClosed = true)

/-- a call of `shutdown ()` on a connected socket finds the channel not writing -/
def ShutsIdle (x : Except Fatal Sock) (a : Act) : Prop :=
  ∀ s, x = .ok s → a = .shutdown → s.conn.status = .connected → s.conn.channel.isWriting = false

theorem shutsIdle_iff {s : Sock} {a : Act} : ShutsIdle (.ok s) a ↔ ¬ s.ShutsEarly a := by
  constructor
  · intro hi he
    cases a with
    | shutdown =>
      have hw := hi s rfl rfl he.1
      rw [he.2] at hw
      cases hw
    | send | writable | ret => exact he
  · intro he s' e ha hc
    cases e
    subst ha
    rw [← Bool.not_eq_true]
    exact fun hw => he ⟨hc, hw⟩

theorem Good.graceful {t : Sock} (h : t.Good) : Graceful (.ok t) := by
  refine ⟨t, rfl, ?_, ?_⟩
  · intro hcl
    have hne : t.conn.status ≠ .connected := by
      intro hc
      rw [h.isOpen hc] at hcl
      cases hcl
    obtain ⟨-, hp, hdue⟩ := h.closing hne
    have hs := h.stream
    rw [hp, List.append_nil] at hs
    have heq : t.due = t.sent := hdue.trans hs.symm
    exact heq ▸ List.prefix_rfl
  · intro hc _ _
    exact (h.closing (by rw [hc]; decide)).1

/-- **The half-close is graceful exactly when `shutdown ()` finds nothing pending.** -/
theorem graceful_iff (cb : Bool) {tr : List (Tr (Except Fatal Sock) Act)}
    (h : Path (Step False) (.ok (established cb)) tr) :
    (∀ e ∈ tr, Graceful e.post) ↔ ∀ e ∈ tr, ShutsIdle e.pre e.act := by
  have hstep : ∀ x a y, Fine x → Step False x a y →
      (Graceful y ↔ ShutsIdle x a) ∧ (ShutsIdle x a → Fine y) := by
    intro x a y hx hst
    obtain ⟨hy, s, rfl, ⟨he, rfl⟩ | ⟨he, t, rfl, hafter⟩⟩ := fine_step hx hst
    · refine ⟨⟨?_, ?_⟩, fun _ => hy⟩
      · rintro ⟨t, ht, -⟩
        cases ht
      · intro hi
        exact absurd he (shutsIdle_iff.mp hi)
    · exact ⟨⟨fun _ => shutsIdle_iff.mpr he, fun _ => hafter.good.graceful⟩, fun _ => hy⟩
  exact h.all_iff (P := fun e => Graceful e.post) hstep (fine_established cb)

/-- a response of which the kernel takes a part, and then `shutdown ()` -/
theorem shutdown_pending :
    ¬ ∀ tr, Path (Step False) (.ok (established false)) tr → ∀ e ∈ tr, Graceful e.post := by
  intro hall
  have hshut : halfSent.exec .shutdown = .error .shutInLoop := shutdown_writing rfl rfl
  have hstep : Step False (.ok halfSent) .shutdown (.error .shutInLoop) := hshut ▸ Step.mk trivial
  have hpath := Path.cons (step_halfSent False) (Path.cons hstep (.nil _))
  obtain ⟨t, ht, -⟩ := hall _ hpath ⟨.ok halfSent, .shutdown, .error .shutInLoop⟩ (by simp)
  cases ht

/-- the same response taken whole, and the connection then shut down -/
def allSent : Sock := { established false with accepted := [1, 2], sent := [1, 2] }

def allSentShut : Sock := { allSent.disconnecting with halfClosed := true }

def allSentRun : List (Tr (Except Fatal Sock) Act) :=
  [⟨.ok (established false), .send [1, 2] 2, .ok allSent⟩, ⟨.ok allSent, .shutdown, .ok allSentShut⟩]

theorem path_allSent : Path (Step False) (.ok (established false)) allSentRun := by
  have hsend : (established false).exec (.send [1, 2] 2) = .ok allSent := rfl
  have hshut : allSent.exec .shutdown = .ok allSentShut := rfl
  have h1 : Step False (.ok (established false)) (.send [1, 2] 2) (.ok allSent) :=
    hsend ▸ Step.mk ⟨by decide, .inl (by decide)⟩
  have h2 : Step False (.ok allSent) .shutdown (.ok allSentShut) := hshut ▸ Step.mk trivial
  exact .cons h1 (.cons h2 (.nil _))

theorem graceful_allSent : Graceful (.ok allSent) ∧ Graceful (.ok allSentShut) := by
  have hidle : ∀ e ∈ allSentRun, ShutsIdle e.pre e.act := by
    intro e he s hs _ _
    rcases List.mem_cons.mp he with rfl | he
    · obtain rfl := Except.ok.inj hs
      rfl
    · obtain rfl := List.mem_singleton.mp he
      obtain rfl := Except.ok.inj hs
      rfl
  have hall := (graceful_iff false path_allSent).mpr hidle
  exact ⟨hall _ List.mem_cons_self, hall _ (List.mem_cons_of_mem _ List.mem_cons_self)⟩

/-! ## failing writes -/

/-- the events whose writes lose nothing -/
def LosesNothing (x : Except Fatal Sock) (a : Act) : Prop := ∀ s, x = .ok s → s.NoLoss a

/-- the process was not ended by `BufferIntoNet`, and the kernel has a prefix of what was sent -/
def Unbroken (x : Except Fatal Sock) : Prop :=
  x ≠ .error .bufferIntoNet ∧ ∀ t, x = .ok t → t.sent <+: t.accepted

/-- **No failing write, no hole.** -/
theorem prefix_of_noLoss (cb : Bool) {tr : List (Tr (Except Fatal Sock) Act)}
    (h : Path (Step True) (.ok (established cb)) tr)
    (hG : ∀ e ∈ tr, LosesNothing e.pre e.act) : ∀ e ∈ tr, Unbroken e.post := by
  have hstep : ∀ x a y, Fine x → Step True x a y → LosesNothing x a → Fine y ∧ Unbroken y := by
    intro x a y hx hst hl
    cases hst with
    | @mk s _ hf =>
      by_cases he : s.ShutsEarly a
      · rw [exec_shutsEarly he]
        exact ⟨fun _ h => (by cases h), fun h => (by cases h), fun _ h => (by cases h)⟩
      · obtain ⟨t, ht, hafter⟩ := exec_spec (hx s rfl) hf (hl s rfl) he
        rw [ht]
        refine ⟨fun t' e => ?_, fun h => (by cases h), fun t' e => ?_⟩
        · cases e
          exact hafter.good
        · cases e
          exact ⟨t.pending, hafter.good.stream⟩
  intro e he
  exact (h.guarded (P := fun e => Unbroken e.post) hstep (fine_established cb) hG e he).2.2

theorem prefix_halfSent : Unbroken (.ok halfSent) :=
  prefix_of_noLoss false (.cons (step_halfSent True) (.nil _))
    (by
      intro e he s hs
      obtain rfl := List.mem_singleton.mp he
      cases hs
      exact fun _ _ => .inl (by decide)) _ (List.mem_singleton.mpr rfl)

/-- a direct write that fails before one that does not, and a failing write of buffered bytes -/
theorem broken_runs :
    (∃ tr, Path (Step True) (.ok (established false)) tr ∧
      ∃ e ∈ tr, ∃ t, e.post = .ok t ∧ ¬ t.sent <+: t.accepted) ∧
    ∃ tr, Path (Step True) (.ok (established false)) tr ∧
      ∃ e ∈ tr, e.post = .error .bufferIntoNet := by
  constructor
  · have h1 : (established false).exec (.send [1] (-1)) =
        .ok { established false with accepted := [1] } := rfl
    have h2 : { established false with accepted := [1] }.exec (.send [2] 1) =
        .ok { established false with accepted := [1, 2], sent := [2] } := rfl
    have s1 : Step True (.ok (established false)) (.send [1] (-1))
        (.ok { established false with accepted := [1] }) :=
      h1 ▸ Step.mk ⟨by decide, .inr ⟨trivial, rfl⟩⟩
    have s2 : Step True (.ok { established false with accepted := [1] }) (.send [2] 1)
        (.ok { established false with accepted := [1, 2], sent := [2] }) :=
      h2 ▸ Step.mk ⟨by decide, .inl (by decide)⟩
    exact ⟨_, .cons s1 (.cons s2 (.nil _)), _, List.mem_cons_of_mem _ List.mem_cons_self, _, rfl,
      by decide⟩
  · have h2 : halfSent.exec (.writable (-1)) = .error .bufferIntoNet := rfl
    have s2 : Step True (.ok halfSent) (.writable (-1)) (.error .bufferIntoNet) :=
      h2 ▸ Step.mk ⟨rfl, fun _ => ⟨by omega, .inr ⟨trivial, rfl⟩⟩⟩
    exact ⟨_, .cons (step_halfSent True) (.cons s2 (.nil _)), _,
      List.mem_cons_of_mem _ List.mem_cons_self, rfl⟩

/-- a byte that is sent and taken at once -/
theorem send_byte {s : Sock} (hc : s.conn.status = .connected) (hd : s.WritesDirectly) (d : UInt8) :
    ∃ t, s.exec (.send [d] 1) = .ok t ∧ t.sent = s.sent ++ [d] ∧ t.accepted = s.accepted ++ [d] := by
  show ∃ t, (if s.conn.status ≠ .connected then .ok s else s.sendInLoop [d] 1) = .ok t ∧ _
  have hd' : { s with accepted := s.accepted ++ [d] }.WritesDirectly := hd
  rw [if_neg (not_not.mpr hc), sendInLoop]
  simp only [hd', ite_true]
  rw [if_neg (by omega), if_neg (by simp)]
  unfold writeCb
  split
  · exact ⟨_, rfl, rfl, rfl⟩
  · exact ⟨_, rfl, rfl, rfl⟩

/-- and the condition is needed: an event that loses something ends the process, or leaves out
bytes before all that is sent later -/
theorem broken_of_loss {s : Sock} {a : Act} (h : s.Good) (hf : s.Fits True a) (hl : ¬ s.NoLoss a) :
    s.exec a = .error .bufferIntoNet ∨
      ∃ t d data, s.exec a = .ok t ∧ t.accepted = s.accepted ++ d :: data ∧
        ∀ d' ≠ d, ∃ u, t.exec (.send [d'] 1) = .ok u ∧ ¬ u.sent <+: u.accepted := by
  cases a with
  | shutdown | ret => exact absurd trivial hl
  | writable n =>
    have hw : s.conn.channel.isWriting = true := by
      by_contra hw
      exact hl fun h => absurd h hw
    have h1 : ¬ 1 ≤ n := fun h1 => hl fun _ => h1
    left
    show s.bufferIntoNet n = _
    rw [bufferIntoNet, hw, if_neg (by simp), if_neg (by omega)]
  | send data n =>
    right
    have hc : s.conn.status = .connected := by
      by_contra hc
      exact hl fun h => absurd h hc
    have hd : s.WritesDirectly := by
      by_contra hd
      exact hl fun _ h => absurd h hd
    have hn : ¬ (0 ≤ n ∨ data = []) := fun h0 => hl fun _ _ => h0
    obtain ⟨hneg, hne⟩ := not_or.mp hn
    have hp := h.writesDirectly_iff.mp hd
    have hs : s.sent = s.accepted := by rw [← h.stream, hp, List.append_nil]
    cases data with
    | nil => exact absurd rfl hne
    | cons d data =>
      have hzero : n.toNat = 0 := by omega
      have hexec : s.exec (.send (d :: data) n) =
          .ok { s with accepted := s.accepted ++ d :: data, sent := s.sent ++ [] } := by
        show (if s.conn.status ≠ .connected then .ok s else s.sendInLoop (d :: data) n) = _
        rw [if_neg (not_not.mpr hc), sendInLoop]
        have hd' : { s with accepted := s.accepted ++ d :: data }.WritesDirectly := hd
        simp only [hd', ite_true, hzero, List.take_zero]
        rw [if_pos (by omega)]
      refine ⟨_, d, data, hexec, rfl, ?_⟩
      intro d' hne'
      obtain ⟨u, hu, hsent, hacc⟩ := send_byte
        (s := { s with accepted := s.accepted ++ d :: data, sent := s.sent ++ [] }) hc hd d'
      refine ⟨u, hu, ?_⟩
      rw [hsent, hacc, hs, List.append_nil, List.append_assoc, List.prefix_append_right_inj,
        List.cons_append, List.cons_prefix_cons]
      exact fun hpre => hne' hpre.1

end Sock

end Feipu
