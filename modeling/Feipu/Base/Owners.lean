import Feipu.Base.Close

/-!
# Who owns the connection when a functor runs

`sendInLoop` and `shutInLoop` hold `this`; somebody else has to keep the connection.

* `owned_when_run`   such a functor runs only while somebody owns the connection, in every run in
                     which it is pushed while `connections_` or a waiting `connectDestory` will
                     outlive it, and none waits when the connection is removed on its own loop.
-/

namespace Feipu
open Trace Memory

namespace SharedConn
variable {ι κ : Type} [DecidableEq ι] [DecidableEq κ] {s t : SharedConn ι κ} {l : ι}

/-- a functor is pushed while something that owns the connection will outlive it, and none that
holds `this` waits when `close_cb_` removes the connection at once -/
def Secured (s : SharedConn ι κ) (a : ConnAct ι κ) : Prop :=
  (∀ k task, a = .push k task →
    s.connections = true ∨ .connectDestory ∈ (s.queue s.loop).functions) ∧
  (a = .closeCb → s.main = s.loop → ∀ task ∈ (s.queue s.loop).functions, task.raw = false)

/-- a functor that holds `this` runs while somebody owns the connection -/
def RunsOwned (s : SharedConn ι κ) (a : ConnAct ι κ) : Prop :=
  ∀ l task read n, a = .runTask l task read n → task.raw = true → s.Owned

/-- every functor that holds `this` has something that outlives it -/
structure Covered (s : SharedConn ι κ) : Prop where
  queued : ∀ task ∈ (s.queue s.loop).functions, task.raw = true →
    s.connections = true ∨ .connectDestory ∈ (s.queue s.loop).functions
  batched : ∀ task ∈ (s.queue s.loop).batch, task.raw = true →
    s.connections = true ∨ .connectDestory ∈ s.tasks s.loop
  /-- `doFunctions` is not running during an event -/
  busy : s.handling ≠ none → (s.queue s.loop).batch = []
  closing : s.closing = true → s.handling ≠ none

omit [DecidableEq ι] [DecidableEq κ] in
theorem Covered.owned {task : ConnTask κ} (h : s.Covered)
    (hm : task ∈ (s.queue s.loop).batch) (hraw : task.raw = true) : s.Owned := by
  rcases h.batched task hm hraw with hc | hd
  · exact .inl hc
  · exact .inr (.inl ⟨s.loop, _, hd, rfl⟩)

omit [DecidableEq ι] [DecidableEq κ] in
/-- a step that leaves the queue of the loop and `connections_` alone -/
theorem Covered.of_same (h : s.Covered) (hl : t.loop = s.loop)
    (hq : t.queue s.loop = s.queue s.loop) (hc : t.connections = s.connections)
    (hh : t.handling ≠ none → s.handling ≠ none)
    (hcl : t.closing = true → t.handling ≠ none) : t.Covered := by
  refine ⟨?_, ?_, ?_, hcl⟩
  · rw [hl, hq, hc]
    exact h.queued
  · rw [tasks, hl, hq, hc]
    exact h.batched
  · intro hne
    rw [hl, hq]
    exact h.busy (hh hne)

omit [DecidableEq ι] [DecidableEq κ] in
theorem Covered.onSock (h : s.Covered) (ht : s.OnSock t) : t.Covered := by
  rw [ht]
  exact ⟨h.queued, h.batched, h.busy, h.closing⟩

omit [DecidableEq κ] in
theorem Covered.setQueue {q : LoopQueue κ} (h : s.Covered)
    (hq : l = s.loop →
      (∀ task ∈ q.functions, task.raw = true →
        s.connections = true ∨ .connectDestory ∈ q.functions) ∧
      (∀ task ∈ q.batch, task.raw = true →
        s.connections = true ∨ .connectDestory ∈ q.functions ++ q.batch ++ q.ran) ∧
      (s.handling ≠ none → q.batch = [])) : (s.setQueue l q).Covered := by
  rcases eq_or_ne s.loop l with rfl | hne
  · have hself : (s.setQueue s.loop q).queue s.loop = q := Function.update_self ..
    obtain ⟨hqueued, hbatched, hbusy⟩ := hq rfl
    refine ⟨?_, ?_, ?_, h.closing⟩
    · show ∀ task ∈ ((s.setQueue s.loop q).queue s.loop).functions, task.raw = true →
        s.connections = true ∨ _ ∈ ((s.setQueue s.loop q).queue s.loop).functions
      rw [hself]
      exact hqueued
    · show ∀ task ∈ ((s.setQueue s.loop q).queue s.loop).batch, task.raw = true →
        s.connections = true ∨ _ ∈ (s.setQueue s.loop q).tasks s.loop
      rw [tasks, hself]
      exact hbatched
    · show s.handling ≠ none → ((s.setQueue s.loop q).queue s.loop).batch = []
      rw [hself]
      exact hbusy
  · exact h.of_same rfl (Function.update_of_ne hne _ _) rfl id h.closing

omit [DecidableEq κ] in
/-- another functor in a queue -/
theorem Covered.enqueue {task : ConnTask κ} (h : s.Covered)
    (hs : l = s.loop → task.raw = true →
      s.connections = true ∨ .connectDestory ∈ (s.queue s.loop).functions) :
    (s.enqueue l task).Covered := by
  apply h.setQueue
  rintro rfl
  refine ⟨?_, ?_, h.busy⟩
  · intro task' hm hraw
    have hold : s.connections = true ∨ .connectDestory ∈ (s.queue s.loop).functions := by
      rcases List.mem_append.mp hm with hm | hm
      · exact h.queued task' hm hraw
      · exact hs rfl (List.mem_singleton.mp hm ▸ hraw)
    exact hold.imp_right (List.mem_append_left _)
  · intro task' hm hraw
    refine (h.batched task' hm hraw).imp_right ?_
    intro hmem
    rw [tasks] at hmem
    simp only [List.mem_append] at hmem ⊢
    exact hmem.imp_left (Or.imp_left Or.inl)

omit [DecidableEq κ] in
/-- a functor passes from the batch to those that have run -/
theorem Covered.take {task : ConnTask κ} (h : s.Covered)
    (hhead : (s.queue l).batch.head? = some task) : (s.take l task).Covered := by
  apply h.setQueue
  rintro rfl
  have hcons : (s.queue s.loop).batch = task :: (s.queue s.loop).batch.tail :=
    List.eq_cons_of_mem_head? hhead
  refine ⟨h.queued, ?_, ?_⟩
  · intro task' hm hraw
    refine (h.batched task' (List.mem_of_mem_tail hm) hraw).imp_right ?_
    intro hmem
    rw [tasks, hcons] at hmem
    simp only [List.mem_append, List.mem_cons, List.not_mem_nil, or_false] at hmem ⊢
    tauto
  · intro hne
    show (s.queue s.loop).batch.tail = []
    rw [h.busy hne]
    rfl

omit [DecidableEq κ] in
/-- `connections_` gives the connection to `connectDestory`, on another loop or at once -/
theorem Covered.removeConnection (h : s.Covered) (ht : s.removeConnection l = .ok t)
    (hloop : s.loop = l → (∀ task ∈ (s.queue s.loop).functions, task.raw = false) ∧
      (s.queue s.loop).batch = []) : t.Covered := by
  obtain ⟨-, -, ⟨hl, rfl⟩ | ⟨-, rfl⟩⟩ := removeConnection_ok ht
  · obtain ⟨hfun, hbatch⟩ := hloop hl
    refine ⟨?_, ?_, h.busy, h.closing⟩
    · intro task hm hraw
      rw [hfun task hm] at hraw
      cases hraw
    · intro task hm
      have hm : task ∈ (s.queue s.loop).batch := hm
      rw [hbatch] at hm
      exact absurd hm List.not_mem_nil
  · have hq : (({ s with connections := false } : SharedConn ι κ).enqueue s.loop
        .connectDestory).queue s.loop = { s.queue s.loop with
          functions := (s.queue s.loop).functions ++ [.connectDestory] } :=
      Function.update_self ..
    have hmem : .connectDestory ∈ ((({ s with connections := false } : SharedConn ι κ).enqueue
        s.loop .connectDestory).queue s.loop).functions := by
      rw [hq]
      simp
    refine ⟨fun _ _ _ => .inr hmem, fun _ _ _ => .inr ?_, ?_, h.closing⟩
    · exact List.mem_append_left _ (List.mem_append_left _ hmem)
    · intro hne
      show ((({ s with connections := false } : SharedConn ι κ).enqueue s.loop
        .connectDestory).queue s.loop).batch = []
      rw [hq]
      exact h.busy hne

/-- `removeConnection` is a functor only on another loop than the connection's -/
def Apart (s : SharedConn ι κ) : Prop := s.Made .removeConnection → s.main ≠ s.loop

theorem Apart.exec {a : ConnAct ι κ} (h : s.Apart) (hf : s.Fits a) (ht : s.exec a = .ok t) :
    t.Apart := by
  intro hmade
  rw [(keeps_exec ht).loop, (keeps_exec ht).main]
  rcases made_exec hf ht hmade with hs | ⟨k, rfl⟩ | hd | ⟨-, hne⟩
  · exact h hs
  · rcases hf with ⟨-, hd⟩ | ⟨_, _, -, hd⟩ <;> cases hd
  · cases hd
  · exact hne

theorem Covered.exec {a : ConnAct ι κ} (h : s.Covered) (ha : s.Apart) (hf : s.Fits a)
    (hs : s.Secured a) (ht : s.exec a = .ok t) : t.Covered := by
  cases a with
  | call k c =>
    obtain rfl := Except.ok.inj ht
    split <;> exact ⟨h.queued, h.batched, h.busy, h.closing⟩
  | disconnecting | bind | wakeup | poke | acquire | release =>
    obtain rfl := Except.ok.inj ht
    exact ⟨h.queued, h.batched, h.busy, h.closing⟩
  | push k task =>
    obtain rfl := Except.ok.inj ht
    have hc : (s.enqueue s.loop task).Covered := h.enqueue fun _ _ => hs.1 k task rfl
    exact ⟨hc.queued, hc.batched, hc.busy, hc.closing⟩
  | swap l =>
    obtain rfl := Except.ok.inj ht
    apply h.setQueue
    rintro rfl
    obtain ⟨-, -, hfree⟩ := hf
    refine ⟨fun _ hm => absurd hm List.not_mem_nil, ?_, fun hne => absurd (hfree rfl).2 hne⟩
    intro task hm hraw
    exact (h.queued task hm hraw).imp_right fun hd => by simpa using hd
  | runTask l task read n =>
    have htake := h.take hf.1
    rcases runTask_ok ht with ⟨-, -, hsock⟩ | ⟨rfl, hremove⟩ | ⟨-, hdestory⟩
    · exact htake.onSock hsock
    · refine htake.removeConnection hremove ?_
      intro hl
      have hmem : ConnTask.removeConnection ∈ s.waiting l :=
        List.mem_append_right _ (List.mem_of_head? hf.1)
      obtain ⟨hmain, -⟩ := removeConnection_ok hremove
      exact absurd (hmain.trans hl.symm) (ha (.inr ⟨l, hmem⟩))
    · obtain ⟨-, rfl⟩ := connectDestory_ok hdestory
      exact ⟨htake.queued, htake.batched, htake.busy, htake.closing⟩
  | endBatch l =>
    obtain rfl := Except.ok.inj ht
    apply h.setQueue
    rintro rfl
    refine ⟨h.queued, ?_, fun _ => hf.1⟩
    intro task hm
    have hm : task ∈ (s.queue s.loop).batch := hm
    rw [hf.1] at hm
    exact absurd hm List.not_mem_nil
  | handleEvent revents =>
    obtain rfl := Except.ok.inj ht
    obtain ⟨-, -, -, hfree, hbatch, -⟩ := hf
    exact ⟨h.queued, h.batched, fun _ => hbatch, fun _ hnone => (by cases hnone)⟩
  | expired => cases ht
  | callback call n =>
    have hne : s.handling ≠ none := by
      intro hnone
      rw [Fits, hnone] at hf
      cases hf.1
    have hnext : s.nextCall.handling ≠ none := by
      intro hnone
      exact hne (Option.map_eq_none_iff.mp hnone)
    have hc : s.nextCall.Covered := ⟨h.queued, h.batched, fun _ => h.busy hne, fun _ => hnext⟩
    rcases runCallback_ok (s := s.nextCall) ht with hsock | hclose
    · exact hc.onSock hsock
    · obtain ⟨sock, _, rfl⟩ := handleClose_ok hclose
      exact ⟨hc.queued, hc.batched, hc.busy, fun _ => hnext⟩
  | closeCb =>
    have hbatch := h.busy (h.closing hf.1)
    have hc : ({ s with closing := false } : SharedConn ι κ).Covered :=
      ⟨h.queued, h.batched, h.busy, fun hfalse => (by cases hfalse)⟩
    rcases closeCb_ok ht with ⟨hmain, ht⟩ | ⟨-, rfl⟩
    · exact hc.removeConnection ht fun _ => ⟨hs.2 rfl hmain, hbatch⟩
    · exact hc.enqueue fun _ hraw => (by cases hraw)
  | endEvent =>
    obtain rfl := Except.ok.inj ht
    refine ⟨h.queued, h.batched, fun hne => absurd rfl hne, ?_⟩
    intro hcl
    have hcl : s.closing = true := hcl
    rw [hf.2.2] at hcl
    cases hcl
  | send data n => exact h.onSock (onSock_exec ht (.inl ⟨_, _, rfl⟩))
  | shutdown => exact h.onSock (onSock_exec ht (.inr (.inl rfl)))
  | ret => exact h.onSock (onSock_exec ht (.inr (.inr rfl)))

/-! ## runs -/

omit [DecidableEq ι] [DecidableEq κ] in
theorem covered_start (main loop : ι) (cb : Bool) (holds : κ → Bool)
    (store : κ → Nat → Option UInt8) : (start main loop cb holds store).Covered :=
  ⟨fun _ hm => absurd hm List.not_mem_nil, fun _ hm => absurd hm List.not_mem_nil,
    fun hne => absurd rfl hne, fun hc => (by cases hc)⟩

omit [DecidableEq ι] [DecidableEq κ] in
theorem apart_start (main loop : ι) (cb : Bool) (holds : κ → Bool)
    (store : κ → Nat → Option UInt8) : (start main loop cb holds store).Apart := by
  rintro (⟨k, hk⟩ | ⟨l, hl⟩)
  · cases hk
  · exact absurd hl List.not_mem_nil

omit [DecidableEq ι] [DecidableEq κ] in
theorem runsOwned_of_covered {a : ConnAct ι κ} (hp : s.Placed) (h : s.Covered) (hf : s.Fits a) :
    s.RunsOwned a := by
  rintro l task read n rfl hraw
  have hbatch : task ∈ (s.queue l).batch := List.mem_of_head? hf.1
  obtain rfl := hp l task (List.mem_append_right _ hbatch) hraw
  exact h.owned hbatch hraw

/-- **No functor outlives its connection where something outlives the functor.** -/
theorem owned_when_run (main loop : ι) (cb : Bool) (holds : κ → Bool)
    (store : κ → Nat → Option UInt8) {tr : ConnRun ι κ}
    (h : Path Step (.ok (start main loop cb holds store)) tr)
    (hG : ∀ e ∈ tr, Alive (fun s => s.Secured e.act) e.pre) :
    ∀ e ∈ tr, Alive (fun s => s.RunsOwned e.act) e.pre := by
  have hstep : ∀ (x : Except Fatal (SharedConn ι κ)) (a : ConnAct ι κ) y,
      Alive (fun s => s.Placed ∧ s.Apart ∧ s.Covered) x → Step x a y →
      Alive (fun s => s.Secured a) x →
      Alive (fun s => s.Placed ∧ s.Apart ∧ s.Covered) y ∧ Alive (fun s => s.RunsOwned a) x := by
    intro x a y hx hst hs
    cases hst with
    | @mk s a hf =>
      obtain ⟨hp, ha, hc⟩ := hx s rfl
      exact ⟨fun t ht => ⟨hp.exec ht, ha.exec hf ht, hc.exec ha hf (hs s rfl) ht⟩,
        alive_ok (runsOwned_of_covered hp hc hf)⟩
  have h0 : Alive (fun s => s.Placed ∧ s.Apart ∧ s.Covered) (.ok (start main loop cb holds store)) :=
    alive_ok ⟨placed_start main loop cb holds store, apart_start main loop cb holds store,
      covered_start main loop cb holds store⟩
  intro e he
  exact (h.guarded (P := fun e => Alive (fun s => s.RunsOwned e.act) e.pre)
    (G := fun x a => Alive (fun s => s.Secured a) x) hstep h0 hG e he).2.2

/-- a connection of another loop than the server's, and a foreign thread that has the pointer -/
def apart : SharedConn Bool Unit := start true false false (fun _ => true) oneByte

/-- the functor of a foreign `send` runs after the close, before the server removes the connection -/
def sendAndClose : List (ConnAct Bool Unit) :=
  sendOne ++ hangUp ++ [.release (), .swap false, .runTask false (.sendInLoop () 0 [1]) [1] (-1)]

theorem runs_sendAndClose : apart.Runs sendAndClose := by
  refine ⟨⟨rfl, rfl, ?_⟩, _, rfl, .inr ⟨0, [1], rfl, rfl⟩, _, rfl, rfl, _, rfl, rfl, _, rfl,
    ⟨.inl rfl, rfl, rfl, ⟨rfl, rfl⟩, rfl, rfl⟩, _, rfl, ⟨rfl, rfl, rfl⟩, _, rfl, ⟨rfl, rfl⟩,
    _, rfl, ⟨rfl, rfl, rfl⟩, _, rfl, rfl, _, rfl, ⟨rfl, rfl, fun _ => ⟨⟨rfl, rfl⟩, rfl⟩⟩, _, rfl,
    ⟨rfl, ⟨⟨?_, trivial⟩, rfl⟩, fun _ => ⟨⟨rfl, rfl⟩, rfl⟩⟩, _, rfl, trivial⟩
  · intro data asked h
    cases h
    exact ⟨rfl, trivial⟩
  · intro b hb
    exact Option.some.inj hb

theorem owned_when_run_kept : apart.Runs sendAndClose ∧
    ∀ e ∈ apart.trace sendAndClose, Alive (fun s => s.RunsOwned e.act) e.pre := by
  refine ⟨runs_sendAndClose, ?_⟩
  have hkept : ∀ e ∈ apart.trace sendAndClose,
      Alive (fun s => s.connections = true ∧ s.main = true ∧ s.loop = false) e.pre := by
    iterate 11 refine List.forall_mem_cons.mpr ⟨alive_ok ⟨rfl, rfl, rfl⟩, ?_⟩
    exact fun _ h => absurd h List.not_mem_nil
  apply owned_when_run true false false (fun _ => true) oneByte runs_sendAndClose.path
  intro e he s hs
  obtain ⟨hconn, hmain, hloop⟩ := hkept e he s hs
  refine ⟨fun _ _ _ => .inl hconn, fun _ heq => ?_⟩
  rw [hmain, hloop] at heq
  cases heq

/-- the caller lets go of the pointer after the close -/
def sendThenRelease : List (ConnAct Unit Unit) :=
  sendOne ++ hangUp ++ [.release (), .swap (), .runTask () (.sendInLoop () 0 [1]) [1] (-1)]

theorem runs_sendThenRelease : fresh.Runs sendThenRelease := by
  refine ⟨fits_call, _, rfl, .inr ⟨0, [1], rfl, rfl⟩, _, rfl, rfl, _, rfl, rfl, _, rfl,
    ⟨.inl rfl, rfl, rfl, ⟨rfl, rfl⟩, rfl, rfl⟩, _, rfl, ⟨rfl, rfl, rfl⟩, _, rfl, ⟨rfl, rfl⟩,
    _, rfl, ⟨rfl, rfl, rfl⟩, _, rfl, rfl, _, rfl, ⟨rfl, rfl, fun _ => ⟨⟨rfl, rfl⟩, rfl⟩⟩, _, rfl,
    ⟨rfl, ⟨⟨?_, trivial⟩, rfl⟩, fun _ => ⟨⟨rfl, rfl⟩, rfl⟩⟩, _, rfl, trivial⟩
  intro b hb
  exact Option.some.inj hb

/-- nobody owns the connection any more when the functor runs -/
theorem runs_unowned : ¬ ∀ tr, Path Step (.ok fresh) tr →
    ∀ e ∈ tr, Alive (fun s => s.RunsOwned e.act) e.pre := by
  intro hall
  obtain ⟨e, he, s, hpre, hact, hconn, hqueue, hhandling, hholds⟩ :
      ∃ e ∈ fresh.trace sendThenRelease, ∃ s, e.pre = .ok s ∧
        e.act = .runTask () (.sendInLoop () 0 [1]) [1] (-1) ∧
        s.connections = false ∧ s.tasks () = [.sendInLoop () 0 [1]] ∧ s.handling = none ∧
        s.holds () = false :=
    ⟨_, List.getLast_mem (l := fresh.trace sendThenRelease) (List.cons_ne_nil _ _), _, rfl, rfl,
      rfl, rfl, rfl, rfl⟩
  have howned := hall _ runs_sendThenRelease.path e he s hpre () _ [1] (-1) hact rfl
  rcases howned with h | ⟨l, task, hm, hshared⟩ | h | ⟨k, h⟩
  · rw [hconn] at h
    cases h
  · rw [hqueue] at hm
    rw [List.mem_singleton.mp hm] at hshared
    cases hshared
  · exact h hhandling
  · rw [hholds] at h
    cases h

end SharedConn

end Feipu
