import Feipu.Base.EventLoop
import Feipu.Base.Lifecycle

/-!
# A server on its loops

`TcpServer` lets a loop take the functors one by one off a queue.  Here every loop is an
`EventLoop`: the functors go through `functions_` and the batch of `doFunctions`, other functors
stand between them, a thread that pushes owes a `wakeup` before it goes on, and a loop is asleep in
`poll` until its eventfd or a descriptor wakes it.

* `serving_refines`   the server is a `TcpServer` whose queues are what is left of the batches and
                      what has been pushed since, and each of its loops is an `EventLoop`;
* `settled`           when the loops sleep and no wakeup is on its way, every connection is
                      established and known everywhere, or removed everywhere;
* `never_stuck`       a loop that does not sleep like this has a thread that goes on.
-/

namespace Feipu
open Trace

/-! ## the functions of the server leave what the loops have in hand -/

/-- what the loops have in hand -/
structure InHand (ι : Type) where
  queue : ι → List Task
  held : ι → List Nat
  active : ι → List (Nat × BitVec 16)
  handling : ι → Option (Nat × List EventCall)

namespace TcpServer
variable {ι : Type} [DecidableEq ι]

/-- the server, with this in the hands of the loops and its own functors behind theirs -/
def behind (s : TcpServer ι) (w : InHand ι) : TcpServer ι :=
  { s with
    functions := fun l => w.queue l ++ s.functions l
    held := w.held
    active := w.active
    handling := w.handling }

theorem enqueue_behind (s : TcpServer ι) (w : InHand ι) (l : ι) (t : Task) :
    (s.behind w).enqueue l t = (s.enqueue l t).behind w := by
  unfold enqueue behind
  congr 1
  funext l'
  by_cases hl : l' = l
  · subst hl
    simp
  · simp [hl]

section
variable {w : InHand ι}

omit [DecidableEq ι] in
/-- what comes after a check -/
theorem bind_behind {α : Type} (x : Except Fatal α) {f g : α → Except Fatal (TcpServer ι)}
    (h : ∀ a, f a = (g a).map (behind · w)) : x >>= f = (x >>= g).map (behind · w) := by
  cases x with
  | error e => rfl
  | ok a => exact h a

omit [DecidableEq ι] in
theorem ite_behind {p : Prop} [Decidable p] {x y x' y' : Except Fatal (TcpServer ι)}
    (hx : x = x'.map (behind · w)) (hy : y = y'.map (behind · w)) :
    (if p then x else y) = (if p then x' else y').map (behind · w) := by
  split
  · exact hx
  · exact hy

variable (s : TcpServer ι) (l : ι) (c : Nat)

theorem connectEstablished_behind : (s.behind w).connectEstablished l c =
    (s.connectEstablished l c).map (behind · w) :=
  bind_behind (assertInLoopThread (s.conn c).loop l) fun _ => rfl

theorem connectDestory_behind : (s.behind w).connectDestory l c =
    (s.connectDestory l c).map (behind · w) := by
  apply bind_behind (assertInLoopThread (s.conn c).loop l)
  intro _
  exact bind_behind
    (asserted ((s.poller (s.conn c).loop).removeChannel (s.conn c).fd c (s.conn c).channel))
    fun _ => rfl

theorem removeConnection_behind : (s.behind w).removeConnection l c =
    (s.removeConnection l c).map (behind · w) := by
  apply bind_behind (assertInLoopThread s.main l)
  intro _
  apply bind_behind (asserted (if s.connections c then some () else none))
  intro _
  let r := ({ s with connections := Function.update s.connections c false } : TcpServer ι).logged c
    .removeConnection l
  exact ite_behind (connectDestory_behind r l c) (congrArg Except.ok (enqueue_behind r w _ _))

theorem whenOldConnDisconnect_behind : (s.behind w).whenOldConnDisconnect l c =
    (s.whenOldConnDisconnect l c).map (behind · w) :=
  ite_behind (removeConnection_behind s l c) (congrArg Except.ok (enqueue_behind s w _ _))

theorem handleClose_behind : (s.behind w).handleClose l c =
    (s.handleClose l c).map (behind · w) := by
  apply bind_behind (assertInLoopThread (s.conn c).loop l)
  intro _
  let r := ((s.setConn c { s.conn c with status := .disconnected }).setChannel c
    (s.conn c).channel.disableAll).logged c .handleClose l
  exact ite_behind rfl (whenOldConnDisconnect_behind r l c)

theorem whenNewConnection_behind (fd : Int) (nextloop : ι) :
    (s.behind w).whenNewConnection fd nextloop =
      (s.whenNewConnection fd nextloop).map (behind · w) := by
  let r : TcpServer ι := { s with
    nextConnId := s.nextConnId + 1
    conn := Function.update s.conn s.nextConnId { loop := nextloop, fd }
    connections := Function.update s.connections s.nextConnId true }
  exact ite_behind (connectEstablished_behind r s.main s.nextConnId)
    (congrArg Except.ok (enqueue_behind r w _ _))

theorem runTask_behind (t : Task) : (s.behind w).runTask l t = (s.runTask l t).map (behind · w) := by
  cases t with
  | connectEstablished c => exact connectEstablished_behind s l c
  | removeConnection c => exact removeConnection_behind s l c
  | connectDestory c => exact connectDestory_behind s l c

theorem runCallback_behind (n : Int) (drained : Bool) (call : EventCall) :
    (s.behind w).runCallback l c n drained call =
      (s.runCallback l c n drained call).map (behind · w) := by
  cases call with
  | close => exact handleClose_behind s l c
  | read =>
    apply bind_behind (assertInLoopThread (s.conn c).loop l)
    intro _
    exact ite_behind (handleClose_behind s l c) rfl
  | write =>
    apply bind_behind (assertInLoopThread (s.conn c).loop l)
    intro _
    refine ite_behind rfl (ite_behind ?_ rfl)
    cases drained with
    | false => rfl
    | true => rfl

theorem send_behind : (s.behind w).send l c = (s.send l c).map (behind · w) := by
  refine ite_behind rfl ?_
  exact bind_behind (assertInLoopThread (s.conn c).loop l) fun _ => rfl

theorem shutdown_behind : (s.behind w).shutdown l c = (s.shutdown l c).map (behind · w) := by
  refine ite_behind ?_ rfl
  apply bind_behind (assertInLoopThread (s.conn c).loop l)
  intro _
  exact ite_behind rfl rfl

end

/-! ## a function of the server pushes one functor at most -/

/-- the queues `q` have got one functor at most -/
def Posts (q : ι → List Task) (x : Except Fatal (TcpServer ι)) : Prop :=
  ∀ t, x = .ok t → t.functions = q ∨ ∃ l task, t.functions = Function.update q l (q l ++ [task])

theorem posts_ok {q : ι → List Task} {t : TcpServer ι} (h : t.functions = q) :
    Posts q (.ok t) := by
  intro t' ht'
  obtain rfl := Except.ok.inj ht'
  exact .inl h

theorem posts_enqueue {q : ι → List Task} {t : TcpServer ι} (h : t.functions = q) (l : ι)
    (task : Task) : Posts q (.ok (t.enqueue l task)) := by
  intro t' ht'
  obtain rfl := Except.ok.inj ht'
  exact .inr ⟨l, task, by rw [← h]; rfl⟩

theorem posts_error {q : ι → List Task} (f : Fatal) : Posts q (.error f) := by
  intro t ht
  cases ht

theorem posts_bind {α : Type} {q : ι → List Task} (x : Except Fatal α)
    {f : α → Except Fatal (TcpServer ι)} (h : ∀ a, Posts q (f a)) : Posts q (x >>= f) := by
  cases x with
  | error e => exact posts_error e
  | ok a => exact h a

theorem posts_ite {p : Prop} [Decidable p] {q : ι → List Task} {x y : Except Fatal (TcpServer ι)}
    (hx : Posts q x) (hy : Posts q y) : Posts q (if p then x else y) := by
  split
  · exact hx
  · exact hy

section
variable (s : TcpServer ι) (l : ι) (c : Nat)

theorem posts_connectEstablished : Posts s.functions (s.connectEstablished l c) :=
  posts_bind _ fun _ => posts_ok rfl

theorem posts_connectDestory : Posts s.functions (s.connectDestory l c) :=
  posts_bind _ fun _ => posts_bind _ fun _ => posts_ok rfl

theorem posts_removeConnection : Posts s.functions (s.removeConnection l c) := by
  apply posts_bind
  intro _
  apply posts_bind
  intro _
  let r := ({ s with connections := Function.update s.connections c false } : TcpServer ι).logged c
    .removeConnection l
  exact posts_ite (posts_connectDestory r l c) (posts_enqueue (t := r) rfl _ _)

theorem posts_whenOldConnDisconnect : Posts s.functions (s.whenOldConnDisconnect l c) :=
  posts_ite (posts_removeConnection s l c) (posts_enqueue rfl _ _)

theorem posts_handleClose : Posts s.functions (s.handleClose l c) := by
  apply posts_bind
  intro _
  let r := ((s.setConn c { s.conn c with status := .disconnected }).setChannel c
    (s.conn c).channel.disableAll).logged c .handleClose l
  exact posts_ite (posts_error _) (posts_whenOldConnDisconnect r l c)

theorem posts_runTask (t : Task) : Posts s.functions (s.runTask l t) := by
  cases t with
  | connectEstablished c => exact posts_connectEstablished s l c
  | removeConnection c => exact posts_removeConnection s l c
  | connectDestory c => exact posts_connectDestory s l c

theorem posts_runCallback (n : Int) (drained : Bool) (call : EventCall) :
    Posts s.functions (s.runCallback l c n drained call) := by
  cases call with
  | close => exact posts_handleClose s l c
  | read => exact posts_bind _ fun _ => posts_ite (posts_handleClose s l c) (posts_ok rfl)
  | write =>
    refine posts_bind _ fun _ => posts_ite (posts_ok rfl) (posts_ite (posts_ok ?_) (posts_error _))
    cases drained with
    | false => rfl
    | true => rfl

end

end TcpServer

/-! ## the loops of the server -/

/-- a functor in the queue of a loop -/
inductive ServerFunctor (τ : Type) where
  | life (t : Task)
  | other (cb : τ)

def ServerFunctor.task {τ : Type} : ServerFunctor τ → Option Task
  | .life t => some t
  | .other _ => none

/-- the server, its loops `ι` and the other threads `κ`.  The queues of `server` have what the
function that is running pushes, and are empty between the steps. -/
structure Serving (ι κ τ : Type) where
  server : TcpServer ι
  loop : ι → EventLoop (ServerFunctor τ) (ι ⊕ κ) := fun _ => {}

namespace Serving
variable {ι κ τ : Type} [DecidableEq ι] [DecidableEq κ]

def new (main : ι) : Serving ι κ τ where
  server := .new main

/-- the functors about connections that wait for a loop -/
def tasksIn (e : EventLoop (ServerFunctor τ) (ι ⊕ κ)) : List Task :=
  (e.batch ++ e.functions).filterMap ServerFunctor.task

/-- the server as the `TcpServer` that the loops make it -/
def view (s : Serving ι κ τ) : TcpServer ι :=
  { s.server with functions := fun l => tasksIn (s.loop l) }

/-- the thread is not between a push and its wakeup -/
def Free (s : Serving ι κ τ) (i : ι ⊕ κ) : Prop := ∀ l, (s.loop l).waking i = .no

/-- the thread of the loop `l` runs, outside `poll` -/
def Runs (s : Serving ι κ τ) (l : ι) : Prop := s.Free (.inl l) ∧ (s.loop l).pc ≠ .poll

def InEvents (s : Serving ι κ τ) (l : ι) : Prop :=
  s.Free (.inl l) ∧ ∃ wake, (s.loop l).pc = .events wake

/-- the thread `i` runs, and is not that of the loop `l` -/
def Foreign (s : Serving ι κ τ) (l : ι) (i : ι ⊕ κ) : Prop :=
  s.Free i ∧ i ≠ .inl l ∧ ∀ l', i = .inl l' → (s.loop l').pc ≠ .poll

/-- the steps of the loop `l` in which no connection is concerned -/
def Plain (s : Serving ι κ τ) (l : ι) : LoopAct (ServerFunctor τ) (ι ⊕ κ) → Prop
  | .start | .testLooping | .handleTimeEvent | .swapFunctions | .quitHere => s.Free (.inl l)
  | .handleWakeEvent => s.Free (.inl l) ∧ s.server.handling l = none
  | .handleEvents => s.Free (.inl l) ∧ s.server.active l = [] ∧ s.server.handling l = none
  | .runFunction => s.Free (.inl l) ∧ ∃ cb rest, (s.loop l).batch = .other cb :: rest
  | .runInLoopHere func => s.Free (.inl l) ∧ func.task = none
  | .runInLoop i func => s.Foreign l i ∧ func.task = none
  | .quit i => s.Foreign l i
  | .wakeup _ => True
  | .pollReturn _ => False

/-- each functor is pushed by the thread `i` in `runInLoop` -/
def Handed (i : ι ⊕ κ) (out : ι → List Task)
    (loop loop' : ι → EventLoop (ServerFunctor τ) (ι ⊕ κ)) : Prop :=
  ∀ l, (out l).foldlM (fun e t => e.exec (.runInLoop i (.life t))) (loop l) = some (loop' l)

/-- the thread `i` has run a function of the server, with the result `x` -/
inductive Ran (i : ι ⊕ κ) (loop : ι → EventLoop (ServerFunctor τ) (ι ⊕ κ)) :
    Except Fatal (TcpServer ι) → Except Fatal (Serving ι κ τ) → Prop where
  | ok {t : TcpServer ι} {loop' : ι → EventLoop (ServerFunctor τ) (ι ⊕ κ)} :
      Handed i t.functions loop loop' →
      Ran i loop (.ok t) (.ok { server := { t with functions := fun _ => [] }, loop := loop' })
  | error (f : Fatal) : Ran i loop (.error f) (.error f)

/-- who goes on in the step of the loop `l`: `none` where a thread begins something new -/
def mover (l : ι) : LoopAct (ServerFunctor τ) (ι ⊕ κ) → Option (ι ⊕ κ)
  | .testLooping | .handleWakeEvent | .handleEvents | .handleTimeEvent | .swapFunctions
  | .runFunction => some (.inl l)
  | .wakeup i => some i
  | _ => none

/-- one step.  The label is the thread that goes on with what it is at, or `none` where a thread
begins something new or the kernel has something new. -/
inductive Step : Except Fatal (Serving ι κ τ) → Option (ι ⊕ κ) → Except Fatal (Serving ι κ τ) →
    Prop where
  | loop {s : Serving ι κ τ} {l : ι} {a : LoopAct (ServerFunctor τ) (ι ⊕ κ)}
      {e : EventLoop (ServerFunctor τ) (ι ⊕ κ)} :
      s.Plain l a → (s.loop l).exec a = some e →
      Step (.ok s) (mover l a) (.ok { s with loop := Function.update s.loop l e })
  /-- the listening channel, on the main loop -/
  | accept {s : Serving ι κ τ} {x : Except Fatal (Serving ι κ τ)} (fd : Int) (nextloop : ι) :
      s.InEvents s.server.main → s.server.handling s.server.main = none →
      (∀ c, (s.server.conn c).isOpen = true → (s.server.conn c).fd ≠ fd) →
      Ran (.inl s.server.main) s.loop (s.server.whenNewConnection fd nextloop) x →
      Step (.ok s) none x
  | poll {s : Serving ι κ τ} (l : ι) (wake : Bool) (evs : List (Nat × BitVec 16))
      {e : EventLoop (ServerFunctor τ) (ι ⊕ κ)} :
      (s.loop l).exec (.pollReturn wake) = some e → s.server.Reports l evs →
      Step (.ok s) (if wake then some (.inl l) else none) (if s.server.pollAsserts l evs then
        .ok {
          server := { s.server with active := Function.update s.server.active l evs }
          loop := Function.update s.loop l e }
        else .error .assertion)
  | handleEvent {s : Serving ι κ τ} (l : ι) (c : Nat) (revents : BitVec 16)
      (rest : List (Nat × BitVec 16)) :
      s.InEvents l → s.server.active l = (c, revents) :: rest → s.server.handling l = none →
      Step (.ok s) (some (.inl l)) (if (s.server.conn c).isOpen then
        .ok { s with server := { s.server with
          active := Function.update s.server.active l rest
          handling := Function.update s.server.handling l (some (c, handleEvent revents)) } }
        else .error .assertion)
  | callback {s : Serving ι κ τ} {x : Except Fatal (Serving ι κ τ)} (l : ι) (c : Nat)
      (call : EventCall) (calls : List EventCall) (n : Int) (drained : Bool) :
      s.InEvents l → s.server.handling l = some (c, call :: calls) →
      Ran (.inl l) s.loop ({ s.server with
        handling := Function.update s.server.handling l (some (c, calls)) }.runCallback
          l c n drained call) x →
      Step (.ok s) (some (.inl l)) x
  | endEvent {s : Serving ι κ τ} (l : ι) (c : Nat) :
      s.InEvents l → s.server.handling l = some (c, []) →
      Step (.ok s) (some (.inl l)) (.ok { s with server := { s.server with
        handling := Function.update s.server.handling l none } })
  /-- the next functor of the batch is about a connection -/
  | runTask {s : Serving ι κ τ} {x : Except Fatal (Serving ι κ τ)} (l : ι) (t : Task)
      (rest : List (ServerFunctor τ)) {e : EventLoop (ServerFunctor τ) (ι ⊕ κ)} :
      s.Free (.inl l) → (s.loop l).batch = .life t :: rest →
      (s.loop l).exec .runFunction = some e →
      Ran (.inl l) (Function.update s.loop l e) ({ s.server with
        held := Function.update s.server.held l (t.conn :: s.server.held l) }.runTask l t) x →
      Step (.ok s) (some (.inl l)) x
  /-- the batch has run, and its functors are destructed -/
  | endBatch {s : Serving ι κ τ} (l : ι) {e : EventLoop (ServerFunctor τ) (ι ⊕ κ)} :
      s.Free (.inl l) → (s.loop l).batch = [] → (s.loop l).exec .runFunction = some e →
      Step (.ok s) (some (.inl l)) (.ok {
        server := { s.server with held := Function.update s.server.held l [] }
        loop := Function.update s.loop l e })
  | send {s : Serving ι κ τ} {x : Except Fatal (Serving ι κ τ)} (c : Nat) :
      s.Runs (s.server.conn c).loop → (s.server.conn c).isOpen = true →
      Ran (.inl (s.server.conn c).loop) s.loop (s.server.send (s.server.conn c).loop c) x →
      Step (.ok s) none x
  | shutdown {s : Serving ι κ τ} {x : Except Fatal (Serving ι κ τ)} (c : Nat) :
      s.Runs (s.server.conn c).loop → (s.server.conn c).isOpen = true →
      Ran (.inl (s.server.conn c).loop) s.loop (s.server.shutdown (s.server.conn c).loop c) x →
      Step (.ok s) none x
  | keep {s : Serving ι κ τ} (c : Nat) : (s.server.conn c).isOpen = true →
      Step (.ok s) none (.ok { s with server := { s.server with
        user := Function.update s.server.user c true } })
  | drop {s : Serving ι κ τ} (c : Nat) :
      Step (.ok s) none (.ok { s with server := { s.server with
        user := Function.update s.server.user c false } })
  | destruct {s : Serving ι κ τ} (c : Nat) :
      (s.server.conn c).isOpen = true → s.view.Unowned c →
      Step (.ok s) none (.ok { s with
        server := s.server.setConn c { s.server.conn c with isOpen := false } })

/-! ## what a step does to the functors of a loop -/

section
variable {e e' : EventLoop (ServerFunctor τ) (ι ⊕ κ)}

omit [DecidableEq ι] [DecidableEq κ] in
theorem tasksIn_congr (hb : e'.batch = e.batch) (hf : e'.functions = e.functions) :
    tasksIn e' = tasksIn e := by
  unfold tasksIn
  rw [hb, hf]

/-- a push in `runInLoop` -/
theorem exec_runInLoop {i : ι ⊕ κ} {func : ServerFunctor τ}
    (h : e.exec (.runInLoop i func) = some e') :
    tasksIn e' = tasksIn e ++ func.task.toList ∧ e'.pc = e.pc := by
  simp only [EventLoop.exec, Option.ite_none_right_eq_some, Option.some.injEq] at h
  obtain ⟨-, rfl⟩ := h
  refine ⟨?_, rfl⟩
  show (e.batch ++ (e.functions ++ [func])).filterMap _ = _
  rw [← List.append_assoc, List.filterMap_append]
  rw [List.filterMap_cons]
  cases func.task with
  | none => rfl
  | some t => rfl

/-- the thread pushes the functors in turn -/
theorem pushes_spec {i : ι ⊕ κ} {out : List Task}
    (h : out.foldlM (fun e t => e.exec (.runInLoop i (.life t))) e = some e') :
    tasksIn e' = tasksIn e ++ out ∧ e'.pc = e.pc ∧ Reach EventLoop.Step e e' := by
  induction out generalizing e with
  | nil =>
    obtain rfl := Option.some.inj h
    exact ⟨(List.append_nil _).symm, rfl, .refl⟩
  | cons t out ih =>
    rw [List.foldlM_cons] at h
    obtain ⟨e1, h1, h2⟩ := Option.bind_eq_some_iff.mp h
    obtain ⟨htasks1, hpc1⟩ := exec_runInLoop h1
    obtain ⟨htasks, hpc, hreach⟩ := ih h2
    refine ⟨?_, hpc.trans hpc1, (Reach.refl.snoc (.mk h1)).trans hreach⟩
    rw [htasks, htasks1, List.append_assoc]
    rfl

/-- a functor of the batch is taken out -/
theorem exec_runFunction_cons {func : ServerFunctor τ} {rest : List (ServerFunctor τ)}
    (hb : e.batch = func :: rest) (h : e.exec .runFunction = some e') :
    e.pc = .run ∧ e'.pc = .run ∧ tasksIn e = func.task.toList ++ tasksIn e' := by
  simp only [EventLoop.exec, hb, Option.ite_none_right_eq_some, Option.some.injEq] at h
  obtain ⟨hpc, rfl⟩ := h
  refine ⟨hpc, hpc, ?_⟩
  unfold tasksIn
  rw [hb, List.cons_append, List.filterMap_cons]
  cases func.task with
  | none => rfl
  | some t => rfl

theorem exec_runFunction_nil (hb : e.batch = []) (h : e.exec .runFunction = some e') :
    e.pc = .run ∧ tasksIn e' = tasksIn e := by
  simp only [EventLoop.exec, hb, Option.ite_none_right_eq_some, Option.some.injEq] at h
  obtain ⟨hpc, rfl⟩ := h
  exact ⟨hpc, tasksIn_congr hb.symm rfl⟩

theorem exec_pollReturn {wake : Bool} (h : e.exec (.pollReturn wake) = some e') :
    e.pc = .poll ∧ e'.pc = .events wake ∧ tasksIn e' = tasksIn e := by
  simp only [EventLoop.exec, Option.ite_none_right_eq_some, Option.some.injEq] at h
  obtain ⟨⟨hpc, -⟩, rfl⟩ := h
  exact ⟨hpc, rfl, rfl⟩

end

/-! ## the states between the steps -/

/-- the loops have in hand what their place allows -/
structure Placed (s : Serving ι κ τ) : Prop where
  outbox : s.server.functions = fun _ => []
  sound : ∀ l, (s.loop l).Sound
  events : ∀ l, (∀ wake, (s.loop l).pc ≠ .events wake) →
    s.server.active l = [] ∧ s.server.handling l = none
  held : ∀ l, (s.loop l).pc ≠ .run → s.server.held l = []

/-- a plain step leaves the functors about connections, and the thread where it may be -/
theorem plain_spec {s : Serving ι κ τ} (hp : s.Placed) {l : ι}
    {a : LoopAct (ServerFunctor τ) (ι ⊕ κ)} (ha : s.Plain l a)
    {e : EventLoop (ServerFunctor τ) (ι ⊕ κ)} (h : (s.loop l).exec a = some e) :
    tasksIn e = tasksIn (s.loop l) ∧
      ((∀ wake, e.pc ≠ .events wake) → s.server.active l = [] ∧ s.server.handling l = none) ∧
      (e.pc ≠ .run → s.server.held l = []) := by
  cases a with
  | start | testLooping | handleTimeEvent =>
    simp only [EventLoop.exec, Option.ite_none_right_eq_some, Option.some.injEq] at h
    obtain ⟨hpc, rfl⟩ := h
    exact ⟨rfl, fun _ => hp.events l (by simp [hpc]), fun _ => hp.held l (by simp [hpc])⟩
  | swapFunctions =>
    simp only [EventLoop.exec, Option.ite_none_right_eq_some, Option.some.injEq] at h
    obtain ⟨hpc, rfl⟩ := h
    have hb : (s.loop l).batch = [] := (hp.sound l).batch (by simp [hpc])
    refine ⟨?_, fun _ => hp.events l (by simp [hpc]), fun _ => hp.held l (by simp [hpc])⟩
    show ((s.loop l).functions ++ []).filterMap _ = ((s.loop l).batch ++ _).filterMap _
    rw [hb, List.append_nil, List.nil_append]
  | handleWakeEvent =>
    simp only [EventLoop.exec] at h
    split at h
    · rename_i hpc
      obtain rfl := Option.some.inj h
      exact ⟨rfl, fun hne => absurd rfl (hne false), fun _ => hp.held l (by simp [hpc])⟩
    · cases h
  | handleEvents =>
    obtain ⟨-, hactive, hhandling⟩ := ha
    simp only [EventLoop.exec] at h
    split at h
    · rename_i wake hpc
      obtain rfl := Option.some.inj h
      refine ⟨?_, fun _ => ⟨hactive, hhandling⟩, fun _ => hp.held l (by simp [hpc])⟩
      cases wake with
      | false => rfl
      | true => rfl
    · cases h
  | runFunction =>
    obtain ⟨-, cb, rest, hb⟩ := ha
    obtain ⟨hpc, hpc', htasks⟩ := exec_runFunction_cons hb h
    exact ⟨htasks.symm, fun _ => hp.events l (by simp [hpc]), fun hne => absurd hpc' hne⟩
  | runInLoopHere func =>
    simp only [EventLoop.exec, Option.ite_none_left_eq_some, Option.some.injEq] at h
    obtain ⟨-, rfl⟩ := h
    exact ⟨rfl, hp.events l, hp.held l⟩
  | runInLoop i func =>
    obtain ⟨htasks, hpc⟩ := exec_runInLoop h
    rw [ha.2] at htasks
    refine ⟨htasks.trans (List.append_nil _), ?_, ?_⟩
    · rw [hpc]
      exact hp.events l
    · rw [hpc]
      exact hp.held l
  | quit i =>
    simp only [EventLoop.exec, Option.ite_none_right_eq_some, Option.some.injEq] at h
    obtain ⟨-, rfl⟩ := h
    exact ⟨rfl, hp.events l, hp.held l⟩
  | quitHere =>
    simp only [EventLoop.exec] at h
    split at h
    · cases h
    · cases h
    · obtain rfl := Option.some.inj h
      exact ⟨rfl, hp.events l, hp.held l⟩
  | wakeup i =>
    simp only [EventLoop.exec, Option.ite_none_right_eq_some, Option.some.injEq] at h
    obtain ⟨-, rfl⟩ := h
    obtain ⟨hpc, hf, hb, -, -⟩ := (s.loop l).writeWakeup_keeps
    refine ⟨tasksIn_congr hb hf, fun hne => hp.events l (hpc ▸ hne), fun hne => hp.held l (hpc ▸ hne)⟩
  | pollReturn wake => exact ha.elim

/-! ## every step is one of the `TcpServer` -/

/-- a function of the server that does not see what the loops have in hand -/
def Alike (f : TcpServer ι → Except Fatal (TcpServer ι)) : Prop :=
  ∀ s w, f (s.behind w) = (f s).map (TcpServer.behind · w)

omit [DecidableEq ι] in
/-- and so leaves it -/
theorem Alike.keeps {f : TcpServer ι → Except Fatal (TcpServer ι)} (hf : Alike f)
    {r t : TcpServer ι} (h : f r = .ok t) :
    t.held = r.held ∧ t.active = r.active ∧ t.handling = r.handling := by
  have hr := hf r ⟨fun _ => [], r.held, r.active, r.handling⟩
  have hself : r.behind ⟨fun _ => [], r.held, r.active, r.handling⟩ = r := rfl
  rw [hself, h] at hr
  have ht : t = t.behind ⟨fun _ => [], r.held, r.active, r.handling⟩ := Except.ok.inj hr
  rw [ht]
  exact ⟨rfl, rfl, rfl⟩

/-- the loops of the second state are reached from those of the first -/
def LoopsReach (loop loop' : ι → EventLoop (ServerFunctor τ) (ι ⊕ κ)) : Prop :=
  ∀ l, Reach EventLoop.Step (loop l) (loop' l)

theorem handed_none {i : ι ⊕ κ} (loop : ι → EventLoop (ServerFunctor τ) (ι ⊕ κ)) :
    Handed i (fun _ => []) loop loop := fun _ => rfl

theorem handed_one {i : ι ⊕ κ} {loop : ι → EventLoop (ServerFunctor τ) (ι ⊕ κ)} {l : ι} {t : Task}
    {e : EventLoop (ServerFunctor τ) (ι ⊕ κ)}
    (he : (loop l).exec (.runInLoop i (.life t)) = some e) :
    Handed i (Function.update (fun _ => []) l [t]) loop (Function.update loop l e) := by
  intro l'
  by_cases hl : l' = l
  · subst hl
    rw [Function.update_self, Function.update_self, List.foldlM_cons, he]
    rfl
  · rw [Function.update_of_ne hl, Function.update_of_ne hl]
    rfl

/-- what the loops of a state have in hand -/
def inHand (s : Serving ι κ τ) : InHand ι where
  queue l := tasksIn (s.loop l)
  held := s.server.held
  active := s.server.active
  handling := s.server.handling

omit [DecidableEq ι] [DecidableEq κ] in
theorem view_eq {s : Serving ι κ τ} (h : s.server.functions = fun _ => []) :
    s.view = s.server.behind s.inHand := by
  have hq : (fun l => tasksIn (s.loop l)) = fun l => tasksIn (s.loop l) ++ s.server.functions l := by
    funext l
    rw [h, List.append_nil]
  exact congrArg (fun q => ({ s.server with functions := q } : TcpServer ι)) hq

theorem sound_reach {e e' : EventLoop (ServerFunctor τ) (ι ⊕ κ)} (h : Reach EventLoop.Step e e')
    (he : e.Sound) : e'.Sound := by
  refine h.inv (fun e1 a e2 hs hst => ?_) he
  cases hst with
  | mk ha => exact EventLoop.sound_step hs ha

/-- **A function of the server** runs on a thread -/
theorem ran_spec {f : TcpServer ι → Except Fatal (TcpServer ι)} (hf : Alike f)
    {s : Serving ι κ τ} (hp : s.Placed) {i : ι ⊕ κ} {x : Except Fatal (Serving ι κ τ)}
    (h : Ran i s.loop (f s.server) x) :
    x.map view = f s.view ∧ ∀ t, x = .ok t → t.Placed ∧ LoopsReach s.loop t.loop := by
  rw [view_eq hp.outbox, hf]
  generalize hr : f s.server = r at h
  cases h with
  | error f => exact ⟨rfl, fun t ht => (by cases ht)⟩
  | @ok t loop' hout =>
    obtain ⟨hheld, hactive, hhandling⟩ := hf.keeps hr
    have hspec := fun l => pushes_spec (hout l)
    have hreach : LoopsReach s.loop loop' := fun l => (hspec l).2.2
    refine ⟨?_, fun t' ht' => ?_⟩
    · have hq : (fun l => tasksIn (loop' l)) = fun l => tasksIn (s.loop l) ++ t.functions l := by
        funext l
        exact (hspec l).1
      have hb : t.behind s.inHand =
          { t with functions := fun l => tasksIn (s.loop l) ++ t.functions l } := by
        unfold TcpServer.behind inHand
        rw [← hheld, ← hactive, ← hhandling]
      show Except.ok ({ t with functions := fun l => tasksIn (loop' l) } : TcpServer ι) = .ok _
      rw [hq]
      exact congrArg Except.ok hb.symm
    · obtain rfl := Except.ok.inj ht'
      refine ⟨⟨rfl, fun l => sound_reach (hreach l) (hp.sound l), fun l hne => ?_, fun l hne => ?_⟩,
        hreach⟩
      · show t.active l = [] ∧ t.handling l = none
        rw [hactive, hhandling]
        exact hp.events l ((hspec l).2.1 ▸ hne)
      · show t.held l = []
        rw [hheld]
        exact hp.held l ((hspec l).2.1 ▸ hne)

/-- one loop goes on, and what it has in hand with it -/
theorem Placed.turn {s : Serving ι κ τ} (hp : s.Placed) {l : ι}
    {e : EventLoop (ServerFunctor τ) (ι ⊕ κ)} (hreach : Reach EventLoop.Step (s.loop l) e)
    {r : TcpServer ι} (hout : r.functions = fun _ => [])
    (hother : ∀ l' ≠ l, r.active l' = s.server.active l' ∧ r.handling l' = s.server.handling l' ∧
      r.held l' = s.server.held l')
    (hevents : (∀ wake, e.pc ≠ .events wake) → r.active l = [] ∧ r.handling l = none)
    (hheld : e.pc ≠ .run → r.held l = []) :
    Placed (τ := τ) ⟨r, Function.update s.loop l e⟩ ∧
      LoopsReach s.loop (Function.update s.loop l e) := by
  have hloops : LoopsReach s.loop (Function.update s.loop l e) :=
    (Function.forall_update_iff s.loop fun l' => Reach EventLoop.Step (s.loop l')).mpr
      ⟨hreach, fun _ _ => .refl⟩
  refine ⟨⟨hout, fun l' => sound_reach (hloops l') (hp.sound l'), ?_, ?_⟩, hloops⟩
  · refine (Function.forall_update_iff s.loop fun l' e' => (∀ wake, e'.pc ≠ .events wake) →
      r.active l' = [] ∧ r.handling l' = none).mpr ⟨hevents, fun l' hl hne => ?_⟩
    obtain ⟨ha, hh, -⟩ := hother l' hl
    rw [ha, hh]
    exact hp.events l' hne
  · exact (Function.forall_update_iff s.loop fun l' e' => e'.pc ≠ .run → r.held l' = []).mpr
      ⟨hheld, fun l' hl hne => (hother l' hl).2.2.trans (hp.held l' hne)⟩

omit [DecidableEq κ] in
/-- the queues when one loop goes on -/
theorem tasksIn_update (s : Serving ι κ τ) (l : ι) (e : EventLoop (ServerFunctor τ) (ι ⊕ κ)) :
    (fun l' => tasksIn (Function.update s.loop l e l')) =
      Function.update (fun l' => tasksIn (s.loop l')) l (tasksIn e) := by
  funext l'
  by_cases hl : l' = l
  · subst hl
    rw [Function.update_self, Function.update_self]
  · rw [Function.update_of_ne hl, Function.update_of_ne hl]

omit [DecidableEq κ] in
theorem tasksIn_update_self (s : Serving ι κ τ) {l : ι}
    {e : EventLoop (ServerFunctor τ) (ι ⊕ κ)} (h : tasksIn e = tasksIn (s.loop l)) :
    (fun l' => tasksIn (Function.update s.loop l e l')) = fun l' => tasksIn (s.loop l') := by
  rw [tasksIn_update, h]
  exact Function.update_eq_self l _

omit [DecidableEq ι] [DecidableEq κ] in
/-- the view of a state in which the queues are `q` -/
theorem view_congr {s : Serving ι κ τ} {q : ι → List Task}
    (h : (fun l => tasksIn (s.loop l)) = q) : s.view = { s.server with functions := q } :=
  congrArg (fun q => ({ s.server with functions := q } : TcpServer ι)) h

/-- what the loops have in hand changes, and their places do not -/
theorem Placed.withServer {s : Serving ι κ τ} (hp : s.Placed) {l : ι} {r : TcpServer ι}
    (hout : r.functions = fun _ => []) (hheld : r.held = s.server.held)
    (hother : ∀ l' ≠ l, r.active l' = s.server.active l' ∧ r.handling l' = s.server.handling l')
    (hevents : (∀ wake, (s.loop l).pc ≠ .events wake) → r.active l = [] ∧ r.handling l = none) :
    Placed ⟨r, s.loop⟩ ∧ LoopsReach s.loop s.loop := by
  have hturn := hp.turn (l := l) (r := r) .refl hout
    (fun l' hl => ⟨(hother l' hl).1, (hother l' hl).2, congrFun hheld l'⟩) hevents
    (fun hne => (congrFun hheld l).trans (hp.held l hne))
  rw [Function.update_eq_self] at hturn
  exact hturn

/-- **One step** of a thread is a step of the `TcpServer`, or none -/
theorem step_spec {s : Serving ι κ τ} (hp : s.Placed) {x : Except Fatal (Serving ι κ τ)}
    {i : Option (ι ⊕ κ)}
    (h : Step (.ok s) i x) :
    Reach TcpServer.Step (.ok s.view) (x.map view) ∧
      ∀ t, x = .ok t → t.Placed ∧ LoopsReach s.loop t.loop := by
  have hone : ∀ {y : Except Fatal (TcpServer ι)}, TcpServer.Step (.ok s.view) () y →
      Reach TcpServer.Step (.ok s.view) y := fun hst => Reach.refl.snoc hst
  cases h with
  | @loop _ l a e ha he =>
    obtain ⟨htasks, hevents, hheld⟩ := plain_spec hp ha he
    refine ⟨?_, fun t ht => ?_⟩
    · have hview : view ⟨s.server, Function.update s.loop l e⟩ = s.view :=
        view_congr (tasksIn_update_self s htasks)
      show Reach TcpServer.Step _ (.ok _)
      rw [hview]
      exact .refl
    · obtain rfl := Except.ok.inj ht
      exact hp.turn (Reach.refl.snoc (.mk he)) hp.outbox (fun _ _ => ⟨rfl, rfl, rfl⟩) hevents hheld
  | accept fd nextloop hin hnone hfd hran =>
    obtain ⟨hx, hnext⟩ := ran_spec (f := fun r => r.whenNewConnection fd nextloop)
      (fun r w => TcpServer.whenNewConnection_behind r fd nextloop) hp hran
    rw [hx]
    exact ⟨hone (.accept fd nextloop hfd), hnext⟩
  | @poll _ l wake evs e he hr =>
    obtain ⟨hpc, hpc', htasks⟩ := exec_pollReturn he
    have hidle := hp.events l (by simp [hpc])
    have hheld := hp.held l (by simp [hpc])
    have hstep := hone (.poll l evs hidle.1 hidle.2 hheld hr)
    change Reach TcpServer.Step _ (if s.server.pollAsserts l evs then _ else _) at hstep
    by_cases hassert : s.server.pollAsserts l evs = true
    · rw [if_pos hassert] at hstep ⊢
      refine ⟨?_, fun t ht => ?_⟩
      · have hview := view_congr (s := ⟨{ s.server with
          active := Function.update s.server.active l evs }, Function.update s.loop l e⟩)
          (tasksIn_update_self s htasks)
        show Reach TcpServer.Step _ (.ok _)
        rw [hview]
        exact hstep
      · obtain rfl := Except.ok.inj ht
        refine hp.turn (Reach.refl.snoc (.mk he)) hp.outbox ?_ ?_ (fun _ => hheld)
        · exact fun l' hl => ⟨Function.update_of_ne hl _ _, rfl, rfl⟩
        · exact fun hne => absurd hpc' (hne wake)
    · rw [if_neg hassert] at hstep ⊢
      exact ⟨hstep, fun t ht => (by cases ht)⟩
  | handleEvent l c revents rest hin ha hh =>
    have hstep := hone (.handleEvent l c revents rest ha hh)
    change Reach TcpServer.Step _ (if (s.server.conn c).isOpen then _ else _) at hstep
    by_cases hopen : (s.server.conn c).isOpen = true
    · rw [if_pos hopen] at hstep ⊢
      refine ⟨hstep, fun t ht => ?_⟩
      obtain rfl := Except.ok.inj ht
      obtain ⟨wake, hpc⟩ := hin.2
      refine hp.withServer (l := l) hp.outbox rfl ?_ (fun hne => absurd hpc (hne wake))
      exact fun l' hl => ⟨Function.update_of_ne hl _ _, Function.update_of_ne hl _ _⟩
    · rw [if_neg hopen] at hstep ⊢
      exact ⟨hstep, fun t ht => (by cases ht)⟩
  | callback l c call calls n drained hin hh hran =>
    obtain ⟨wake, hpc⟩ := hin.2
    let r : TcpServer ι := { s.server with
      handling := Function.update s.server.handling l (some (c, calls)) }
    have hp' : Placed ⟨r, s.loop⟩ := by
      refine (hp.withServer (l := l) (r := r) hp.outbox rfl ?_ fun hne => absurd hpc (hne wake)).1
      exact fun l' hl => ⟨rfl, Function.update_of_ne hl _ _⟩
    obtain ⟨hx, hnext⟩ := ran_spec (f := fun r => r.runCallback l c n drained call)
      (fun r w => TcpServer.runCallback_behind r l c n drained call) hp' hran
    rw [hx]
    exact ⟨hone (.callback l c call calls n drained hh), hnext⟩
  | endEvent l c hin hh =>
    obtain ⟨wake, hpc⟩ := hin.2
    refine ⟨hone (.endEvent l c hh), fun t ht => ?_⟩
    obtain rfl := Except.ok.inj ht
    refine hp.withServer (l := l) hp.outbox rfl ?_ (fun hne => absurd hpc (hne wake))
    exact fun l' hl => ⟨rfl, Function.update_of_ne hl _ _⟩
  | @runTask _ x l t rest e hfree hb he hran =>
    obtain ⟨hpc, hpc', htasks⟩ := exec_runFunction_cons hb he
    have hidle := hp.events l (by simp [hpc])
    let s' : Serving ι κ τ := {
      server := { s.server with
        held := Function.update s.server.held l (t.conn :: s.server.held l) }
      loop := Function.update s.loop l e }
    obtain ⟨hp', hloops⟩ : s'.Placed ∧ LoopsReach s.loop s'.loop := by
      refine hp.turn (Reach.refl.snoc (.mk he)) hp.outbox ?_ (fun _ => hidle)
        (fun hne => absurd hpc' hne)
      exact fun l' hl => ⟨rfl, rfl, Function.update_of_ne hl _ _⟩
    obtain ⟨hx, hnext⟩ := ran_spec (f := fun r => r.runTask l t)
      (fun r w => TcpServer.runTask_behind r l t) hp' hran
    rw [hx, view_congr (s := s') (tasksIn_update s l e)]
    have hq : s.view.functions l = t :: tasksIn e := htasks
    refine ⟨hone (.runTask l t (tasksIn e) hq hidle.1 hidle.2), fun u hu => ?_⟩
    obtain ⟨hpu, hlu⟩ := hnext u hu
    exact ⟨hpu, fun l' => (hloops l').trans (hlu l')⟩
  | @endBatch _ l e hfree hb he =>
    obtain ⟨hpc, htasks⟩ := exec_runFunction_nil hb he
    refine ⟨?_, fun t ht => ?_⟩
    · have hview := view_congr (s := ⟨{ s.server with
        held := Function.update s.server.held l [] }, Function.update s.loop l e⟩)
        (tasksIn_update_self s htasks)
      show Reach TcpServer.Step _ (.ok _)
      rw [hview]
      exact hone (.endBatch l)
    · obtain rfl := Except.ok.inj ht
      refine hp.turn (Reach.refl.snoc (.mk he)) hp.outbox ?_ (fun _ => hp.events l (by simp [hpc]))
        (fun _ => Function.update_self _ _ _)
      exact fun l' hl => ⟨rfl, rfl, Function.update_of_ne hl _ _⟩
  | send c hr ho hran =>
    obtain ⟨hx, hnext⟩ := ran_spec (f := fun r => r.send _ c)
      (fun r w => TcpServer.send_behind r _ c) hp hran
    rw [hx]
    exact ⟨hone (.send c ho), hnext⟩
  | shutdown c hr ho hran =>
    obtain ⟨hx, hnext⟩ := ran_spec (f := fun r => r.shutdown _ c)
      (fun r w => TcpServer.shutdown_behind r _ c) hp hran
    rw [hx]
    exact ⟨hone (.shutdown c ho), hnext⟩
  | keep c ho =>
    refine ⟨hone (.keep c ho), fun t ht => ?_⟩
    obtain rfl := Except.ok.inj ht
    exact ⟨⟨hp.outbox, hp.sound, hp.events, hp.held⟩, fun _ => .refl⟩
  | drop c =>
    refine ⟨hone (.drop c), fun t ht => ?_⟩
    obtain rfl := Except.ok.inj ht
    exact ⟨⟨hp.outbox, hp.sound, hp.events, hp.held⟩, fun _ => .refl⟩
  | destruct c ho hu =>
    refine ⟨hone (.destruct c ho hu), fun t ht => ?_⟩
    obtain rfl := Except.ok.inj ht
    exact ⟨⟨hp.outbox, hp.sound, hp.events, hp.held⟩, fun _ => .refl⟩

/-- a run from a new server has reached `x` as a `TcpServer` and each loop as an `EventLoop` -/
structure Follows (main : ι) (x : Except Fatal (Serving ι κ τ)) : Prop where
  server : Reach TcpServer.Step (.ok (.new main)) (x.map view)
  placed : ∀ s, x = .ok s → s.Placed
  loops : ∀ s, x = .ok s → LoopsReach (fun _ => {}) s.loop

theorem follows_new (main : ι) : Follows main (.ok (new main : Serving ι κ τ)) where
  server := .refl
  placed s hs := by
    obtain rfl := Except.ok.inj hs
    exact ⟨rfl, fun _ => EventLoop.sound_new, fun _ _ => ⟨rfl, rfl⟩, fun _ _ => rfl⟩
  loops s hs := by
    obtain rfl := Except.ok.inj hs
    exact fun _ => .refl

theorem follows_step {main : ι} {x y : Except Fatal (Serving ι κ τ)} (h : Follows main x)
    {i : Option (ι ⊕ κ)} (hst : Step x i y) : Follows main y := by
  obtain ⟨s, rfl⟩ : ∃ s, x = .ok s := by cases hst <;> exact ⟨_, rfl⟩
  obtain ⟨hstep, hnext⟩ := step_spec (h.placed s rfl) hst
  refine ⟨h.server.trans hstep, fun t ht => (hnext t ht).1, fun t ht l => ?_⟩
  exact (h.loops s rfl l).trans ((hnext t ht).2 l)

theorem follows {main : ι} {x : Except Fatal (Serving ι κ τ)}
    (h : Reach Step (.ok (new main)) x) : Follows main x :=
  h.inv (fun _ _ _ hx hst => follows_step hx hst) (follows_new main)

/-- **The server on its loops is the server with queues.**  A run in which the functors go through
`functions_` and the batches of the loops, every push with a wakeup of its own, is a run of the
`TcpServer`; and each loop makes a run of the `EventLoop`. -/
theorem serving_refines {main : ι} {x : Except Fatal (Serving ι κ τ)}
    (h : Reach Step (.ok (new main)) x) :
    Reach TcpServer.Step (.ok (.new main)) (x.map view) ∧
      ∀ s, x = .ok s → ∀ l, Reach EventLoop.Step {} (s.loop l) :=
  ⟨(follows h).server, (follows h).loops⟩

/-- the threads of two loops -/
theorem free_two {s : Serving Bool Unit Unit} {i : Bool ⊕ Unit}
    (hfalse : (s.loop false).waking i = .no) (htrue : (s.loop true).waking i = .no) :
    s.Free i := by
  intro l
  cases l with
  | false => exact hfalse
  | true => exact htrue

/-- the main loop has accepted a connection and given it to the second loop, which it has not
woken yet -/
theorem reach_accepted : ∃ s : Serving Bool Unit Unit, Reach Step (.ok (new false)) (.ok s) ∧
    s.view.functions true = [.connectEstablished 0] := by
  have h0 : Reach Step (.ok (new false)) (.ok (new false : Serving Bool Unit Unit)) := .refl
  have h1 := h0.snoc (.loop (l := false) (a := .start) (free_two rfl rfl) rfl)
  have h2 := h1.snoc (.loop (l := false) (a := .testLooping) (free_two rfl rfl) rfl)
  have h3 := h2.snoc (.poll false false [] rfl ⟨List.nodup_nil, fun e he => (by cases he)⟩)
  have h4 := h3.snoc (.accept 7 true ⟨free_two rfl rfl, false, rfl⟩ rfl (fun c hc => (by cases hc))
    (.ok (handed_one rfl)))
  exact ⟨_, h4, rfl⟩

theorem serving_refines_accepted : ∃ s : Serving Bool Unit Unit,
    s.view.functions true = [.connectEstablished 0] ∧
      Reach TcpServer.Step (.ok (.new false)) (.ok s.view) := by
  obtain ⟨s, hs, hfunctions⟩ := reach_accepted
  exact ⟨s, hfunctions, (serving_refines hs).1⟩

/-! ## a server at rest -/

/-- the loop sleeps, and nobody is about to wake it -/
def Asleep (s : Serving ι κ τ) (l : ι) : Prop :=
  (s.loop l).pc = .poll ∧ (s.loop l).wakeupFd = 0 ∧ ∀ i, (s.loop l).waking i ≠ .afterPush

omit [DecidableEq ι] [DecidableEq κ] in
/-- no functor waits for a loop that sleeps -/
theorem Asleep.tasksIn {s : Serving ι κ τ} {l : ι} (h : s.Asleep l) (hp : s.Placed) :
    tasksIn (s.loop l) = [] := by
  obtain ⟨hpc, hfd, hw⟩ := h
  have hbatch : (s.loop l).batch = [] := (hp.sound l).batch (by simp [hpc])
  have hfunctions : (s.loop l).functions = [] := by
    by_contra hne
    rcases (hp.sound l).awaited (by simp [EventLoop.WillSwap, hpc]) hne with hpos | ⟨i, hi⟩
    · omega
    · exact hw i hi
  unfold Serving.tasksIn
  rw [hbatch, hfunctions]
  rfl

end Serving

namespace TcpServer
variable {ι : Type} [DecidableEq ι] {s : TcpServer ι} {c : Nat}

/-- the connection is established, and the server, the poller and the kernel know it -/
structure Known (s : TcpServer ι) (c : Nat) : Prop where
  log : (s.conn c).log = [(.connectEstablished, (s.conn c).loop)]
  isOpen : (s.conn c).isOpen = true
  status : (s.conn c).status ≠ .disconnected
  member : s.connections c = true
  mapped : (s.poller (s.conn c).loop).fdChannelMap (s.conn c).fd = some c
  kernel : (s.poller (s.conn c).loop).kernel (s.conn c).fd =
    some ((s.conn c).channel.events.signExtend 32, c)

/-- the connection has been removed, and nobody has it but the user -/
structure Removed (s : TcpServer ι) (c : Nat) : Prop where
  log : (s.conn c).log = life s.main (s.conn c).loop
  member : s.connections c = false
  unmapped : ∀ l fd, (s.poller l).fdChannelMap fd ≠ some c
  forgotten : ∀ l fd mask, (s.poller l).kernel fd ≠ some (mask, c)
  unowned : s.user c = false → s.Unowned c

/-- without a functor that is due, a life has not begun to end, or has ended -/
theorem Sound.stage_of_due (h : s.Sound none) (hc : c < s.nextConnId) (hdue : s.due c = none) :
    s.stage c = 1 ∨ s.stage c = 4 := by
  have h4 : s.stage c ≤ 4 := (h.log c).length_le
  rw [due, if_pos hc] at hdue
  generalize s.stage c = n at h4 hdue
  have hn : n = 0 ∨ n = 2 ∨ n = 3 ∨ n = 1 ∨ n = 4 := by omega
  rcases hn with rfl | rfl | rfl | hn
  · cases hdue
  · cases hdue
  · cases hdue
  · exact hn

theorem Sound.known (h : s.Sound none) (h1 : s.stage c = 1) : s.Known c where
  log := by
    rw [h.log_eq, h1]
    rfl
  isOpen := h.isOpen c (h.lt_next (by omega)) (by omega)
  status := (h.status c).mpr h1
  member := (h.member c).mpr ⟨h.lt_next (by omega), by omega⟩
  mapped := (h.mapped _ _ c).mpr ⟨rfl, rfl, by omega, by omega⟩
  kernel := (h.kernel _ _ (_, c)).mpr ⟨rfl, rfl, h1, rfl⟩

theorem Sound.removed (h : s.Sound none) (h4 : s.stage c = 4)
    (hu : s.connections c = false → s.user c = false → s.Unowned c) : s.Removed c := by
  have hmember : s.connections c = false := by
    rw [← Bool.not_eq_true, h.member c]
    omega
  refine ⟨?_, hmember, ?_, ?_, hu hmember⟩
  · rw [h.log_eq, h4]
    rfl
  · intro l fd hm
    have := (h.mapped l fd c).mp hm
    omega
  · intro l fd mask hk
    have hst := ((h.kernel l fd (mask, c)).mp hk).2.2.1
    change s.stage c = 1 at hst
    omega

end TcpServer

namespace Serving
variable {ι κ τ : Type} [DecidableEq ι] [DecidableEq κ]

/-- **A server at rest.**  When the loops sleep in `poll` and no wakeup is on its way, no connection
is halfway: it is established, in `connections_`, in the map of its poller and in the interest set
of the kernel, or its whole life has run, it is in none of them, and its descriptor is closed as
soon as the user drops it. -/
theorem settled {main : ι} {s : Serving ι κ τ} (h : Reach Step (.ok (new main)) (.ok s))
    (hs : ∀ l, s.Asleep l) {c : Nat} (hc : c < s.server.nextConnId) :
    s.view.Known c ∨ s.view.Removed c := by
  have hp := (follows h).placed s rfl
  have hsound : s.view.Sound none := TcpServer.good_of_reach (follows h).server
  have hempty : ∀ l, s.view.functions l = [] := fun l => (hs l).tasksIn hp
  have hdue : s.view.due c = none := by
    cases hd : s.view.due c with
    | none => rfl
    | some p =>
      have hat := hsound.tasks p.1 c
      rw [TcpServer.queued, hempty, TcpServer.dueAt_none hd, if_pos rfl] at hat
      cases hat
  rcases hsound.stage_of_due hc hdue with h1 | h4
  · exact .inl (hsound.known h1)
  · refine .inr (hsound.removed h4 fun hmember huser => ⟨hmember, huser, fun l => ⟨?_, ?_, ?_⟩⟩)
    · intro t ht
      rw [hempty l] at ht
      exact absurd ht List.not_mem_nil
    · have hheld : s.view.held l = [] := hp.held l (by simp [(hs l).1])
      rw [hheld]
      exact List.not_mem_nil
    · intro p hhandling
      have hnone : s.view.handling l = none := (hp.events l (by simp [(hs l).1])).2
      rw [hnone] at hhandling
      cases hhandling

/-- a connection on the second loop is established, and both loops sleep -/
theorem reach_asleep : ∃ s : Serving Bool Unit Unit, Reach Step (.ok (new false)) (.ok s) ∧
    (∀ l, s.Asleep l) ∧ 0 < s.server.nextConnId := by
  have h0 : Reach Step (.ok (new false)) (.ok (new false : Serving Bool Unit Unit)) := .refl
  have h1 := h0.snoc (.loop (l := false) (a := .start) (free_two rfl rfl) rfl)
  have h2 := h1.snoc (.loop (l := false) (a := .testLooping) (free_two rfl rfl) rfl)
  have h3 := h2.snoc (.loop (l := true) (a := .start) (free_two rfl rfl) rfl)
  have h4 := h3.snoc (.loop (l := true) (a := .testLooping) (free_two rfl rfl) rfl)
  have h5 := h4.snoc (.poll false false [] rfl ⟨List.nodup_nil, fun e he => (by cases he)⟩)
  have h6 := h5.snoc (.accept 7 true ⟨free_two rfl rfl, false, rfl⟩ rfl (fun c hc => (by cases hc))
    (.ok (handed_one rfl)))
  -- the second loop is woken, reads its eventfd and runs the functor
  have h7 := h6.snoc (.loop (l := true) (a := .wakeup (.inl false)) trivial rfl)
  have h8 := h7.snoc (.poll true true [] rfl ⟨List.nodup_nil, fun e he => (by cases he)⟩)
  have hread := h8.snoc (.loop (l := true) (a := .handleWakeEvent) ⟨free_two rfl rfl, rfl⟩ rfl)
  have h9 := hread.snoc (.loop (l := true) (a := .handleEvents) ⟨free_two rfl rfl, rfl, rfl⟩ rfl)
  have h10 := h9.snoc (.loop (l := true) (a := .handleTimeEvent) (free_two rfl rfl) rfl)
  have h11 := h10.snoc (.loop (l := true) (a := .swapFunctions) (free_two rfl rfl) rfl)
  have h12 := h11.snoc (.runTask true (.connectEstablished 0) [] (free_two rfl rfl) rfl rfl
    (.ok (handed_none _)))
  have h13 := h12.snoc (.endBatch true (free_two rfl rfl) rfl rfl)
  have h14 := h13.snoc (.loop (l := true) (a := .testLooping) (free_two rfl rfl) rfl)
  -- the main loop ends its round
  have h15 := h14.snoc (.loop (l := false) (a := .handleEvents) ⟨free_two rfl rfl, rfl, rfl⟩ rfl)
  have h16 := h15.snoc (.loop (l := false) (a := .handleTimeEvent) (free_two rfl rfl) rfl)
  have h17 := h16.snoc (.loop (l := false) (a := .swapFunctions) (free_two rfl rfl) rfl)
  have h18 := h17.snoc (.endBatch false (free_two rfl rfl) rfl rfl)
  have h19 := h18.snoc (.loop (l := false) (a := .testLooping) (free_two rfl rfl) rfl)
  refine ⟨_, h19, fun l => ?_, Nat.one_pos⟩
  cases l with
  | false => exact ⟨rfl, rfl, fun i hi => (by rcases i with (_ | _) | _ <;> cases hi)⟩
  | true => exact ⟨rfl, rfl, fun i hi => (by rcases i with (_ | _) | _ <;> cases hi)⟩

theorem settled_two : ∃ s : Serving Bool Unit Unit, (∀ l, s.Asleep l) ∧
    (s.view.Known 0 ∨ s.view.Removed 0) := by
  obtain ⟨s, hs, hasleep, hnext⟩ := reach_asleep
  exact ⟨s, hasleep, settled hs hasleep hnext⟩

/-! ## no thread is stuck -/

/-- a thread that is free can hand over what the function pushes -/
theorem ran_exists {i : ι ⊕ κ} {loop : ι → EventLoop (ServerFunctor τ) (ι ⊕ κ)}
    (hfree : ∀ l, (loop l).waking i = .no) {y : Except Fatal (TcpServer ι)}
    (h : TcpServer.Posts (fun _ => []) y) : ∃ x, Ran i loop y x := by
  cases y with
  | error f => exact ⟨_, .error f⟩
  | ok t =>
    rcases h t rfl with hnone | ⟨l, task, hone⟩
    · have hout : Handed i t.functions loop loop := by
        rw [hnone]
        exact handed_none loop
      exact ⟨_, .ok hout⟩
    · have hpush : ∃ e, (loop l).exec (.runInLoop i (.life task)) = some e := by
        simp only [EventLoop.exec]
        rw [if_pos (hfree l)]
        exact ⟨_, rfl⟩
      obtain ⟨e, he⟩ := hpush
      have hout : Handed i t.functions loop (Function.update loop l e) := by
        rw [hone]
        exact handed_one he
      exact ⟨_, .ok hout⟩

/-- a thread that owes a wakeup pays it -/
theorem wakeup_exists {s : Serving ι κ τ} {l : ι} {i : ι ⊕ κ} (h : (s.loop l).waking i ≠ .no) :
    ∃ x, Step (.ok s) (some i) x := by
  have hexec : ∃ e, (s.loop l).exec (.wakeup i) = some e := by
    simp only [EventLoop.exec]
    rw [if_pos h]
    exact ⟨_, rfl⟩
  obtain ⟨e, he⟩ := hexec
  exact ⟨_, .loop (a := .wakeup i) trivial he⟩

/-- a free thread goes on with the events that its loop has in hand -/
theorem event_exists {s : Serving ι κ τ} (hp : s.Placed) {l : ι} (h : s.InEvents l) :
    ∃ x, Step (.ok s) (some (.inl l)) x := by
  cases hh : s.server.handling l with
  | some p =>
    obtain ⟨c, calls⟩ := p
    cases calls with
    | nil => exact ⟨_, .endEvent l c h hh⟩
    | cons call calls =>
      let r : TcpServer ι := { s.server with
        handling := Function.update s.server.handling l (some (c, calls)) }
      have hposts : TcpServer.Posts (fun _ => []) (r.runCallback l c 1 false call) := by
        rw [← hp.outbox]
        exact TcpServer.posts_runCallback r l c 1 false call
      obtain ⟨x, hx⟩ := ran_exists h.1 hposts
      exact ⟨x, .callback l c call calls 1 false h hh hx⟩
  | none =>
    cases ha : s.server.active l with
    | cons ev rest => exact ⟨_, .handleEvent l ev.1 ev.2 rest h ha hh⟩
    | nil =>
      obtain ⟨wake, hpc⟩ := h.2
      have hexec : ∃ e, (s.loop l).exec .handleEvents = some e := by
        simp only [EventLoop.exec, hpc]
        exact ⟨_, rfl⟩
      obtain ⟨e, he⟩ := hexec
      exact ⟨_, .loop (a := .handleEvents) ⟨h.1, ha, hh⟩ he⟩

/-- and with its batch -/
theorem batch_exists {s : Serving ι κ τ} (hp : s.Placed) {l : ι} (hfree : s.Free (.inl l))
    (hpc : (s.loop l).pc = .run) : ∃ x, Step (.ok s) (some (.inl l)) x := by
  have hexec : ∃ e, (s.loop l).exec .runFunction = some e ∧ e.waking = (s.loop l).waking := by
    simp only [EventLoop.exec, hpc]
    rw [if_pos trivial]
    cases (s.loop l).batch with
    | nil => exact ⟨_, rfl, rfl⟩
    | cons func rest => exact ⟨_, rfl, rfl⟩
  obtain ⟨e, he, hwaking⟩ := hexec
  cases hb : (s.loop l).batch with
  | nil => exact ⟨_, .endBatch l hfree hb he⟩
  | cons func rest =>
    cases func with
    | other cb => exact ⟨_, .loop (a := .runFunction) ⟨hfree, cb, rest, hb⟩ he⟩
    | life t =>
      let r : TcpServer ι := { s.server with
        held := Function.update s.server.held l (t.conn :: s.server.held l) }
      have hposts : TcpServer.Posts (fun _ => []) (r.runTask l t) := by
        rw [← hp.outbox]
        exact TcpServer.posts_runTask r l t
      have hfree' : ∀ l', (Function.update s.loop l e l').waking (.inl l) = .no :=
        (Function.forall_update_iff s.loop fun _ e' => e'.waking (.inl l) = .no).mpr
          ⟨hwaking ▸ hfree l, fun l' _ => hfree l'⟩
      obtain ⟨x, hx⟩ := ran_exists hfree' hposts
      exact ⟨x, .runTask l t rest hfree hb he hx⟩

theorem turn_exists {s : Serving ι κ τ} (hp : s.Placed) {l : ι} (hfree : s.Free (.inl l))
    (hidle : (s.loop l).pc ≠ .idle) (hpoll : (s.loop l).pc ≠ .poll) :
    ∃ x, Step (.ok s) (some (.inl l)) x := by
  -- the turn of a loop that does nothing else
  have hplain : ∀ a, s.Plain l a → mover l a = some (.inl l) → ((s.loop l).exec a).isSome = true →
      ∃ x, Step (.ok s) (some (.inl l)) x := by
    intro a ha hm he
    obtain ⟨e, he⟩ := Option.isSome_iff_exists.mp he
    have hstep := Step.loop ha he
    rw [hm] at hstep
    exact ⟨_, hstep⟩
  cases hpc : (s.loop l).pc with
  | idle => exact absurd hpc hidle
  | poll => exact absurd hpc hpoll
  | events wake => exact event_exists hp ⟨hfree, wake, hpc⟩
  | run => exact batch_exists hp hfree hpc
  | test => exact hplain .testLooping hfree rfl (by simp [EventLoop.exec, hpc])
  | timers => exact hplain .handleTimeEvent hfree rfl (by simp [EventLoop.exec, hpc])
  | swap => exact hplain .swapFunctions hfree rfl (by simp [EventLoop.exec, hpc])

/-- the loop sleeps, and nobody owes it a wakeup -/
def Sleeps (s : Serving ι κ τ) (l : ι) : Prop :=
  (s.loop l).pc = .poll ∧ (s.loop l).wakeupFd = 0 ∧ ∀ i, (s.loop l).waking i = .no

/-- **No thread is stuck.**  In every state of every run a loop that has been started either sleeps
in `poll` and nobody owes it a wakeup, or a thread goes on: one that owes it a wakeup, or its own, in
an event, a functor, a batch or the next round, or with a wakeup that it owes another loop. -/
theorem never_stuck {main : ι} {s : Serving ι κ τ} (h : Reach Step (.ok (new main)) (.ok s)) {l : ι}
    (hl : (s.loop l).pc ≠ .idle) : s.Sleeps l ∨
      ∃ i x, (i = .inl l ∨ (s.loop l).waking i ≠ .no) ∧ Step (.ok s) (some i) x := by
  have hp := (follows h).placed s rfl
  by_cases hpoll : (s.loop l).pc = .poll
  · by_cases hfd : (s.loop l).wakeupFd = 0
    · by_cases hw : ∀ i, (s.loop l).waking i = .no
      · exact .inl ⟨hpoll, hfd, hw⟩
      · obtain ⟨i, hi⟩ := Classical.not_forall.mp hw
        obtain ⟨x, hx⟩ := wakeup_exists hi
        exact .inr ⟨i, x, .inr hi, hx⟩
    · -- the eventfd is readable, and `poll` returns with it
      have hexec : ∃ e, (s.loop l).exec (.pollReturn true) = some e := by
        simp only [EventLoop.exec]
        rw [if_pos ⟨hpoll, fun _ => Nat.pos_of_ne_zero hfd⟩]
        exact ⟨_, rfl⟩
      obtain ⟨e, he⟩ := hexec
      exact .inr ⟨.inl l, _, .inl rfl,
        .poll l true [] he ⟨List.nodup_nil, fun e he => (by cases he)⟩⟩
  · by_cases hfree : s.Free (.inl l)
    · obtain ⟨x, hx⟩ := turn_exists hp hfree hl hpoll
      exact .inr ⟨.inl l, x, .inl rfl, hx⟩
    · obtain ⟨l', hl'⟩ := Classical.not_forall.mp hfree
      obtain ⟨x, hx⟩ := wakeup_exists hl'
      exact .inr ⟨.inl l, x, .inl rfl, hx⟩

/-- the main loop has accepted a connection for the second loop, which polls -/
theorem reach_owed : ∃ s : Serving Bool Unit Unit, Reach Step (.ok (new false)) (.ok s) ∧
    (s.loop true).pc = .poll ∧ (s.loop true).waking (.inl false) = .afterPush := by
  have h0 : Reach Step (.ok (new false)) (.ok (new false : Serving Bool Unit Unit)) := .refl
  have h1 := h0.snoc (.loop (l := true) (a := .start) (free_two rfl rfl) rfl)
  have h2 := h1.snoc (.loop (l := true) (a := .testLooping) (free_two rfl rfl) rfl)
  have h3 := h2.snoc (.loop (l := false) (a := .start) (free_two rfl rfl) rfl)
  have h4 := h3.snoc (.loop (l := false) (a := .testLooping) (free_two rfl rfl) rfl)
  have h5 := h4.snoc (.poll false false [] rfl ⟨List.nodup_nil, fun e he => (by cases he)⟩)
  have h6 := h5.snoc (.accept 7 true ⟨free_two rfl rfl, false, rfl⟩ rfl (fun c hc => (by cases hc))
    (.ok (handed_one rfl)))
  exact ⟨_, h6, rfl, rfl⟩

/-- the second loop polls, and the first owes it a wakeup -/
theorem never_stuck_owed : ∃ s : Serving Bool Unit Unit, Reach Step (.ok (new false)) (.ok s) ∧
    (s.loop true).pc = .poll ∧
    ∃ i x, (i = .inl true ∨ (s.loop true).waking i ≠ .no) ∧ Step (.ok s) (some i) x := by
  obtain ⟨s, hs, hpc, howed⟩ := reach_owed
  refine ⟨s, hs, hpc, (never_stuck hs (by rw [hpc]; decide)).resolve_left fun hsleeps => ?_⟩
  rw [hsleeps.2.2] at howed
  cases howed

end Serving

end Feipu
