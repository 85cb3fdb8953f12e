import Feipu.Base.SharedConn

/-!
# Foreign calls of `send` and `shutdown`

What the functors of foreign calls find when they run.

* `sends_by_value`   as long as no thread changes or frees a cell that a functor still points to,
                     `sendInLoop` is run on what the range held when `send` was called.
-/

namespace Feipu
open Trace Memory

namespace SharedConn
variable {ι κ : Type} [DecidableEq ι] [DecidableEq κ] {s t : SharedConn ι κ} {l : ι}

/-! ## what a function does when it returns -/

omit [DecidableEq ι] [DecidableEq κ] in
theorem sendInLoop_ok {data : Bytes} {n : Int} (h : s.sendInLoop data n = .ok t) :
    ∃ sock, s.sock.sendInLoop data n = .ok sock ∧
      t = { s with sock, writes := s.writes + count s.sock.WritesDirectly } := by
  obtain ⟨sock, hs, ht⟩ := bind_ok h
  exact ⟨sock, hs, (Except.ok.inj ht).symm⟩

omit [DecidableEq ι] [DecidableEq κ] in
theorem bufferIntoNet_ok {n : Int} (h : s.bufferIntoNet n = .ok t) :
    ∃ sock, s.sock.bufferIntoNet n = .ok sock ∧
      t = { s with sock, writes := s.writes + count s.sock.conn.channel.isWriting } := by
  obtain ⟨sock, hs, ht⟩ := bind_ok h
  exact ⟨sock, hs, (Except.ok.inj ht).symm⟩

omit [DecidableEq ι] [DecidableEq κ] in
theorem handleClose_ok (h : s.handleClose = .ok t) :
    ∃ sock, s.sock.handleClose = .ok sock ∧
      t = { s with sock, closed := true, closing := true } := by
  obtain ⟨sock, hs, ht⟩ := bind_ok h
  exact ⟨sock, hs, (Except.ok.inj ht).symm⟩

theorem assertInLoopThread_ok {loop : ι} {u : Unit}
    (h : TcpServer.assertInLoopThread loop l = .ok u) : loop = l := by
  unfold TcpServer.assertInLoopThread at h
  split at h
  · assumption
  · cases h

omit [DecidableEq κ] in
theorem connectDestory_ok (h : s.connectDestory l = .ok t) :
    s.loop = l ∧ t = { s with registered := false } := by
  obtain ⟨_, hl, h⟩ := bind_ok h
  obtain ⟨_, _, ht⟩ := bind_ok h
  exact ⟨assertInLoopThread_ok hl, (Except.ok.inj ht).symm⟩

omit [DecidableEq κ] in
theorem removeConnection_ok (h : s.removeConnection l = .ok t) :
    s.main = l ∧ s.connections = true ∧
      ((s.loop = l ∧ t = { s with connections := false, registered := false }) ∨
        s.loop ≠ l ∧ t = { s with connections := false }.enqueue s.loop .connectDestory) := by
  obtain ⟨_, hl, h⟩ := bind_ok h
  obtain ⟨_, hc, h⟩ := bind_ok h
  refine ⟨assertInLoopThread_ok hl, asserted_ok hc, ?_⟩
  dsimp only at h
  split at h
  · rename_i hloop
    exact .inl ⟨hloop, (connectDestory_ok h).2⟩
  · rename_i hloop
    exact .inr ⟨hloop, (Except.ok.inj h).symm⟩

omit [DecidableEq κ] in
theorem closeCb_ok (h : s.closeCb = .ok t) :
    s.main = s.loop ∧ removeConnection { s with closing := false } s.loop = .ok t ∨
      s.main ≠ s.loop ∧ t = enqueue { s with closing := false } s.main .removeConnection := by
  unfold closeCb at h
  dsimp only at h
  split at h
  · rename_i hmain
    exact .inl ⟨hmain, h⟩
  · rename_i hmain
    exact .inr ⟨hmain, (Except.ok.inj h).symm⟩

/-- the step is one of the connection itself, not of the threads around it -/
def OnSock (s t : SharedConn ι κ) : Prop := t = { s with sock := t.sock, writes := t.writes }

omit [DecidableEq ι] [DecidableEq κ] in
theorem runCallback_ok {n : Int} {call : EventCall} (h : s.runCallback n call = .ok t) :
    s.OnSock t ∨ s.handleClose = .ok t := by
  cases call with
  | close => exact .inr h
  | read =>
    unfold runCallback netIntoBuffer at h
    dsimp only at h
    split at h
    · exact .inr h
    · obtain rfl := Except.ok.inj h
      exact .inl rfl
  | write =>
    obtain ⟨sock, _, rfl⟩ := bufferIntoNet_ok h
    exact .inl rfl

omit [DecidableEq ι] [DecidableEq κ] in
theorem onSock_send {data : Bytes} {n : Int} (h : s.send data n = .ok t) : s.OnSock t := by
  unfold send at h
  split at h
  · obtain rfl := Except.ok.inj h
    rfl
  · obtain ⟨sock, _, rfl⟩ := sendInLoop_ok h
    rfl

omit [DecidableEq κ] in
theorem runTask_ok {read : Bytes} {n : Int} {task : ConnTask κ}
    (h : s.runTask l read n task = .ok t) :
    (task.raw = true ∧ s.loop = l ∧ s.OnSock t) ∨
      (task = .removeConnection ∧ s.removeConnection l = .ok t) ∨
      task = .connectDestory ∧ s.connectDestory l = .ok t := by
  cases task with
  | sendInLoop k data asked =>
    obtain ⟨_, hl, h⟩ := bind_ok h
    obtain ⟨sock, _, rfl⟩ := sendInLoop_ok h
    exact .inl ⟨rfl, assertInLoopThread_ok hl, rfl⟩
  | shutInLoop =>
    obtain ⟨_, hl, h⟩ := bind_ok h
    obtain ⟨sock, _, h⟩ := bind_ok h
    obtain rfl := Except.ok.inj h
    exact .inl ⟨rfl, assertInLoopThread_ok hl, rfl⟩
  | removeConnection => exact .inr (.inl ⟨rfl, h⟩)
  | connectDestory => exact .inr (.inr ⟨rfl, h⟩)

/-- a call on the thread of the loop -/
theorem onSock_exec {a : ConnAct ι κ} (h : s.exec a = .ok t)
    (ha : (∃ data n, a = .send data n) ∨ a = .shutdown ∨ a = .ret) : s.OnSock t := by
  rcases ha with ⟨data, n, rfl⟩ | rfl | rfl
  · exact onSock_send h
  · obtain ⟨sock, _, h⟩ := bind_ok h
    obtain rfl := Except.ok.inj h
    rfl
  · obtain ⟨sock, _, h⟩ := bind_ok h
    obtain rfl := Except.ok.inj h
    rfl

/-! ## the functors that wait -/

/-- the functors of a loop that have not run -/
def waiting (s : SharedConn ι κ) (l : ι) : List (ConnTask κ) :=
  (s.queue l).functions ++ (s.queue l).batch

omit [DecidableEq κ] in
theorem waiting_setQueue (s : SharedConn ι κ) (l l' : ι) (q : LoopQueue κ) :
    (s.setQueue l q).waiting l' = if l' = l then q.functions ++ q.batch else s.waiting l' := by
  unfold waiting setQueue
  rcases eq_or_ne l' l with rfl | hne
  · simp
  · simp [hne]

omit [DecidableEq κ] in
theorem waiting_enqueue {l' : ι} {task new : ConnTask κ} (h : task ∈ (s.enqueue l new).waiting l') :
    task ∈ s.waiting l' ∨ l' = l ∧ task = new := by
  unfold enqueue at h
  rw [waiting_setQueue] at h
  split at h
  · rename_i hl
    have hmem : task ∈ s.waiting l ∨ task = new := by
      simpa [waiting, or_assoc, or_left_comm, or_comm] using h
    exact hmem.imp (fun h => hl ▸ h) (fun h => ⟨hl, h⟩)
  · exact .inl h

omit [DecidableEq κ] in
theorem waiting_take {l' : ι} {task taken : ConnTask κ} (h : task ∈ (s.take l taken).waiting l') :
    task ∈ s.waiting l' := by
  unfold take at h
  rw [waiting_setQueue] at h
  split at h
  · rename_i hl
    subst hl
    rcases List.mem_append.mp h with h | h
    · exact List.mem_append_left _ h
    · exact List.mem_append_right _ (List.mem_of_mem_tail h)
  · exact h

omit [DecidableEq ι] [DecidableEq κ] in
theorem waiting_onSock (h : s.OnSock t) : t.waiting = s.waiting := by
  rw [h]
  rfl

omit [DecidableEq κ] in
theorem waiting_removeConnection {l' : ι} {task : ConnTask κ} (h : s.removeConnection l = .ok t)
    (hm : task ∈ t.waiting l') :
    task ∈ s.waiting l' ∨ l' = s.loop ∧ task = .connectDestory := by
  obtain ⟨-, -, ⟨-, rfl⟩ | ⟨-, rfl⟩⟩ := removeConnection_ok h
  · exact .inl hm
  · exact waiting_enqueue hm

/-- where a functor comes from: a push, `removeConnection` or `close_cb_` -/
theorem waiting_exec {a : ConnAct ι κ} {l : ι} {task : ConnTask κ} (h : s.exec a = .ok t)
    (hm : task ∈ t.waiting l) :
    task ∈ s.waiting l ∨ (l = s.loop ∧ ∃ k, a = .push k task) ∨
      (l = s.loop ∧ task = .connectDestory) ∨ task = .removeConnection ∧ s.main ≠ s.loop := by
  cases a with
  | call k c =>
    obtain rfl := Except.ok.inj h
    left
    split at hm <;> exact hm
  | disconnecting | bind | wakeup | poke | acquire | release | handleEvent | endEvent =>
    obtain rfl := Except.ok.inj h
    exact .inl hm
  | push k task' =>
    obtain rfl := Except.ok.inj h
    rcases waiting_enqueue (s := s) hm with h | ⟨hl, rfl⟩
    · exact .inl h
    · exact .inr (.inl ⟨hl, k, rfl⟩)
  | swap l' =>
    obtain rfl := Except.ok.inj h
    left
    rw [waiting_setQueue] at hm
    split at hm
    · rename_i hl
      exact List.mem_append_left _ (hl ▸ hm)
    · exact hm
  | runTask l' task' read n =>
    rcases runTask_ok h with ⟨-, -, h⟩ | ⟨-, h⟩ | ⟨-, h⟩
    · rw [waiting_onSock h] at hm
      exact .inl (waiting_take hm)
    · rcases waiting_removeConnection h hm with h | h
      · exact .inl (waiting_take h)
      · exact .inr (.inr (.inl h))
    · obtain ⟨-, rfl⟩ := connectDestory_ok h
      exact .inl (waiting_take hm)
  | endBatch l' =>
    obtain rfl := Except.ok.inj h
    left
    rw [waiting_setQueue] at hm
    split at hm
    · rename_i hl
      exact hl ▸ hm
    · exact hm
  | expired => cases h
  | callback call n =>
    left
    rcases runCallback_ok (s := s.nextCall) h with h | h
    · rw [waiting_onSock h] at hm
      exact hm
    · obtain ⟨sock, _, rfl⟩ := handleClose_ok h
      exact hm
  | closeCb =>
    rcases closeCb_ok h with ⟨-, h⟩ | ⟨hne, rfl⟩
    · rcases waiting_removeConnection h hm with h | h
      · exact .inl h
      · exact .inr (.inr (.inl h))
    · rcases waiting_enqueue hm with h | ⟨-, h⟩
      · exact .inl h
      · exact .inr (.inr (.inr ⟨h, hne⟩))
  | send data n =>
    rw [waiting_onSock (onSock_exec h (.inl ⟨_, _, rfl⟩))] at hm
    exact .inl hm
  | shutdown =>
    rw [waiting_onSock (onSock_exec h (.inr (.inl rfl)))] at hm
    exact .inl hm
  | ret =>
    rw [waiting_onSock (onSock_exec h (.inr (.inr rfl)))] at hm
    exact .inl hm

/-! ## the foreign threads -/

omit [DecidableEq κ] in
theorem threads_removeConnection (h : s.removeConnection l = .ok t) :
    t.pc = s.pc ∧ t.store = s.store := by
  obtain ⟨-, -, ⟨-, rfl⟩ | ⟨-, rfl⟩⟩ := removeConnection_ok h <;> exact ⟨rfl, rfl⟩

omit [DecidableEq ι] [DecidableEq κ] in
theorem threads_onSock (h : s.OnSock t) : t.pc = s.pc ∧ t.store = s.store := by
  rw [h]
  exact ⟨rfl, rfl⟩

/-- what the loops do changes neither the calls in progress nor the memory of the threads -/
theorem threads_exec {a : ConnAct ι κ} (h : s.exec a = .ok t) (ha : a.thread = none) :
    t.pc = s.pc ∧ t.store = s.store := by
  cases a with
  | call | disconnecting | bind | push | wakeup | poke | acquire | release => cases ha
  | swap | endBatch | handleEvent | endEvent =>
    obtain rfl := Except.ok.inj h
    exact ⟨rfl, rfl⟩
  | runTask l task read n =>
    rcases runTask_ok h with ⟨-, -, h⟩ | ⟨-, h⟩ | ⟨-, h⟩
    · exact threads_onSock (s := s.take l task) h
    · exact threads_removeConnection (s := s.take l task) h
    · obtain ⟨-, rfl⟩ := connectDestory_ok h
      exact ⟨rfl, rfl⟩
  | expired => cases h
  | callback call n =>
    rcases runCallback_ok (s := s.nextCall) h with h | h
    · exact threads_onSock (s := s.nextCall) h
    · obtain ⟨sock, _, rfl⟩ := handleClose_ok h
      exact ⟨rfl, rfl⟩
  | closeCb =>
    rcases closeCb_ok h with ⟨-, h⟩ | ⟨-, rfl⟩
    · exact threads_removeConnection (s := { s with closing := false }) h
    · exact ⟨rfl, rfl⟩
  | send data n => exact threads_onSock (onSock_exec h (.inl ⟨_, _, rfl⟩))
  | shutdown => exact threads_onSock (onSock_exec h (.inr (.inl rfl)))
  | ret => exact threads_onSock (onSock_exec h (.inr (.inr rfl)))

omit [DecidableEq ι] in
theorem pc_setPc (s : SharedConn ι κ) (k k' : κ) (pc : CallPc κ) :
    (s.setPc k pc).pc k' = if k' = k then pc else s.pc k' := by
  rcases eq_or_ne k' k with rfl | hne
  · simp [setPc]
  · simp [setPc, hne]

/-- a foreign thread goes on by its own steps -/
theorem pc_exec {a : ConnAct ι κ} (h : s.exec a = .ok t) (k : κ) :
    t.pc k = s.pc k ∨ (∃ c, a = .call k c ∧ t.pc k = .checked c) ∨ t.pc k = .marked ∨
      (∃ task, a = .bind k task ∧ t.pc k = .bound task) ∨ t.pc k = .pushed ∨ t.pc k = .idle := by
  cases a with
  | call k' c =>
    obtain rfl := Except.ok.inj h
    split
    · rw [pc_setPc]
      split
      · rename_i heq
        exact .inr (.inl ⟨c, heq ▸ rfl, rfl⟩)
      · exact .inl rfl
    · exact .inl rfl
  | bind k' task =>
    obtain rfl := Except.ok.inj h
    rw [pc_setPc]
    split
    · rename_i heq
      exact .inr (.inr (.inr (.inl ⟨task, heq ▸ rfl, rfl⟩)))
    · exact .inl rfl
  | disconnecting k' | push k' | wakeup k' =>
    obtain rfl := Except.ok.inj h
    rw [pc_setPc]
    split
    · simp
    · exact .inl rfl
  | poke | acquire | release =>
    obtain rfl := Except.ok.inj h
    exact .inl rfl
  | swap | endBatch | handleEvent | endEvent | runTask | expired | callback | closeCb | send
  | shutdown | ret => exact .inl (congrFun (threads_exec h rfl).1 k)

/-- a call that has passed the check of `status_` was made, and passes it once -/
theorem checked_exec {a : ConnAct ι κ} {k : κ} {c : ConnCall} (h : s.exec a = .ok t)
    (hk : t.pc k = .checked c) : s.pc k = .checked c ∨ a = .call k c := by
  have hpc := pc_exec h k
  rw [hk] at hpc
  simpa [eq_comm] using hpc

theorem bound_exec {a : ConnAct ι κ} {k : κ} {task : ConnTask κ} (h : s.exec a = .ok t)
    (hk : t.pc k = .bound task) : s.pc k = .bound task ∨ a = .bind k task := by
  have hpc := pc_exec h k
  rw [hk] at hpc
  simpa [eq_comm] using hpc

theorem store_exec {a : ConnAct ι κ} (h : s.exec a = .ok t) (ha : ∀ k q b, a ≠ .poke k q b) :
    t.store = s.store := by
  cases a with
  | poke k q b => exact absurd rfl (ha k q b)
  | call =>
    obtain rfl := Except.ok.inj h
    split <;> rfl
  | disconnecting | bind | push | wakeup | acquire | release =>
    obtain rfl := Except.ok.inj h
    rfl
  | swap | endBatch | handleEvent | endEvent | runTask | expired | callback | closeCb | send
  | shutdown | ret => exact (threads_exec h rfl).2

/-- a functor is made by a foreign thread, or waits -/
def Made (s : SharedConn ι κ) (task : ConnTask κ) : Prop :=
  (∃ k, s.pc k = .bound task) ∨ ∃ l, task ∈ s.waiting l

theorem made_exec {a : ConnAct ι κ} {task : ConnTask κ} (hf : s.Fits a) (h : s.exec a = .ok t)
    (hm : t.Made task) :
    s.Made task ∨ (∃ k, a = .bind k task) ∨ task = .connectDestory ∨
      task = .removeConnection ∧ s.main ≠ s.loop := by
  rcases hm with ⟨k, hk⟩ | ⟨l, hl⟩
  · rcases bound_exec h hk with hk | rfl
    · exact .inl (.inl ⟨k, hk⟩)
    · exact .inr (.inl ⟨k, rfl⟩)
  · rcases waiting_exec h hl with h | ⟨-, k, rfl⟩ | ⟨-, h⟩ | h
    · exact .inl (.inr ⟨l, h⟩)
    · exact .inl (.inl ⟨k, hf⟩)
    · exact .inr (.inr (.inl h))
    · exact .inr (.inr (.inr h))

/-! ## sending by value -/

/-- a call of `send` in progress or a functor that waits points to a range that held `asked` -/
def Points (s : SharedConn ι κ) (k : κ) (data : Nat) (asked : Bytes) : Prop :=
  s.pc k = .checked (.send data asked) ∨ s.Made (.sendInLoop k data asked)

/-- what is pointed to is what it was -/
def Intact (s : SharedConn ι κ) : Prop :=
  ∀ k data asked, s.Points k data asked → Holds (s.store k) data asked

/-- the step changes and frees no cell that is pointed to -/
def Spares (s : SharedConn ι κ) (a : ConnAct ι κ) : Prop :=
  ∀ k q b, a = .poke k q b → ∀ data asked, s.Points k data asked →
    ¬ Within data asked.length q

theorem points_exec {a : ConnAct ι κ} {k : κ} {data : Nat} {asked : Bytes} (hf : s.Fits a)
    (h : s.exec a = .ok t) (hp : t.Points k data asked) :
    s.Points k data asked ∨ a = .call k (.send data asked) := by
  rcases hp with hp | hp
  · exact (checked_exec h hp).imp_left .inl
  · rcases made_exec hf h hp with hm | ⟨k', rfl⟩ | h | ⟨h, -⟩
    · exact .inl (.inr hm)
    · rcases hf with ⟨-, h⟩ | ⟨data', asked', hpc, h⟩
      · cases h
      · cases h
        exact .inl (.inl hpc)
    · cases h
    · cases h

theorem Intact.exec {a : ConnAct ι κ} (h : s.Intact) (hf : s.Fits a) (ht : s.exec a = .ok t)
    (hG : s.Spares a) : t.Intact := by
  intro k data asked hp
  by_cases hpoke : ∃ k q b, a = .poke k q b
  · obtain ⟨k', q, b, rfl⟩ := hpoke
    obtain rfl := Except.ok.inj ht
    have hp : s.Points k data asked := hp
    show Holds (Function.update s.store k' (Function.update (s.store k') q b) k) data asked
    rcases eq_or_ne k k' with rfl | hne
    · rw [Function.update_self]
      exact (h k data asked hp).update b (hG k q b rfl data asked hp)
    · rw [Function.update_of_ne hne]
      exact h k data asked hp
  · rw [store_exec ht fun k q b heq => hpoke ⟨k, q, b, heq⟩]
    rcases points_exec hf ht hp with hp | rfl
    · exact h k data asked hp
    · exact hf.2.2 data asked rfl

omit [DecidableEq ι] [DecidableEq κ] in
/-- what `sendInLoop` is run on is what the range held at the call -/
theorem Intact.read {k : κ} {data : Nat} {asked read : Bytes} {n : Int} (h : s.Intact)
    (hf : s.Fits (.runTask l (.sendInLoop k data asked) read n)) : read = asked := by
  obtain ⟨hhead, ⟨hread, hlen⟩, -⟩ := hf
  have hmem : ConnTask.sendInLoop k data asked ∈ s.waiting l :=
    List.mem_append_right _ (List.mem_of_head? hhead)
  exact (h k data asked (.inr (.inr ⟨l, hmem⟩))).eq_of_reads hread hlen

/-- one of the transitions is the call of `send`, and the range held `asked` -/
def Asked (tr : ConnRun ι κ) (k : κ) (data : Nat) (asked : Bytes) : Prop :=
  ∃ e ∈ tr, e.act = .call k (.send data asked) ∧
    ∃ s, e.pre = .ok s ∧ Holds (s.store k) data asked

/-- the transition, where it runs a `sendInLoop` of a foreign call, runs it on what was asked -/
def RunsOnAsked (e : Tr (Except Fatal (SharedConn ι κ)) (ConnAct ι κ)) : Prop :=
  ∀ s l k data asked read n, e.pre = .ok s →
    e.act = .runTask l (.sendInLoop k data asked) read n →
    e.post = s.exec (.runTask l (.sendInLoop k data asked) asked n)

/-- every `sendInLoop` of a foreign call runs on what the range held at the call -/
def SentByValue (tr : ConnRun ι κ) : Prop :=
  ∀ before e after, tr = before ++ e :: after → RunsOnAsked e ∧
    ∀ s l k data asked read n, e.pre = .ok s →
      e.act = .runTask l (.sendInLoop k data asked) read n → Asked before k data asked

/-- no step changes or frees a cell that a call in progress or a functor points to -/
def SparesAll (tr : ConnRun ι κ) : Prop := ∀ e ∈ tr, Alive (fun s => s.Spares e.act) e.pre

theorem asked_of_points {s : SharedConn ι κ} (h0 : ∀ k data asked, ¬ s.Points k data asked)
    {tr : ConnRun ι κ} (h : Path Step (.ok s) tr)
    (ht : last (.ok s) tr = .ok t) {k : κ} {data : Nat} {asked : Bytes}
    (hp : t.Points k data asked) : Asked tr k data asked := by
  have hback : ∀ x y tr, Path Step (ι := ConnAct ι κ) x tr → last x tr = y → Alive
      (fun t => ∀ k data asked, t.Points k data asked → Asked tr k data asked ∨
        ∃ s, x = .ok s ∧ s.Points k data asked) y := by
    intro x y tr h
    induction h generalizing y with
    | nil x =>
      rintro rfl t rfl k data asked hp
      exact .inr ⟨t, rfl, hp⟩
    | @cons x a z tr hst _ ih =>
      intro hlast t hy k data asked hp
      rcases ih y hlast t hy k data asked hp with ⟨e, he, hact⟩ | ⟨u, rfl, hu⟩
      · exact .inl ⟨e, List.mem_cons_of_mem _ he, hact⟩
      · generalize hz : Except.ok u = z at hst
        cases hst with
        | @mk s a hf =>
          rcases points_exec hf hz.symm hu with hs | rfl
          · exact .inr ⟨s, rfl, hs⟩
          · exact .inl ⟨_, List.mem_cons_self, rfl, s, rfl, hf.2.2 data asked rfl⟩
  rcases hback _ _ tr h rfl t ht k data asked hp with ha | ⟨u, hu, hpu⟩
  · exact ha
  · obtain rfl := Except.ok.inj hu
    exact absurd hpu (h0 k data asked)

omit [DecidableEq ι] [DecidableEq κ] in
theorem not_points_start (main loop : ι) (cb : Bool) (holds : κ → Bool)
    (store : κ → Nat → Option UInt8) (k : κ) (data : Nat) (asked : Bytes) :
    ¬ (start main loop cb holds store).Points k data asked := by
  intro h
  rcases h with h | ⟨k', h⟩ | ⟨l, h⟩
  · cases h
  · cases h
  · exact absurd h List.not_mem_nil

/-- **`send` is by value where the caller keeps its buffer.** -/
theorem sends_by_value (main loop : ι) (cb : Bool) (holds : κ → Bool)
    (store : κ → Nat → Option UInt8) {tr : ConnRun ι κ}
    (h : Path Step (.ok (start main loop cb holds store)) tr) (hG : SparesAll tr) :
    SentByValue tr := by
  have h0 : Alive Intact (.ok (start main loop cb holds store)) :=
    alive_ok fun k data asked hp =>
      (not_points_start main loop cb holds store k data asked hp).elim
  have hstep : ∀ (x : Except Fatal (SharedConn ι κ)) (a : ConnAct ι κ) y, Alive Intact x →
      Step x a y → Alive (fun s => s.Spares a) x → Alive Intact y ∧ RunsOnAsked ⟨x, a, y⟩ := by
    intro x a y hx hst hs
    cases hst with
    | @mk s a hf =>
      refine ⟨fun t ht => (hx s rfl).exec hf ht (hs s rfl), ?_⟩
      intro s' l k data asked read n he ha
      obtain rfl := Except.ok.inj he
      obtain rfl : a = _ := ha
      rw [(hx s rfl).read hf]
  intro before e after htr
  have hmem : e ∈ tr := htr ▸ List.mem_append_right _ List.mem_cons_self
  refine ⟨(h.guarded (P := RunsOnAsked) hstep h0 hG e hmem).2.2, ?_⟩
  intro s l k data asked read n hpre hact
  obtain ⟨hbefore, hrest⟩ := (htr ▸ h).split
  cases hrest with
  | @cons x a y _ hst _ =>
    have hx : last _ before = .ok s := hpre
    obtain rfl : a = _ := hact
    rw [hx] at hst
    cases hst with
    | mk hf =>
      refine asked_of_points (not_points_start main loop cb holds store) hbefore hx ?_
      exact .inr (.inr ⟨l, List.mem_append_right _ (List.mem_of_head? hf.1)⟩)

theorem act_mem_of_trace {acts : List (ConnAct ι κ)}
    {e : Tr (Except Fatal (SharedConn ι κ)) (ConnAct ι κ)} (h : e ∈ s.trace acts) :
    e.act ∈ acts := by
  induction acts generalizing s with
  | nil => exact absurd h List.not_mem_nil
  | cons a acts ih =>
    rw [trace] at h
    rcases List.mem_cons.mp h with rfl | h
    · exact List.mem_cons_self
    · split at h
      · exact List.mem_cons_of_mem _ (ih h)
      · exact absurd h List.not_mem_nil

/-- the memory of a thread with one byte, at 0 -/
def oneByte (_ : Unit) (q : Nat) : Option UInt8 := if q = 0 then some 1 else none

/-- one loop, and a foreign thread that has the pointer -/
def fresh : SharedConn Unit Unit := start () () false (fun _ => true) oneByte

/-- a foreign `send` of the byte -/
def sendOne {ι : Type} : List (ConnAct ι Unit) :=
  [.call () (.send 0 [1]), .bind () (.sendInLoop () 0 [1]), .push () (.sendInLoop () 0 [1]),
    .wakeup ()]

def sendAndKeep : List (ConnAct Unit Unit) :=
  sendOne ++ [.swap (), .runTask () (.sendInLoop () 0 [1]) [1] 1]

/-- the caller writes the cell before the functor runs -/
def sendThenWrite : List (ConnAct Unit Unit) :=
  sendOne ++ [.poke () 0 (some 2), .swap (), .runTask () (.sendInLoop () 0 [1]) [2] 1]

theorem fits_call : fresh.Fits (.call () (.send 0 [1])) := by
  refine ⟨rfl, rfl, ?_⟩
  intro data asked h
  cases h
  exact ⟨rfl, trivial⟩

theorem runs_sendAndKeep : fresh.Runs sendAndKeep := by
  refine ⟨fits_call, _, rfl, .inr ⟨0, [1], rfl, rfl⟩, _, rfl, rfl, _, rfl, rfl, _, rfl,
    ⟨rfl, rfl, fun _ => ⟨⟨rfl, rfl⟩, rfl⟩⟩, _, rfl,
    ⟨rfl, ⟨⟨?_, trivial⟩, rfl⟩, fun _ => ⟨⟨rfl, rfl⟩, rfl⟩⟩, _, rfl, trivial⟩
  intro b hb
  exact Option.some.inj hb

theorem runs_sendThenWrite : fresh.Runs sendThenWrite := by
  refine ⟨fits_call, _, rfl, .inr ⟨0, [1], rfl, rfl⟩, _, rfl, rfl, _, rfl, rfl, _, rfl,
    rfl, _, rfl, ⟨rfl, rfl, fun _ => ⟨⟨rfl, rfl⟩, rfl⟩⟩, _, rfl,
    ⟨rfl, ⟨⟨?_, trivial⟩, rfl⟩, fun _ => ⟨⟨rfl, rfl⟩, rfl⟩⟩, _, rfl, trivial⟩
  intro b hb
  exact Option.some.inj hb

theorem sends_by_value_kept : SentByValue (fresh.trace sendAndKeep) := by
  apply sends_by_value () () false (fun _ => true) oneByte runs_sendAndKeep.path
  intro e he s _ k q b ha
  have hmem := act_mem_of_trace he
  rw [ha] at hmem
  simp [sendAndKeep, sendOne] at hmem

/-- what the functor sends is what the caller has written since -/
theorem sends_by_reference : ¬ ∀ tr, Path Step (.ok fresh) tr → SentByValue tr := by
  intro hall
  obtain ⟨before, s, t, u, hsplit, hasked, hsent, hmeant⟩ : ∃ before s t u,
      fresh.trace sendThenWrite =
        before ++ [⟨.ok s, .runTask () (.sendInLoop () 0 [1]) [2] 1, .ok t⟩] ∧
      s.exec (.runTask () (.sendInLoop () 0 [1]) [1] 1) = .ok u ∧
      t.sock.sent = [2] ∧ u.sock.sent = [1] :=
    ⟨(fresh.trace sendThenWrite).dropLast, _, _, _, rfl, rfl, rfl, rfl⟩
  have hpost := (hall _ runs_sendThenWrite.path before _ [] hsplit).1 s () () 0 [1] [2] 1 rfl rfl
  rw [hasked] at hpost
  obtain rfl := Except.ok.inj hpost
  rw [hmeant] at hsent
  cases hsent

end SharedConn

end Feipu
