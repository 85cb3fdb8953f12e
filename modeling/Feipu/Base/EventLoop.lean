import Mathlib.Algebra.Order.Ring.Int
import Mathlib.Logic.Function.Basic
import Feipu.Lib.Trace

/-!
# `EventLoop` (base/src/Eventloop.cpp)

The loop thread and any number of foreign threads `ι`, interleaved at the points where they touch
what they share: the queue `functions` (under its mutex), the counter of the eventfd and `looping`.
A foreign `runInLoop` is two steps, the push and the `wakeup`; on the loop thread the functor runs
at once.  `pushed` and `ran` are histories.

* `tasks_in_order`   in every reachable state the functors that ran, the rest of the running batch
                     and the queue make up all pushed functors in their order, and a loop blocked
                     in `poll` with a queue is about to be woken.
-/

namespace Feipu
open Trace

/-- where the loop thread is -/
inductive Pc where
  /-- outside `loop ()` -/
  | idle
  /-- before `while (looping_)` -/
  | test
  /-- blocked in `poll` -/
  | poll
  /-- handling the active channels; is the eventfd among those left? -/
  | events (wake : Bool)
  | timers
  /-- at the swap in `doFunctions` -/
  | swap
  /-- in the batch -/
  | run
deriving DecidableEq

/-- where a foreign thread is: it owes a `wakeup` after a push or after `quit` -/
inductive Waking where
  | no | afterPush | afterQuit
deriving DecidableEq

structure EventLoop (τ ι : Type) where
  pc : Pc := .idle
  looping : Bool := false
  functions : List τ := []
  batch : List τ := []
  wakeupFd : Nat := 0
  waking : ι → Waking := fun _ => .no
  pushed : List τ := []
  ran : List τ := []
  /-- run at once by `runInLoop` on the loop thread -/
  ranHere : List τ := []

/-- one step of a thread -/
inductive LoopAct (τ ι : Type) where
  | start
  | testLooping
  | pollReturn (wake : Bool)
  /-- at its place among the active channels -/
  | handleWakeEvent
  | handleEvents
  | handleTimeEvent
  | swapFunctions
  | runFunction
  | runInLoopHere (cb : τ)
  | runInLoop (i : ι) (cb : τ)
  | wakeup (i : ι)
  | quit (i : ι)
  | quitHere

namespace EventLoop
variable {τ ι : Type}

/-- the largest value an eventfd counts to -/
def eventfdMax : Nat := 2 ^ 64 - 2

/-- `write (wakeupFd_, 1)` on the non-blocking eventfd -/
def writeWakeup (s : EventLoop τ ι) : EventLoop τ ι :=
  if s.wakeupFd < eventfdMax then { s with wakeupFd := s.wakeupFd + 1 } else s

/-- `handleWakeEvent`: the read takes the whole counter -/
def handleWakeEvent (s : EventLoop τ ι) : EventLoop τ ι := { s with wakeupFd := 0 }

variable [DecidableEq ι]

/-- a step, where the thread is there to make it.  `poll` also returns for other descriptors and
when its time is up, and need not report the eventfd at once. -/
def exec (s : EventLoop τ ι) : LoopAct τ ι → Option (EventLoop τ ι)
  | .start => if s.pc = .idle then some { s with looping := true, pc := .test } else none
  | .testLooping =>
    if s.pc = .test then some { s with pc := if s.looping then .poll else .idle } else none
  | .pollReturn wake =>
    if s.pc = .poll ∧ (wake = true → 0 < s.wakeupFd) then some { s with pc := .events wake } else none
  | .handleWakeEvent =>
    match s.pc with
    | .events true => some { s.handleWakeEvent with pc := .events false }
    | _ => none
  | .handleEvents =>
    match s.pc with
    | .events wake => some { (if wake then s.handleWakeEvent else s) with pc := .timers }
    | _ => none
  | .handleTimeEvent => if s.pc = .timers then some { s with pc := .swap } else none
  | .swapFunctions =>
    if s.pc = .swap then some { s with batch := s.functions, functions := [], pc := .run } else none
  | .runFunction =>
    if s.pc = .run then
      match s.batch with
      | [] => some { s with pc := .test }
      | func :: batch => some { s with batch, ran := s.ran ++ [func] }
    else none
  | .runInLoopHere cb =>
    if s.pc = .poll then none else some { s with ranHere := s.ranHere ++ [cb] }
  | .runInLoop i cb =>
    if s.waking i = .no then
      some { s with
        functions := s.functions ++ [cb]
        pushed := s.pushed ++ [cb]
        waking := Function.update s.waking i .afterPush }
    else none
  | .wakeup i =>
    if s.waking i ≠ .no then some { s.writeWakeup with waking := Function.update s.waking i .no }
    else none
  | .quit i =>
    if s.waking i = .no then
      some { s with looping := false, waking := Function.update s.waking i .afterQuit }
    else none
  | .quitHere =>
    match s.pc with
    | .idle | .poll => none
    | _ => some { s with looping := false }

inductive Step : EventLoop τ ι → LoopAct τ ι → EventLoop τ ι → Prop where
  | mk {s t : EventLoop τ ι} {a : LoopAct τ ι} : s.exec a = some t → Step s a t

/-! ## the invariant -/

/-- the loop is past `poll` and will swap before it polls again -/
def WillSwap (s : EventLoop τ ι) : Prop :=
  (∃ wake, s.pc = .events wake) ∨ s.pc = .timers ∨ s.pc = .swap

/-- somebody will wake the loop, or has -/
def Awaited (s : EventLoop τ ι) : Prop := 0 < s.wakeupFd ∨ ∃ i, s.waking i = .afterPush

structure Sound (s : EventLoop τ ι) : Prop where
  order : s.ran ++ s.batch ++ s.functions = s.pushed
  batch : s.pc ≠ .run → s.batch = []
  awaited : ¬ s.WillSwap → s.functions ≠ [] → s.Awaited

omit [DecidableEq ι] in
theorem sound_new : ({} : EventLoop τ ι).Sound where
  order := rfl
  batch _ := rfl
  awaited _ h := absurd rfl h

omit [DecidableEq ι] in
theorem awaited_writeWakeup (s : EventLoop τ ι) : 0 < s.writeWakeup.wakeupFd := by
  unfold writeWakeup
  split
  · exact Nat.succ_pos _
  · rename_i h
    unfold eventfdMax at h
    omega

omit [DecidableEq ι] in
theorem writeWakeup_keeps (s : EventLoop τ ι) : s.writeWakeup.pc = s.pc ∧
    s.writeWakeup.functions = s.functions ∧ s.writeWakeup.batch = s.batch ∧
    s.writeWakeup.pushed = s.pushed ∧ s.writeWakeup.ran = s.ran := by
  unfold writeWakeup
  split
  · exact ⟨rfl, rfl, rfl, rfl, rfl⟩
  · exact ⟨rfl, rfl, rfl, rfl, rfl⟩

omit [DecidableEq ι] in
/-- a step of the loop thread that leaves the queue, the counter and the other threads alone -/
theorem sound_pc {s : EventLoop τ ι} (h : s.Sound) (pc : Pc) (looping : Bool)
    (hb : pc ≠ .run → s.batch = [])
    (hw : ¬ ({ s with pc, looping } : EventLoop τ ι).WillSwap → ¬ s.WillSwap) :
    ({ s with pc, looping } : EventLoop τ ι).Sound where
  order := h.order
  batch := hb
  awaited hns hne := h.awaited (hw hns) hne

/-- the loop thread runs a functor of its batch, or ends it -/
theorem sound_runFunction {s t : EventLoop τ ι} (h : s.Sound) (hst : s.exec .runFunction = some t) :
    t.Sound := by
  simp only [exec, Option.ite_none_right_eq_some] at hst
  obtain ⟨hpc, hst⟩ := hst
  have ho := h.order
  cases hb : s.batch with
  | nil =>
    rw [hb] at hst ho
    obtain rfl := Option.some.inj hst
    exact ⟨ho, fun _ => rfl, fun _ hne => h.awaited (by simp [WillSwap, hpc]) hne⟩
  | cons func batch =>
    rw [hb] at hst ho
    obtain rfl := Option.some.inj hst
    refine ⟨?_, fun hne => absurd hpc hne, fun hns hne => h.awaited hns hne⟩
    show s.ran ++ [func] ++ batch ++ s.functions = s.pushed
    rw [← ho, List.append_assoc s.ran [func] batch]
    rfl

/-- a foreign thread takes one of its steps -/
theorem sound_wakeup {s t : EventLoop τ ι} (h : s.Sound) {i : ι} (hst : s.exec (.wakeup i) = some t) :
    t.Sound := by
  simp only [exec, Option.ite_none_right_eq_some, Option.some.injEq] at hst
  obtain ⟨-, rfl⟩ := hst
  obtain ⟨hpc, hf, hb, hp, hr⟩ := s.writeWakeup_keeps
  refine ⟨?_, ?_, fun _ _ => .inl (awaited_writeWakeup s)⟩
  · show s.writeWakeup.ran ++ s.writeWakeup.batch ++ s.writeWakeup.functions = s.writeWakeup.pushed
    rw [hr, hb, hf, hp]
    exact h.order
  · intro hne
    exact hb.trans (h.batch (hpc ▸ hne))

theorem sound_quit {s t : EventLoop τ ι} (h : s.Sound) {i : ι} (hst : s.exec (.quit i) = some t) :
    t.Sound := by
  simp only [exec, Option.ite_none_right_eq_some, Option.some.injEq] at hst
  obtain ⟨hi, rfl⟩ := hst
  refine ⟨h.order, h.batch, fun hns hne => ?_⟩
  rcases h.awaited hns hne with hpos | ⟨j, hj⟩
  · exact .inl hpos
  · -- the thread that quits does not owe a wakeup for a push
    have hne : j ≠ i := by
      rintro rfl
      rw [hi] at hj
      cases hj
    exact .inr ⟨j, (Function.update_of_ne hne _ _).trans hj⟩

/-- **One step** of any thread -/
theorem sound_step {s t : EventLoop τ ι} {a : LoopAct τ ι} (h : s.Sound) (hst : s.exec a = some t) :
    t.Sound := by
  cases a with
  | start =>
    simp only [exec, Option.ite_none_right_eq_some, Option.some.injEq] at hst
    obtain ⟨hpc, rfl⟩ := hst
    refine sound_pc h .test true (fun _ => h.batch (by rw [hpc]; decide)) (fun _ => ?_)
    simp [WillSwap, hpc]
  | testLooping =>
    simp only [exec, Option.ite_none_right_eq_some, Option.some.injEq] at hst
    obtain ⟨hpc, rfl⟩ := hst
    refine sound_pc h _ s.looping (fun _ => h.batch (by rw [hpc]; decide)) (fun _ => ?_)
    simp [WillSwap, hpc]
  | pollReturn wake =>
    simp only [exec, Option.ite_none_right_eq_some, Option.some.injEq] at hst
    obtain ⟨⟨hpc, -⟩, rfl⟩ := hst
    refine sound_pc h _ s.looping (fun _ => h.batch (by rw [hpc]; decide)) (fun _ => ?_)
    simp [WillSwap, hpc]
  | handleWakeEvent =>
    simp only [exec] at hst
    split at hst
    · rename_i hpc
      obtain rfl := Option.some.inj hst
      have hb : s.batch = [] := h.batch (by rw [hpc]; exact fun h => (by cases h))
      exact ⟨h.order, fun _ => hb, fun hns => absurd (.inl ⟨false, rfl⟩) hns⟩
    · cases hst
  | handleEvents =>
    simp only [exec] at hst
    split at hst
    · rename_i wake hpc
      obtain rfl := Option.some.inj hst
      have hb : s.batch = [] := h.batch (by rw [hpc]; exact fun h => (by cases h))
      cases wake with
      | false => exact ⟨h.order, fun _ => hb, fun hns => absurd (.inr (.inl rfl)) hns⟩
      | true => exact ⟨h.order, fun _ => hb, fun hns => absurd (.inr (.inl rfl)) hns⟩
    · cases hst
  | handleTimeEvent =>
    simp only [exec, Option.ite_none_right_eq_some, Option.some.injEq] at hst
    obtain ⟨hpc, rfl⟩ := hst
    refine sound_pc h .swap s.looping (fun _ => h.batch (by rw [hpc]; decide)) (fun hns => ?_)
    exact absurd (.inr (.inr rfl)) hns
  | swapFunctions =>
    simp only [exec, Option.ite_none_right_eq_some, Option.some.injEq] at hst
    obtain ⟨hpc, rfl⟩ := hst
    refine ⟨?_, fun hne => absurd rfl hne, fun _ hne => absurd rfl hne⟩
    have ho := h.order
    rw [h.batch (by rw [hpc]; decide), List.append_nil] at ho
    show s.ran ++ s.functions ++ [] = s.pushed
    rw [List.append_nil, ho]
  | runFunction => exact sound_runFunction h hst
  | runInLoopHere cb =>
    simp only [exec, Option.ite_none_left_eq_some, Option.some.injEq] at hst
    obtain ⟨-, rfl⟩ := hst
    exact ⟨h.order, h.batch, fun hns hne => h.awaited hns hne⟩
  | runInLoop i cb =>
    simp only [exec, Option.ite_none_right_eq_some, Option.some.injEq] at hst
    obtain ⟨-, rfl⟩ := hst
    refine ⟨?_, h.batch, fun _ _ => .inr ⟨i, Function.update_self _ _ _⟩⟩
    show s.ran ++ s.batch ++ (s.functions ++ [cb]) = s.pushed ++ [cb]
    rw [← h.order, List.append_assoc (s.ran ++ s.batch)]
  | wakeup i => exact sound_wakeup h hst
  | quit i => exact sound_quit h hst
  | quitHere =>
    simp only [exec] at hst
    split at hst
    · cases hst
    · cases hst
    · obtain rfl := Option.some.inj hst
      exact ⟨h.order, h.batch, fun hns hne => h.awaited hns hne⟩

/-- the functor that a step pushes -/
def pushes : LoopAct τ ι → Option τ
  | .runInLoop _ cb => some cb
  | _ => none

theorem pushed_step {s t : EventLoop τ ι} {a : LoopAct τ ι} (hst : s.exec a = some t) :
    t.pushed = s.pushed ++ (pushes a).toList := by
  have hsame : ∀ {l : List τ}, l = l ++ [] := (List.append_nil _).symm
  cases a with
  | start | testLooping | pollReturn | handleTimeEvent | swapFunctions | runInLoopHere | quit =>
    simp only [exec, Option.ite_none_right_eq_some, Option.ite_none_left_eq_some,
      Option.some.injEq] at hst
    obtain ⟨-, rfl⟩ := hst
    exact hsame
  | handleWakeEvent =>
    simp only [exec] at hst
    split at hst
    · obtain rfl := Option.some.inj hst
      exact hsame
    · cases hst
  | handleEvents =>
    simp only [exec] at hst
    split at hst
    · rename_i wake _
      obtain rfl := Option.some.inj hst
      cases wake <;> exact hsame
    · cases hst
  | runFunction =>
    simp only [exec, Option.ite_none_right_eq_some] at hst
    obtain ⟨-, hst⟩ := hst
    split at hst
    · obtain rfl := Option.some.inj hst
      exact hsame
    · obtain rfl := Option.some.inj hst
      exact hsame
  | runInLoop i cb =>
    simp only [exec, Option.ite_none_right_eq_some, Option.some.injEq] at hst
    obtain ⟨-, rfl⟩ := hst
    rfl
  | wakeup i =>
    simp only [exec, Option.ite_none_right_eq_some, Option.some.injEq] at hst
    obtain ⟨-, rfl⟩ := hst
    exact s.writeWakeup_keeps.2.2.2.1.trans hsame
  | quitHere =>
    simp only [exec] at hst
    split at hst
    · cases hst
    · cases hst
    · obtain rfl := Option.some.inj hst
      exact hsame

/-- what a run has pushed are the functors of its calls of `runInLoop` on other threads, in order -/
theorem pushed_run {tr : List (Tr (EventLoop τ ι) (LoopAct τ ι))} (h : Path Step {} tr) :
    (last {} tr).pushed = tr.filterMap fun e => pushes e.act := by
  refine h.history (I := fun past s => s.pushed = past.filterMap fun e => pushes e.act) ?_ rfl
  rintro past s a t hp ⟨hst⟩
  let f : Tr (EventLoop τ ι) (LoopAct τ ι) → Option τ := fun e => pushes e.act
  have hone : (pushes a).toList = [⟨s, a, t⟩].filterMap f := by
    cases ha : f ⟨s, a, t⟩ with
    | none =>
      rw [List.filterMap_cons_none ha, List.filterMap_nil]
      exact congrArg Option.toList ha
    | some cb =>
      rw [List.filterMap_cons_some ha, List.filterMap_nil]
      exact congrArg Option.toList ha
  rw [pushed_step hst, hp, List.filterMap_append, hone]

/-- **No task is lost, reordered or stranded.** -/
theorem tasks_in_order {s : EventLoop τ ι} (h : Reach Step {} s) :
    s.ran ++ s.batch ++ s.functions = s.pushed ∧
      (s.pc = .poll → s.functions ≠ [] → 0 < s.wakeupFd ∨ ∃ i, s.waking i = .afterPush) := by
  have hs : s.Sound := h.inv (fun s a t hs hst => by
    cases hst with
    | mk ht => exact sound_step hs ht) sound_new
  refine ⟨hs.order, fun hpc hne => hs.awaited ?_ hne⟩
  simp [WillSwap, hpc]

/-- two functors are pushed while the loop polls, one thread still owing its wakeup -/
theorem tasks_in_order_polling :
    ∃ s : EventLoop Nat Bool, Reach Step {} s ∧ s.pc = .poll ∧ s.functions = [7, 8] ∧
      s.ran ++ s.batch ++ s.functions = s.pushed ∧
      (0 < s.wakeupFd ∨ ∃ i, s.waking i = .afterPush) := by
  have h0 : Reach Step ({} : EventLoop Nat Bool) {} := .refl
  have h1 := h0.snoc (a := .start) (.mk rfl)
  have h2 := h1.snoc (a := .testLooping) (.mk rfl)
  have h3 := h2.snoc (a := .runInLoop false 7) (.mk rfl)
  have h4 := h3.snoc (a := .wakeup false) (.mk rfl)
  have h5 := h4.snoc (a := .runInLoop true 8) (.mk rfl)
  obtain ⟨horder, hawake⟩ := tasks_in_order h5
  exact ⟨_, h5, rfl, rfl, horder, hawake rfl (List.cons_ne_nil _ _)⟩

end EventLoop

end Feipu
