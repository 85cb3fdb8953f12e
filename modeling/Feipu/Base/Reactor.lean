import Feipu.Base.EventLoop
import Feipu.Base.Stamps
import Feipu.Base.TimerFates

/-!
# The loop and its timers

`EventLoop` and `TimerQueue` put together.  `RunAt`, `RunAfter` and `RunEvery` on another thread hand
the loop an `addTimerInLoop` through its queue; the time that `poll` is given is computed from the
set as it then is; `handleTimeEvent` goes by the clock reading of that computation.

* `refines`       the loop is an `EventLoop`, and its timers are a `TimerQueue` whose waiting timers
                  are those in the queue of the loop; no step follows a pointer to no timer;
* `created_run`   the timers made in a run are those that its calls ask for, in their order;
* `timers_kept`   whatever the threads do, every timer made waits in the queue, stands in the set or
                  has run its one time, and `poll` never sleeps on a set that is not up to date
                  without a wakeup on its way;
* `never_early`   and where all times are in the range of `int64_t`, no timer runs before its time, or
                  more often than its interval allows.
-/

namespace Feipu
open Trace

/-! ## the timers that wait are a history of the set -/

namespace TimerQueue
variable {τ : Type}

/-- the time for `poll` depends on the set only -/
theorem pollTimeout_congr {q q' : TimerQueue τ} (h : q'.timers = q.timers) (now : TimeStamp) :
    q'.pollTimeout now = q.pollTimeout now := by
  unfold pollTimeout getNextTimerTimerOut
  dsimp only
  rw [h]
  cases q.timers.elems.head? with
  | none => rfl
  | some e =>
    dsimp only
    split <;> rfl

/-- the set, with these timers waiting in the queue of the loop -/
def awaiting (q : TimerQueue τ) (ps : List Nat) : TimerQueue τ := { q with pending := ps }

theorem insert_awaiting (q : TimerQueue τ) (ps : List Nat) (p : Nat) :
    (q.awaiting ps).insert p = (q.insert p).map (awaiting · ps) := by
  unfold insert
  rw [Option.map_map]
  rfl

theorem addTimer_awaiting (q : TimerQueue τ) (ps : List Nat) (a : NewTimer τ) :
    (q.awaiting ps).addTimer a = (q.addTimer a).map (awaiting · ps) := by
  unfold addTimer
  by_cases hf : q.Fresh a.address
  · have hf' : (q.awaiting ps).Fresh a.address := hf
    rw [if_pos hf, if_pos hf']
    exact insert_awaiting (q.newTimer a) ps a.address
  · have hf' : ¬ (q.awaiting ps).Fresh a.address := hf
    rw [if_neg hf, if_neg hf']
    rfl

/-- what treats both queues alike after one step treats them alike -/
theorem bind_awaiting {f : TimerQueue τ → Option (TimerQueue τ)} {ps : List Nat}
    (hf : ∀ q, f (q.awaiting ps) = (f q).map (awaiting · ps)) (o : Option (TimerQueue τ)) :
    (o.map (awaiting · ps)).bind f = (o.bind f).map (awaiting · ps) := by
  cases o with
  | none => rfl
  | some q => exact hf q

theorem foldlM_awaiting (q : TimerQueue τ) (ps : List Nat) (as : List (NewTimer τ)) :
    as.foldlM addTimer (q.awaiting ps) = (as.foldlM addTimer q).map (awaiting · ps) := by
  induction as generalizing q with
  | nil => rfl
  | cons a as ih =>
    rw [List.foldlM_cons, List.foldlM_cons, addTimer_awaiting]
    exact bind_awaiting ih _

theorem runTimers_awaiting (adds : Nat → List (NewTimer τ)) (k : Nat) (expired : List Nat)
    (q : TimerQueue τ) (ps : List Nat) :
    runTimers adds k expired (q.awaiting ps) = (runTimers adds k expired q).map (awaiting · ps) := by
  induction expired generalizing q k with
  | nil => rfl
  | cons item rest ih =>
    rw [runTimers, runTimers]
    have hmem : (q.awaiting ps).memory item = q.memory item := rfl
    rw [hmem]
    cases q.memory item with
    | none => rfl
    | some t =>
      show ((adds k).foldlM addTimer (awaiting { q with ran := q.ran ++ [t] } ps)).bind _ = _
      rw [foldlM_awaiting]
      exact bind_awaiting (ih (k + 1)) _

theorem resetTimers_awaiting (expired : List Nat) (q : TimerQueue τ) (ps : List Nat) :
    resetTimers expired (q.awaiting ps) = (resetTimers expired q).map (awaiting · ps) := by
  induction expired generalizing q with
  | nil => rfl
  | cons item rest ih =>
    rw [resetTimers, resetTimers]
    have hmem : (q.awaiting ps).memory item = q.memory item := rfl
    rw [hmem]
    cases q.memory item with
    | none => rfl
    | some t =>
      show (if t.isRepeat = true then _ else _) = Option.map _ (if t.isRepeat = true then _ else _)
      by_cases hrep : t.isRepeat = true
      · rw [if_pos hrep, if_pos hrep]
        have hput := insert_awaiting
          { q with memory := Function.update q.memory item (some (t.resetExpiration q.nowChache)) }
          ps item
        exact (congrArg (Option.bind · (resetTimers rest)) hput).trans (bind_awaiting ih _)
      · rw [if_neg hrep, if_neg hrep]
        exact ih { q with memory := Function.update q.memory item none }

theorem handleTimeEvent_awaiting (q : TimerQueue τ) (ps : List Nat)
    (adds : Nat → List (NewTimer τ)) :
    (q.awaiting ps).handleTimeEvent adds = (q.handleTimeEvent adds).map (awaiting · ps) := by
  show (runTimers adds 0 q.getExpired.1 (q.getExpired.2.awaiting ps)).bind _ = _
  rw [runTimers_awaiting]
  exact bind_awaiting (fun r => resetTimers_awaiting q.getExpired.1 r ps) _

/-- between the reading of the clock and the iteration timers only come in -/
theorem exec_between {q q' : TimerQueue τ} (h : q.Consistent) {a : TimerAct τ}
    (hexec : q.exec a = some q') (hread : ∀ now, a ≠ .getNextTimerTimerOut now)
    (hfire : ∀ adds, a ≠ .handleTimeEvent adds) :
    q'.nowChache = q.nowChache ∧ q'.ran = q.ran ∧ ∀ t, q.Scheduled t → q'.Scheduled t := by
  obtain ⟨q1, hq1, -, -, hmeets⟩ := exec_spec h a
  obtain rfl := Option.some.inj (hexec.symm.trans hq1)
  refine ⟨?_, ?_⟩
  · rcases clock_exec h hexec with hsame | ha
    · exact hsame
    · exact absurd ha (hread _)
  · exact hmeets.still hfire

end TimerQueue

/-! ## the loop with its timers -/

/-- a functor in the queue of the loop -/
inductive LoopFunctor (τ : Type) where
  | addTimerInLoop (inTimer : Nat)
  | user (cb : τ)

/-- the timer that the functor will insert -/
def LoopFunctor.timer {τ : Type} : LoopFunctor τ → Option Nat
  | .addTimerInLoop inTimer => some inTimer
  | .user _ => none

/-- the loop thread, the threads `ι` and the timers; `timeOut` is what `poll` was last given -/
structure Reactor (τ ι : Type) where
  loop : EventLoop (LoopFunctor τ) ι := {}
  timers : TimerQueue τ := {}
  timeOut : Int := 0

/-- a step of a thread.  The address of a new timer and the reading of the clock are answers of the
environment. -/
inductive ReactorAct (τ ι : Type) where
  /-- a step in which no timer is concerned -/
  | loop (a : LoopAct (LoopFunctor τ) ι)
  | testLooping (now : TimeStamp)
  | handleTimeEvent (adds : Nat → List (NewTimer τ))
  | runFunction
  /-- `RunAt`, `RunAfter` or `RunEvery` in a callback -/
  | addTimerHere (a : NewTimer τ)
  /-- the same on the thread `i` -/
  | addTimer (i : ι) (a : NewTimer τ)

namespace ReactorAct
variable {τ ι : Type}

/-- no timer is concerned -/
def plain : LoopAct (LoopFunctor τ) ι → Bool
  | .testLooping | .handleTimeEvent | .runFunction => false
  | .runInLoopHere cb | .runInLoop _ cb => cb.timer.isNone
  | _ => true

/-- the step of the loop -/
def onLoop : ReactorAct τ ι → LoopAct (LoopFunctor τ) ι
  | .loop a => a
  | .testLooping _ => .testLooping
  | .handleTimeEvent _ => .handleTimeEvent
  | .runFunction => .runFunction
  | .addTimerHere a => .runInLoopHere (.addTimerInLoop a.address)
  | .addTimer i a => .runInLoop i (.addTimerInLoop a.address)

end ReactorAct

namespace Reactor
variable {τ ι : Type} [DecidableEq ι]

/-- `new` returns an address that is free -/
def Allowed (s : Reactor τ ι) : ReactorAct τ ι → Prop
  | .loop a => ReactorAct.plain a = true
  | .addTimerHere a | .addTimer _ a => s.timers.Fresh a.address
  | _ => True

instance (s : Reactor τ ι) : (a : ReactorAct τ ι) → Decidable (s.Allowed a)
  | .loop a => inferInstanceAs (Decidable (ReactorAct.plain a = true))
  | .addTimerHere a | .addTimer _ a => inferInstanceAs (Decidable (s.timers.Fresh a.address))
  | .testLooping _ | .handleTimeEvent _ | .runFunction => inferInstanceAs (Decidable True)

/-- what the step does to the timers, and the time it gives `poll` -/
def onTimers (s : Reactor τ ι) : ReactorAct τ ι → Option (TimerQueue τ × Int)
  | .loop _ => some (s.timers, s.timeOut)
  | .testLooping now =>
    some (if s.loop.looping then ((s.timers.getNextTimerTimerOut now).2, s.timers.pollTimeout now)
      else (s.timers, s.timeOut))
  | .handleTimeEvent adds => (s.timers.handleTimeEvent adds).map (·, s.timeOut)
  | .runFunction =>
    match s.loop.batch with
    | .addTimerInLoop inTimer :: _ => (s.timers.insert inTimer).map (·, s.timeOut)
    | _ => some (s.timers, s.timeOut)
  | .addTimerHere a => (s.timers.addTimer a).map (·, s.timeOut)
  | .addTimer _ a => some (s.timers.newTimer a, s.timeOut)

/-- a step, where the thread is there to make it -/
def exec (s : Reactor τ ι) (a : ReactorAct τ ι) : Option (Reactor τ ι) :=
  if s.Allowed a then do
    let loop ← s.loop.exec a.onLoop
    let (timers, timeOut) ← s.onTimers a
    some { loop, timers, timeOut }
  else none

inductive Step : Reactor τ ι → ReactorAct τ ι → Reactor τ ι → Prop where
  | mk {s t : Reactor τ ι} {a : ReactorAct τ ι} : s.exec a = some t → Step s a t

/-- the timers in the queue of a loop -/
def waitingIn (l : EventLoop (LoopFunctor τ) ι) : List Nat :=
  (l.batch ++ l.functions).filterMap LoopFunctor.timer

def waiting (s : Reactor τ ι) : List Nat := waitingIn s.loop

/-- the timers as the `TimerQueue` that the loop makes them -/
def queue (s : Reactor τ ι) : TimerQueue τ := s.timers.awaiting s.waiting

theorem exec_eq_some {s t : Reactor τ ι} {a : ReactorAct τ ι} : s.exec a = some t ↔
    s.Allowed a ∧ s.loop.exec a.onLoop = some t.loop ∧ s.onTimers a = some (t.timers, t.timeOut) := by
  unfold exec
  by_cases ha : s.Allowed a
  · rw [if_pos ha, and_iff_right ha]
    cases s.loop.exec a.onLoop with
    | none => exact ⟨fun h => (by cases h), fun h => (by cases h.1)⟩
    | some loop =>
      cases s.onTimers a with
      | none => exact ⟨fun h => (by cases h), fun h => (by cases h.2)⟩
      | some p =>
        obtain ⟨timers, timeOut⟩ := p
        cases t with
        | mk l q x =>
          constructor
          · intro h
            obtain ⟨rfl, rfl, rfl⟩ := Reactor.mk.inj (Option.some.inj h)
            exact ⟨rfl, rfl⟩
          · rintro ⟨hl, hq⟩
            obtain rfl := Option.some.inj hl
            obtain ⟨rfl, rfl⟩ := Prod.mk.inj (Option.some.inj hq)
            rfl
  · rw [if_neg ha]
    exact ⟨fun h => (by cases h), fun h => absurd h.1 ha⟩

/-! ## what comes into the queue and what goes out -/

/-- the timer that the step puts in the queue -/
def posted : LoopAct (LoopFunctor τ) ι → List Nat
  | .runInLoop _ cb => cb.timer.toList
  | _ => []

/-- the timer that the step takes out -/
def taken (l : EventLoop (LoopFunctor τ) ι) : LoopAct (LoopFunctor τ) ι → List Nat
  | .runFunction => (l.batch.head?.bind LoopFunctor.timer).toList
  | _ => []

omit [DecidableEq ι] in
theorem waitingIn_congr {l l' : EventLoop (LoopFunctor τ) ι} (hb : l'.batch = l.batch)
    (hf : l'.functions = l.functions) : waitingIn l' = waitingIn l := by
  unfold waitingIn
  rw [hb, hf]

theorem waitingIn_exec {l l' : EventLoop (LoopFunctor τ) ι} (hs : l.Sound)
    {a : LoopAct (LoopFunctor τ) ι} (h : l.exec a = some l') :
    waitingIn l ++ posted a = taken l a ++ waitingIn l' := by
  have hsame : ∀ {b : LoopAct (LoopFunctor τ) ι}, posted b = [] → taken l b = [] →
      l'.batch = l.batch → l'.functions = l.functions →
      waitingIn l ++ posted b = taken l b ++ waitingIn l' := by
    intro b hp ht hb hf
    rw [hp, ht, List.append_nil, List.nil_append, waitingIn_congr hb hf]
  cases a with
  | start | testLooping | handleTimeEvent | runInLoopHere | quit =>
    simp only [EventLoop.exec, Option.ite_none_right_eq_some, Option.ite_none_left_eq_some,
      Option.some.injEq] at h
    obtain ⟨-, rfl⟩ := h
    exact hsame rfl rfl rfl rfl
  | pollReturn wake =>
    simp only [EventLoop.exec, Option.ite_none_right_eq_some, Option.some.injEq] at h
    obtain ⟨-, rfl⟩ := h
    exact hsame rfl rfl rfl rfl
  | handleWakeEvent =>
    simp only [EventLoop.exec] at h
    split at h
    · obtain rfl := Option.some.inj h
      exact hsame rfl rfl rfl rfl
    · cases h
  | handleEvents =>
    simp only [EventLoop.exec] at h
    split at h
    · rename_i wake _
      obtain rfl := Option.some.inj h
      cases wake <;> exact hsame rfl rfl rfl rfl
    · cases h
  | swapFunctions =>
    simp only [EventLoop.exec, Option.ite_none_right_eq_some, Option.some.injEq] at h
    obtain ⟨hpc, rfl⟩ := h
    have hb : l.batch = [] := hs.batch (by rw [hpc]; exact fun h => (by cases h))
    show (l.batch ++ l.functions).filterMap _ ++ [] = [] ++ (l.functions ++ []).filterMap _
    rw [hb, List.append_nil, List.append_nil, List.nil_append, List.nil_append]
  | runFunction =>
    simp only [EventLoop.exec, Option.ite_none_right_eq_some] at h
    obtain ⟨-, h⟩ := h
    cases hb : l.batch with
    | nil =>
      rw [hb] at h
      obtain rfl := Option.some.inj h
      have htaken : taken l .runFunction = [] := by
        rw [taken, hb]
        rfl
      exact hsame rfl htaken hb.symm rfl
    | cons func batch =>
      rw [hb] at h
      obtain rfl := Option.some.inj h
      have htaken : taken l .runFunction = func.timer.toList := by
        rw [taken, hb]
        rfl
      have hwaiting : waitingIn l = (func :: (batch ++ l.functions)).filterMap LoopFunctor.timer := by
        rw [waitingIn, hb]
        rfl
      rw [htaken, hwaiting, List.filterMap_cons]
      show _ ++ [] = _
      rw [List.append_nil]
      cases func <;> rfl
  | runInLoop i cb =>
    simp only [EventLoop.exec, Option.ite_none_right_eq_some, Option.some.injEq] at h
    obtain ⟨-, rfl⟩ := h
    show (l.batch ++ l.functions).filterMap _ ++ cb.timer.toList =
      [] ++ (l.batch ++ (l.functions ++ [cb])).filterMap _
    rw [List.nil_append, ← List.append_assoc, List.filterMap_append (l := l.batch ++ l.functions)]
    cases cb <;> rfl
  | wakeup i =>
    simp only [EventLoop.exec, Option.ite_none_right_eq_some, Option.some.injEq] at h
    obtain ⟨-, rfl⟩ := h
    obtain ⟨-, hf, hb, -, -⟩ := l.writeWakeup_keeps
    exact hsame rfl rfl hb hf
  | quitHere =>
    simp only [EventLoop.exec] at h
    split at h
    · cases h
    · cases h
    · obtain rfl := Option.some.inj h
      exact hsame rfl rfl rfl rfl

/-- a step that puts no timer in and takes none out -/
theorem waitingIn_of_exec {l l' : EventLoop (LoopFunctor τ) ι} (hs : l.Sound)
    {a : LoopAct (LoopFunctor τ) ι} (h : l.exec a = some l') (hposted : posted a = [])
    (htaken : taken l a = []) : waitingIn l' = waitingIn l := by
  have hw := waitingIn_exec hs h
  rw [hposted, htaken, List.append_nil, List.nil_append] at hw
  exact hw.symm

/-- a step in which no timer is concerned leaves the timers in the queue as they are -/
theorem waiting_plain {l l' : EventLoop (LoopFunctor τ) ι} (hs : l.Sound)
    {a : LoopAct (LoopFunctor τ) ι} (hp : ReactorAct.plain a = true) (h : l.exec a = some l') :
    waitingIn l' = waitingIn l := by
  apply waitingIn_of_exec hs h
  · cases a with
    | runInLoop i cb =>
      cases cb with
      | addTimerInLoop => cases hp
      | user => rfl
    | _ => rfl
  · cases a with
    | runFunction => cases hp
    | _ => rfl

/-! ## the timers are a `TimerQueue` -/

/-- at the test the clock is read, if the loop goes on -/
theorem queue_testLooping {s t : Reactor τ ι} (hs : s.loop.Sound) {now : TimeStamp}
    (h : s.exec (.testLooping now) = some t) (hl : s.loop.looping = true) :
    t.queue = { s.queue with nowChache := now } := by
  obtain ⟨-, hloop, htimers⟩ := exec_eq_some.mp h
  have htimers := Option.some.inj htimers
  rw [if_pos hl, TimerQueue.snd_getNextTimerTimerOut] at htimers
  obtain ⟨hq, -⟩ := Prod.mk.inj htimers
  rw [queue, queue, waiting, waiting, waitingIn_of_exec hs hloop rfl rfl, ← hq]
  rfl

/-- the step of the timers -/
def timerAct (s : Reactor τ ι) : ReactorAct τ ι → Option (TimerAct τ)
  | .loop _ => none
  | .testLooping now => if s.loop.looping then some (.getNextTimerTimerOut now) else none
  | .handleTimeEvent adds => some (.handleTimeEvent adds)
  | .runFunction => (s.loop.batch.head?.bind LoopFunctor.timer).map fun _ => .addTimerInLoop
  | .addTimerHere a => some (.addTimer a)
  | .addTimer _ a => some (.postTimer a)

omit [DecidableEq ι] in
theorem timerAct_read {s : Reactor τ ι} {a : ReactorAct τ ι} {now : TimeStamp}
    (h : s.timerAct a = some (.getNextTimerTimerOut now)) : a = .testLooping now := by
  cases a with
  | testLooping n =>
    obtain ⟨-, h⟩ := Option.ite_none_right_eq_some.mp h
    exact congrArg _ (TimerAct.getNextTimerTimerOut.inj (Option.some.inj h))
  | runFunction =>
    obtain ⟨_, -, h⟩ := Option.map_eq_some_iff.mp h
    cases h
  | _ => cases h

omit [DecidableEq ι] in
theorem timerAct_fire {s : Reactor τ ι} {a : ReactorAct τ ι} {adds : Nat → List (NewTimer τ)}
    (h : s.timerAct a = some (.handleTimeEvent adds)) : a = .handleTimeEvent adds := by
  cases a with
  | testLooping n =>
    obtain ⟨-, h⟩ := Option.ite_none_right_eq_some.mp h
    cases h
  | runFunction =>
    obtain ⟨_, -, h⟩ := Option.map_eq_some_iff.mp h
    cases h
  | handleTimeEvent => exact congrArg _ (TimerAct.handleTimeEvent.inj (Option.some.inj h))
  | _ => cases h

/-- **A step of the timers**, or none. -/
theorem queue_step {s t : Reactor τ ι} (hs : s.loop.Sound) {a : ReactorAct τ ι}
    (h : s.exec a = some t) : s.timerAct a = none ∧ t.queue = s.queue ∨
      ∃ b, s.timerAct a = some b ∧ s.queue.exec b = some t.queue := by
  obtain ⟨hallow, hloop, htimers⟩ := exec_eq_some.mp h
  have hw := waitingIn_exec hs hloop
  cases a with
  | loop a =>
    obtain ⟨hq, -⟩ := Prod.mk.inj (Option.some.inj htimers)
    refine .inl ⟨rfl, ?_⟩
    rw [queue, queue, waiting, waiting_plain hs hallow hloop, ← hq]
    rfl
  | testLooping now =>
    by_cases hl : s.loop.looping = true
    · have hqueue : (s.queue.getNextTimerTimerOut now).2 = t.queue := by
        rw [TimerQueue.snd_getNextTimerTimerOut, queue_testLooping hs h hl]
      exact .inr ⟨.getNextTimerTimerOut now, if_pos hl, congrArg some hqueue⟩
    · have htimers := Option.some.inj htimers
      rw [if_neg hl] at htimers
      obtain ⟨hq, -⟩ := Prod.mk.inj htimers
      refine .inl ⟨if_neg hl, ?_⟩
      rw [queue, queue, waiting, waiting, waitingIn_of_exec hs hloop rfl rfl, ← hq]
  | handleTimeEvent adds =>
    obtain ⟨q, hq, heq⟩ := Option.map_eq_some_iff.mp htimers
    obtain ⟨rfl, -⟩ := Prod.mk.inj heq
    refine .inr ⟨_, rfl, ?_⟩
    show (s.timers.awaiting _).handleTimeEvent adds = _
    rw [TimerQueue.handleTimeEvent_awaiting, hq, waiting, ← waitingIn_of_exec hs hloop rfl rfl]
    rfl
  | runFunction =>
    have hw : waitingIn s.loop ++ [] = taken s.loop .runFunction ++ waitingIn t.loop := hw
    rw [List.append_nil] at hw
    unfold onTimers at htimers
    unfold taken at hw
    unfold timerAct
    rcases hb : s.loop.batch with _ | ⟨p | cb, rest⟩
    · rw [hb] at htimers hw
      obtain ⟨hq, -⟩ := Prod.mk.inj (Option.some.inj htimers)
      exact .inl ⟨rfl, by rw [queue, queue, waiting, waiting, hw, ← hq]; rfl⟩
    · rw [hb] at htimers hw
      obtain ⟨q, hq, heq⟩ := Option.map_eq_some_iff.mp htimers
      obtain ⟨rfl, -⟩ := Prod.mk.inj heq
      refine .inr ⟨_, rfl, ?_⟩
      have hpending : s.queue.pending = p :: t.waiting := hw
      show s.queue.addTimerInLoop = _
      rw [TimerQueue.addTimerInLoop, hpending]
      show (s.timers.awaiting t.waiting).insert p = _
      rw [TimerQueue.insert_awaiting, hq]
      rfl
    · rw [hb] at htimers hw
      obtain ⟨hq, -⟩ := Prod.mk.inj (Option.some.inj htimers)
      exact .inl ⟨rfl, by rw [queue, queue, waiting, waiting, hw, ← hq]; rfl⟩
  | addTimerHere a =>
    obtain ⟨q, hq, heq⟩ := Option.map_eq_some_iff.mp htimers
    obtain ⟨rfl, -⟩ := Prod.mk.inj heq
    refine .inr ⟨_, rfl, ?_⟩
    show (s.timers.awaiting _).addTimer a = _
    rw [TimerQueue.addTimer_awaiting, hq, waiting, ← waitingIn_of_exec hs hloop rfl rfl]
    rfl
  | addTimer i a =>
    have hw : waitingIn s.loop ++ [a.address] = waitingIn t.loop := hw
    obtain ⟨hq, -⟩ := Prod.mk.inj (Option.some.inj htimers)
    have hfresh : s.queue.Fresh a.address := hallow
    refine .inr ⟨_, rfl, congrArg some ?_⟩
    rw [TimerQueue.postTimer, if_pos hfresh, queue, queue, waiting, waiting, ← hw, ← hq]
    rfl

/-- what holds of the loop and its timers between two steps -/
structure Sound (s : Reactor τ ι) : Prop where
  loop : s.loop.Sound
  timers : s.queue.Consistent
  kept : s.queue.Kept
  polling : s.loop.pc = .poll → s.timeOut = s.timers.pollTimeout s.timers.nowChache

omit [DecidableEq ι] in
theorem sound_new : ({} : Reactor τ ι).Sound where
  loop := EventLoop.sound_new
  timers := TimerQueue.consistent_empty
  kept := TimerQueue.kept_empty
  polling h := by cases h

/-- the loop gets to `poll` from the test only, and makes no other step there -/
theorem pc_poll {l l' : EventLoop (LoopFunctor τ) ι} {a : LoopAct (LoopFunctor τ) ι}
    (h : l.exec a = some l') (hpc : l'.pc = .poll) :
    a = .testLooping ∧ l.looping = true ∨ l.pc = .poll ∧ a ≠ .testLooping ∧
      a ≠ .handleTimeEvent ∧ a ≠ .runFunction ∧ ∀ cb, a ≠ .runInLoopHere cb := by
  cases a with
  | testLooping =>
    simp only [EventLoop.exec, Option.ite_none_right_eq_some, Option.some.injEq] at h
    obtain ⟨-, rfl⟩ := h
    refine .inl ⟨rfl, ?_⟩
    by_contra hl
    have hidle : (if l.looping = true then Pc.poll else Pc.idle) = .poll := hpc
    rw [if_neg hl] at hidle
    cases hidle
  | start | swapFunctions | handleTimeEvent | pollReturn =>
    simp only [EventLoop.exec, Option.ite_none_right_eq_some, Option.some.injEq] at h
    obtain ⟨-, rfl⟩ := h
    cases hpc
  | handleWakeEvent | handleEvents =>
    simp only [EventLoop.exec] at h
    split at h
    · obtain rfl := Option.some.inj h
      cases hpc
    · cases h
  | runFunction =>
    simp only [EventLoop.exec, Option.ite_none_right_eq_some] at h
    obtain ⟨hrun, h⟩ := h
    split at h
    · obtain rfl := Option.some.inj h
      cases hpc
    · obtain rfl := Option.some.inj h
      rw [hrun] at hpc
      cases hpc
  | runInLoopHere cb =>
    simp only [EventLoop.exec, Option.ite_none_left_eq_some, Option.some.injEq] at h
    obtain ⟨hne, rfl⟩ := h
    exact absurd hpc hne
  | runInLoop | quit =>
    simp only [EventLoop.exec, Option.ite_none_right_eq_some, Option.some.injEq] at h
    obtain ⟨-, rfl⟩ := h
    refine .inr ⟨hpc, ?_, ?_, ?_, ?_⟩
    · exact fun h => (by cases h)
    · exact fun h => (by cases h)
    · exact fun h => (by cases h)
    · exact fun _ h => (by cases h)
  | wakeup i =>
    simp only [EventLoop.exec, Option.ite_none_right_eq_some, Option.some.injEq] at h
    obtain ⟨-, rfl⟩ := h
    refine .inr ⟨l.writeWakeup_keeps.1.symm.trans hpc, ?_, ?_, ?_, ?_⟩
    · exact fun h => (by cases h)
    · exact fun h => (by cases h)
    · exact fun h => (by cases h)
    · exact fun _ h => (by cases h)
  | quitHere =>
    simp only [EventLoop.exec] at h
    split at h
    · cases h
    · cases h
    · rename_i hne
      obtain rfl := Option.some.inj h
      exact absurd hpc hne

/-- `poll` sleeps for the time to the first timer of the set as it is -/
theorem polling_step {s t : Reactor τ ι} (hs : s.Sound) {a : ReactorAct τ ι}
    (h : s.exec a = some t) (hpc : t.loop.pc = .poll) :
    t.timeOut = t.timers.pollTimeout t.timers.nowChache := by
  obtain ⟨hallow, hloop, htimers⟩ := exec_eq_some.mp h
  have hcases := pc_poll hloop hpc
  cases a with
  | loop a =>
    obtain ⟨hq, hx⟩ := Prod.mk.inj (Option.some.inj htimers)
    rcases hcases with ⟨ha, -⟩ | ⟨hpoll, -⟩
    · have ha : a = .testLooping := ha
      rw [ha] at hallow
      cases hallow
    · rw [← hq, ← hx]
      exact hs.polling hpoll
  | testLooping now =>
    rcases hcases with ⟨-, hl⟩ | ⟨-, hne, -⟩
    · have htimers := Option.some.inj htimers
      rw [if_pos hl] at htimers
      obtain ⟨hq, hx⟩ := Prod.mk.inj htimers
      rw [← hq, ← hx, TimerQueue.snd_getNextTimerTimerOut]
      exact (TimerQueue.pollTimeout_congr (q := s.timers) rfl now).symm
    · exact absurd rfl hne
  | handleTimeEvent adds =>
    rcases hcases with ⟨ha, -⟩ | ⟨-, -, hne, -⟩
    · cases ha
    · exact absurd rfl hne
  | runFunction =>
    rcases hcases with ⟨ha, -⟩ | ⟨-, -, -, hne, -⟩
    · cases ha
    · exact absurd rfl hne
  | addTimerHere a =>
    rcases hcases with ⟨ha, -⟩ | ⟨-, -, -, -, hne⟩
    · cases ha
    · exact absurd rfl (hne _)
  | addTimer i a =>
    obtain ⟨hq, hx⟩ := Prod.mk.inj (Option.some.inj htimers)
    rcases hcases with ⟨ha, -⟩ | ⟨hpoll, -⟩
    · cases ha
    · have hsame : (s.timers.newTimer a).timers = s.timers.timers := rfl
      rw [← hq, ← hx, hs.polling hpoll]
      exact (TimerQueue.pollTimeout_congr hsame _).symm

/-- **One step** of any thread -/
theorem sound_step {s t : Reactor τ ι} (hs : s.Sound) {a : ReactorAct τ ι}
    (h : s.exec a = some t) : t.Sound := by
  have hloop := EventLoop.sound_step hs.loop (exec_eq_some.mp h).2.1
  have hpolling := polling_step hs h
  rcases queue_step hs.loop h with ⟨-, hq⟩ | ⟨b, -, hb⟩
  · exact ⟨hloop, hq ▸ hs.timers, hq ▸ hs.kept, hpolling⟩
  · obtain ⟨q, hq, hcons, -⟩ := TimerQueue.exec_spec hs.timers b
    obtain rfl := Option.some.inj (hb.symm.trans hq)
    exact ⟨hloop, hcons, TimerQueue.kept_exec hs.timers hs.kept hb, hpolling⟩

theorem sound_reach {s : Reactor τ ι} (h : Reach Step {} s) : s.Sound := by
  have hstep : ∀ (s : Reactor τ ι) a t, s.Sound → Step s a t → t.Sound := by
    intro s a t hs hst
    cases hst with
    | mk hexec => exact sound_step hs hexec
  exact h.inv hstep sound_new

omit [DecidableEq ι] in
/-- the timers never stop a step that the loop can make -/
theorem onTimers_isSome {s : Reactor τ ι} (hs : s.Sound) (a : ReactorAct τ ι) :
    (s.onTimers a).isSome = true := by
  have hexec : ∀ b, (s.queue.exec b).isSome = true := by
    intro b
    obtain ⟨q, hq, -⟩ := TimerQueue.exec_spec hs.timers b
    rw [hq]
    rfl
  cases a with
  | loop | testLooping | addTimer => rfl
  | handleTimeEvent adds =>
    have hq : (s.queue.handleTimeEvent adds).isSome = true := hexec (.handleTimeEvent adds)
    rw [queue, TimerQueue.handleTimeEvent_awaiting, Option.isSome_map] at hq
    rw [onTimers, Option.isSome_map]
    exact hq
  | runFunction =>
    have hq : s.queue.addTimerInLoop.isSome = true := hexec .addTimerInLoop
    rw [onTimers]
    split
    · rename_i p rest hb
      have hpending : s.queue.pending =
          p :: (rest ++ s.loop.functions).filterMap LoopFunctor.timer := by
        show waitingIn s.loop = _
        rw [waitingIn, hb]
        rfl
      rw [TimerQueue.addTimerInLoop, hpending] at hq
      have hins : ((s.timers.awaiting _).insert p).isSome = true := hq
      rw [TimerQueue.insert_awaiting, Option.isSome_map] at hins
      rw [Option.isSome_map]
      exact hins
    · rfl
  | addTimerHere a =>
    have hq : (s.queue.addTimer a).isSome = true := hexec (.addTimer a)
    rw [queue, TimerQueue.addTimer_awaiting, Option.isSome_map] at hq
    rw [onTimers, Option.isSome_map]
    exact hq

/-- another thread makes a timer while the loop is blocked without one -/
theorem exists_waiting : ∃ s : Reactor Unit Bool, Reach Step {} s ∧ s.loop.pc = .poll ∧
    s.timeOut = -1 ∧ s.waiting = [4096] := by
  have h0 : Reach Step ({} : Reactor Unit Bool) {} := .refl
  have h1 := h0.snoc (a := .loop .start) (.mk rfl)
  have h2 := h1.snoc (a := .testLooping 0) (.mk rfl)
  have h3 := h2.snoc
    (a := .addTimer true (TimerQueue.runAfter 0 4096 TimerQueue.oneSecond ())) (.mk rfl)
  exact ⟨_, h3, rfl, rfl, rfl⟩

/-- **Refinement.**  In every run the loop is an `EventLoop` and its timers are a `TimerQueue`, the
queue of the one being where the timers of the other wait; and whatever the loop can do next, the
timers can: no pointer to a deleted timer is followed. -/
theorem refines {s : Reactor τ ι} (h : Reach Step {} s) :
    Reach EventLoop.Step {} s.loop ∧ Reach TimerQueue.Step {} s.queue ∧
      ∀ a, s.Allowed a → (s.loop.exec a.onLoop).isSome = true → ∃ t, s.exec a = some t := by
  have hloop : ∃ l, Reach EventLoop.Step {} l ∧ s.loop = l := by
    refine h.simulated (R := fun r l => r.loop = l) ?_ rfl
    rintro r a r' _ rfl hst
    cases hst with
    | mk hexec => exact ⟨r'.loop, EventLoop.Step.mk (exec_eq_some.mp hexec).2.1 |> Reach.refl.snoc, rfl⟩
  have hqueue : ∃ q, Reach TimerQueue.Step {} q ∧ s.Sound ∧ s.queue = q := by
    refine h.simulated (R := fun r q => r.Sound ∧ r.queue = q) ?_ ⟨sound_new, rfl⟩
    rintro r a r' _ ⟨hr, rfl⟩ hst
    cases hst with
    | mk hexec =>
      refine ⟨r'.queue, ?_, sound_step hr hexec, rfl⟩
      rcases queue_step hr.loop hexec with ⟨-, hq⟩ | ⟨b, -, hb⟩
      · rw [hq]
        exact .refl
      · exact Reach.refl.snoc (.mk hb)
  obtain ⟨_, hl, rfl⟩ := hloop
  obtain ⟨_, hq, hs, rfl⟩ := hqueue
  refine ⟨hl, hq, fun a hallow hsome => ?_⟩
  obtain ⟨l, hl⟩ := Option.isSome_iff_exists.mp hsome
  obtain ⟨⟨q, x⟩, hq⟩ := Option.isSome_iff_exists.mp (onTimers_isSome hs a)
  exact ⟨⟨l, q, x⟩, exec_eq_some.mpr ⟨hallow, hl, hq⟩⟩

theorem refines_waiting : ∃ s : Reactor Unit Bool,
    s.waiting = [4096] ∧ Reach TimerQueue.Step {} s.queue := by
  obtain ⟨s, hs, -, -, hw⟩ := exists_waiting
  exact ⟨s, hw, (refines hs).2.1⟩

/-- **No timer is lost.**  Whatever the threads do, every timer that has been made waits in the queue
of the loop, or stands in the set and not in the queue, or was to run once and has run once; and
while the loop is blocked in `poll`, the time it sleeps for is that of the set as it is, and if a
timer waits a wakeup has come or is on its way. -/
theorem timers_kept {s : Reactor τ ι} (h : Reach Step {} s) :
    (∀ c ∈ s.timers.created, s.queue.Fate c) ∧
      (∀ c t, s.queue.Waiting c → s.queue.Scheduled t → t.serial ≠ c.serial) ∧
      (s.loop.pc = .poll → s.timeOut = s.timers.pollTimeout s.timers.nowChache ∧
        (s.waiting ≠ [] → 0 < s.loop.wakeupFd ∨ ∃ i, s.loop.waking i = .afterPush)) := by
  have hs := sound_reach h
  refine ⟨hs.kept.fate, fun c t hc ht => hc.not_scheduled hs.timers ht,
    fun hpc => ⟨hs.polling hpc, fun hne => ?_⟩⟩
  refine hs.loop.awaited ?_ ?_
  · simp [EventLoop.WillSwap, hpc]
  · -- outside the batch the timers that wait are in the queue
    intro hnil
    have hb : s.loop.batch = [] := hs.loop.batch (by rw [hpc]; exact fun h => (by cases h))
    refine hne ?_
    show (s.loop.batch ++ s.loop.functions).filterMap _ = []
    rw [hb, hnil]
    rfl

theorem timers_kept_waiting : ∃ s : Reactor Unit Bool, s.timeOut = -1 ∧
    (0 < s.loop.wakeupFd ∨ ∃ i, s.loop.waking i = .afterPush) := by
  obtain ⟨s, hs, hpc, hx, hw⟩ := exists_waiting
  have hawake := ((timers_kept hs).2.2 hpc).2
  exact ⟨s, hx, hawake (by rw [hw]; exact fun h => (by cases h))⟩

/-! ## the timers of one iteration -/

/-- a step between the test and the timers of an iteration -/
def Between (a : ReactorAct τ ι) : Prop :=
  (∀ now, a ≠ .testLooping now) ∧ ∀ adds, a ≠ .handleTimeEvent adds

/-- the clock has read `now` since `s`, and no timer has been run or taken out -/
structure Since (s : Reactor τ ι) (now : TimeStamp) (u : Reactor τ ι) : Prop where
  sound : u.Sound
  now : u.queue.nowChache = now
  ran : u.queue.ran = s.queue.ran
  scheduled : ∀ t, s.queue.Scheduled t → u.queue.Scheduled t

theorem Since.step {s u v : Reactor τ ι} {now : TimeStamp} (h : Since s now u)
    {a : ReactorAct τ ι} (hst : Step u a v) (ha : Between a) : Since s now v := by
  obtain ⟨hexec⟩ := hst
  have hv := sound_step h.sound hexec
  rcases queue_step h.sound.loop hexec with ⟨-, hq⟩ | ⟨b, hact, hb⟩
  · exact ⟨hv, hq ▸ h.now, hq ▸ h.ran, hq ▸ h.scheduled⟩
  · obtain ⟨hnow, hran, hsched⟩ := TimerQueue.exec_between h.sound.timers hb
      (fun n hn => ha.1 n (timerAct_read (hn ▸ hact)))
      (fun f hf => ha.2 f (timerAct_fire (hf ▸ hact)))
    exact ⟨hv, hnow.trans h.now, hran.trans h.ran, fun t ht => hsched t (h.scheduled t ht)⟩

/-- the reading of the clock at the test -/
theorem since_testLooping {s u : Reactor τ ι} (hs : s.Sound) {now : TimeStamp}
    (h : s.exec (.testLooping now) = some u) (hl : s.loop.looping = true) : Since s now u := by
  have hqueue := queue_testLooping hs.loop h hl
  refine ⟨sound_step hs h, ?_, ?_, fun t ht => ?_⟩
  · rw [hqueue]
  · rw [hqueue]
  · rw [hqueue]
    exact ht

/-- **What an iteration fires** is settled before its `poll`: of the timers in the set when the clock
is read it runs those that are due by that reading, whatever the time `poll` takes and whatever the
threads do meanwhile, and it runs no timer that is due later. -/
theorem iteration_fires {s s' v : Reactor τ ι} (h : Reach Step {} s) {now : TimeStamp}
    (hread : Step s (.testLooping now) s') (hl : s.loop.looping = true)
    {tr : List (Tr (Reactor τ ι) (ReactorAct τ ι))} (hp : Path Step s' tr)
    (htr : ∀ e ∈ tr, Between e.act) {adds : Nat → List (NewTimer τ)}
    (hfire : Step (last s' tr) (.handleTimeEvent adds) v) :
    ∃ runs, v.timers.ran = s.timers.ran ++ runs ∧ (∀ t ∈ runs, t.expiration ≤ now) ∧
      ∀ t, s.queue.Scheduled t → ((∃ u ∈ runs, u.serial = t.serial) ↔ t.expiration ≤ now) := by
  obtain ⟨hread⟩ := hread
  obtain ⟨hfire⟩ := hfire
  have hsince : Since s now (last s' tr) := by
    refine hp.guarded_last (G := fun _ a => Between a) ?_
      (since_testLooping (sound_reach h) hread hl) htr
    exact fun u a v hu hst ha => hu.step hst ha
  obtain ⟨hallow, hloop, htimers⟩ := exec_eq_some.mp hfire
  obtain ⟨q, hq, heq⟩ := Option.map_eq_some_iff.mp htimers
  obtain ⟨rfl, -⟩ := Prod.mk.inj heq
  obtain ⟨r, hr, -, -, hfires, -⟩ :=
    TimerQueue.handleTimeEvent_spec hsince.sound.timers adds
  have hran : v.timers.ran = r.ran := by
    rw [queue, TimerQueue.handleTimeEvent_awaiting, hq] at hr
    rw [← Option.some.inj hr]
    rfl
  have hdue : ∀ t ∈ (last s' tr).queue.due,
      (last s' tr).queue.Scheduled t ∧ t.expiration ≤ now := by
    intro t ht
    rw [← hsince.now]
    exact (hfires.due t).mp ht
  refine ⟨(last s' tr).queue.due, ?_, fun t ht => (hdue t ht).2, fun t ht => ?_⟩
  · rw [hran, hfires.ran, hsince.ran]
    rfl
  · have hlater := hsince.scheduled t ht
    constructor
    · rintro ⟨u, hu, hserial⟩
      obtain ⟨husched, hexp⟩ := hdue u hu
      obtain rfl := husched.live.eq_of_serial hsince.sound.timers hlater.live hserial
      exact hexp
    · intro hexp
      rw [← hsince.now] at hexp
      exact ⟨t, (hfires.due t).mpr ⟨hlater, hexp⟩, rfl⟩

omit [DecidableEq ι] in
/-- `poll` returns and the channels are handled -/
theorem between_poll {s t u : Reactor τ ι} {wake : Bool} :
    ∀ e ∈ [(⟨s, .loop (.pollReturn wake), t⟩ : Tr (Reactor τ ι) (ReactorAct τ ι)),
      ⟨t, .loop .handleEvents, u⟩], Between e.act := by
  intro e he
  rcases List.mem_cons.mp he with rfl | he
  · exact ⟨fun _ h => (by cases h), fun _ h => (by cases h)⟩
  · rw [List.mem_singleton.mp he]
    exact ⟨fun _ h => (by cases h), fun _ h => (by cases h)⟩

/-- a timer for the time 5, and the clock at 7 -/
theorem iteration_fires_due : ∃ (v : Reactor Unit Bool) (u : Timer Unit),
    u ∈ v.timers.ran ∧ u.serial = 0 := by
  have h0 : Reach Step ({} : Reactor Unit Bool) {} := .refl
  have h1 := h0.snoc (a := .loop .start) (.mk rfl)
  have h2 := h1.snoc (a := .addTimerHere (TimerQueue.runAt 4096 5 ())) (.mk rfl)
  obtain ⟨runs, hran, -, hdue⟩ := iteration_fires h2 (.mk (a := .testLooping 7) rfl) rfl
    (.cons (a := .loop (.pollReturn false)) (.mk rfl) (.cons (a := .loop .handleEvents) (.mk rfl)
      (.nil _))) between_poll (.mk (a := .handleTimeEvent fun _ => []) rfl)
  obtain ⟨u, hu, hserial⟩ := (hdue ⟨0, (), 5, TimerQueue.noInterval⟩
    ⟨4096, rfl, List.mem_cons_self⟩).mpr (by decide)
  exact ⟨_, u, hran ▸ List.mem_append_right _ hu, hserial⟩

/-! ## the timers made -/

/-- the timers that a step makes -/
def makes (s : Reactor τ ι) (a : ReactorAct τ ι) : List (Timer τ) :=
  (s.timerAct a).elim [] s.queue.makes

/-- the timers that the steps of a run make -/
def madeBy (tr : List (Tr (Reactor τ ι) (ReactorAct τ ι))) : List (Timer τ) :=
  tr.flatMap fun e => e.pre.makes e.act

theorem created_step {s t : Reactor τ ι} (hs : s.Sound) {a : ReactorAct τ ι}
    (h : s.exec a = some t) : t.timers.created = s.timers.created ++ s.makes a := by
  rcases queue_step hs.loop h with ⟨hact, hq⟩ | ⟨b, hact, hb⟩
  · rw [makes, hact]
    exact (congrArg TimerQueue.created hq).trans (List.append_nil _).symm
  · rw [makes, hact]
    exact ((TimerQueue.Step.mk hb).spec hs.timers).2.2.created

/-- the timers that a run has made are those its threads have asked for, in order -/
theorem created_run {tr : List (Tr (Reactor τ ι) (ReactorAct τ ι))} (h : Path Step {} tr) :
    (last {} tr).timers.created = madeBy tr := by
  have hstep : ∀ (past : List (Tr (Reactor τ ι) (ReactorAct τ ι))) (s : Reactor τ ι) a t,
      (s.Sound ∧ s.timers.created = madeBy past) → Step s a t →
      t.Sound ∧ t.timers.created = madeBy (past ++ [⟨s, a, t⟩]) := by
    rintro past s a t ⟨hs, hc⟩ ⟨hexec⟩
    refine ⟨sound_step hs hexec, ?_⟩
    rw [created_step hs hexec, hc, madeBy, madeBy, List.flatMap_append, List.flatMap_singleton]
  exact (h.history (I := fun past s => s.Sound ∧ s.timers.created = madeBy past) hstep
    ⟨sound_new, rfl⟩).2

/-! ## how often a timer runs -/

/-- the step asks for timers through `RunAt`, `RunAfter` and `RunEvery`, and its times are in the
range of `int64_t` -/
def Fits (s : Reactor τ ι) (a : ReactorAct τ ι) : Prop :=
  ∀ b, s.timerAct a = some b → ∃ c : LoopCall τ, c.act = b ∧ s.queue.Fits c

inductive StepIn : Reactor τ ι → ReactorAct τ ι → Reactor τ ι → Prop where
  | mk {s t : Reactor τ ι} {a : ReactorAct τ ι} : s.Fits a → s.exec a = some t → StepIn s a t

omit [DecidableEq ι] in
theorem fits_of {s : Reactor τ ι} {a : ReactorAct τ ι} (c : LoopCall τ)
    (hact : s.timerAct a = some c.act) (hc : s.queue.Fits c) : s.Fits a := by
  intro b hb
  exact ⟨c, Option.some.inj (hact.symm.trans hb), hc⟩

/-- the timers of such a run make the steps with their checks -/
theorem refines_in {s : Reactor τ ι} (h : Reach StepIn {} s) : Reach TimerQueue.StepIn {} s.queue := by
  have hqueue : ∃ q, Reach TimerQueue.StepIn {} q ∧ s.Sound ∧ s.queue = q := by
    refine h.simulated (R := fun r q => r.Sound ∧ r.queue = q) ?_ ⟨sound_new, rfl⟩
    rintro r a r' _ ⟨hr, rfl⟩ ⟨hfits, hexec⟩
    refine ⟨r'.queue, ?_, sound_step hr hexec, rfl⟩
    rcases queue_step hr.loop hexec with ⟨-, hq⟩ | ⟨b, hact, hb⟩
    · rw [hq]
      exact .refl
    · obtain ⟨c, rfl, hc⟩ := hfits b hact
      refine Reach.refl.snoc (a := c) (.mk ?_)
      rw [(TimerQueue.execIn_spec hr.timers c).1 hc, hb]
  obtain ⟨_, hreach, -, rfl⟩ := hqueue
  exact hreach

/-- **No timer runs before its time.**  Whatever the threads do and however the clock jumps, as long
as it has read no more than `now` and all times are in the range of `int64_t`, a timer has run `n`
times only if `n - 1` of its intervals have passed since its first expiration by then; one that runs
once has not run before its time. -/
theorem never_early {tr : List (Tr (Reactor τ ι) (ReactorAct τ ι))} (h : Path StepIn {} tr)
    {now : TimeStamp} (hnow : 0 ≤ now)
    (hread : ∀ e ∈ tr, ∀ n, e.act = .testLooping n → n ≤ now) {c : Timer τ}
    (hc : c ∈ (last {} tr).timers.created) :
    TimerQueue.InTime now c ((last {} tr).queue.runs c.serial) := by
  have hstep : ∀ (s : Reactor τ ι) a t, s.Sound ∧ TimerQueue.Paced now s.queue → StepIn s a t →
      (∀ n, a = .testLooping n → n ≤ now) → t.Sound ∧ TimerQueue.Paced now t.queue := by
    rintro s a t ⟨hs, hpaced⟩ ⟨-, hexec⟩ ha
    refine ⟨sound_step hs hexec, ?_⟩
    rcases queue_step hs.loop hexec with ⟨-, hq⟩ | ⟨b, hact, hb⟩
    · rw [hq]
      exact hpaced
    · exact TimerQueue.paced_exec hpaced hs.kept hs.timers hb fun n hn =>
        ha n (timerAct_read (hn ▸ hact))
  have hlast := h.guarded_last (G := fun _ a => ∀ n, a = .testLooping n → n ≤ now) hstep
    ⟨sound_new, TimerQueue.paced_empty hnow⟩ hread
  exact hlast.2.inTime c hc

/-- a timer for every second, which has run once -/
theorem never_early_second : ∃ tr : List (Tr (Reactor Unit Bool) (ReactorAct Unit Bool)),
    Path StepIn {} tr ∧ (last {} tr).queue.runs 0 = 1 ∧
      TimerQueue.InTime 1000000 (⟨0, (), 1000000, TimerQueue.oneSecond⟩ : Timer Unit)
        ((last {} tr).queue.runs 0) := by
  have hplain : ∀ {s : Reactor Unit Bool} {a}, s.Fits (.loop a) := fun b h => by cases h
  have hp : Path StepIn ({} : Reactor Unit Bool) _ :=
    .cons (a := .loop .start) (.mk hplain rfl) <|
    .cons (a := .addTimerHere (TimerQueue.runEvery 0 4096 TimerQueue.oneSecond ()))
      (.mk (by
        refine fits_of (.addTimer (.runEvery ⟨0, by decide⟩ 4096 TimerQueue.oneSecond ())) rfl ?_
        exact ⟨by decide, by decide⟩) rfl) <|
    .cons (a := .testLooping 1000000)
      (.mk (by
        refine fits_of (.getNextTimerTimerOut ⟨1000000, by decide⟩) rfl fun e he => ?_
        obtain rfl := Option.some.inj he
        decide) rfl) <|
    .cons (a := .loop (.pollReturn false)) (.mk hplain rfl) <|
    .cons (a := .loop .handleEvents) (.mk hplain rfl) <|
    .cons (a := .handleTimeEvent fun _ => [])
      (.mk (by
        refine fits_of (.handleTimeEvent fun _ => []) rfl ⟨fun _ hc => absurd hc List.not_mem_nil, ?_⟩
        exact List.forall_mem_singleton.mpr fun _ => by decide) rfl) (.nil _)
  refine ⟨_, hp, (by rfl), never_early hp (by decide) ?_ List.mem_cons_self⟩
  -- the clock is read at the third step
  refine List.forall_mem_cons.mpr ⟨fun n hn => (by cases hn), ?_⟩
  refine List.forall_mem_cons.mpr ⟨fun n hn => (by cases hn), ?_⟩
  refine List.forall_mem_cons.mpr ⟨fun n hn => (by cases hn; exact le_rfl), ?_⟩
  refine List.forall_mem_cons.mpr ⟨fun n hn => (by cases hn), ?_⟩
  refine List.forall_mem_cons.mpr ⟨fun n hn => (by cases hn), ?_⟩
  exact List.forall_mem_cons.mpr ⟨fun n hn => (by cases hn), fun e he => (by cases he)⟩

end Reactor

end Feipu
