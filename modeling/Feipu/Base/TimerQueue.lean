import Mathlib.Algebra.Order.Ring.Int
import Mathlib.Data.Prod.Lex
import Mathlib.Logic.Function.Basic
import Feipu.Lib.SortedSet

/-!
# `TimerQueue` (base/include/TimerQueue.h, Timer.h, Timestamp.h)

The timers of a loop.  `timers_` holds pairs of an expiration and the address of a `Timer`; what
stands at the addresses is `memory`, and an address is used again once its `Timer` has been deleted.
`none` is a pointer to no `Timer`.

`created` and `ran` are histories: the timers `new Timer` has made, and those whose callback has been
run, each as it was then.  A timer is named by its `serial`, its place in `created`.
-/

namespace Feipu

/-- microseconds since the epoch -/
abbrev TimeStamp := Int

/-- `timeDifference`, the subtraction being one of `int64_t` -/
def timeDifference (high low : TimeStamp) : Int := Int.bmod (high - low) (2 ^ 64)

/-- a `double` of seconds: its whole microseconds, and whether it is positive -/
structure Interval where
  micros : Int
  positive : Bool
  nonneg : positive = true → 0 ≤ micros
deriving DecidableEq

/-- `addTime`, over the integers; `addTimeIn` has the cast and the sum of the source checked -/
def addTime (t : TimeStamp) (interval : Interval) : TimeStamp := t + interval.micros

structure Timer (τ : Type) where
  serial : Nat
  timecall : τ
  expiration : TimeStamp
  interval : Interval

def Timer.isRepeat {τ : Type} (t : Timer τ) : Bool := t.interval.positive

def Timer.resetExpiration {τ : Type} (t : Timer τ) (now : TimeStamp) : Timer τ :=
  { t with expiration := addTime now t.interval }

/-- a call of `addTimer`, with the address `new Timer` returns -/
structure NewTimer (τ : Type) where
  address : Nat
  cb : τ
  when' : TimeStamp
  interval : Interval

/-- `UINTPTR_MAX`, which is no address of a `Timer` -/
def uintptrMax : Nat := 2 ^ 64 - 1

structure TimerQueue (τ : Type) where
  timers : SortedSet (TimeStamp ×ₗ Nat) := .empty
  nowChache : TimeStamp := 0
  memory : Nat → Option (Timer τ) := fun _ => none
  /-- the calls of `addTimerInLoop` that wait in the queue of the loop -/
  pending : List Nat := []
  created : List (Timer τ) := []
  ran : List (Timer τ) := []

namespace TimerQueue
variable {τ : Type}

/-- the time to the first expiration, or -1; the clock reads `nowStamp` -/
def getNextTimerTimerOut (q : TimerQueue τ) (nowStamp : TimeStamp) : Int × TimerQueue τ :=
  let q := { q with nowChache := nowStamp }
  match q.timers.elems.head? with
  | none => (-1, q)
  | some e =>
    let timeout := timeDifference (ofLex e).1 nowStamp
    if timeout ≤ 0 then (0, q) else (timeout, q)

def insert (q : TimerQueue τ) (inTimer : Nat) : Option (TimerQueue τ) :=
  (q.memory inTimer).map fun t =>
    { q with timers := q.timers.insert (toLex (t.expiration, inTimer)) }

/-- the address can be one of a new object -/
def Fresh (q : TimerQueue τ) (p : Nat) : Prop := q.memory p = none ∧ p < uintptrMax

instance (q : TimerQueue τ) (p : Nat) : Decidable (q.Fresh p) :=
  decidable_of_iff ((q.memory p).isNone = true ∧ p < uintptrMax)
    (and_congr_left fun _ => Option.isNone_iff_eq_none)

/-- `new Timer (cb, when, interval)` -/
def newTimer (q : TimerQueue τ) (a : NewTimer τ) : TimerQueue τ :=
  let timer : Timer τ := ⟨q.created.length, a.cb, a.when', a.interval⟩
  { q with
    memory := Function.update q.memory a.address (some timer)
    created := q.created ++ [timer] }

/-- `addTimer` on the loop thread; `new` returns no address that is in use -/
def addTimer (q : TimerQueue τ) (a : NewTimer τ) : Option (TimerQueue τ) :=
  if q.Fresh a.address then (q.newTimer a).insert a.address else some q

/-- `addTimer` on another thread: the functor is queued -/
def postTimer (q : TimerQueue τ) (a : NewTimer τ) : TimerQueue τ :=
  if q.Fresh a.address then
    { q.newTimer a with pending := q.pending ++ [a.address] }
  else q

/-- the loop runs the first of the queued functors -/
def addTimerInLoop (q : TimerQueue τ) : Option (TimerQueue τ) :=
  match q.pending with
  | [] => some q
  | p :: pending => { q with pending }.insert p

def getExpired (q : TimerQueue τ) : List Nat × TimerQueue τ :=
  let sentry := toLex (q.nowChache, uintptrMax)
  ((q.timers.before sentry).map fun e => (ofLex e).2, { q with timers := q.timers.since sentry })

/-- the first loop of `handleTimeEvent`; the `k`-th callback adds the timers `adds k` -/
def runTimers (adds : Nat → List (NewTimer τ)) :
    Nat → List Nat → TimerQueue τ → Option (TimerQueue τ)
  | _, [], q => some q
  | k, item :: rest, q => do
    let t ← q.memory item
    let q ← (adds k).foldlM addTimer { q with ran := q.ran ++ [t] }
    runTimers adds (k + 1) rest q

/-- the second loop: a timer is put back or deleted -/
def resetTimers : List Nat → TimerQueue τ → Option (TimerQueue τ)
  | [], q => some q
  | item :: rest, q => do
    let t ← q.memory item
    if t.isRepeat then
      let t := t.resetExpiration q.nowChache
      let q ← { q with memory := Function.update q.memory item (some t) }.insert item
      resetTimers rest q
    else resetTimers rest { q with memory := Function.update q.memory item none }

def handleTimeEvent (q : TimerQueue τ) (adds : Nat → List (NewTimer τ)) :
    Option (TimerQueue τ) := do
  let (expired, q) := q.getExpired
  let q ← runTimers adds 0 expired q
  resetTimers expired q

end TimerQueue

/-! ## the calls of the loop -/

/-- what happens to the timers of a loop -/
inductive TimerAct (τ : Type) where
  | getNextTimerTimerOut (now : TimeStamp)
  | addTimer (a : NewTimer τ)
  | postTimer (a : NewTimer τ)
  | addTimerInLoop
  | handleTimeEvent (adds : Nat → List (NewTimer τ))

namespace TimerQueue
variable {τ : Type}

def exec (q : TimerQueue τ) : TimerAct τ → Option (TimerQueue τ)
  | .getNextTimerTimerOut now => some (q.getNextTimerTimerOut now).2
  | .addTimer a => q.addTimer a
  | .postTimer a => some (q.postTimer a)
  | .addTimerInLoop => q.addTimerInLoop
  | .handleTimeEvent adds => q.handleTimeEvent adds

inductive Step : TimerQueue τ → TimerAct τ → TimerQueue τ → Prop where
  | mk {q r : TimerQueue τ} {a : TimerAct τ} : q.exec a = some r → Step q a r

/-- `EventLoop::RunEvery`, at the clock reading `now` -/
def runEvery (now : TimeStamp) (address : Nat) (interval : Interval) (cb : τ) : NewTimer τ :=
  ⟨address, cb, addTime now interval, interval⟩

/-- the interval `0.0` -/
def noInterval : Interval := ⟨0, false, fun h => by cases h⟩

/-- `EventLoop::RunAfter` -/
def runAfter (now : TimeStamp) (address : Nat) (delay : Interval) (cb : τ) : NewTimer τ :=
  ⟨address, cb, addTime now delay, noInterval⟩

/-- `EventLoop::RunAt` -/
def runAt (address : Nat) (when' : TimeStamp) (cb : τ) : NewTimer τ :=
  ⟨address, cb, when', noInterval⟩

/-- what `epoll_wait` gets: `loop` and `poll` hand the time on, and it becomes an `int` -/
def pollTimeout (q : TimerQueue τ) (now : TimeStamp) : Int :=
  Int.bmod (q.getNextTimerTimerOut now).1 (2 ^ 32)

end TimerQueue

end Feipu
