import Mathlib.Algebra.BigOperators.Intervals
import Feipu.Base.EventLoopPool
import Feipu.Base.EventLoopThread
import Feipu.Lib.Latch

/-!
# How a loop thread is started (base/include/Thread.h, base/src/EventLoopThread.cpp, EventLoopPool.cpp)

`startloop` makes a `Thread`, waits in `Thread::start` for the new thread to say that it runs, and then
waits for the address of its loop.  Both waits are latches, under different mutexes; `start` of the
pool does it once for each thread.  Condition variables may wake for no reason.

* `startup_refines`   the thread and its starter are an `EventLoopThread`;
* `pool_starts`       whatever the threads do, `start` never gets stuck, takes a bounded number of
                      steps, and leaves the pool as if the loops had been made one after the other;
                      each loop is known, and the id of its thread too, when `startloop` returns.
-/

namespace Feipu
open Trace

/-- where the thread that calls `startloop` is -/
inductive Startup.Main where
  /-- at `std::thread` in `start` -/
  | call
  /-- waiting for `count` -/
  | counting
  /-- waiting for `loop_` -/
  | looping
  | returned
deriving DecidableEq

/-- where the new thread is -/
inductive Startup.Wrapper where
  | unborn
  | begun
  /-- `tid_` is stored; setting `count` -/
  | counting
  /-- in `threadFunc_`, before its loop and the callback -/
  | creating
  /-- setting `loop_` -/
  | looping
  | inLoop
deriving DecidableEq

/-- a call of `startloop` and the thread it makes.  `count` is the latch of `Thread`, whose flag is
`count`; `loop` the one of `EventLoopThread`, whose flag is `loop_ != nullptr`. -/
structure Startup where
  main : Startup.Main := .call
  wrapper : Startup.Wrapper := .unborn
  /-- what `get_tid` returns in the thread -/
  threadTid : Nat := 0
  tid : Nat := 0
  count : Latch := {}
  loop : Latch := {}

namespace Startup

inductive Act where
  | spawn (tid : Nat)
  | storeTid
  | count (a : Latch.Act)
  /-- `start` returns -/
  | started
  /-- `wrapper` calls `in_func` -/
  | inFunc
  /-- the loop is made and the callback called -/
  | create
  | loop (a : Latch.Act)
  /-- `loop ()` is called -/
  | enter
  /-- `startloop` returns -/
  | returned

/-- the step is one of the thread that calls `startloop` -/
def Act.ofMain : Act → Bool
  | .spawn _ | .started | .returned => true
  | .count a | .loop a => a != .notifier
  | _ => false

/-- the thread is in the piece of code of its side of the latch -/
def MayCount (s : Startup) : Latch.Act → Prop
  | .notifier => s.wrapper = .counting
  | .waiter | .spurious => s.main = .counting

def MayLoop (s : Startup) : Latch.Act → Prop
  | .notifier => s.wrapper = .looping
  | .waiter | .spurious => s.main = .looping

instance (s : Startup) : (a : Latch.Act) → Decidable (s.MayCount a)
  | .notifier => inferInstanceAs (Decidable (s.wrapper = .counting))
  | .waiter | .spurious => inferInstanceAs (Decidable (s.main = .counting))

instance (s : Startup) : (a : Latch.Act) → Decidable (s.MayLoop a)
  | .notifier => inferInstanceAs (Decidable (s.wrapper = .looping))
  | .waiter | .spurious => inferInstanceAs (Decidable (s.main = .looping))

/-- a step, where the thread is there to make it; thread ids are not 0 -/
def exec (s : Startup) : Act → Option Startup
  | .spawn tid =>
    if s.main = .call ∧ 0 < tid then
      some { s with main := .counting, wrapper := .begun, threadTid := tid }
    else none
  | .storeTid =>
    if s.wrapper = .begun then some { s with wrapper := .counting, tid := s.threadTid } else none
  | .count a =>
    if s.MayCount a then (s.count.exec a).map fun count => { s with count } else none
  | .started =>
    if s.main = .counting ∧ s.count.waiter = .passed then some { s with main := .looping } else none
  | .inFunc =>
    if s.wrapper = .counting ∧ s.count.notifier = .done then some { s with wrapper := .creating }
    else none
  | .create => if s.wrapper = .creating then some { s with wrapper := .looping } else none
  | .loop a =>
    if s.MayLoop a then (s.loop.exec a).map fun loop => { s with loop } else none
  | .enter =>
    if s.wrapper = .looping ∧ s.loop.notifier = .done then some { s with wrapper := .inLoop }
    else none
  | .returned =>
    if s.main = .looping ∧ s.loop.waiter = .passed then some { s with main := .returned } else none

inductive Step : Startup → Act → Startup → Prop where
  | mk {s t : Startup} {a : Act} : s.exec a = some t → Step s a t

theorem count_of_exec {s t : Startup} {a : Latch.Act} (hst : s.exec (.count a) = some t) :
    s.MayCount a ∧ ∃ l, s.count.exec a = some l ∧ t = { s with count := l } := by
  simp only [exec, Option.ite_none_right_eq_some, Option.map_eq_some_iff] at hst
  obtain ⟨hmay, l, hl, rfl⟩ := hst
  exact ⟨hmay, l, hl, rfl⟩

theorem loop_of_exec {s t : Startup} {a : Latch.Act} (hst : s.exec (.loop a) = some t) :
    s.MayLoop a ∧ ∃ l, s.loop.exec a = some l ∧ t = { s with loop := l } := by
  simp only [exec, Option.ite_none_right_eq_some, Option.map_eq_some_iff] at hst
  obtain ⟨hmay, l, hl, rfl⟩ := hst
  exact ⟨hmay, l, hl, rfl⟩

/-! ## what holds between two steps -/

/-- the thread has not come to the wait for `count`, or is through it -/
def Main.beforeCount : Main → Bool
  | .call => true
  | _ => false

def Main.afterCount : Main → Bool
  | .looping | .returned => true
  | _ => false

def Main.beforeLoop : Main → Bool
  | .call | .counting => true
  | _ => false

def Main.afterLoop : Main → Bool
  | .returned => true
  | _ => false

def Wrapper.beforeCount : Wrapper → Bool
  | .unborn | .begun => true
  | _ => false

def Wrapper.afterCount : Wrapper → Bool
  | .creating | .looping | .inLoop => true
  | _ => false

def Wrapper.beforeLoop : Wrapper → Bool
  | .looping | .inLoop => false
  | _ => true

def Wrapper.afterLoop : Wrapper → Bool
  | .inLoop => true
  | _ => false

/-- the waiting side of a latch whose thread is not there yet, or through -/
structure Waits (waiter : Latch.Waiter) (before after : Bool) : Prop where
  before : before = true → waiter = .lock
  after : after = true → waiter = .passed

structure Notifies (notifier : Latch.Notifier) (before after : Bool) : Prop where
  before : before = true → notifier = .lock
  after : after = true → notifier = .done

/-- in its own piece of code a thread may be anywhere in it -/
theorem Waits.here {waiter : Latch.Waiter} : Waits waiter false false :=
  ⟨fun h => (by cases h), fun h => (by cases h)⟩

theorem Notifies.here {notifier : Latch.Notifier} : Notifies notifier false false :=
  ⟨fun h => (by cases h), fun h => (by cases h)⟩

structure Sound (s : Startup) : Prop where
  count : s.count.Sound
  loop : s.loop.Sound
  born : s.main = .call ↔ s.wrapper = .unborn
  started : Waits s.count.waiter s.main.beforeCount s.main.afterCount
  known : Waits s.loop.waiter s.main.beforeLoop s.main.afterLoop
  counted : Notifies s.count.notifier s.wrapper.beforeCount s.wrapper.afterCount
  published : Notifies s.loop.notifier s.wrapper.beforeLoop s.wrapper.afterLoop
  pos : s.wrapper ≠ .unborn → 0 < s.threadTid
  tid : s.wrapper.beforeCount = false → s.tid = s.threadTid

theorem sound_new : ({} : Startup).Sound where
  count := Latch.sound_new
  loop := Latch.sound_new
  born := ⟨fun _ => rfl, fun _ => rfl⟩
  started := ⟨fun _ => rfl, fun h => (by cases h)⟩
  known := ⟨fun _ => rfl, fun h => (by cases h)⟩
  counted := ⟨fun _ => rfl, fun h => (by cases h)⟩
  published := ⟨fun _ => rfl, fun h => (by cases h)⟩
  pos h := absurd rfl h
  tid h := by cases h

/-- a step of one side leaves the other side where it is, if that is not in its own piece of code -/
theorem Waits.exec {l l' : Latch} {before after : Bool} (h : Waits l.waiter before after)
    {a : Latch.Act} (hst : l.exec a = some l')
    (ha : a ≠ .notifier → before = false ∧ after = false) : Waits l'.waiter before after := by
  by_cases hn : a = .notifier
  · subst hn
    refine ⟨fun hb => ?_, fun haf => ?_⟩
    · have hlock := h.before hb
      rw [Latch.waiter_of_exec hst (by rw [hlock]; decide), hlock]
    · have hpassed := h.after haf
      rw [Latch.waiter_of_exec hst (by rw [hpassed]; decide), hpassed]
  · obtain ⟨rfl, rfl⟩ := ha hn
    exact .here

theorem Notifies.exec {l l' : Latch} {before after : Bool} (h : Notifies l.notifier before after)
    {a : Latch.Act} (hst : l.exec a = some l')
    (ha : a = .notifier → before = false ∧ after = false) : Notifies l'.notifier before after := by
  by_cases hn : a = .notifier
  · obtain ⟨rfl, rfl⟩ := ha hn
    exact .here
  · rw [Latch.notifier_of_exec hst hn]
    exact h

theorem sound_count {s t : Startup} (h : s.Sound) {a : Latch.Act}
    (hst : s.exec (.count a) = some t) : t.Sound := by
  obtain ⟨hmay, l, hl, rfl⟩ := count_of_exec hst
  refine ⟨Latch.sound_exec h.count hl, h.loop, h.born, h.started.exec hl fun ha => ?_, h.known,
    h.counted.exec hl fun ha => ?_, h.published, h.pos, h.tid⟩
  · have hmain : s.main = .counting := by
      cases a with
      | notifier => exact absurd rfl ha
      | waiter | spurious => exact hmay
    rw [hmain]
    exact ⟨rfl, rfl⟩
  · subst ha
    have hw : s.wrapper = .counting := hmay
    rw [hw]
    exact ⟨rfl, rfl⟩

theorem sound_loop {s t : Startup} (h : s.Sound) {a : Latch.Act}
    (hst : s.exec (.loop a) = some t) : t.Sound := by
  obtain ⟨hmay, l, hl, rfl⟩ := loop_of_exec hst
  refine ⟨h.count, Latch.sound_exec h.loop hl, h.born, h.started, h.known.exec hl fun ha => ?_,
    h.counted, h.published.exec hl fun ha => ?_, h.pos, h.tid⟩
  · have hmain : s.main = .looping := by
      cases a with
      | notifier => exact absurd rfl ha
      | waiter | spurious => exact hmay
    rw [hmain]
    exact ⟨rfl, rfl⟩
  · subst ha
    have hw : s.wrapper = .looping := hmay
    rw [hw]
    exact ⟨rfl, rfl⟩

/-- the new thread goes on to another piece of code -/
theorem sound_wrapper {s : Startup} (h : s.Sound) (w : Wrapper) (tid : Nat)
    (hold : s.wrapper ≠ .unborn) (hnew : w ≠ .unborn)
    (hcount : Notifies s.count.notifier w.beforeCount w.afterCount)
    (hloop : Notifies s.loop.notifier w.beforeLoop w.afterLoop)
    (htid : w.beforeCount = false → tid = s.threadTid) :
    ({ s with wrapper := w, tid } : Startup).Sound where
  count := h.count
  loop := h.loop
  born := ⟨fun hm => absurd (h.born.mp hm) hold, fun hw => absurd hw hnew⟩
  started := h.started
  known := h.known
  counted := hcount
  published := hloop
  pos _ := h.pos hold
  tid := htid

/-- the thread that starts it goes on -/
theorem sound_main {s : Startup} (h : s.Sound) (m : Main) (hold : s.main ≠ .call) (hnew : m ≠ .call)
    (hcount : Waits s.count.waiter m.beforeCount m.afterCount)
    (hloop : Waits s.loop.waiter m.beforeLoop m.afterLoop) :
    ({ s with main := m } : Startup).Sound where
  count := h.count
  loop := h.loop
  born := ⟨fun hm => absurd hm hnew, fun hw => absurd (h.born.mpr hw) hold⟩
  started := hcount
  known := hloop
  counted := h.counted
  published := h.published
  pos := h.pos
  tid := h.tid

/-- **One step** of either thread -/
theorem sound_exec {s t : Startup} (h : s.Sound) {a : Act} (hst : s.exec a = some t) : t.Sound := by
  have hfirst := h.counted
  have hsecond := h.published
  cases a with
  | spawn tid =>
    simp only [exec, Option.ite_none_right_eq_some, Option.some.injEq] at hst
    obtain ⟨⟨hmain, hpos⟩, rfl⟩ := hst
    have hw : s.wrapper = .unborn := h.born.mp hmain
    have hknown := h.known
    rw [hw] at hfirst hsecond
    rw [hmain] at hknown
    exact ⟨h.count, h.loop, ⟨fun h => (by cases h), fun h => (by cases h)⟩, .here,
      ⟨hknown.before, fun h => (by cases h)⟩,
      ⟨hfirst.before, fun h => (by cases h)⟩, ⟨hsecond.before, fun h => (by cases h)⟩,
      fun _ => hpos, fun h => (by cases h)⟩
  | storeTid =>
    simp only [exec, Option.ite_none_right_eq_some, Option.some.injEq] at hst
    obtain ⟨hw, rfl⟩ := hst
    rw [hw] at hsecond
    exact sound_wrapper h .counting s.threadTid (by rw [hw]; decide) (by decide)
      .here ⟨hsecond.before, fun h => (by cases h)⟩ fun _ => rfl
  | count a => exact sound_count h hst
  | started =>
    simp only [exec, Option.ite_none_right_eq_some, Option.some.injEq] at hst
    obtain ⟨⟨hmain, hpassed⟩, rfl⟩ := hst
    exact sound_main h .looping (by rw [hmain]; decide) (by decide)
      ⟨fun h => (by cases h), fun _ => hpassed⟩ .here
  | inFunc =>
    simp only [exec, Option.ite_none_right_eq_some, Option.some.injEq] at hst
    obtain ⟨⟨hw, hdone⟩, rfl⟩ := hst
    have htid := h.tid (by rw [hw]; rfl)
    rw [hw] at hsecond
    exact sound_wrapper h .creating s.tid (by rw [hw]; decide) (by decide)
      ⟨fun h => (by cases h), fun _ => hdone⟩ ⟨hsecond.before, fun h => (by cases h)⟩ fun _ => htid
  | create =>
    simp only [exec, Option.ite_none_right_eq_some, Option.some.injEq] at hst
    obtain ⟨hw, rfl⟩ := hst
    have htid := h.tid (by rw [hw]; rfl)
    rw [hw] at hfirst
    exact sound_wrapper h .looping s.tid (by rw [hw]; decide) (by decide)
      ⟨fun h => (by cases h), hfirst.after⟩ .here fun _ => htid
  | loop a => exact sound_loop h hst
  | enter =>
    simp only [exec, Option.ite_none_right_eq_some, Option.some.injEq] at hst
    obtain ⟨⟨hw, hpub⟩, rfl⟩ := hst
    have htid := h.tid (by rw [hw]; rfl)
    rw [hw] at hfirst
    exact sound_wrapper h .inLoop s.tid (by rw [hw]; decide) (by decide)
      ⟨fun h => (by cases h), hfirst.after⟩ ⟨fun h => (by cases h), fun _ => hpub⟩ fun _ => htid
  | returned =>
    simp only [exec, Option.ite_none_right_eq_some, Option.some.injEq] at hst
    obtain ⟨⟨hmain, hpassed⟩, rfl⟩ := hst
    have hstarted := h.started
    rw [hmain] at hstarted
    exact sound_main h .returned (by rw [hmain]; decide) (by decide)
      ⟨fun h => (by cases h), hstarted.after⟩ ⟨fun h => (by cases h), fun _ => hpassed⟩

/-! ## no call of `startloop` is stuck -/

/-- a condition variable wakes for no reason -/
def Act.spurious : Act → Bool
  | .count a | .loop a => a == .spurious
  | _ => false

/-- a step that is not spurious can be made -/
def Goes (s : Startup) : Prop := ∃ a t, Act.spurious a = false ∧ s.exec a = some t

theorem goes_count {s : Startup} {a : Latch.Act} {l : Latch} (ha : a ≠ .spurious)
    (hmay : s.MayCount a) (hl : s.count.exec a = some l) : s.Goes := by
  refine ⟨.count a, { s with count := l }, beq_eq_false_iff_ne.mpr ha, ?_⟩
  rw [exec, if_pos hmay, hl]
  rfl

theorem goes_loop {s : Startup} {a : Latch.Act} {l : Latch} (ha : a ≠ .spurious)
    (hmay : s.MayLoop a) (hl : s.loop.exec a = some l) : s.Goes := by
  refine ⟨.loop a, { s with loop := l }, beq_eq_false_iff_ne.mpr ha, ?_⟩
  rw [exec, if_pos hmay, hl]
  rfl

/-- while `start` waits for `count` -/
theorem goes_counting {s : Startup} (h : s.Sound) (hmain : s.main = .counting) : s.Goes := by
  by_cases hpassed : s.count.waiter = .passed
  · exact ⟨.started, _, rfl, if_pos ⟨hmain, hpassed⟩⟩
  · rcases h.count.enabled hpassed with ⟨l, hl⟩ | ⟨hdone, l, hl⟩
    · exact goes_count (a := .waiter) (by decide) hmain hl
    · cases hw : s.wrapper with
      | unborn =>
        have hcall := h.born.mpr hw
        rw [hmain] at hcall
        cases hcall
      | begun => exact ⟨.storeTid, _, rfl, if_pos hw⟩
      | counting => exact goes_count (a := .notifier) (by decide) hw hl
      | creating | looping | inLoop => exact absurd (h.counted.after (by rw [hw]; rfl)) hdone

/-- while `startloop` waits for `loop_` -/
theorem goes_looping {s : Startup} (h : s.Sound) (hmain : s.main = .looping) : s.Goes := by
  by_cases hpassed : s.loop.waiter = .passed
  · exact ⟨.returned, _, rfl, if_pos ⟨hmain, hpassed⟩⟩
  · rcases h.loop.enabled hpassed with ⟨l, hl⟩ | ⟨hdone, l, hl⟩
    · exact goes_loop (a := .waiter) (by decide) hmain hl
    · cases hw : s.wrapper with
      | unborn =>
        have hcall := h.born.mpr hw
        rw [hmain] at hcall
        cases hcall
      | begun => exact ⟨.storeTid, _, rfl, if_pos hw⟩
      | counting =>
        by_cases hend : s.count.notifier = .done
        · exact ⟨.inFunc, _, rfl, if_pos ⟨hw, hend⟩⟩
        · rcases h.count.notifier_enabled hend with ⟨l, hl⟩ | ⟨l, hl⟩
          · exact goes_count (a := .notifier) (by decide) hw hl
          · -- the waiter is through
            have hthrough := h.started.after (by rw [hmain]; rfl)
            simp only [Latch.exec, hthrough] at hl
            cases hl
      | creating => exact ⟨.create, _, rfl, if_pos hw⟩
      | looping => exact goes_loop (a := .notifier) (by decide) hw hl
      | inLoop => exact absurd (h.published.after (by rw [hw]; rfl)) hdone

theorem Sound.goes {s : Startup} (h : s.Sound) (hmain : s.main ≠ .returned) : s.Goes := by
  cases hm : s.main with
  | call => exact ⟨.spawn 1, _, rfl, if_pos ⟨hm, Nat.one_pos⟩⟩
  | counting => exact goes_counting h hm
  | looping => exact goes_looping h hm
  | returned => exact absurd hm hmain

/-- when `startloop` has returned, the thread has set `loop_` -/
theorem Sound.past {s : Startup} (h : s.Sound) (hmain : s.main = .returned) :
    s.loop.ready = true ∧ s.wrapper.beforeLoop = false := by
  have hpassed := h.known.after (by rw [hmain]; rfl)
  have hready := h.loop.passed (.inr hpassed)
  refine ⟨hready, ?_⟩
  rw [← Bool.not_eq_true]
  intro hbefore
  rw [h.loop.ready, h.published.before hbefore] at hready
  cases hready

/-- when `startloop` has returned, the id of the thread and the address of the loop are known -/
theorem Sound.returned {s : Startup} (h : s.Sound) (hmain : s.main = .returned) :
    0 < s.tid ∧ s.tid = s.threadTid ∧ s.loop.ready = true := by
  obtain ⟨hready, hw⟩ := h.past hmain
  have hborn : s.wrapper ≠ .unborn := by
    intro hu
    rw [hu] at hw
    cases hw
  have htid : s.tid = s.threadTid := by
    refine h.tid ?_
    cases hwr : s.wrapper with
    | unborn | begun =>
      rw [hwr] at hw
      cases hw
    | _ => rfl
  exact ⟨htid ▸ h.pos hborn, htid, hready⟩

/-! ## how many steps a call takes -/

def Main.work : Main → Nat
  | .call => 3
  | .counting => 2
  | .looping => 1
  | .returned => 0

def Wrapper.work : Wrapper → Nat
  | .unborn => 5
  | .begun => 4
  | .counting => 3
  | .creating => 2
  | .looping => 1
  | .inLoop => 0

/-- the steps left, if none is spurious -/
def work (s : Startup) : Nat := s.main.work + s.wrapper.work + s.count.work + s.loop.work

/-- what a step may cost -/
def Act.slack : Act → Nat
  | .count a | .loop a => a.slack
  | _ => 0

theorem work_exec {s t : Startup} (h : s.Sound) {a : Act} (hst : s.exec a = some t) :
    1 + t.work ≤ s.work + a.slack := by
  cases a with
  | count a =>
    obtain ⟨-, l, hl, rfl⟩ := count_of_exec hst
    have hlatch := Latch.work_exec h.count hl
    show 1 + (s.main.work + s.wrapper.work + l.work + s.loop.work) ≤
      s.main.work + s.wrapper.work + s.count.work + s.loop.work + a.slack
    omega
  | loop a =>
    obtain ⟨-, l, hl, rfl⟩ := loop_of_exec hst
    have hlatch := Latch.work_exec h.loop hl
    show 1 + (s.main.work + s.wrapper.work + s.count.work + l.work) ≤
      s.main.work + s.wrapper.work + s.count.work + s.loop.work + a.slack
    omega
  | spawn tid =>
    simp only [exec, Option.ite_none_right_eq_some, Option.some.injEq] at hst
    obtain ⟨⟨hmain, -⟩, rfl⟩ := hst
    simp only [work, Act.slack, hmain, h.born.mp hmain, Main.work, Wrapper.work]
    omega
  | started | returned =>
    simp only [exec, Option.ite_none_right_eq_some, Option.some.injEq] at hst
    obtain ⟨⟨hmain, -⟩, rfl⟩ := hst
    simp only [work, Act.slack, hmain, Main.work]
    omega
  | storeTid | create =>
    simp only [exec, Option.ite_none_right_eq_some, Option.some.injEq] at hst
    obtain ⟨hw, rfl⟩ := hst
    simp only [work, Act.slack, hw, Wrapper.work]
    omega
  | inFunc | enter =>
    simp only [exec, Option.ite_none_right_eq_some, Option.some.injEq] at hst
    obtain ⟨⟨hw, -⟩, rfl⟩ := hst
    simp only [work, Act.slack, hw, Wrapper.work]
    omega

/-! ## the thread and its starter are an `EventLoopThread` -/

section
variable {τ ι : Type} [DecidableEq ι]

/-- the thread as its `EventLoopThread`, which has one step for each critical section -/
def view (s : Startup) : EventLoopThread τ ι where
  worker :=
    match s.wrapper with
    | .looping => if s.loop.ready then .published else .created
    | .inLoop => .inLoop
    | _ => .creating
  owner := if s.main = .returned then .running else .starting
  loopSet := s.loop.ready
  loop := if s.wrapper = .inLoop then { pc := .test, looping := true } else {}

/-- before its second critical section the thread has not set `loop_` -/
theorem Sound.not_ready {s : Startup} (h : s.Sound) (hw : s.wrapper.beforeLoop = true) :
    s.loop.ready = false := by
  rw [h.loop.ready, h.published.before hw]
  rfl

theorem view_loop {s t : Startup} {a : Latch.Act} (hst : s.exec (.loop a) = some t) :
    (t.view : EventLoopThread τ ι) = s.view ∨
      ∃ b, (s.view : EventLoopThread τ ι).exec b = some t.view := by
  obtain ⟨hmay, l, hl, rfl⟩ := loop_of_exec hst
  rcases Latch.ready_of_exec hl with hsame | ⟨rfl, hset⟩
  · left
    simp only [view, hsame]
  · have hw : s.wrapper = .looping := hmay
    cases hr : s.loop.ready with
    | true =>
      left
      simp only [view, hr, hset]
    | false =>
      refine .inr ⟨.publish, ?_⟩
      simp only [EventLoopThread.exec, view, hw, hr, hset]
      rfl

/-- **A step of the `EventLoopThread`**, or none -/
theorem view_step {s t : Startup} (h : s.Sound) {a : Act} (hst : s.exec a = some t) :
    (t.view : EventLoopThread τ ι) = s.view ∨
      ∃ b, (s.view : EventLoopThread τ ι).exec b = some t.view := by
  cases a with
  | loop a => exact view_loop hst
  | count a =>
    obtain ⟨-, l, -, rfl⟩ := count_of_exec hst
    exact .inl rfl
  | spawn tid =>
    simp only [exec, Option.ite_none_right_eq_some, Option.some.injEq] at hst
    obtain ⟨⟨hmain, -⟩, rfl⟩ := hst
    left
    simp only [view, hmain, h.born.mp hmain]
    rfl
  | storeTid =>
    simp only [exec, Option.ite_none_right_eq_some, Option.some.injEq] at hst
    obtain ⟨hw, rfl⟩ := hst
    left
    simp only [view, hw]
    rfl
  | started =>
    simp only [exec, Option.ite_none_right_eq_some, Option.some.injEq] at hst
    obtain ⟨⟨hmain, -⟩, rfl⟩ := hst
    left
    simp only [view, hmain]
    rfl
  | inFunc =>
    simp only [exec, Option.ite_none_right_eq_some, Option.some.injEq] at hst
    obtain ⟨⟨hw, -⟩, rfl⟩ := hst
    left
    simp only [view, hw]
    rfl
  | create =>
    simp only [exec, Option.ite_none_right_eq_some, Option.some.injEq] at hst
    obtain ⟨hw, rfl⟩ := hst
    have hr := h.not_ready (by rw [hw]; rfl)
    refine .inr ⟨.create, ?_⟩
    simp only [EventLoopThread.exec, view, hw, hr]
    rfl
  | enter =>
    simp only [exec, Option.ite_none_right_eq_some, Option.some.injEq] at hst
    obtain ⟨⟨hw, hdone⟩, rfl⟩ := hst
    have hr : s.loop.ready = true := by
      rw [h.loop.ready, hdone]
      rfl
    refine .inr ⟨.enter, ?_⟩
    simp only [EventLoopThread.exec, view, hw, hr]
    rfl
  | returned =>
    simp only [exec, Option.ite_none_right_eq_some, Option.some.injEq] at hst
    obtain ⟨⟨hmain, hpassed⟩, rfl⟩ := hst
    have hr := h.loop.passed (.inr hpassed)
    refine .inr ⟨.startloop, ?_⟩
    simp only [EventLoopThread.exec, view, hmain, hr]
    rfl

/-- **Refinement.**  What the two threads do with their mutexes and condition variables is a run of
the `EventLoopThread`, in which each critical section is one step. -/
theorem startup_refines {s : Startup} (h : Reach Step {} s) :
    Reach EventLoopThread.Step {} (s.view : EventLoopThread τ ι) := by
  have hview : ∃ v, Reach EventLoopThread.Step ({} : EventLoopThread τ ι) v ∧
      s.Sound ∧ s.view = v := by
    refine h.simulated (R := fun (r : Startup) (v : EventLoopThread τ ι) => r.Sound ∧ r.view = v)
      ?_ ⟨sound_new, rfl⟩
    rintro r a r' _ ⟨hr, rfl⟩ hst
    cases hst with
    | mk hexec =>
      refine ⟨r'.view, ?_, sound_exec hr hexec, rfl⟩
      rcases view_step (τ := τ) (ι := ι) hr hexec with hv | ⟨b, hb⟩
      · rw [hv]
        exact .refl
      · exact Reach.refl.snoc (.mk hb)
  obtain ⟨_, hreach, -, rfl⟩ := hview
  exact hreach

/-- a whole call of `startloop`: the starter falls asleep, wakes once for no reason and once because
it is told to, and finds `loop_` set -/
def wholeStart : List Act :=
  [.spawn 7, .count .waiter, .count .waiter, .count .spurious, .count .waiter, .count .waiter,
    .storeTid, .count .notifier, .count .notifier, .count .notifier, .count .notifier, .inFunc,
    .count .waiter, .count .waiter, .count .waiter, .started, .create, .loop .notifier,
    .loop .notifier, .loop .notifier, .loop .notifier, .enter, .loop .waiter, .loop .waiter,
    .loop .waiter, .returned]

/-- `startloop` has returned, and the thread runs its loop -/
theorem startup_refines_whole : ∃ s : Startup, wholeStart.foldlM exec {} = some s ∧
    s.main = .returned ∧ (s.view : EventLoopThread Unit Bool).worker = .inLoop ∧
    Reach EventLoopThread.Step {} (s.view : EventLoopThread Unit Bool) := by
  have hrun : ∃ s, wholeStart.foldlM exec {} = some s ∧ s.main = .returned ∧ s.wrapper = .inLoop :=
    ⟨_, rfl, rfl, rfl⟩
  obtain ⟨s, hrun, hmain, hwrapper⟩ := hrun
  obtain ⟨tr, hpath, -, hlast⟩ := Path.of_foldlM (fun _ _ _ => Step.mk) hrun
  have hreach := Reach.of_path hpath
  rw [hlast] at hreach
  refine ⟨s, hrun, hmain, ?_, startup_refines hreach⟩
  simp only [view, hwrapper]

end

end Startup

/-! ## the threads of a pool -/

/-- a call of `start`: the threads by their numbers, and the turns of the loop that are left -/
structure PoolStartup where
  pool : EventLoopPool
  threads : Nat → Startup := fun _ => {}
  left : Nat

namespace PoolStartup

/-- the thread that is being started -/
def current (s : PoolStartup) : Nat := s.pool.loops.length

/-- what the step of thread `k` does to the pool: the callback may be called, `startloop` return -/
def onPool (cb : Bool) (s : PoolStartup) (k : Nat) : Startup.Act → EventLoopPool × Nat
  | .create => (s.pool.init cb (.worker k), s.left)
  | .returned => ({ s.pool with loops := s.pool.loops ++ [.worker k] }, s.left - 1)
  | _ => (s.pool, s.left)

/-- a step of the thread `k` or of its starter, which starts one thread at a time -/
def exec (cb : Bool) (s : PoolStartup) (a : Nat × Startup.Act) : Option PoolStartup :=
  if a.2.ofMain = true → a.1 = s.current ∧ 0 < s.left then
    ((s.threads a.1).exec a.2).map fun t =>
      { pool := (s.onPool cb a.1 a.2).1
        threads := Function.update s.threads a.1 t
        left := (s.onPool cb a.1 a.2).2 }
  else none

inductive Step (cb : Bool) : PoolStartup → Nat × Startup.Act → PoolStartup → Prop where
  | mk {s t : PoolStartup} {a : Nat × Startup.Act} : s.exec cb a = some t → Step cb s a t

/-- the pool, when the turns that are left have been made one after the other -/
def future (cb : Bool) (s : PoolStartup) : EventLoopPool :=
  match s.left with
  | 0 => s.pool
  | n + 1 =>
    if (s.threads s.current).wrapper.beforeLoop then s.pool.spawn cb (n + 1)
    else EventLoopPool.spawn { s.pool with loops := s.pool.loops ++ [.worker s.current] } cb n

/-- where a call of `start` on the pool `p` is -/
structure Sound (cb : Bool) (p : EventLoopPool) (s : PoolStartup) : Prop where
  threads : ∀ k, (s.threads k).Sound
  turns : s.current + s.left = p.loops.length + p.loopNum
  first : p.loops.length ≤ s.current
  /-- the threads that have been started -/
  started : ∀ k, p.loops.length ≤ k → k < s.current → (s.threads k).main = .returned
  starting : (s.threads s.current).main ≠ .returned
  /-- the others -/
  rest : ∀ k, k < p.loops.length ∨ s.current < k ∨ s.left = 0 ∧ s.current ≤ k → s.threads k = {}
  future : s.future cb = p.spawn cb p.loopNum

/-- `start` is called -/
def new (p : EventLoopPool) : PoolStartup := { pool := p, left := p.loopNum }

section
variable {cb : Bool} {p : EventLoopPool} {s t : PoolStartup}

/-- before the callback of the thread that is being started -/
theorem future_before (h : (s.threads s.current).wrapper.beforeLoop = true) :
    s.future cb = s.pool.spawn cb s.left := by
  unfold future
  cases s.left with
  | zero => rfl
  | succ n => exact if_pos h

/-- after it -/
theorem future_after (h : (s.threads s.current).wrapper.beforeLoop = false) {n : Nat}
    (hleft : s.left = n + 1) : s.future cb =
      EventLoopPool.spawn { s.pool with loops := s.pool.loops ++ [.worker s.current] } cb n := by
  unfold future
  rw [hleft]
  exact if_neg (by rw [h]; decide)

theorem future_congr (hp : t.pool = s.pool) (hl : t.left = s.left)
    (hb : (t.threads t.current).wrapper.beforeLoop = (s.threads s.current).wrapper.beforeLoop) :
    t.future cb = s.future cb := by
  have hc : t.current = s.current := congrArg (fun q : EventLoopPool => q.loops.length) hp
  unfold future
  rw [hl, hb, hp, hc]

theorem sound_new (cb : Bool) (p : EventLoopPool) : Sound cb p (new p) where
  threads _ := Startup.sound_new
  turns := rfl
  first := le_rfl
  started k hk hlt := absurd hk (Nat.not_le.mpr hlt)
  starting h := by cases h
  rest _ _ := rfl
  future := future_before rfl

/-! ### one step -/

/-- a thread that is not there makes no step -/
theorem exec_unborn {a : Startup.Act} {u : Startup} (h : ({} : Startup).exec a = some u) :
    a.ofMain = true := by
  cases a with
  | spawn | started | returned => rfl
  | count a =>
    cases a with
    | notifier => cases h
    | waiter | spurious => rfl
  | loop a =>
    cases a with
    | notifier => cases h
    | waiter | spurious => rfl
  | storeTid | inFunc | create | enter => cases h

/-- the new thread does not move its starter -/
theorem main_of_exec {u v : Startup} {a : Startup.Act} (h : u.exec a = some v)
    (ha : a.ofMain = false) : v.main = u.main := by
  cases a with
  | spawn | started | returned => cases ha
  | count a =>
    obtain ⟨-, l, -, rfl⟩ := Startup.count_of_exec h
    rfl
  | loop a =>
    obtain ⟨-, l, -, rfl⟩ := Startup.loop_of_exec h
    rfl
  | storeTid | inFunc | create | enter =>
    simp only [Startup.exec, Option.ite_none_right_eq_some, Option.some.injEq] at h
    obtain ⟨-, rfl⟩ := h
    rfl

/-- the step neither calls the callback nor returns from `startloop` -/
theorem exec_other {u v : Startup} {a : Startup.Act} (hu : u.Sound) (h : u.exec a = some v)
    (hc : a ≠ .create) (hr : a ≠ .returned) : v.wrapper.beforeLoop = u.wrapper.beforeLoop ∧
      (u.main ≠ .returned → v.main ≠ .returned) := by
  cases a with
  | create => exact absurd rfl hc
  | returned => exact absurd rfl hr
  | count a =>
    obtain ⟨-, l, -, rfl⟩ := Startup.count_of_exec h
    exact ⟨rfl, id⟩
  | loop a =>
    obtain ⟨-, l, -, rfl⟩ := Startup.loop_of_exec h
    exact ⟨rfl, id⟩
  | spawn tid =>
    simp only [Startup.exec, Option.ite_none_right_eq_some, Option.some.injEq] at h
    obtain ⟨⟨hmain, -⟩, rfl⟩ := h
    rw [hu.born.mp hmain]
    exact ⟨rfl, fun _ h => (by cases h)⟩
  | storeTid =>
    simp only [Startup.exec, Option.ite_none_right_eq_some, Option.some.injEq] at h
    obtain ⟨hw, rfl⟩ := h
    rw [hw]
    exact ⟨rfl, id⟩
  | started =>
    simp only [Startup.exec, Option.ite_none_right_eq_some, Option.some.injEq] at h
    obtain ⟨-, rfl⟩ := h
    exact ⟨rfl, fun _ h => (by cases h)⟩
  | inFunc | enter =>
    simp only [Startup.exec, Option.ite_none_right_eq_some, Option.some.injEq] at h
    obtain ⟨⟨hw, -⟩, rfl⟩ := h
    rw [hw]
    exact ⟨rfl, id⟩

theorem exec_eq_some {k : Nat} {a : Startup.Act} (h : s.exec cb (k, a) = some t) :
    (a.ofMain = true → k = s.current ∧ 0 < s.left) ∧ ∃ u, (s.threads k).exec a = some u ∧
      t = { pool := (s.onPool cb k a).1, threads := Function.update s.threads k u,
            left := (s.onPool cb k a).2 } := by
  simp only [exec, Option.ite_none_right_eq_some, Option.map_eq_some_iff] at h
  obtain ⟨hguard, u, hu, rfl⟩ := h
  exact ⟨hguard, u, hu, rfl⟩

/-- only a thread that has been started, or is being started, makes a step -/
theorem Sound.place (h : s.Sound cb p) {k : Nat} {a : Startup.Act} {u : Startup}
    (hguard : a.ofMain = true → k = s.current ∧ 0 < s.left) (hu : (s.threads k).exec a = some u) :
    p.loops.length ≤ k ∧ k ≤ s.current ∧ (k = s.current → 0 < s.left) := by
  have hborn : s.threads k = {} → k = s.current ∧ 0 < s.left := by
    intro he
    rw [he] at hu
    exact hguard (exec_unborn hu)
  refine ⟨?_, ?_, fun hk => ?_⟩
  · by_contra hlt
    obtain ⟨rfl, -⟩ := hborn (h.rest k (.inl (Nat.lt_of_not_le hlt)))
    exact hlt h.first
  · by_contra hlt
    obtain ⟨rfl, -⟩ := hborn (h.rest k (.inr (.inl (Nat.lt_of_not_le hlt))))
    exact hlt le_rfl
  · by_contra hleft
    exact hleft (hborn (h.rest k (.inr (.inr ⟨Nat.le_zero.mp (Nat.not_lt.mp hleft), hk.ge⟩)))).2

/-- a step of a thread in which nothing happens to the pool -/
theorem sound_other (h : s.Sound cb p) {k : Nat} {a : Startup.Act} {u : Startup}
    (hguard : a.ofMain = true → k = s.current ∧ 0 < s.left) (hu : (s.threads k).exec a = some u)
    (hc : a ≠ .create) (hr : a ≠ .returned) :
    Sound cb p { s with threads := Function.update s.threads k u } := by
  obtain ⟨hfirst, hle, hleft⟩ := h.place hguard hu
  obtain ⟨hbefore, hmain⟩ := exec_other (h.threads k) hu hc hr
  refine ⟨?_, h.turns, h.first, ?_, ?_, ?_, ?_⟩
  · exact (Function.forall_update_iff s.threads fun _ v => v.Sound).mpr
      ⟨Startup.sound_exec (h.threads k) hu, fun k' _ => h.threads k'⟩
  · refine (Function.forall_update_iff s.threads fun k' v =>
      p.loops.length ≤ k' → k' < s.current → v.main = .returned).mpr
        ⟨fun hk hlt => ?_, fun k' _ => h.started k'⟩
    have hof : a.ofMain = false := by
      rw [← Bool.not_eq_true]
      exact fun hof => absurd (hguard hof).1 (Nat.ne_of_lt hlt)
    rw [main_of_exec hu hof]
    exact h.started k hk hlt
  · show (Function.update s.threads k u s.current).main ≠ _
    by_cases hne : s.current = k
    · rw [hne, Function.update_self]
      exact hmain (hne ▸ h.starting)
    · rw [Function.update_of_ne hne]
      exact h.starting
  · refine (Function.forall_update_iff s.threads fun k' v =>
      k' < p.loops.length ∨ s.current < k' ∨ s.left = 0 ∧ s.current ≤ k' → v = {}).mpr
        ⟨fun hk => ?_, fun k' _ => h.rest k'⟩
    rcases hk with hk | hk | ⟨hk, hge⟩
    · omega
    · omega
    · exact absurd (hleft (by omega)) (by omega)
  · refine (future_congr (s := s) (t := { s with threads := Function.update s.threads k u }) rfl rfl
      ?_).trans h.future
    show (Function.update s.threads k u s.current).wrapper.beforeLoop = _
    by_cases hne : s.current = k
    · subst hne
      rw [Function.update_self]
      exact hbefore
    · rw [Function.update_of_ne hne]

/-- the callback is called in the thread that is being started -/
theorem sound_create (h : s.Sound cb p) {k : Nat} {u : Startup}
    (hu : (s.threads k).exec .create = some u) :
    Sound cb p { pool := s.pool.init cb (.worker k), threads := Function.update s.threads k u,
                 left := s.left } := by
  obtain ⟨hfirst, hle, hleft⟩ := h.place (fun h => (by cases h)) hu
  have hsound := Startup.sound_exec (h.threads k) hu
  have hmain := main_of_exec hu rfl
  simp only [Startup.exec, Option.ite_none_right_eq_some, Option.some.injEq] at hu
  obtain ⟨hw, rfl⟩ := hu
  -- a thread that has been started is past its callback
  have hk : k = s.current := by
    by_contra hne
    have hpast := ((h.threads k).past (h.started k hfirst (by omega))).2
    rw [hw] at hpast
    cases hpast
  subst hk
  obtain ⟨n, hn⟩ := Nat.exists_eq_add_one_of_ne_zero (Nat.ne_of_gt (hleft rfl))
  refine ⟨?_, h.turns, h.first, ?_, ?_, ?_, ?_⟩
  · exact (Function.forall_update_iff s.threads fun _ v => v.Sound).mpr
      ⟨hsound, fun k' _ => h.threads k'⟩
  · exact (Function.forall_update_iff s.threads fun k' v =>
      p.loops.length ≤ k' → k' < s.current → v.main = .returned).mpr
        ⟨fun _ hlt => absurd hlt (lt_irrefl _), fun k' _ => h.started k'⟩
  · show (Function.update s.threads s.current _ s.current).main ≠ _
    rw [Function.update_self, hmain]
    exact h.starting
  · refine (Function.forall_update_iff s.threads fun k' v =>
      k' < p.loops.length ∨ s.current < k' ∨ s.left = 0 ∧ s.current ≤ k' → v = {}).mpr
        ⟨fun hk => ?_, fun k' _ => h.rest k'⟩
    omega
  · have hold : s.future cb = s.pool.spawn cb s.left := future_before (by rw [hw]; rfl)
    rw [← h.future, hold, hn]
    refine future_after ?_ rfl
    show (Function.update s.threads s.current _ s.current).wrapper.beforeLoop = _
    rw [Function.update_self]
    rfl

/-- `startloop` returns, and the next thread is started -/
theorem sound_returned (h : s.Sound cb p) {u : Startup} (hleft : 0 < s.left)
    (hu : (s.threads s.current).exec .returned = some u) :
    Sound cb p { pool := { s.pool with loops := s.pool.loops ++ [.worker s.current] },
                 threads := Function.update s.threads s.current u, left := s.left - 1 } := by
  have hsound := Startup.sound_exec (h.threads s.current) hu
  simp only [Startup.exec, Option.ite_none_right_eq_some, Option.some.injEq] at hu
  obtain ⟨⟨hm, hpassed⟩, rfl⟩ := hu
  have hbefore := (hsound.past rfl).2
  obtain ⟨n, hn⟩ := Nat.exists_eq_add_one_of_ne_zero (Nat.ne_of_gt hleft)
  have hnext : (s.pool.loops ++ [Loop.worker s.current]).length = s.current + 1 := by
    rw [List.length_append]
    rfl
  have hfirst := h.first
  have hturns := h.turns
  -- the next thread has not been touched
  have hunborn : ∀ v, Function.update s.threads s.current v
      (s.pool.loops ++ [Loop.worker s.current]).length = {} := by
    intro v
    rw [hnext, Function.update_of_ne (Nat.succ_ne_self _)]
    exact h.rest _ (.inr (.inl (Nat.lt_succ_self _)))
  refine ⟨?_, ?_, ?_, ?_, ?_, ?_, ?_⟩
  · exact (Function.forall_update_iff s.threads fun _ v => v.Sound).mpr
      ⟨hsound, fun k' _ => h.threads k'⟩
  · show (s.pool.loops ++ [Loop.worker s.current]).length + (s.left - 1) = _
    omega
  · show _ ≤ (s.pool.loops ++ [Loop.worker s.current]).length
    omega
  · refine (Function.forall_update_iff s.threads fun k' v => p.loops.length ≤ k' →
      k' < (s.pool.loops ++ [Loop.worker s.current]).length → v.main = .returned).mpr
        ⟨fun _ _ => rfl, fun k' hne hk hlt => h.started k' hk ?_⟩
    omega
  · show (Function.update s.threads s.current _
      (s.pool.loops ++ [Loop.worker s.current]).length).main ≠ _
    rw [hunborn]
    exact fun h => (by cases h)
  · refine (Function.forall_update_iff s.threads fun k' v => k' < p.loops.length ∨
      (s.pool.loops ++ [Loop.worker s.current]).length < k' ∨
      s.left - 1 = 0 ∧ (s.pool.loops ++ [Loop.worker s.current]).length ≤ k' → v = {}).mpr
        ⟨fun hk => ?_, fun k' _ hk => h.rest k' ?_⟩
    · omega
    · omega
  · rw [← h.future, future_after hbefore hn]
    refine (future_before ?_).trans ?_
    · show (Function.update s.threads s.current _
        (s.pool.loops ++ [Loop.worker s.current]).length).wrapper.beforeLoop = _
      rw [hunborn]
      rfl
    · show EventLoopPool.spawn _ cb (s.left - 1) = _
      rw [hn]
      rfl

/-- **One step** of any thread -/
theorem sound_step (h : s.Sound cb p) {a : Nat × Startup.Act} (hst : s.exec cb a = some t) :
    t.Sound cb p := by
  obtain ⟨k, a⟩ := a
  obtain ⟨hguard, u, hu, rfl⟩ := exec_eq_some hst
  cases a with
  | create => exact sound_create h hu
  | returned =>
    obtain ⟨rfl, hleft⟩ := hguard rfl
    exact sound_returned h hleft hu
  | _ => exact sound_other h hguard hu (fun he => by cases he) (fun he => by cases he)

/-! ### the whole of `start` -/

/-- the steps left, if none is spurious -/
def work (p : EventLoopPool) (s : PoolStartup) : Nat :=
  ∑ k ∈ Finset.Ico p.loops.length (p.loops.length + p.loopNum), (s.threads k).work

theorem work_new (p : EventLoopPool) : work p (new p) = 26 * p.loopNum := by
  have hone : ∀ k, ((new p).threads k).work = 26 := fun _ => rfl
  unfold work
  rw [Finset.sum_const_nat fun k _ => hone k, Nat.card_Ico]
  omega

theorem work_step (h : s.Sound cb p) {a : Nat × Startup.Act} (hst : s.exec cb a = some t) :
    1 + work p t ≤ work p s + a.2.slack := by
  obtain ⟨k, a⟩ := a
  obtain ⟨hguard, u, hu, rfl⟩ := exec_eq_some hst
  obtain ⟨hfirst, hle, hleft⟩ := h.place hguard hu
  have hturns := h.turns
  have hk : k ∈ Finset.Ico p.loops.length (p.loops.length + p.loopNum) := by
    refine Finset.mem_Ico.mpr ⟨hfirst, ?_⟩
    by_cases hc : k = s.current
    · have := hleft hc
      omega
    · omega
  have hthread := Startup.work_exec (h.threads k) hu
  unfold work
  rw [← Finset.add_sum_erase _ _ hk, ← Finset.add_sum_erase _ (fun k => (s.threads k).work) hk]
  have hothers : ∀ k' ∈ (Finset.Ico p.loops.length (p.loops.length + p.loopNum)).erase k,
      (Function.update s.threads k u k').work = (s.threads k').work := by
    intro k' hk'
    rw [Function.update_of_ne (Finset.ne_of_mem_erase hk')]
  rw [Finset.sum_congr rfl hothers]
  show 1 + ((Function.update s.threads k u k).work + _) ≤ (s.threads k).work + _ + a.slack
  rw [Function.update_self]
  omega

theorem sound_of_step (h : s.Sound cb p) {a : Nat × Startup.Act} (hst : Step cb s a t) :
    t.Sound cb p := by
  obtain ⟨hexec⟩ := hst
  exact sound_step h hexec

theorem work_of_step (h : s.Sound cb p) {a : Nat × Startup.Act} (hst : Step cb s a t) :
    1 + work p t ≤ work p s + a.2.slack := by
  obtain ⟨hexec⟩ := hst
  exact work_step h hexec

/-- only the spurious steps cost -/
theorem sum_slack (tr : List (Tr PoolStartup (Nat × Startup.Act))) :
    (tr.map fun e => e.act.2.slack).sum = 3 * tr.countP fun e => e.act.2.spurious := by
  have hone : ∀ a : Startup.Act, a.slack = if a.spurious = true then 3 else 0 := by
    intro a
    cases a with
    | count a | loop a => cases a <;> rfl
    | _ => rfl
  induction tr with
  | nil => rfl
  | cons e tr ih =>
    rw [List.map_cons, List.sum_cons, ih, List.countP_cons, hone]
    split
    · omega
    · omega

/-- **`start` starts its threads.**  Whatever the threads do and however often a condition variable
wakes for no reason, the calls of `startloop` take a bounded number of other steps and are never
stuck; when `start` returns, the pool is the one that the loops and callbacks made one after the
other would leave, and of each new thread the id is stored and the loop set. -/
theorem pool_starts (cb : Bool) {p : EventLoopPool} (hp : p.loopNum ≠ 0)
    {tr : List (Tr PoolStartup (Nat × Startup.Act))} (h : Path (Step cb) (new p) tr)
    {s : PoolStartup} (hlast : last (new p) tr = s) :
    tr.length ≤ 26 * p.loopNum + 3 * tr.countP (fun e => e.act.2.spurious) ∧
      (s.left ≠ 0 → ∃ a t, Startup.Act.spurious a.2 = false ∧ s.exec cb a = some t) ∧
      (s.left = 0 → s.pool = p.start cb ∧ ∀ k, p.loops.length ≤ k →
        k < p.loops.length + p.loopNum → 0 < (s.threads k).tid ∧
          (s.threads k).tid = (s.threads k).threadTid ∧ (s.threads k).loop.ready = true) := by
  have hsound : s.Sound cb p := by
    rw [← hlast]
    exact h.guarded_last (G := fun _ _ => True) (fun s a t hs hst _ => sound_of_step hs hst)
      (sound_new cb p) (fun _ _ => trivial)
  refine ⟨?_, fun hleft => ?_, fun hleft => ⟨?_, fun k hk hlt => ?_⟩⟩
  · have hcost := h.amortized (Φ := work p) (w := fun _ => 1) (g := fun e => e.act.2.slack)
      (fun s a t hs hst => ⟨sound_of_step hs hst, work_of_step hs hst⟩) (sound_new cb p)
    rw [sum_slack, work_new, List.map_const', List.sum_replicate, nsmul_one, Nat.cast_id] at hcost
    omega
  · obtain ⟨a, u, ha, hu⟩ := (hsound.threads s.current).goes hsound.starting
    have hstep : s.exec cb (s.current, a) = some
        { pool := (s.onPool cb s.current a).1
          threads := Function.update s.threads s.current u
          left := (s.onPool cb s.current a).2 } := by
      rw [exec, if_pos fun _ => ⟨rfl, Nat.pos_of_ne_zero hleft⟩, hu]
      rfl
    exact ⟨_, _, ha, hstep⟩
  · have hunborn := hsound.rest s.current (.inr (.inr ⟨hleft, le_rfl⟩))
    have hfuture := hsound.future
    rw [future_before (by rw [hunborn]; rfl), hleft] at hfuture
    rw [EventLoopPool.start, if_neg hp]
    exact hfuture
  · have hturns := hsound.turns
    exact (hsound.threads k).returned (hsound.started k hk (by omega))

/-- a pool of one thread, started -/
theorem pool_starts_one : ∃ tr s, Path (Step false) (new { loopNum := 1 }) tr ∧
    last (new { loopNum := 1 }) tr = s ∧ tr.length = 26 ∧
    s.pool = EventLoopPool.start { loopNum := 1 } false ∧ 0 < (s.threads 0).tid ∧
    (s.threads 0).loop.ready = true := by
  have hrun : ∃ s, (Startup.wholeStart.map fun a => (0, a)).foldlM (exec false)
      (new { loopNum := 1 }) = some s ∧ s.left = 0 := ⟨_, rfl, rfl⟩
  obtain ⟨s, hrun, hleft⟩ := hrun
  obtain ⟨tr, hpath, hacts, hlast⟩ := Path.of_foldlM (fun _ _ _ h => (.mk h : Step false _ _ _)) hrun
  obtain ⟨-, -, hdone⟩ := pool_starts false (p := { loopNum := 1 }) (by decide) hpath hlast
  obtain ⟨hpool, hthreads⟩ := hdone hleft
  obtain ⟨htid, -, hready⟩ := hthreads 0 le_rfl (by decide)
  refine ⟨tr, s, hpath, hlast, ?_, hpool, htid, hready⟩
  have hlen := congrArg List.length hacts
  rw [List.length_map, List.length_map] at hlen
  exact hlen

end

end PoolStartup

end Feipu
