import Feipu.Base.EventLoop

/-!
# `EventLoopThread` (base/src/EventLoopThread.cpp)

A worker thread makes its loop, publishes it and enters `loop ()`; the owner waits for the pointer
and some day calls `quit` and joins.  The loop is that of `EventLoop`, with the owner as its foreign
thread `none` and the other threads that use it as `some i`.

* `quit_iff`  after `quit` the loop begins no iteration and never blocks, exactly where the worker
              was in `loop ()` by then: entering it sets `looping_` again.
-/

namespace Feipu
open Trace

/-- where `threadFunc_` is -/
inductive Worker where
  /-- making the loop, and calling the callback -/
  | creating
  /-- before the critical section -/
  | created
  /-- past it: `loop_` is set, and the owner notified -/
  | published
  | inLoop
  | done
deriving DecidableEq

/-- where the owner is -/
inductive Owner where
  /-- in `startloop` -/
  | starting
  | running
  /-- in `quit`, before its `wakeup` -/
  | quitting
  /-- in `join` -/
  | joining
  | joined
deriving DecidableEq

/-- `late` is history: the iterations that began after `quit` had returned -/
structure EventLoopThread (τ ι : Type) where
  worker : Worker := .creating
  owner : Owner := .starting
  /-- `loop_ != nullptr` -/
  loopSet : Bool := false
  loop : EventLoop τ (Option ι) := {}
  late : Nat := 0

namespace EventLoopThread
variable {τ ι : Type} [DecidableEq ι]

/-! ## the steps -/

/-- the steps of the loop itself, and of threads other than the owner -/
def Others : LoopAct τ (Option ι) → Bool
  | .start | .quit _ | .quitHere => false
  | .runInLoop i _ | .wakeup i => i.isSome
  | _ => true

inductive Act (τ ι : Type) where
  | create
  /-- `loop_` is set and the owner notified, in one critical section -/
  | publish
  /-- `loop ()` is called, and sets `looping_` -/
  | enter
  | loop (a : LoopAct τ (Option ι))
  /-- `loop ()` has returned -/
  | leave
  /-- the owner sees `loop_` under the mutex, and `startloop` returns -/
  | startloop
  /-- `quit` stores `looping_` -/
  | quit
  /-- `quit` wakes the loop, and returns -/
  | wakeup
  | join

def quitReturned (s : EventLoopThread τ ι) : Bool := s.owner == .joining || s.owner == .joined

/-- the step begins an iteration -/
def begins (s : EventLoopThread τ ι) : LoopAct τ (Option ι) → Bool
  | .testLooping => s.loop.looping
  | _ => false

def exec (s : EventLoopThread τ ι) : Act τ ι → Option (EventLoopThread τ ι)
  | .create => if s.worker = .creating then some { s with worker := .created } else none
  | .publish =>
    if s.worker = .created then some { s with worker := .published, loopSet := true } else none
  | .enter =>
    if s.worker = .published then
      (s.loop.exec .start).map fun loop => { s with loop, worker := .inLoop }
    else none
  | .loop a =>
    if (s.worker = .published ∨ s.worker = .inLoop) ∧ Others a then
      (s.loop.exec a).map fun loop =>
        { s with loop, late := if s.begins a && s.quitReturned then s.late + 1 else s.late }
    else none
  | .leave =>
    if s.worker = .inLoop ∧ s.loop.pc = .idle then some { s with worker := .done } else none
  | .startloop =>
    if s.owner = .starting ∧ s.loopSet then some { s with owner := .running } else none
  | .quit =>
    if s.owner = .running then
      (s.loop.exec (.quit none)).map fun loop => { s with loop, owner := .quitting }
    else none
  | .wakeup =>
    if s.owner = .quitting then
      (s.loop.exec (.wakeup none)).map fun loop => { s with loop, owner := .joining }
    else none
  | .join =>
    if s.owner = .joining ∧ s.worker = .done then some { s with owner := .joined } else none

inductive Step : EventLoopThread τ ι → Act τ ι → EventLoopThread τ ι → Prop where
  | mk {s t : EventLoopThread τ ι} {a : Act τ ι} : s.exec a = some t → Step s a t

/-- at most one iteration begins after `quit` has returned, and the loop is not blocked in `poll`
with nothing to wake it and `looping_` true -/
def Kept (s : EventLoopThread τ ι) : Prop :=
  s.late ≤ 1 ∧
    ¬ (s.quitReturned = true ∧ s.loop.pc = .poll ∧ s.loop.looping = true ∧ s.loop.wakeupFd = 0)

/-! ## the invariant -/

/-- a wakeup changes only the counter -/
theorem wakeup_others {l l' : EventLoop τ (Option ι)} {i : Option ι}
    (h : l.exec (.wakeup i) = some l') : l'.looping = l.looping ∧ (l.pc = .idle → l'.pc = .idle) ∧
      (l'.pc = .idle → l.pc = .idle ∨ l.looping = false) := by
  simp only [EventLoop.exec, Option.ite_none_right_eq_some, Option.some.injEq] at h
  obtain ⟨-, rfl⟩ := h
  have hlooping : l.writeWakeup.looping = l.looping := by
    unfold EventLoop.writeWakeup
    split <;> rfl
  have hpc := l.writeWakeup_keeps.1
  exact ⟨hlooping, hpc.trans, fun hi => .inl (hpc.symm.trans hi)⟩

/-- what the loop does on its own, and others do to it -/
theorem exec_others {l l' : EventLoop τ (Option ι)} {a : LoopAct τ (Option ι)} (ha : Others a)
    (h : l.exec a = some l') : l'.looping = l.looping ∧ (l.pc = .idle → l'.pc = .idle) ∧
      (l'.pc = .idle → l.pc = .idle ∨ l.looping = false) := by
  cases a with
  | start => cases ha
  | quit i => cases ha
  | quitHere => cases ha
  | testLooping =>
    simp only [EventLoop.exec, Option.ite_none_right_eq_some, Option.some.injEq] at h
    obtain ⟨hpc, rfl⟩ := h
    refine ⟨rfl, fun hi => absurd (hpc.symm.trans hi) (by decide), fun hi => .inr ?_⟩
    cases hl : l.looping with
    | false => rfl
    | true => simp [hl] at hi
  | pollReturn wake =>
    simp only [EventLoop.exec, Option.ite_none_right_eq_some, Option.some.injEq] at h
    obtain ⟨⟨hpc, -⟩, rfl⟩ := h
    exact ⟨rfl, fun hi => absurd (hpc.symm.trans hi) (by decide), fun hi => (by cases hi)⟩
  | handleWakeEvent =>
    simp only [EventLoop.exec] at h
    split at h
    · rename_i hpc
      obtain rfl := Option.some.inj h
      refine ⟨rfl, fun hi => ?_, fun hi => (by cases hi)⟩
      rw [hpc] at hi
      cases hi
    · cases h
  | handleEvents =>
    simp only [EventLoop.exec] at h
    split at h
    · rename_i wake hpc
      obtain rfl := Option.some.inj h
      have hlooping : (if wake = true then l.handleWakeEvent else l).looping = l.looping := by
        split <;> rfl
      refine ⟨hlooping, fun hi => ?_, fun hi => (by cases hi)⟩
      rw [hpc] at hi
      cases hi
    · cases h
  | handleTimeEvent =>
    simp only [EventLoop.exec, Option.ite_none_right_eq_some, Option.some.injEq] at h
    obtain ⟨hpc, rfl⟩ := h
    exact ⟨rfl, fun hi => absurd (hpc.symm.trans hi) (by decide), fun hi => (by cases hi)⟩
  | swapFunctions =>
    simp only [EventLoop.exec, Option.ite_none_right_eq_some, Option.some.injEq] at h
    obtain ⟨hpc, rfl⟩ := h
    exact ⟨rfl, fun hi => absurd (hpc.symm.trans hi) (by decide), fun hi => (by cases hi)⟩
  | runFunction =>
    simp only [EventLoop.exec, Option.ite_none_right_eq_some] at h
    obtain ⟨hpc, h⟩ := h
    split at h
    · obtain rfl := Option.some.inj h
      exact ⟨rfl, fun hi => absurd (hpc.symm.trans hi) (by decide), fun hi => (by cases hi)⟩
    · obtain rfl := Option.some.inj h
      exact ⟨rfl, id, .inl⟩
  | runInLoopHere cb =>
    simp only [EventLoop.exec, Option.ite_none_left_eq_some, Option.some.injEq] at h
    obtain ⟨-, rfl⟩ := h
    exact ⟨rfl, id, .inl⟩
  | runInLoop i cb =>
    simp only [EventLoop.exec, Option.ite_none_right_eq_some, Option.some.injEq] at h
    obtain ⟨-, rfl⟩ := h
    exact ⟨rfl, id, .inl⟩
  | wakeup i => exact wakeup_others h

structure Inv (s : EventLoopThread τ ι) : Prop where
  idle : s.worker ≠ .inLoop → s.loop.pc = .idle
  set : s.loopSet = true → s.worker ≠ .creating ∧ s.worker ≠ .created
  started : s.owner ≠ .starting → s.loopSet = true
  /-- before `quit`, nothing ends the loop -/
  up : s.owner = .starting ∨ s.owner = .running → s.worker ≠ .done ∧
    (s.worker = .inLoop → s.loop.looping = true ∧ s.loop.pc ≠ .idle)
  quiet : s.quitReturned = false → s.late = 0

omit [DecidableEq ι] in
theorem inv_new : Inv ({} : EventLoopThread τ ι) where
  idle _ := rfl
  set h := by cases h
  started h := absurd rfl h
  up _ := ⟨Worker.noConfusion, Worker.noConfusion⟩
  quiet _ := rfl

theorem inv_step {s t : EventLoopThread τ ι} {a : Act τ ι} (h : s.Inv) (hst : s.exec a = some t) :
    t.Inv := by
  cases a with
  | create =>
    simp only [exec, Option.ite_none_right_eq_some, Option.some.injEq] at hst
    obtain ⟨hw, rfl⟩ := hst
    exact ⟨fun _ => h.idle (by rw [hw]; decide), fun hset => absurd hw (h.set hset).1,
      h.started, fun _ => ⟨Worker.noConfusion, Worker.noConfusion⟩, h.quiet⟩
  | publish =>
    simp only [exec, Option.ite_none_right_eq_some, Option.some.injEq] at hst
    obtain ⟨hw, rfl⟩ := hst
    exact ⟨fun _ => h.idle (by rw [hw]; decide),
      fun _ => ⟨Worker.noConfusion, Worker.noConfusion⟩, fun _ => rfl,
      fun _ => ⟨Worker.noConfusion, Worker.noConfusion⟩, h.quiet⟩
  | enter =>
    simp only [exec, Option.ite_none_right_eq_some, Option.map_eq_some_iff, EventLoop.exec,
      Option.some.injEq] at hst
    obtain ⟨hw, l, ⟨hpc, rfl⟩, rfl⟩ := hst
    exact ⟨fun hne => absurd rfl hne, fun _ => ⟨Worker.noConfusion, Worker.noConfusion⟩,
      h.started, fun _ => ⟨Worker.noConfusion, fun _ => ⟨rfl, fun he => (by cases he)⟩⟩, h.quiet⟩
  | loop a =>
    simp only [exec, Option.ite_none_right_eq_some, Option.map_eq_some_iff] at hst
    obtain ⟨⟨hw, ha⟩, l, hl, rfl⟩ := hst
    obtain ⟨hlooping, hidle, hidle'⟩ := exec_others ha hl
    refine ⟨fun hne => hidle (h.idle hne), h.set, h.started, fun ho => ⟨(h.up ho).1, fun hin => ?_⟩,
      fun hq => ?_⟩
    · obtain ⟨hup, hpc⟩ := (h.up ho).2 hin
      refine ⟨hlooping.trans hup, fun hi => ?_⟩
      rcases hidle' hi with hpc' | hdown
      · exact hpc hpc'
      · rw [hup] at hdown
        cases hdown
    · have hq : s.quitReturned = false := hq
      show (if (s.begins a && s.quitReturned) = true then s.late + 1 else s.late) = 0
      rw [hq, Bool.and_false, if_neg Bool.false_ne_true]
      exact h.quiet hq
  | leave =>
    simp only [exec, Option.ite_none_right_eq_some, Option.some.injEq] at hst
    obtain ⟨⟨hw, hpc⟩, rfl⟩ := hst
    exact ⟨fun _ => hpc, fun _ => ⟨Worker.noConfusion, Worker.noConfusion⟩, h.started,
      fun ho => absurd hpc ((h.up ho).2 hw).2, h.quiet⟩
  | startloop =>
    simp only [exec, Option.ite_none_right_eq_some, Option.some.injEq] at hst
    obtain ⟨⟨ho, hset⟩, rfl⟩ := hst
    refine ⟨h.idle, h.set, fun _ => hset, fun _ => h.up (.inl ho), fun _ => h.quiet ?_⟩
    rw [quitReturned, ho]
    rfl
  | quit =>
    simp only [exec, Option.ite_none_right_eq_some, Option.map_eq_some_iff, EventLoop.exec,
      Option.some.injEq] at hst
    obtain ⟨ho, l, ⟨-, rfl⟩, rfl⟩ := hst
    refine ⟨h.idle, h.set, fun _ => h.started (by rw [ho]; decide), ?_, fun _ => h.quiet ?_⟩
    · rintro (he | he) <;> cases he
    · rw [quitReturned, ho]
      rfl
  | wakeup =>
    simp only [exec, Option.ite_none_right_eq_some, Option.map_eq_some_iff] at hst
    obtain ⟨ho, l, hl, rfl⟩ := hst
    obtain ⟨-, hidle, -⟩ := wakeup_others hl
    refine ⟨fun hne => hidle (h.idle hne), h.set, fun _ => h.started (by rw [ho]; decide), ?_, ?_⟩
    · rintro (he | he) <;> cases he
    · intro hq
      cases hq
  | join =>
    simp only [exec, Option.ite_none_right_eq_some, Option.some.injEq] at hst
    obtain ⟨⟨ho, hw⟩, rfl⟩ := hst
    refine ⟨h.idle, h.set, fun _ => h.started (by rw [ho]; decide), ?_, ?_⟩
    · rintro (he | he) <;> cases he
    · intro hq
      cases hq

/-! ## a quit inside `loop ()` -/

/-- `quit` has stored `looping_`, and the worker will not set it again -/
structure Stopping (s : EventLoopThread τ ι) : Prop where
  worker : s.worker = .inLoop ∨ s.worker = .done
  owner : s.owner ≠ .starting ∧ s.owner ≠ .running
  looping : s.loop.looping = false
  late : s.late = 0

/-- a `quit` inside `loop ()` stops it -/
theorem stopping_quit {s t : EventLoopThread τ ι} (h : s.Inv) (hw : s.worker = .inLoop)
    (hst : s.exec .quit = some t) : t.Stopping := by
  simp only [exec, Option.ite_none_right_eq_some, Option.map_eq_some_iff, EventLoop.exec,
    Option.some.injEq] at hst
  obtain ⟨ho, l, ⟨-, rfl⟩, rfl⟩ := hst
  have hlate : s.late = 0 := h.quiet (by rw [quitReturned, ho]; rfl)
  exact ⟨.inl hw, ⟨Owner.noConfusion, Owner.noConfusion⟩, rfl, hlate⟩

theorem stopping_step {s t : EventLoopThread τ ι} {a : Act τ ι} (h : s.Stopping)
    (hst : s.exec a = some t) : t.Stopping := by
  have hworker := h.worker
  cases a with
  | create | publish | enter =>
    simp only [exec, Option.ite_none_right_eq_some] at hst
    rw [hst.1] at hworker
    rcases hworker with he | he <;> cases he
  | loop a =>
    simp only [exec, Option.ite_none_right_eq_some, Option.map_eq_some_iff] at hst
    obtain ⟨⟨-, ha⟩, l, hl, rfl⟩ := hst
    refine ⟨hworker, h.owner, (exec_others ha hl).1.trans h.looping, ?_⟩
    -- an iteration does not begin while `looping_` is false
    have hno : s.begins a = false := by
      cases a <;> first | exact h.looping | rfl
    show (if (s.begins a && s.quitReturned) = true then s.late + 1 else s.late) = 0
    rw [hno, Bool.false_and, if_neg Bool.false_ne_true]
    exact h.late
  | leave =>
    simp only [exec, Option.ite_none_right_eq_some, Option.some.injEq] at hst
    obtain ⟨-, rfl⟩ := hst
    exact ⟨.inr rfl, h.owner, h.looping, h.late⟩
  | startloop =>
    simp only [exec, Option.ite_none_right_eq_some] at hst
    exact absurd hst.1.1 h.owner.1
  | quit =>
    simp only [exec, Option.ite_none_right_eq_some] at hst
    exact absurd hst.1 h.owner.2
  | wakeup =>
    simp only [exec, Option.ite_none_right_eq_some, Option.map_eq_some_iff] at hst
    obtain ⟨-, l, hl, rfl⟩ := hst
    exact ⟨hworker, ⟨Owner.noConfusion, Owner.noConfusion⟩,
      (wakeup_others hl).1.trans h.looping, h.late⟩
  | join =>
    simp only [exec, Option.ite_none_right_eq_some, Option.some.injEq] at hst
    obtain ⟨-, rfl⟩ := hst
    exact ⟨hworker, ⟨Owner.noConfusion, Owner.noConfusion⟩, h.looping, h.late⟩

omit [DecidableEq ι] in
theorem Stopping.kept {s : EventLoopThread τ ι} (h : s.Stopping) : s.Kept := by
  refine ⟨by rw [h.late]; exact Nat.zero_le 1, ?_⟩
  rintro ⟨-, -, hlooping, -⟩
  rw [h.looping] at hlooping
  cases hlooping

/-! ## a quit before `loop ()` -/

/-- the functors of a batch run, one after the other -/
theorem run_batch {s : EventLoopThread τ ι} (hw : s.worker = .inLoop) (hpc : s.loop.pc = .run) :
    ∃ ran, Reach Step s { s with loop := { s.loop with pc := .test, batch := [], ran } } := by
  obtain ⟨worker, owner, loopSet,
    ⟨pc, looping, functions, batch, wakeupFd, waking, pushed, ran, ranHere⟩, late⟩ := s
  obtain rfl : worker = .inLoop := hw
  obtain rfl : pc = .run := hpc
  induction batch generalizing ran with
  | nil => exact ⟨ran, Reach.refl.snoc (a := .loop .runFunction) (.mk rfl)⟩
  | cons func batch ih =>
    obtain ⟨ran', hrest⟩ := ih (ran ++ [func])
    exact ⟨ran', (Reach.refl.snoc (a := .loop .runFunction) (.mk rfl)).trans hrest⟩

/-- a worker that enters the loop after `quit` uses up the wakeup in its first iteration, and
blocks in the second -/
theorem blocked_of_published {s : EventLoopThread τ ι} (hw : s.worker = .published)
    (ho : s.owner = .joining) (hpc : s.loop.pc = .idle) (hfd : 0 < s.loop.wakeupFd) :
    ∃ t, Reach Step s t ∧ ¬ t.Kept := by
  obtain ⟨worker, owner, loopSet,
    ⟨pc, looping, functions, batch, wakeupFd, waking, pushed, ran, ranHere⟩, late⟩ := s
  obtain rfl : worker = .published := hw
  obtain rfl : owner = .joining := ho
  obtain rfl : pc = .idle := hpc
  obtain ⟨n, rfl⟩ := Nat.exists_eq_succ_of_ne_zero (Nat.ne_of_gt hfd)
  let inLoop (pc : Pc) (functions batch : List τ) (wakeupFd late : Nat) : EventLoopThread τ ι :=
    ⟨.inLoop, .joining, loopSet,
      ⟨pc, true, functions, batch, wakeupFd, waking, pushed, ran, ranHere⟩, late⟩
  have henter : Step _ .enter (inLoop .test functions batch (n + 1) late) :=
    .mk (s := ⟨.published, .joining, loopSet,
      ⟨.idle, looping, functions, batch, n + 1, waking, pushed, ran, ranHere⟩, late⟩) rfl
  have hfirst : Step _ (.loop .testLooping) (inLoop .poll functions batch (n + 1) (late + 1)) :=
    .mk (s := inLoop .test functions batch (n + 1) late) rfl
  have hpoll : Step _ (.loop (.pollReturn true))
      (inLoop (.events true) functions batch (n + 1) (late + 1)) :=
    .mk (s := inLoop .poll functions batch (n + 1) (late + 1)) rfl
  have hevents : Step _ (.loop .handleEvents) (inLoop .timers functions batch 0 (late + 1)) :=
    .mk (s := inLoop (.events true) functions batch (n + 1) (late + 1)) rfl
  have htimers : Step _ (.loop .handleTimeEvent) (inLoop .swap functions batch 0 (late + 1)) :=
    .mk (s := inLoop .timers functions batch 0 (late + 1)) rfl
  have hswap : Step _ (.loop .swapFunctions) (inLoop .run [] functions 0 (late + 1)) :=
    .mk (s := inLoop .swap functions batch 0 (late + 1)) rfl
  obtain ⟨ran', hbatch⟩ := run_batch (s := inLoop .run [] functions 0 (late + 1)) rfl rfl
  have hone := ((((Reach.refl.snoc henter).snoc hfirst).snoc hpoll).snoc hevents).snoc htimers
  have htwo := Reach.snoc (a := .loop .testLooping) ((hone.snoc hswap).trans hbatch) (.mk rfl)
  exact ⟨_, htwo, fun hkept => hkept.2 ⟨rfl, rfl, rfl, rfl⟩⟩

/-- **One call of `quit`** -/
theorem quit_kept_iff {s t : EventLoopThread τ ι} (h : s.Inv) (hst : s.exec .quit = some t) :
    (∀ u, Reach Step t u → u.Kept) ↔ s.worker = .inLoop := by
  constructor
  · intro hall
    by_contra hw
    simp only [exec, Option.ite_none_right_eq_some, Option.map_eq_some_iff, EventLoop.exec,
      Option.some.injEq] at hst
    obtain ⟨ho, l, ⟨-, rfl⟩, rfl⟩ := hst
    -- the pointer is published, and the worker has not come to `loop ()` yet
    obtain ⟨hcreating, hcreated⟩ := h.set (h.started (by rw [ho]; decide))
    have hdone := (h.up (.inr ho)).1
    have hpub : s.worker = .published := by
      cases hs : s.worker <;> simp_all
    let l : EventLoop τ (Option ι) :=
      { s.loop with looping := false, waking := Function.update s.loop.waking none .afterQuit }
    have howes : l.waking none ≠ .no := by
      show Function.update s.loop.waking none .afterQuit none ≠ .no
      rw [Function.update_self]
      decide
    have hwake : Step { s with loop := l, owner := .quitting } .wakeup { s with
        loop := { l.writeWakeup with waking := Function.update l.waking none .no }
        owner := .joining } := by
      refine .mk ?_
      simp only [exec, EventLoop.exec]
      rw [if_pos howes]
      rfl
    have hpc : l.writeWakeup.pc = .idle := l.writeWakeup_keeps.1.trans (h.idle hw)
    obtain ⟨u, hu, hblocked⟩ := blocked_of_published (s := { s with
      loop := { l.writeWakeup with waking := Function.update l.waking none .no }
      owner := .joining }) hpub rfl hpc (EventLoop.awaited_writeWakeup l)
    exact hblocked (hall u ((Reach.refl.snoc hwake).trans hu))
  · intro hw u hu
    have hstep : ∀ s (a : Act τ ι) t, Stopping s → Step s a t → Stopping t := by
      intro s a t hs hst
      cases hst with
      | mk hexec => exact stopping_step hs hexec
    exact (hu.inv hstep (stopping_quit h hw hst)).kept

/-! ## runs -/

/-- `quit` has not been called -/
def Untouched (s : EventLoopThread τ ι) : Prop := s.owner = .starting ∨ s.owner = .running

theorem untouched_step {s t : EventLoopThread τ ι} {a : Act τ ι} (h : s.Untouched)
    (hst : s.exec a = some t) : a = .quit ∨ t.Untouched := by
  cases a with
  | quit => exact .inl rfl
  | create | publish | leave =>
    simp only [exec, Option.ite_none_right_eq_some, Option.some.injEq] at hst
    obtain ⟨-, rfl⟩ := hst
    exact .inr h
  | enter | loop =>
    simp only [exec, Option.ite_none_right_eq_some, Option.map_eq_some_iff] at hst
    obtain ⟨-, l, -, rfl⟩ := hst
    exact .inr h
  | startloop =>
    simp only [exec, Option.ite_none_right_eq_some, Option.some.injEq] at hst
    obtain ⟨-, rfl⟩ := hst
    exact .inr (.inr rfl)
  | wakeup =>
    simp only [exec, Option.ite_none_right_eq_some] at hst
    unfold Untouched at h
    rw [hst.1] at h
    rcases h with he | he <;> cases he
  | join =>
    simp only [exec, Option.ite_none_right_eq_some] at hst
    unfold Untouched at h
    rw [hst.1.1] at h
    rcases h with he | he <;> cases he

omit [DecidableEq ι] in
theorem Inv.kept_of_untouched {s : EventLoopThread τ ι} (h : s.Inv) (hs : s.Untouched) :
    s.Kept := by
  have hnot : s.quitReturned = false := by
    rcases hs with he | he <;> rw [quitReturned, he] <;> rfl
  refine ⟨by rw [h.quiet hnot]; exact Nat.zero_le 1, ?_⟩
  rintro ⟨hret, -⟩
  rw [hnot] at hret
  cases hret

/-- **`quit` is not lost** in the runs that call it inside `loop ()`; and a call before is lost in
some continuation. -/
theorem quit_iff {tr : List (Tr (EventLoopThread τ ι) (Act τ ι))} (h : Path Step {} tr) :
    ((∀ e ∈ tr, e.act = .quit → e.pre.worker = .inLoop) → ∀ e ∈ tr, e.post.Kept) ∧
      ∀ e ∈ tr, e.act = .quit →
        ((∀ u, Reach Step e.post u → u.Kept) ↔ e.pre.worker = .inLoop) := by
  constructor
  · intro hG e he
    have hstep : ∀ s (a : Act τ ι) t, (Inv s ∧ (Untouched s ∨ Stopping s)) → Step s a t →
        (a = .quit → s.worker = .inLoop) → (Inv t ∧ (Untouched t ∨ Stopping t)) ∧ t.Kept := by
      intro s a t ⟨hs, hor⟩ hst hg
      cases hst with
      | mk hexec =>
        have ht := inv_step hs hexec
        rcases hor with hun | hstop
        · rcases untouched_step hun hexec with rfl | hun'
          · have hstop := stopping_quit hs (hg rfl) hexec
            exact ⟨⟨ht, .inr hstop⟩, hstop.kept⟩
          · exact ⟨⟨ht, .inl hun'⟩, ht.kept_of_untouched hun'⟩
        · have hstop := stopping_step hstop hexec
          exact ⟨⟨ht, .inr hstop⟩, hstop.kept⟩
    exact (h.guarded (G := fun s a => a = .quit → s.worker = .inLoop)
      (P := fun e => e.post.Kept) hstep ⟨inv_new, .inl (.inl rfl)⟩ hG e he).2.2
  · intro e he hact
    have hstep : ∀ s (a : Act τ ι) t, Inv s → Step s a t → Inv t ∧ (a = .quit →
        ((∀ u, Reach Step t u → u.Kept) ↔ s.worker = .inLoop)) := by
      intro s a t hs hst
      cases hst with
      | mk hexec =>
        refine ⟨inv_step hs hexec, ?_⟩
        rintro rfl
        exact quit_kept_iff hs hexec
    exact (h.inv (P := fun e => e.act = .quit →
      ((∀ u, Reach Step e.post u → u.Kept) ↔ e.pre.worker = .inLoop)) hstep inv_new e he).2.2 hact

/-- the worker is in `loop ()` when `quit` is called -/
theorem quit_running : ∃ tr : List (Tr (EventLoopThread Unit Unit) (Act Unit Unit)),
    Path Step {} tr ∧ tr.map Tr.act = [.create, .publish, .startloop, .enter, .quit, .wakeup] ∧
      ∀ e ∈ tr, e.post.Kept := by
  have hpath := Path.cons (Step.mk (s := ({} : EventLoopThread Unit Unit)) (a := .create) rfl) <|
    .cons (.mk (a := .publish) rfl) <| .cons (.mk (a := .startloop) rfl) <|
    .cons (.mk (a := .enter) rfl) <| .cons (.mk (a := .quit) rfl) <|
    .cons (.mk (a := .wakeup) rfl) <| .nil _
  refine ⟨_, hpath, rfl, (quit_iff hpath).1 ?_⟩
  intro e he hact
  simp only [List.mem_cons, List.not_mem_nil, or_false] at he
  -- only the fifth step is the call
  rcases he with rfl | rfl | rfl | rfl | rfl | rfl
  · cases hact
  · cases hact
  · cases hact
  · cases hact
  · rfl
  · cases hact

/-- `quit` between the publication and `loop ()`: its wakeup ends the first iteration, and the
second blocks -/
theorem quit_too_early : ∃ tr : List (Tr (EventLoopThread Unit Unit) (Act Unit Unit)),
    Path Step {} tr ∧
      tr.map Tr.act = [.create, .publish, .startloop, .quit, .wakeup, .enter, .loop .testLooping,
        .loop (.pollReturn true), .loop .handleEvents, .loop .handleTimeEvent,
        .loop .swapFunctions, .loop .runFunction, .loop .testLooping] ∧
      ¬ (last {} tr).Kept := by
  have hpath := Path.cons (Step.mk (s := ({} : EventLoopThread Unit Unit)) (a := .create) rfl) <|
    .cons (.mk (a := .publish) rfl) <| .cons (.mk (a := .startloop) rfl) <|
    .cons (.mk (a := .quit) rfl) <| .cons (.mk (a := .wakeup) rfl) <|
    .cons (.mk (a := .enter) rfl) <| .cons (.mk (a := .loop .testLooping) rfl) <|
    .cons (.mk (a := .loop (.pollReturn true)) rfl) <|
    .cons (.mk (a := .loop .handleEvents) rfl) <| .cons (.mk (a := .loop .handleTimeEvent) rfl) <|
    .cons (.mk (a := .loop .swapFunctions) rfl) <| .cons (.mk (a := .loop .runFunction) rfl) <|
    .cons (.mk (a := .loop .testLooping) rfl) <| .nil _
  exact ⟨_, hpath, rfl, fun hkept => hkept.2 ⟨rfl, rfl, rfl, rfl⟩⟩

end EventLoopThread

end Feipu
