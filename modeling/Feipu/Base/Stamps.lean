import Feipu.Base.Timers
import Feipu.Lib.Refine

/-!
# Time in an `int64_t` (base/include/Timestamp.h, TimerQueue.h, base/src/Eventloop.cpp)

A `TimeStamp` counts microseconds in an `int64_t`.  `addTime` casts the microseconds of a `double` to
one and adds it, `timeDifference` subtracts two; out of the range of the type the result of the cast,
the sum and the difference is undefined.  Here each of them is checked, and what is asked of the loop
comes as the calls of `RunEvery`, `RunAfter` and `RunAt`.

* `execIn_spec`        a step goes through exactly where its numbers are in range, and then is the
                       step over the integers;
* `timers_exact_iff`   in a run of such steps, and of no others, the timers fire when they are due.
-/

namespace Feipu
open Trace Refine

/-- the values of an `int64_t` -/
def InInt64 (x : Int) : Prop := -2 ^ 63 ≤ x ∧ x < 2 ^ 63

instance (x : Int) : Decidable (InInt64 x) := inferInstanceAs (Decidable (_ ∧ _))

/-- a `TimeStamp` that the code holds -/
structure Stamp where
  microSeconds : TimeStamp
  inRange : InInt64 microSeconds

/-- the cast and the sum of `addTime` are in range -/
def AddFits (t : TimeStamp) (interval : Interval) : Prop :=
  InInt64 interval.micros ∧ InInt64 (addTime t interval)

instance (t : TimeStamp) (interval : Interval) : Decidable (AddFits t interval) :=
  inferInstanceAs (Decidable (_ ∧ _))

/-- `addTime`, with its checks -/
def addTimeIn (t : TimeStamp) (interval : Interval) : Option TimeStamp :=
  if AddFits t interval then some (addTime t interval) else none

/-- `timeDifference`, with its check -/
def timeDifferenceIn (high low : TimeStamp) : Option Int :=
  if InInt64 (high - low) then some (high - low) else none

theorem timeDifference_eq {high low : TimeStamp} (h : InInt64 (high - low)) :
    timeDifference high low = high - low := by
  unfold timeDifference
  obtain ⟨hlow, hhigh⟩ := h
  exact Int.bmod_eq_of_le (by omega) (by omega)

theorem addTimeIn_spec (t : TimeStamp) (interval : Interval) :
    Checked (AddFits t interval) (addTimeIn t interval) (some (addTime t interval)) :=
  ⟨fun h => if_pos h, fun h => if_neg h⟩

/-! ## the calls -/

/-- a call of `RunEvery`, `RunAfter` or `RunAt`: the reading of the clock, the address `new Timer`
returns, and the arguments -/
inductive RunCall (τ : Type) where
  | runEvery (now : Stamp) (address : Nat) (interval : Interval) (cb : τ)
  | runAfter (now : Stamp) (address : Nat) (delay : Interval) (cb : τ)
  | runAt (address : Nat) (when' : Stamp) (cb : τ)

namespace RunCall
variable {τ : Type}

/-- the call of `addTimer`, over the integers -/
def newTimer : RunCall τ → NewTimer τ
  | .runEvery now address interval cb =>
    TimerQueue.runEvery now.microSeconds address interval cb
  | .runAfter now address delay cb => TimerQueue.runAfter now.microSeconds address delay cb
  | .runAt address when' cb => TimerQueue.runAt address when'.microSeconds cb

def newTimerIn : RunCall τ → Option (NewTimer τ)
  | .runEvery now address interval cb =>
    (addTimeIn now.microSeconds interval).map fun startTime => ⟨address, cb, startTime, interval⟩
  | .runAfter now address delay cb =>
    (addTimeIn now.microSeconds delay).map fun startTime =>
      ⟨address, cb, startTime, TimerQueue.noInterval⟩
  | .runAt address when' cb => some ⟨address, cb, when'.microSeconds, TimerQueue.noInterval⟩

/-- the start is in range -/
def Fits : RunCall τ → Prop
  | .runEvery now _ interval _ | .runAfter now _ interval _ => AddFits now.microSeconds interval
  | .runAt .. => True

theorem newTimerIn_spec (c : RunCall τ) : Checked c.Fits c.newTimerIn (some c.newTimer) := by
  cases c with
  | runEvery now address interval cb =>
    exact ⟨fun h => congrArg (Option.map _) ((addTimeIn_spec _ _).1 h),
      fun h => congrArg (Option.map _) ((addTimeIn_spec _ _).2 h)⟩
  | runAfter now address delay cb =>
    exact ⟨fun h => congrArg (Option.map _) ((addTimeIn_spec _ _).1 h),
      fun h => congrArg (Option.map _) ((addTimeIn_spec _ _).2 h)⟩
  | runAt address when' cb => exact .refl _

end RunCall

/-- what happens to the timers of a loop, as it is asked for -/
inductive LoopCall (τ : Type) where
  | getNextTimerTimerOut (now : Stamp)
  | addTimer (c : RunCall τ)
  | postTimer (c : RunCall τ)
  | addTimerInLoop
  | handleTimeEvent (calls : Nat → List (RunCall τ))

/-- the same over the integers -/
def LoopCall.act {τ : Type} : LoopCall τ → TimerAct τ
  | .getNextTimerTimerOut now => .getNextTimerTimerOut now.microSeconds
  | .addTimer c => .addTimer c.newTimer
  | .postTimer c => .postTimer c.newTimer
  | .addTimerInLoop => .addTimerInLoop
  | .handleTimeEvent calls => .handleTimeEvent fun k => (calls k).map RunCall.newTimer

/-! ## the steps with their checks -/

namespace TimerQueue
variable {τ : Type}

def getNextTimerTimerOutIn (q : TimerQueue τ) (nowStamp : TimeStamp) :
    Option (Int × TimerQueue τ) :=
  let q := { q with nowChache := nowStamp }
  match q.timers.elems.head? with
  | none => some (-1, q)
  | some e => (timeDifferenceIn (ofLex e).1 nowStamp).map fun timeout =>
    if timeout ≤ 0 then (0, q) else (timeout, q)

/-- `RunEvery`, `RunAfter` or `RunAt` on the loop thread -/
def runIn (q : TimerQueue τ) (c : RunCall τ) : Option (TimerQueue τ) := do
  let a ← c.newTimerIn
  q.addTimer a

/-- the first loop of `handleTimeEvent` -/
def runTimersIn (calls : Nat → List (RunCall τ)) :
    Nat → List Nat → TimerQueue τ → Option (TimerQueue τ)
  | _, [], q => some q
  | k, item :: rest, q => do
    let t ← q.memory item
    let q ← (calls k).foldlM runIn { q with ran := q.ran ++ [t] }
    runTimersIn calls (k + 1) rest q

/-- what the second loop does with one timer -/
def putBackIn (q : TimerQueue τ) (item : Nat) (t : Timer τ) : Option (TimerQueue τ) :=
  if t.isRepeat then do
    let expiration ← addTimeIn q.nowChache t.interval
    { q with memory := Function.update q.memory item (some { t with expiration }) }.insert item
  else some { q with memory := Function.update q.memory item none }

def resetTimersIn : List Nat → TimerQueue τ → Option (TimerQueue τ)
  | [], q => some q
  | item :: rest, q => do
    let t ← q.memory item
    let q ← q.putBackIn item t
    resetTimersIn rest q

def handleTimeEventIn (q : TimerQueue τ) (calls : Nat → List (RunCall τ)) :
    Option (TimerQueue τ) := do
  let (expired, q) := q.getExpired
  let q ← runTimersIn calls 0 expired q
  resetTimersIn expired q

def execIn (q : TimerQueue τ) : LoopCall τ → Option (TimerQueue τ)
  | .getNextTimerTimerOut now => (q.getNextTimerTimerOutIn now.microSeconds).map Prod.snd
  | .addTimer c => q.runIn c
  | .postTimer c => c.newTimerIn.map q.postTimer
  | .addTimerInLoop => q.addTimerInLoop
  | .handleTimeEvent calls => q.handleTimeEventIn calls

inductive StepIn : TimerQueue τ → LoopCall τ → TimerQueue τ → Prop where
  | mk {q r : TimerQueue τ} {a : LoopCall τ} : q.execIn a = some r → StepIn q a r

/-- the numbers of the step are in range -/
def Fits (q : TimerQueue τ) : LoopCall τ → Prop
  | .getNextTimerTimerOut now => ∀ e, q.timers.elems.head? = some e →
      InInt64 ((ofLex e).1 - now.microSeconds)
  | .addTimer c | .postTimer c => c.Fits
  | .addTimerInLoop => True
  | .handleTimeEvent calls => (∀ c ∈ asked calls 0 q.due.length, c.Fits) ∧
      ∀ t ∈ q.due, t.isRepeat = true → AddFits q.nowChache t.interval

theorem getNextTimerTimerOutIn_spec (q : TimerQueue τ) (now : Stamp) :
    Checked (q.Fits (.getNextTimerTimerOut now)) (q.getNextTimerTimerOutIn now.microSeconds)
      (some (q.getNextTimerTimerOut now.microSeconds)) := by
  unfold Fits getNextTimerTimerOutIn getNextTimerTimerOut
  dsimp only
  cases q.timers.elems.head? with
  | none => exact (Checked.refl _).imp ⟨fun _ e he => (by cases he), fun _ => trivial⟩
  | some e =>
    constructor
    · intro h
      have hfits := h e rfl
      dsimp only
      rw [timeDifference_eq hfits]
      exact congrArg (Option.map _) (if_pos hfits)
    · intro h
      have hnot : ¬ InInt64 ((ofLex e).1 - now.microSeconds) := fun hfits =>
        h fun e' he' => Option.some.inj he' ▸ hfits
      exact congrArg (Option.map _) (if_neg hnot)

theorem runIn_spec (q : TimerQueue τ) (c : RunCall τ) :
    Checked c.Fits (q.runIn c) (q.addTimer c.newTimer) := c.newTimerIn_spec.bind q.addTimer

theorem foldlM_runIn_spec (q : TimerQueue τ) (cs : List (RunCall τ)) :
    Checked (∀ c ∈ cs, c.Fits) (cs.foldlM runIn q)
      ((cs.map RunCall.newTimer).foldlM addTimer q) := by
  induction cs generalizing q with
  | nil => exact (Checked.refl _).imp ⟨fun _ c hc => absurd hc List.not_mem_nil, fun _ => trivial⟩
  | cons c cs ih =>
    rw [List.map_cons, List.foldlM_cons, List.foldlM_cons]
    exact ((q.runIn_spec c).andThen fun q' _ => ih q').imp List.forall_mem_cons.symm

theorem runTimersIn_spec (calls : Nat → List (RunCall τ)) (k : Nat) (expired : List Nat)
    (q : TimerQueue τ) :
    Checked (∀ c ∈ asked calls k expired.length, c.Fits) (runTimersIn calls k expired q)
      (runTimers (fun k => (calls k).map RunCall.newTimer) k expired q) := by
  induction expired generalizing q k with
  | nil => exact (Checked.refl _).imp ⟨fun _ c hc => absurd hc List.not_mem_nil, fun _ => trivial⟩
  | cons item rest ih =>
    rw [runTimersIn, runTimers]
    cases q.memory item with
    | none => exact ⟨fun _ => rfl, fun _ => rfl⟩
    | some t =>
      have hboth := (foldlM_runIn_spec { q with ran := q.ran ++ [t] } (calls k)).andThen
        fun q' _ => ih (k + 1) q'
      refine hboth.imp ?_
      rw [List.length_cons, asked]
      exact List.forall_mem_append.symm

theorem putBackIn_spec (q : TimerQueue τ) (item : Nat) (t : Timer τ) :
    Checked (t.isRepeat = true → AddFits q.nowChache t.interval) (q.putBackIn item t)
      (q.putBack item t) := by
  unfold putBackIn putBack
  by_cases hrep : t.isRepeat = true
  · rw [if_pos hrep, if_pos hrep]
    exact ((addTimeIn_spec q.nowChache t.interval).bind _).given hrep
  · rw [if_neg hrep, if_neg hrep]
    exact .vacuous hrep _

theorem resetTimersIn_spec {out expired : List Nat} {q : TimerQueue τ} {runs : List (Timer τ)}
    (h : Sound (expired ++ out) q) (hruns : expired.map q.memory = runs.map some) :
    Checked (∀ t ∈ runs, t.isRepeat = true → AddFits q.nowChache t.interval)
      (resetTimersIn expired q) (resetTimers expired q) := by
  induction expired generalizing q runs with
  | nil =>
    obtain rfl := List.map_eq_nil_iff.mp hruns.symm
    exact (Checked.refl _).imp ⟨fun _ t ht => absurd ht List.not_mem_nil, fun _ => trivial⟩
  | cons item rest ih =>
    obtain ⟨u, runs, rfl, hu, hrest⟩ := List.map_eq_cons_iff.mp hruns.symm
    have hitem : item ∉ rest ++ out := (List.nodup_cons.mp h.nodup).1
    obtain ⟨q₁, hq₁, hput⟩ := putBack_spec h hu.symm
    have hmem : rest.map q₁.memory = runs.map some := by
      rw [hrest]
      refine List.map_congr_left fun p hp => hput.others p fun hmem => hitem ?_
      exact List.mem_singleton.mp hmem ▸ List.mem_append_left _ hp
    rw [resetTimers_cons hu.symm, resetTimersIn, ← hu]
    refine ((putBackIn_spec q item u).andThen fun q' hq' => ?_).imp List.forall_mem_cons.symm
    obtain rfl := Option.some.inj (hq₁.symm.trans hq')
    have hnext := ih hput.sound hmem
    rw [hput.nowChache] at hnext
    exact hnext

theorem handleTimeEventIn_spec {q : TimerQueue τ} (h : q.Consistent)
    (calls : Nat → List (RunCall τ)) :
    Checked (q.Fits (.handleTimeEvent calls)) (q.handleTimeEventIn calls)
      (q.handleTimeEvent fun k => (calls k).map RunCall.newTimer) := by
  obtain ⟨h1, hruns, -⟩ := getExpired_spec h
  have hlen : q.getExpired.1.length = q.due.length := by
    have hlen := congrArg List.length hruns
    rw [List.length_map, List.length_map] at hlen
    exact hlen
  have hfirst := runTimersIn_spec calls 0 q.getExpired.1 q.getExpired.2
  rw [hlen] at hfirst
  refine hfirst.andThen fun q2 hq2 => ?_
  obtain ⟨q2', hq2', h2⟩ := adds_runTimers (fun k => (calls k).map RunCall.newTimer) 0 h1
    (fun p hp => List.mem_append_left _ hp) hruns
  obtain rfl := Option.some.inj (hq2.symm.trans hq2')
  have hruns2 : q.getExpired.1.map q2.memory = q.due.map some := by
    rw [← hruns]
    exact List.map_congr_left fun p hp => h2.memory p (List.mem_append_left _ hp)
  have hsecond := resetTimersIn_spec h2.sound hruns2
  rw [h2.now] at hsecond
  exact hsecond

/-- **One step** goes through exactly where its numbers are in range, and then is the step over the
integers. -/
theorem execIn_spec {q : TimerQueue τ} (h : q.Consistent) (a : LoopCall τ) :
    Checked (q.Fits a) (q.execIn a) (q.exec a.act) := by
  cases a with
  | getNextTimerTimerOut now =>
    obtain ⟨hin, hout⟩ := q.getNextTimerTimerOutIn_spec now
    exact ⟨fun hf => congrArg (Option.map Prod.snd) (hin hf),
      fun hf => congrArg (Option.map Prod.snd) (hout hf)⟩
  | addTimer c => exact q.runIn_spec c
  | postTimer c =>
    obtain ⟨hin, hout⟩ := c.newTimerIn_spec
    exact ⟨fun hf => congrArg (Option.map q.postTimer) (hin hf),
      fun hf => congrArg (Option.map q.postTimer) (hout hf)⟩
  | addTimerInLoop => exact .refl _
  | handleTimeEvent calls => exact handleTimeEventIn_spec h calls

/-! ## runs -/

/-- the numbers of each step are in range, the steps before it being made -/
def FitsAll (q : TimerQueue τ) : List (LoopCall τ) → Prop
  | [] => True
  | a :: acts => q.Fits a ∧ ∀ q', q.exec a.act = some q' → q'.FitsAll acts

theorem StepIn.step {q q' : TimerQueue τ} {a : LoopCall τ} (hst : StepIn q a q')
    (h : q.Consistent) : q.Fits a ∧ Step q a.act q' := by
  obtain ⟨hexec⟩ := hst
  obtain ⟨hin, hout⟩ := execIn_spec h a
  by_cases hf : q.Fits a
  · rw [hin hf] at hexec
    exact ⟨hf, .mk hexec⟩
  · rw [hout hf] at hexec
    cases hexec

/-- the run is made exactly where all of its numbers are in range -/
theorem exists_path_iff {q : TimerQueue τ} (h : q.Consistent) (acts : List (LoopCall τ)) :
    (∃ tr, Path StepIn q tr ∧ tr.map Tr.act = acts) ↔ q.FitsAll acts := by
  induction acts generalizing q with
  | nil => exact ⟨fun _ => trivial, fun _ => ⟨[], .nil q, rfl⟩⟩
  | cons a acts ih =>
    constructor
    · rintro ⟨tr, hpath, hacts⟩
      cases hpath with
      | nil => cases hacts
      | @cons _ b t tr hst hpath =>
        obtain ⟨rfl, hrest⟩ := List.cons.inj hacts
        obtain ⟨hf, hstep⟩ := hst.step h
        refine ⟨hf, fun q' hq' => ?_⟩
        obtain ⟨hexec⟩ := hstep
        obtain rfl := Option.some.inj (hexec.symm.trans hq')
        exact (ih ((Step.mk hexec).spec h).1).mp ⟨tr, hpath, hrest⟩
    · rintro ⟨hf, hrest⟩
      obtain ⟨q', hq', hs, -⟩ := exec_spec h a.act
      obtain ⟨tr, hpath, hacts⟩ := (ih hs).mpr (hrest q' hq')
      refine ⟨⟨q, a, q'⟩ :: tr, .cons (.mk ?_) hpath, by rw [List.map_cons, hacts]⟩
      rw [(execIn_spec h a).1 hf, hq']

/-- the run over the integers -/
theorem path_of_in {q : TimerQueue τ} (h : q.Consistent) {tr : List (Tr (TimerQueue τ) (LoopCall τ))}
    (hp : Path StepIn q tr) : Path Step q (tr.map (Tr.relabel LoopCall.act)) := by
  have hstep : ∀ (q : TimerQueue τ) (a : LoopCall τ) (q' : TimerQueue τ), q.Consistent →
      StepIn q a q' → Step q a.act q' ∧ q'.Consistent := by
    intro q a q' h hst
    obtain ⟨-, hstep⟩ := hst.step h
    exact ⟨hstep, (hstep.spec h).1⟩
  exact hp.relabel hstep h

/-- **Timers fire when they are due** exactly where all times are in range.  Whatever is asked of the
loop: a timer that is added is the one asked for, in every iteration the timers of the set that are
due are run, in order and once each, the set is left with the others, the new ones and the repeating
ones, and a one-shot timer that has run is never run again. -/
theorem timers_exact_iff (acts : List (LoopCall τ)) :
    (∃ tr, Path StepIn {} tr ∧ tr.map Tr.act = acts ∧ (∀ e ∈ tr, e.pre.Meets e.act.act e.post) ∧
      ∀ l e r, tr = l ++ e :: r → ∀ runs, e.post.ran = e.pre.ran ++ runs →
        ∀ u ∈ runs, u.isRepeat = false → ∀ e' ∈ r, ∃ again,
          e'.post.ran = e'.pre.ran ++ again ∧ ∀ t ∈ again, t.serial ≠ u.serial) ↔
      ({} : TimerQueue τ).FitsAll acts := by
  rw [← exists_path_iff consistent_empty]
  constructor
  · rintro ⟨tr, hp, hacts, -⟩
    exact ⟨tr, hp, hacts⟩
  · rintro ⟨tr, hp, hacts⟩
    have hints := path_of_in consistent_empty hp
    refine ⟨tr, hp, hacts, fun e he => meets_run hints _ (List.mem_map_of_mem he), ?_⟩
    intro l e r htr runs hran u hu hrep e' he'
    have hsplit : tr.map (Tr.relabel LoopCall.act) = l.map (Tr.relabel LoopCall.act) ++
        e.relabel LoopCall.act :: r.map (Tr.relabel LoopCall.act) := by
      rw [htr, List.map_append, List.map_cons]
    exact once_run hints hsplit hran hu hrep _ (List.mem_map_of_mem he')

/-- 10 000 000 000 000 seconds -/
def aeon : Interval := ⟨10 ^ 19, true, fun _ => by decide⟩

/-- `RunEvery(1e13, cb)` -/
theorem timers_exact_aeon : ¬ ∃ tr, Path StepIn ({} : TimerQueue Unit) tr ∧
    tr.map Tr.act = [.addTimer (.runEvery ⟨0, by decide⟩ 4096 aeon ())] := by
  rintro ⟨tr, hp, hacts⟩
  cases hp with
  | nil => cases hacts
  | @cons _ b t tr hst hpath =>
    obtain ⟨rfl, -⟩ := List.cons.inj hacts
    obtain ⟨⟨-, hlt⟩, -⟩ := (hst.step consistent_empty).1
    revert hlt
    decide

end TimerQueue

end Feipu
