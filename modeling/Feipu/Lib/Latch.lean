import Mathlib.Data.Nat.Basic

/-!
# A latch: a mutex, a condition variable and a flag

One thread waits, under the mutex, until another has set the flag:

    lock; while (! ready) wait; unlock            lock; ready = true; notify; unlock

A `wait` gives up the mutex and falls asleep in one step, and has to get the mutex back before it
returns.  It can return without a `notify` (`spurious`).

* `Sound`           the mutex is held where the code says so, and the waiter is not asleep once the
                    notifier is past its `notify`;
* `Sound.enabled`   until the waiter has passed, one of the two can go on;
* `work_exec`       every step but a spurious one brings the waiter nearer.
-/

/-- where the waiting thread is -/
inductive Latch.Waiter where
  | lock
  /-- at the test, with the mutex -/
  | test
  | asleep
  /-- to get the mutex back -/
  | woken
  | unlock
  | passed
deriving DecidableEq

/-- where the other one is -/
inductive Latch.Notifier where
  | lock
  | set
  | notify
  | unlock
  | done
deriving DecidableEq

structure Latch where
  waiter : Latch.Waiter := .lock
  notifier : Latch.Notifier := .lock
  /-- is the mutex taken? -/
  locked : Bool := false
  ready : Bool := false
deriving DecidableEq

namespace Latch

inductive Act where
  | waiter
  | notifier
  | spurious
deriving DecidableEq

/-- the next step of a thread, where it can make one -/
def exec (s : Latch) : Act → Option Latch
  | .waiter =>
    match s.waiter with
    | .lock | .woken => if s.locked then none else some { s with waiter := .test, locked := true }
    | .test =>
      if s.ready then some { s with waiter := .unlock }
      else some { s with waiter := .asleep, locked := false }
    | .asleep => none
    | .unlock => some { s with waiter := .passed, locked := false }
    | .passed => none
  | .notifier =>
    match s.notifier with
    | .lock => if s.locked then none else some { s with notifier := .set, locked := true }
    | .set => some { s with notifier := .notify, ready := true }
    | .notify =>
      some { s with
        notifier := .unlock
        waiter := if s.waiter = .asleep then .woken else s.waiter }
    | .unlock => some { s with notifier := .done, locked := false }
    | .done => none
  | .spurious => if s.waiter = .asleep then some { s with waiter := .woken } else none

/-- what the waiter does -/
inductive WaiterStep (s : Latch) : Latch → Prop where
  | lock : s.waiter = .lock ∨ s.waiter = .woken → s.locked ≠ true →
      WaiterStep s { s with waiter := .test, locked := true }
  | seen : s.waiter = .test → s.ready = true → WaiterStep s { s with waiter := .unlock }
  | sleep : s.waiter = .test → s.ready ≠ true →
      WaiterStep s { s with waiter := .asleep, locked := false }
  | unlock : s.waiter = .unlock → WaiterStep s { s with waiter := .passed, locked := false }

/-- what the notifier does -/
inductive NotifierStep (s : Latch) : Latch → Prop where
  | lock : s.notifier = .lock → s.locked ≠ true →
      NotifierStep s { s with notifier := .set, locked := true }
  | set : s.notifier = .set → NotifierStep s { s with notifier := .notify, ready := true }
  | notify : s.notifier = .notify → NotifierStep s { s with
      notifier := .unlock
      waiter := if s.waiter = .asleep then .woken else s.waiter }
  | unlock : s.notifier = .unlock → NotifierStep s { s with notifier := .done, locked := false }

theorem waiter_step {s t : Latch} (hst : s.exec .waiter = some t) : s.WaiterStep t := by
  cases hw : s.waiter with
  | lock =>
    simp only [exec, hw, Option.ite_none_left_eq_some, Option.some.injEq] at hst
    obtain ⟨hl, rfl⟩ := hst
    exact .lock (.inl hw) hl
  | woken =>
    simp only [exec, hw, Option.ite_none_left_eq_some, Option.some.injEq] at hst
    obtain ⟨hl, rfl⟩ := hst
    exact .lock (.inr hw) hl
  | test =>
    simp only [exec, hw] at hst
    by_cases hr : s.ready = true
    · rw [if_pos hr] at hst
      obtain rfl := Option.some.inj hst
      exact .seen hw hr
    · rw [if_neg hr] at hst
      obtain rfl := Option.some.inj hst
      exact .sleep hw hr
  | asleep | passed =>
    simp only [exec, hw] at hst
    cases hst
  | unlock =>
    simp only [exec, hw] at hst
    obtain rfl := Option.some.inj hst
    exact .unlock hw

theorem notifier_step {s t : Latch} (hst : s.exec .notifier = some t) : s.NotifierStep t := by
  cases hn : s.notifier with
  | lock =>
    simp only [exec, hn, Option.ite_none_left_eq_some, Option.some.injEq] at hst
    obtain ⟨hl, rfl⟩ := hst
    exact .lock hn hl
  | set =>
    simp only [exec, hn] at hst
    obtain rfl := Option.some.inj hst
    exact .set hn
  | notify =>
    simp only [exec, hn] at hst
    obtain rfl := Option.some.inj hst
    exact .notify hn
  | unlock =>
    simp only [exec, hn] at hst
    obtain rfl := Option.some.inj hst
    exact .unlock hn
  | done =>
    simp only [exec, hn] at hst
    cases hst

/-- the waiter has the mutex -/
def Waiter.holds : Waiter → Bool
  | .test | .unlock => true
  | _ => false

/-- the notifier has it -/
def Notifier.holds : Notifier → Bool
  | .set | .notify | .unlock => true
  | _ => false

/-- past the assignment -/
def Notifier.isSet : Notifier → Bool
  | .notify | .unlock | .done => true
  | _ => false

structure Sound (s : Latch) : Prop where
  locked : s.locked = (s.waiter.holds || s.notifier.holds)
  apart : ¬ (s.waiter.holds = true ∧ s.notifier.holds = true)
  ready : s.ready = s.notifier.isSet
  passed : s.waiter = .unlock ∨ s.waiter = .passed → s.ready = true
  awake : s.waiter = .asleep → s.notifier ≠ .unlock ∧ s.notifier ≠ .done

theorem sound_new : ({} : Latch).Sound := by
  refine ⟨rfl, by decide, rfl, ?_, fun h => (by cases h)⟩
  rintro (h | h) <;> cases h

/-- the thread that takes the free mutex is the only one that holds it -/
theorem Sound.free {s : Latch} (h : s.Sound) (hl : s.locked ≠ true) :
    s.waiter.holds = false ∧ s.notifier.holds = false := by
  have hlocked := h.locked
  rw [Bool.eq_false_iff.mpr hl, eq_comm, Bool.or_eq_false_iff] at hlocked
  exact hlocked

/-- while the waiter has the mutex, the notifier does not -/
theorem Sound.notifier_out {s : Latch} (h : s.Sound) (hw : s.waiter.holds = true) :
    s.notifier.holds = false := by
  rw [← Bool.not_eq_true]
  exact fun hn => h.apart ⟨hw, hn⟩

theorem Sound.waiter_out {s : Latch} (h : s.Sound) (hn : s.notifier.holds = true) :
    s.waiter.holds = false := by
  rw [← Bool.not_eq_true]
  exact fun hw => h.apart ⟨hw, hn⟩

theorem sound_waiter {s t : Latch} (h : s.Sound) (hst : s.exec .waiter = some t) : t.Sound := by
  cases waiter_step hst with
  | lock _ hl =>
    obtain ⟨-, hn⟩ := h.free hl
    refine ⟨rfl, fun hboth => ?_, h.ready, ?_, fun hw => (by cases hw)⟩
    · rw [hn] at hboth
      cases hboth.2
    · rintro (hw | hw) <;> cases hw
  | seen hw hr =>
    have hn : s.notifier.holds = false := h.notifier_out (by rw [hw]; rfl)
    refine ⟨?_, fun hboth => ?_, h.ready, fun _ => hr, fun hw => (by cases hw)⟩
    · rw [h.locked, hw]
      rfl
    · rw [hn] at hboth
      cases hboth.2
  | sleep hw hr =>
    have hn : s.notifier.holds = false := h.notifier_out (by rw [hw]; rfl)
    refine ⟨hn.symm, fun hboth => (by cases hboth.1), h.ready, ?_,
      fun _ => ⟨fun he => ?_, fun he => ?_⟩⟩
    · rintro (hw | hw) <;> cases hw
    · rw [h.ready, he] at hr
      exact hr rfl
    · rw [h.ready, he] at hr
      exact hr rfl
  | unlock hw =>
    have hn : s.notifier.holds = false := h.notifier_out (by rw [hw]; rfl)
    exact ⟨hn.symm, fun hboth => (by cases hboth.1), h.ready, fun _ => h.passed (.inl hw),
      fun hw => (by cases hw)⟩

theorem sound_notifier {s t : Latch} (h : s.Sound) (hst : s.exec .notifier = some t) : t.Sound := by
  have hready := h.ready
  cases notifier_step hst with
  | lock hn hl =>
    obtain ⟨hw, -⟩ := h.free hl
    refine ⟨(Bool.or_true _).symm, fun hboth => ?_, ?_, h.passed,
      fun _ => ⟨fun he => (by cases he), fun he => (by cases he)⟩⟩
    · rw [hw] at hboth
      cases hboth.1
    · rw [hready, hn]
      rfl
  | set hn =>
    have hw : s.waiter.holds = false := h.waiter_out (by rw [hn]; rfl)
    refine ⟨?_, fun hboth => ?_, rfl, fun _ => rfl,
      fun _ => ⟨fun he => (by cases he), fun he => (by cases he)⟩⟩
    · rw [h.locked, hn]
      rfl
    · rw [hw] at hboth
      cases hboth.1
  | notify hn =>
    have hw : s.waiter.holds = false := h.waiter_out (by rw [hn]; rfl)
    have hr : s.ready = true := by
      rw [hready, hn]
      rfl
    have hwoken : (if s.waiter = .asleep then Waiter.woken else s.waiter).holds = false := by
      split
      · rfl
      · exact hw
    refine ⟨?_, fun hboth => ?_, hr, fun _ => hr, fun hasleep => ?_⟩
    · rw [h.locked, hn]
      show (_ || true) = (_ || true)
      rw [Bool.or_true, Bool.or_true]
    · rw [hwoken] at hboth
      cases hboth.1
    · -- nobody sleeps past the `notify`
      have hasleep : (if s.waiter = .asleep then Waiter.woken else s.waiter) = .asleep := hasleep
      split at hasleep
      · cases hasleep
      · contradiction
  | unlock hn =>
    have hw : s.waiter.holds = false := h.waiter_out (by rw [hn]; rfl)
    refine ⟨?_, fun hboth => (by cases hboth.2), ?_, h.passed, fun hasleep => ?_⟩
    · rw [hw]
      rfl
    · rw [hready, hn]
      rfl
    · exact absurd hn (h.awake hasleep).1

/-- **One step** of either thread -/
theorem sound_exec {s t : Latch} (h : s.Sound) {a : Act} (hst : s.exec a = some t) : t.Sound := by
  cases a with
  | waiter => exact sound_waiter h hst
  | notifier => exact sound_notifier h hst
  | spurious =>
    simp only [exec, Option.ite_none_right_eq_some, Option.some.injEq] at hst
    obtain ⟨hw, rfl⟩ := hst
    refine ⟨?_, fun hboth => (by cases hboth.1), h.ready, ?_, fun hw => (by cases hw)⟩
    · rw [h.locked, hw]
      rfl
    · rintro (hw | hw) <;> cases hw

/-- **No lost wakeup.**  Until the waiter has passed, it can go on or the notifier can. -/
theorem Sound.enabled {s : Latch} (h : s.Sound) (hw : s.waiter ≠ .passed) :
    (∃ t, s.exec .waiter = some t) ∨ s.notifier ≠ .done ∧ ∃ t, s.exec .notifier = some t := by
  -- a thread that has the mutex is not at the `lock` of the other
  have hlocked : s.waiter.holds = false → s.locked = true →
      s.notifier ≠ .done ∧ ∃ t, s.exec .notifier = some t := by
    intro hout hl
    have hn : s.notifier.holds = true := by
      have hlocked := h.locked
      rw [hl, hout, Bool.false_or] at hlocked
      exact hlocked.symm
    cases hnp : s.notifier with
    | lock | done =>
      rw [hnp] at hn
      cases hn
    | set | notify | unlock =>
      refine ⟨fun he => (by cases he), ?_⟩
      simp only [exec, hnp]
      exact ⟨_, rfl⟩
  cases hwp : s.waiter with
  | lock | woken =>
    by_cases hl : s.locked = true
    · exact .inr (hlocked (by rw [hwp]; rfl) hl)
    · left
      simp only [exec, hwp]
      exact ⟨_, if_neg hl⟩
  | test =>
    left
    simp only [exec, hwp]
    split
    · exact ⟨_, rfl⟩
    · exact ⟨_, rfl⟩
  | asleep =>
    right
    obtain ⟨hunlock, hdone⟩ := h.awake hwp
    refine ⟨hdone, ?_⟩
    cases hnp : s.notifier with
    | lock =>
      have hl : s.locked ≠ true := by
        rw [h.locked, hwp, hnp]
        exact fun he => (by cases he)
      simp only [exec, hnp]
      exact ⟨_, if_neg hl⟩
    | set | notify =>
      simp only [exec, hnp]
      exact ⟨_, rfl⟩
    | unlock => exact absurd hnp hunlock
    | done => exact absurd hnp hdone
  | unlock =>
    left
    simp only [exec, hwp]
    exact ⟨_, rfl⟩
  | passed => exact absurd hwp hw

/-- the notifier is never stopped but by the waiter at its test -/
theorem Sound.notifier_enabled {s : Latch} (h : s.Sound) (hn : s.notifier ≠ .done) :
    (∃ t, s.exec .notifier = some t) ∨ ∃ t, s.exec .waiter = some t := by
  cases hnp : s.notifier with
  | lock =>
    by_cases hl : s.locked = true
    · right
      have hw : s.waiter.holds = true := by
        have hlocked : true = (s.waiter.holds || false) := by
          rw [← hl, h.locked, hnp]
          rfl
        rw [Bool.or_false] at hlocked
        exact hlocked.symm
      cases hwp : s.waiter with
      | test =>
        simp only [exec, hwp]
        split
        · exact ⟨_, rfl⟩
        · exact ⟨_, rfl⟩
      | unlock =>
        simp only [exec, hwp]
        exact ⟨_, rfl⟩
      | lock | woken | asleep | passed =>
        rw [hwp] at hw
        cases hw
    · left
      simp only [exec, hnp]
      exact ⟨_, if_neg hl⟩
  | set | notify | unlock =>
    left
    simp only [exec, hnp]
    exact ⟨_, rfl⟩
  | done => exact absurd hnp hn

/-- the flag is set once, by the notifier -/
theorem ready_of_exec {s t : Latch} {a : Act} (hst : s.exec a = some t) :
    t.ready = s.ready ∨ a = .notifier ∧ t.ready = true := by
  cases a with
  | waiter => cases waiter_step hst <;> exact .inl rfl
  | notifier =>
    cases notifier_step hst with
    | set => exact .inr ⟨rfl, rfl⟩
    | lock | notify | unlock => exact .inl rfl
  | spurious =>
    simp only [exec, Option.ite_none_right_eq_some, Option.some.injEq] at hst
    obtain ⟨-, rfl⟩ := hst
    exact .inl rfl

/-- the waiter leaves the notifier where it is -/
theorem notifier_of_exec {s t : Latch} {a : Act} (hst : s.exec a = some t) (ha : a ≠ .notifier) :
    t.notifier = s.notifier := by
  cases a with
  | waiter => cases waiter_step hst <;> rfl
  | notifier => exact absurd rfl ha
  | spurious =>
    simp only [exec, Option.ite_none_right_eq_some, Option.some.injEq] at hst
    obtain ⟨-, rfl⟩ := hst
    rfl

/-- the notifier moves a waiter only if it sleeps -/
theorem waiter_of_exec {s t : Latch} (hst : s.exec .notifier = some t) (hw : s.waiter ≠ .asleep) :
    t.waiter = s.waiter := by
  cases notifier_step hst with
  | notify => exact if_neg hw
  | lock | set | unlock => rfl

/-! ## how much is left to do -/

def Waiter.work : Waiter → Bool → Nat
  | .lock, true | .woken, true => 3
  | .lock, false | .woken, false => 5
  | .test, true => 2
  | .test, false => 4
  | .asleep, _ => 3
  | .unlock, _ => 1
  | .passed, _ => 0

def Notifier.work : Notifier → Nat
  | .lock => 4
  | .set => 3
  | .notify => 2
  | .unlock => 1
  | .done => 0

/-- the steps left, if none is spurious -/
def work (s : Latch) : Nat := s.waiter.work s.ready + s.notifier.work

/-- what a step may cost: a spurious return is a way back of two steps -/
def Act.slack : Act → Nat
  | .spurious => 3
  | _ => 0

theorem work_waiter {s t : Latch} (hst : s.exec .waiter = some t) :
    1 + t.waiter.work t.ready ≤ s.waiter.work s.ready ∧ t.notifier = s.notifier := by
  cases waiter_step hst with
  | lock hw =>
    refine ⟨?_, rfl⟩
    show 1 + Waiter.work .test s.ready ≤ s.waiter.work s.ready
    rcases hw with hw | hw <;> rw [hw] <;> cases s.ready <;> decide
  | seen hw hr =>
    rw [hw, hr]
    exact ⟨le_rfl, rfl⟩
  | sleep hw hr =>
    rw [hw, Bool.eq_false_iff.mpr hr]
    exact ⟨le_rfl, rfl⟩
  | unlock hw =>
    rw [hw]
    exact ⟨le_rfl, rfl⟩

theorem work_notifier {s t : Latch} (h : s.Sound) (hst : s.exec .notifier = some t) :
    t.waiter.work t.ready ≤ s.waiter.work s.ready ∧ 1 + t.notifier.work ≤ s.notifier.work := by
  cases notifier_step hst with
  | lock hn | unlock hn =>
    rw [hn]
    exact ⟨le_rfl, le_rfl⟩
  | set hn =>
    rw [hn]
    refine ⟨?_, le_rfl⟩
    show s.waiter.work true ≤ _
    cases s.waiter <;> cases s.ready <;> decide
  | notify hn =>
    have hr : s.ready = true := by
      rw [h.ready, hn]
      rfl
    rw [hn]
    refine ⟨?_, le_rfl⟩
    show (if s.waiter = .asleep then Waiter.woken else s.waiter).work s.ready ≤ _
    rw [hr]
    cases s.waiter <;> decide

/-- **Every step** but a spurious one is one of those left. -/
theorem work_exec {s t : Latch} (h : s.Sound) {a : Act} (hst : s.exec a = some t) :
    1 + t.work ≤ s.work + a.slack := by
  cases a with
  | waiter =>
    obtain ⟨hw, hn⟩ := work_waiter hst
    show 1 + (t.waiter.work t.ready + t.notifier.work) ≤ s.waiter.work s.ready + s.notifier.work
    rw [hn]
    omega
  | notifier =>
    obtain ⟨hw, hn⟩ := work_notifier h hst
    show 1 + (t.waiter.work t.ready + t.notifier.work) ≤ s.waiter.work s.ready + s.notifier.work
    omega
  | spurious =>
    simp only [exec, Option.ite_none_right_eq_some, Option.some.injEq] at hst
    obtain ⟨hw, rfl⟩ := hst
    have hback : 1 + Waiter.woken.work s.ready ≤ s.waiter.work s.ready + 3 := by
      rw [hw]
      cases s.ready <;> decide
    show 1 + (Waiter.woken.work s.ready + s.notifier.work) ≤
      s.waiter.work s.ready + s.notifier.work + 3
    omega

end Latch
