import Feipu.Base.Timers

/-!
# What becomes of a timer

Every timer that `new Timer` has made is in one of three places: it waits for its `addTimerInLoop`,
it stands in the set, or it was to run once, has run once and is deleted.

* `Carries`       what a step does with the timers that are there, those it runs and those it makes;
* `kept_exec`     every step of the loop carries them, and so keeps the account;
* `paced_exec`    and no timer is run before its time, or again before its interval is over.
-/

namespace Feipu

namespace TimerQueue
variable {τ : Type} {q q' : TimerQueue τ}

/-- the functor that will insert the timer has not run yet -/
def Waiting (q : TimerQueue τ) (t : Timer τ) : Prop := ∃ p ∈ q.pending, q.memory p = some t

/-- how often the timer of that name has been run -/
def runs (q : TimerQueue τ) (k : Nat) : Nat := q.ran.countP fun t => t.serial = k

/-- what has become of the timer that was made as `c` -/
inductive Fate (q : TimerQueue τ) (c : Timer τ) : Prop where
  | waiting : q.Waiting c → q.runs c.serial = 0 → Fate q c
  /-- a repeating timer has another expiration each time it is put back -/
  | scheduled (x : TimeStamp) : q.Scheduled { c with expiration := x } →
      (c.isRepeat = false → x = c.expiration ∧ q.runs c.serial = 0) → Fate q c
  | ended : c.isRepeat = false → Retired c.serial q → q.runs c.serial = 1 → Fate q c

/-- a timer is named by its place -/
def Numbered (q : TimerQueue τ) : Prop := q.created.map Timer.serial = List.range q.created.length

/-- the account of all timers -/
structure Kept (q : TimerQueue τ) : Prop where
  numbered : q.Numbered
  ran : ∀ t ∈ q.ran, t.serial < q.created.length
  fate : ∀ c ∈ q.created, Fate q c

theorem kept_empty : Kept ({} : TimerQueue τ) where
  numbered := rfl
  ran _ ht := absurd ht List.not_mem_nil
  fate _ hc := absurd hc List.not_mem_nil

/-- the step runs `runs` and makes `added`, and loses no timer -/
structure Carries (q q' : TimerQueue τ) (runs added : List (Timer τ)) : Prop where
  ran : q'.ran = q.ran ++ runs
  created : q'.created = q.created ++ added
  numbered : q'.Numbered
  fired : ∀ t ∈ runs, q.Scheduled t
  once : (runs.map Timer.serial).Nodup
  waiting : ∀ t, q.Waiting t → q'.Waiting t ∨ q'.Scheduled t
  scheduled : ∀ t, q.Scheduled t → t ∉ runs → q'.Scheduled t
  back : ∀ u ∈ runs, u.isRepeat = true → ∃ x, q'.Scheduled { u with expiration := x }
  gone : ∀ u ∈ runs, u.isRepeat = false → ∀ t, q'.Live t → t.serial ≠ u.serial
  new : ∀ c ∈ added, q'.Waiting c ∨ q'.Scheduled c

theorem Scheduled.live {t : Timer τ} (h : q.Scheduled t) : q.Live t := by
  obtain ⟨p, hp, -⟩ := h
  exact ⟨p, hp⟩

theorem Waiting.live {t : Timer τ} (h : q.Waiting t) : q.Live t := by
  obtain ⟨p, -, hp⟩ := h
  exact ⟨p, hp⟩

/-- two timers in use of one name are one -/
theorem Live.eq_of_serial (h : q.Consistent) {t t' : Timer τ} (ht : q.Live t) (ht' : q.Live t')
    (hs : t.serial = t'.serial) : t = t' := by
  obtain ⟨p, hp⟩ := ht
  obtain ⟨p', hp'⟩ := ht'
  exact Sound.eq_of_serial h hp hp' hs

/-- a timer that waits is not in the set -/
theorem Waiting.not_scheduled (h : q.Consistent) {c t : Timer τ} (hc : q.Waiting c)
    (ht : q.Scheduled t) : t.serial ≠ c.serial := by
  intro hs
  obtain rfl := ht.live.eq_of_serial h hc.live hs
  obtain ⟨p, hp, hm⟩ := hc
  obtain ⟨p', hp', hmem⟩ := ht
  obtain rfl := h.unique p' t p t hp' hm rfl
  exact h.absent _ hmem hp

theorem runs_append {runs : List (Timer τ)} (hran : q'.ran = q.ran ++ runs) (k : Nat) :
    q'.runs k = q.runs k + runs.countP fun t => t.serial = k := by
  unfold TimerQueue.runs
  rw [hran, List.countP_append]

theorem countP_serial_of_ne {runs : List (Timer τ)} {k : Nat} (h : ∀ t ∈ runs, t.serial ≠ k) :
    (runs.countP fun t => t.serial = k) = 0 := by
  rw [List.countP_eq_zero]
  intro t ht heq
  exact h t ht (of_decide_eq_true heq)

theorem countP_serial_of_mem {runs : List (Timer τ)} (h : (runs.map Timer.serial).Nodup)
    {u : Timer τ} (hu : u ∈ runs) : (runs.countP fun t => t.serial = u.serial) = 1 := by
  have hcount : (runs.countP fun t => t.serial = u.serial) =
      (runs.map Timer.serial).count u.serial := by
    rw [List.count, List.countP_map]
    rfl
  rw [hcount]
  exact List.count_eq_one_of_mem h (List.mem_map_of_mem hu)

/-! ## a step that loses no timer -/

section
variable {runs added : List (Timer τ)}

/-- what the step does to the fate of a timer that was there -/
theorem Fate.carried {c : Timer τ} (h : Fate q c) (hq : q.Consistent) (ha : Ages q q')
    (hc : Carries q q' runs added) : Fate q' c := by
  have hruns := runs_append hc.ran c.serial
  cases h with
  | waiting hw hzero =>
    have hnone : ∀ t ∈ runs, t.serial ≠ c.serial := fun t ht =>
      hw.not_scheduled hq (hc.fired t ht)
    rw [hzero, countP_serial_of_ne hnone] at hruns
    rcases hc.waiting c hw with hw | hs
    · exact .waiting hw hruns
    · exact .scheduled c.expiration hs fun _ => ⟨rfl, hruns⟩
  | scheduled x hs honce =>
    by_cases hmem : ({ c with expiration := x } : Timer τ) ∈ runs
    · cases hrep : c.isRepeat with
      | true =>
        obtain ⟨y, hy⟩ := hc.back _ hmem hrep
        exact .scheduled y hy fun hfalse => absurd (hrep.symm.trans hfalse) Bool.noConfusion
      | false =>
        obtain ⟨-, hzero⟩ := honce hrep
        have hcount : (runs.countP fun t => t.serial = c.serial) = 1 :=
          countP_serial_of_mem (u := { c with expiration := x }) hc.once hmem
        have hgone : ∀ t, q'.Live t → t.serial ≠ c.serial :=
          hc.gone { c with expiration := x } hmem hrep
        have hnamed : c.serial < q.created.length := by
          obtain ⟨p, hp, -⟩ := hs
          exact hq.named p { c with expiration := x } hp
        rw [hzero, hcount] at hruns
        exact .ended hrep ⟨Nat.lt_of_lt_of_le hnamed ha.created, hgone⟩ hruns
    · have hnone : ∀ t ∈ runs, t.serial ≠ c.serial := by
        intro t ht hserial
        have hlive := (hc.fired t ht).live
        exact hmem (hlive.eq_of_serial hq hs.live hserial ▸ ht)
      rw [countP_serial_of_ne hnone] at hruns
      refine .scheduled x (hc.scheduled _ hs hmem) fun hrep => ?_
      obtain ⟨hx, hzero⟩ := honce hrep
      exact ⟨hx, by rw [hruns, hzero]⟩
  | ended hrep hret hone =>
    have hnone : ∀ t ∈ runs, t.serial ≠ c.serial := fun t ht =>
      hret.2 t (hc.fired t ht).live
    rw [hone, countP_serial_of_ne hnone] at hruns
    exact .ended hrep (hret.mono ha) hruns

/-- the new timers are the last ones -/
theorem Carries.serial_new (hn : q.Numbered) (hc : Carries q q' runs added) {c : Timer τ}
    (h : c ∈ added) : q.created.length ≤ c.serial := by
  have hall := hc.numbered
  unfold Numbered at hall hn
  rw [hc.created, List.map_append, List.length_append, List.range_add, hn] at hall
  have hadded := List.append_cancel_left hall
  have hmem : c.serial ∈ added.map Timer.serial := List.mem_map_of_mem h
  rw [hadded] at hmem
  obtain ⟨i, -, hi⟩ := List.mem_map.mp hmem
  omega

/-- and have not been run -/
theorem Carries.runs_new (hc : Carries q q' runs added) (hk : q.Kept) (hq : q.Consistent)
    {c : Timer τ} (h : c ∈ added) : q'.runs c.serial = 0 := by
  have hserial := hc.serial_new hk.numbered h
  refine countP_serial_of_ne fun t ht => ?_
  rw [hc.ran, List.mem_append] at ht
  rcases ht with ht | ht
  · have := hk.ran t ht
    omega
  · obtain ⟨p, hp, -⟩ := hc.fired t ht
    have := hq.named p t hp
    omega

/-- **The account is kept** by a step that carries the timers. -/
theorem Kept.carried (h : q.Kept) (hq : q.Consistent) (ha : Ages q q')
    (hc : Carries q q' runs added) : q'.Kept := by
  have hlen : q.created.length ≤ q'.created.length := ha.created
  have hfired : ∀ t ∈ runs, t.serial < q.created.length := by
    intro t ht
    obtain ⟨p, hp, -⟩ := hc.fired t ht
    exact hq.named p t hp
  refine ⟨hc.numbered, ?_, ?_⟩
  · intro t ht
    rw [hc.ran, List.mem_append] at ht
    rcases ht with ht | ht
    · exact Nat.lt_of_lt_of_le (h.ran t ht) hlen
    · exact Nat.lt_of_lt_of_le (hfired t ht) hlen
  · intro c hmem
    rw [hc.created, List.mem_append] at hmem
    rcases hmem with hold | hnew
    · exact (h.fate c hold).carried hq ha hc
    · have hnone := hc.runs_new h hq hnew
      rcases hc.new c hnew with hw | hs
      · exact .waiting hw hnone
      · exact .scheduled c.expiration hs fun _ => ⟨rfl, hnone⟩

end

/-! ## the steps of the loop -/

theorem Meets.numbered {a : TimerAct τ} (hm : q.Meets a q') (h : q.Numbered) : q'.Numbered := by
  have hserial : (q.makes a).map Timer.serial =
      List.range' q.created.length (q.makes a).length := by
    cases a with
    | addTimer a | postTimer a => exact serial_made q [a]
    | handleTimeEvent adds => exact serial_made q _
    | getNextTimerTimerOut | addTimerInLoop => rfl
  unfold Numbered at h ⊢
  have hrange := List.range'_append_1 (s := 0) (m := q.created.length) (n := (q.makes a).length)
  rw [Nat.zero_add] at hrange
  rw [hm.created, List.map_append, h, hserial, List.length_append, List.range_eq_range',
    List.range_eq_range', hrange]

theorem waiting_iff (t : Timer τ) : q.Waiting t ↔ some t ∈ q.waiting := List.mem_map.symm

/-- a step that runs nothing -/
theorem carries_adding {added : List (Timer τ)} (hran : q'.ran = q.ran)
    (hc : q'.created = q.created ++ added) (hn : q'.Numbered)
    (hw : ∀ t, q.Waiting t → q'.Waiting t ∨ q'.Scheduled t)
    (hs : ∀ t, q.Scheduled t → q'.Scheduled t)
    (hnew : ∀ c ∈ added, q'.Waiting c ∨ q'.Scheduled c) : Carries q q' [] added where
  ran := hran.trans (List.append_nil _).symm
  created := hc
  numbered := hn
  fired _ ht := absurd ht List.not_mem_nil
  once := List.nodup_nil
  waiting := hw
  scheduled t ht _ := hs t ht
  back _ hu := absurd hu List.not_mem_nil
  gone _ hu := absurd hu List.not_mem_nil
  new := hnew

theorem carries_addTimerInLoop (hn : q'.Numbered) (hm : q.Meets .addTimerInLoop q') :
    Carries q q' [] [] := by
  obtain ⟨hins, hwait⟩ := hm
  refine carries_adding hins.ran hins.created hn ?_ (fun t ht => (hins.scheduled t).mpr (.inl ht))
    fun _ hc => absurd hc List.not_mem_nil
  intro t ht
  have hsched := hins.scheduled t
  rw [waiting_iff] at ht ⊢
  rw [hwait]
  cases hq : q.waiting with
  | nil => exact absurd ht (hq ▸ List.not_mem_nil)
  | cons o rest =>
    rw [hq] at ht hsched
    rcases List.mem_cons.mp ht with rfl | ht
    · exact .inr (hsched.mpr (.inr List.mem_cons_self))
    · exact .inl ht

/-- the timers were due at the reading of the clock, and those that repeat count from it -/
def Due (q q' : TimerQueue τ) (runs : List (Timer τ)) : Prop :=
  ∀ u ∈ runs, u.expiration ≤ q.nowChache ∧
    (u.isRepeat = true → q'.Scheduled (u.resetExpiration q.nowChache))

theorem due_nil : Due q q' [] := fun _ hu => absurd hu List.not_mem_nil

theorem carries_handleTimeEvent (hn : q'.Numbered) {adds : Nat → List (NewTimer τ)}
    (hm : q.Meets (.handleTimeEvent adds) q') :
    ∃ runs added, Carries q q' runs added ∧ Due q q' runs := by
  obtain ⟨hf, hwait, -⟩ := hm
  have hback : ∀ u ∈ q.due, u.isRepeat = true → q'.Scheduled (u.resetExpiration q.nowChache) :=
    fun u hu hrep => (hf.scheduled _).mpr (.inr (.inr ⟨u, hu, hrep, rfl⟩))
  refine ⟨_, _, ⟨hf.ran, hf.created, hn, fun t ht => ((hf.due t).mp ht).1, hf.once, ?_, ?_,
    fun u hu hrep => ⟨_, hback u hu hrep⟩, hf.gone,
    fun c hc => .inr ((hf.scheduled c).mpr (.inr (.inl hc)))⟩,
    fun u hu => ⟨((hf.due u).mp hu).2, hback u hu⟩⟩
  · intro t ht
    rw [waiting_iff] at ht ⊢
    exact .inl (hwait ▸ ht)
  · intro t ht hnot
    refine (hf.scheduled t).mpr (.inl ⟨ht, ?_⟩)
    exact not_le.mp fun hle => hnot ((hf.due t).mpr ⟨ht, hle⟩)

/-- **One step** of the loop carries the timers, and runs those that are due. -/
theorem carries_exec (h : q.Consistent) (hn : q.Numbered) {a : TimerAct τ}
    (hexec : q.exec a = some q') : ∃ runs added, Carries q q' runs added ∧ Due q q' runs := by
  obtain ⟨-, -, hm⟩ := (Step.mk hexec).spec h
  have hn' := hm.numbered hn
  cases a with
  | getNextTimerTimerOut now =>
    obtain rfl := hm
    exact ⟨[], [], carries_adding rfl (List.append_nil _).symm hn' (fun _ => .inl) (fun _ => id)
      fun _ hc => absurd hc List.not_mem_nil, due_nil⟩
  | addTimer a =>
    obtain ⟨hins, hwait⟩ := hm
    refine ⟨[], _, carries_adding hins.ran hins.created hn' ?_
      (fun t ht => (hins.scheduled t).mpr (.inl ht))
      fun c hc => .inr ((hins.scheduled c).mpr (.inr hc)), due_nil⟩
    intro t ht
    rw [waiting_iff] at ht ⊢
    exact .inl (hwait ▸ ht)
  | postTimer a =>
    obtain ⟨hins, hwait⟩ := hm
    refine ⟨[], _, carries_adding hins.ran hins.created hn' ?_
      (fun t ht => (hins.scheduled t).mpr (.inl ht)) fun c hc => ?_, due_nil⟩
    · intro t ht
      rw [waiting_iff] at ht ⊢
      exact .inl (hwait ▸ List.mem_append_left _ ht)
    · rw [waiting_iff, hwait]
      exact .inl (List.mem_append_right _ (List.mem_map_of_mem hc))
  | addTimerInLoop => exact ⟨[], [], carries_addTimerInLoop hn' hm, due_nil⟩
  | handleTimeEvent adds => exact carries_handleTimeEvent hn' hm

/-- and so keeps the account -/
theorem kept_exec (h : q.Consistent) (hk : q.Kept) {a : TimerAct τ} (hexec : q.exec a = some q') :
    q'.Kept := by
  obtain ⟨q1, hq1, -, hages, -⟩ := exec_spec h a
  obtain rfl := Option.some.inj (hexec.symm.trans hq1)
  obtain ⟨runs, added, hc, -⟩ := carries_exec h hk.numbered hexec
  exact hk.carried h hages hc

/-! ## how often a timer runs -/

/-- by the time `now` the timer that was made as `c` may have run `n` times: run number `k`, counted
from 0, comes `k` intervals after its first expiration -/
def InTime (now : TimeStamp) (c : Timer τ) (n : Nat) : Prop :=
  ∀ k : Nat, k < n → c.expiration + k * c.interval.micros ≤ now

/-- no timer has run too often, and none will run too soon -/
structure Paced (now : TimeStamp) (q : TimerQueue τ) : Prop where
  clock : q.nowChache ≤ now
  inTime : ∀ c ∈ q.created, InTime now c (q.runs c.serial)
  next : ∀ c ∈ q.created, ∀ x, q.Scheduled { c with expiration := x } →
    c.expiration + q.runs c.serial * c.interval.micros ≤ x

theorem paced_empty {now : TimeStamp} (h : 0 ≤ now) : Paced now ({} : TimerQueue τ) where
  clock := h
  inTime _ hc := absurd hc List.not_mem_nil
  next _ hc := absurd hc List.not_mem_nil

section
variable {runs added : List (Timer τ)} {now : TimeStamp} {c : Timer τ}

/-- a timer that was there is run once more, or not -/
theorem Carries.runs_old (hc : Carries q q' runs added) (hq : q.Consistent) (hf : Fate q c) :
    q'.runs c.serial = q.runs c.serial ∧ (∀ t ∈ runs, t.serial ≠ c.serial) ∨
      ∃ x, ({ c with expiration := x } : Timer τ) ∈ runs ∧
        q.Scheduled { c with expiration := x } ∧ q'.runs c.serial = q.runs c.serial + 1 := by
  have hruns := runs_append hc.ran c.serial
  by_cases hmem : ∃ t ∈ runs, t.serial = c.serial
  · obtain ⟨t, ht, hserial⟩ := hmem
    have hsched := hc.fired t ht
    cases hf with
    | waiting hw _ => exact absurd hserial (hw.not_scheduled hq hsched)
    | ended _ hret _ => exact absurd hserial (hret.2 t hsched.live)
    | scheduled x hs _ =>
      obtain rfl := hsched.live.eq_of_serial hq hs.live hserial
      have hcount : (runs.countP fun t => t.serial = c.serial) = 1 :=
        countP_serial_of_mem (u := { c with expiration := x }) hc.once ht
      exact .inr ⟨x, ht, hs, by rw [hruns, hcount]⟩
  · have hnone : ∀ t ∈ runs, t.serial ≠ c.serial := fun t ht heq => hmem ⟨t, ht, heq⟩
    rw [countP_serial_of_ne hnone, Nat.add_zero] at hruns
    exact .inl ⟨hruns, hnone⟩

/-- **The pace is kept** by a step that runs only what is due. -/
theorem Paced.carried (h : Paced now q) (hk : q.Kept) (hq : q.Consistent) (hq' : q'.Consistent)
    (ha : Ages q q') (hc : Carries q q' runs added) (hdue : Due q q' runs)
    (hclock : q'.nowChache ≤ now) : Paced now q' := by
  refine ⟨hclock, ?_, ?_⟩
  · intro c hmem
    rw [hc.created, List.mem_append] at hmem
    rcases hmem with hold | hadd
    · rcases hc.runs_old hq (hk.fate c hold) with ⟨hsame, -⟩ | ⟨x, hx, hs, honce⟩
      · rw [hsame]
        exact h.inTime c hold
      · rw [honce]
        intro k hlt
        rcases Nat.lt_succ_iff_lt_or_eq.mp hlt with hlt | rfl
        · exact h.inTime c hold k hlt
        · have hnext := h.next c hold x hs
          have hle : x ≤ q.nowChache := (hdue _ hx).1
          exact hnext.trans (hle.trans h.clock)
    · rw [hc.runs_new hk hq hadd]
      exact fun k hlt => absurd hlt (Nat.not_lt_zero k)
  · intro c hmem x hs
    rw [hc.created, List.mem_append] at hmem
    -- what stands in the set with the name of `c` is this timer
    have heq : ∀ y, q'.Scheduled { c with expiration := y } → x = y := fun y hy =>
      congrArg Timer.expiration (hs.live.eq_of_serial hq' hy.live rfl)
    have hfirst : q'.runs c.serial = 0 → q'.Waiting c ∨ q'.Scheduled c →
        c.expiration + q'.runs c.serial * c.interval.micros ≤ x := by
      intro hzero hnew
      rcases hnew with hw | hsc
      · exact absurd rfl (hw.not_scheduled (t := { c with expiration := x }) hq' hs)
      · rw [hzero, heq c.expiration hsc]
        simp
    rcases hmem with hold | hadd
    · rcases hc.runs_old hq (hk.fate c hold) with ⟨hsame, hnone⟩ | ⟨y, hy, hys, honce⟩
      · cases hk.fate c hold with
        | waiting hw hzero => exact hfirst (hsame.trans hzero) (hc.waiting c hw)
        | scheduled y hys _ =>
          have hkeep := hc.scheduled _ hys fun hmem => hnone _ hmem rfl
          rw [hsame, heq y hkeep]
          exact h.next c hold y hys
        | ended _ hret _ =>
          exact absurd rfl ((hret.mono ha).2 { c with expiration := x } hs.live)
      · cases hrep : c.isRepeat with
        | false => exact absurd rfl (hc.gone _ hy hrep { c with expiration := x } hs.live)
        | true =>
          obtain ⟨hle, hback⟩ := hdue _ hy
          have hnext := h.next c hold y hys
          have hle : y ≤ q.nowChache := hle
          rw [honce, heq _ (hback hrep), Nat.cast_succ, add_mul, one_mul, ← add_assoc]
          exact add_le_add_left (hnext.trans hle) _
    · exact hfirst (hc.runs_new hk hq hadd) (hc.new c hadd)

/-- the clock is read for the timeout, and nowhere else -/
theorem clock_exec (h : q.Consistent) {a : TimerAct τ} (hexec : q.exec a = some q') :
    q'.nowChache = q.nowChache ∨ a = .getNextTimerTimerOut q'.nowChache := by
  obtain ⟨-, -, hm⟩ := (Step.mk hexec).spec h
  cases a with
  | getNextTimerTimerOut now =>
    obtain rfl := hm
    exact .inr rfl
  | addTimer | postTimer | addTimerInLoop => exact .inl hm.1.now
  | handleTimeEvent => exact .inl hm.2.2

/-- **One step** of the loop keeps the pace, if the clock does not read more than `now`. -/
theorem paced_exec (h : Paced now q) (hk : q.Kept) (hq : q.Consistent) {a : TimerAct τ}
    (hexec : q.exec a = some q') (ha : ∀ n, a = .getNextTimerTimerOut n → n ≤ now) :
    Paced now q' := by
  obtain ⟨q1, hq1, hq', hages, -⟩ := exec_spec hq a
  obtain rfl := Option.some.inj (hexec.symm.trans hq1)
  obtain ⟨runs, added, hc, hdue⟩ := carries_exec hq hk.numbered hexec
  refine h.carried hk hq hq' hages hc hdue ?_
  rcases clock_exec hq hexec with hsame | hread
  · rw [hsame]
    exact h.clock
  · exact ha _ hread

end

end TimerQueue

end Feipu
