import Feipu.Base.TimerQueue
import Feipu.Lib.Trace

/-!
# Timers fire when they are due

An iteration of the loop takes the due timers out of the set, runs their callbacks, which may add
timers, and then puts the repeating ones back and deletes the others.  The addresses that are in use
without being in the set (`out`) are those of the timers just taken out and of those another thread
has made and the loop not yet inserted.

* `meets_run`          in every run an iteration runs exactly the timers that are due, and leaves
                       exactly the others, the new ones and the repeating ones; a new timer is the
                       one that was asked for;
* `once_run`           a one-shot timer that has run is never run again;
* `poll_timeout_iff`   when the time handed to `epoll_wait` does not oversleep a timer.
-/

namespace Feipu
open Trace

namespace TimerQueue
variable {τ : Type}

/-- the timer is in the set, under its expiration -/
def Scheduled (q : TimerQueue τ) (t : Timer τ) : Prop :=
  ∃ p, q.memory p = some t ∧ toLex (t.expiration, p) ∈ q.timers.elems

/-- the timer has not been deleted -/
def Live (q : TimerQueue τ) (t : Timer τ) : Prop := ∃ p, q.memory p = some t

structure Sound (out : List Nat) (q : TimerQueue τ) : Prop where
  keyed : ∀ e ∈ q.timers.elems, ∃ t, q.memory (ofLex e).2 = some t ∧ t.expiration = (ofLex e).1
  nodup : out.Nodup
  live : ∀ p ∈ out, ∃ t, q.memory p = some t
  absent : ∀ e ∈ q.timers.elems, (ofLex e).2 ∉ out
  address : ∀ p t, q.memory p = some t → p < uintptrMax
  named : ∀ p t, q.memory p = some t → t.serial < q.created.length
  unique : ∀ p t p' t', q.memory p = some t → q.memory p' = some t' → t.serial = t'.serial → p = p'

theorem sound_empty : Sound [] ({} : TimerQueue τ) where
  keyed _ he := absurd he List.not_mem_nil
  nodup := List.nodup_nil
  live _ hp := absurd hp List.not_mem_nil
  absent _ _ := List.not_mem_nil
  address _ _ h := by cases h
  named _ _ h := by cases h
  unique _ _ _ _ h := by cases h

/-- two timers in use of one name are one -/
theorem Sound.eq_of_serial {out : List Nat} {q : TimerQueue τ} (h : Sound out q) {p p' : Nat}
    {t t' : Timer τ} (hp : q.memory p = some t) (hp' : q.memory p' = some t')
    (hs : t.serial = t'.serial) : t = t' := by
  have heq := h.unique p t p' t' hp hp' hs
  rw [heq, hp'] at hp
  exact (Option.some.inj hp).symm

/-! ## a new timer, and its way into the set -/

theorem memory_newTimer_of_ne {q : TimerQueue τ} {a : NewTimer τ} {p : Nat} (h : p ≠ a.address) :
    (q.newTimer a).memory p = q.memory p := Function.update_of_ne h _ _

theorem memory_newTimer_self (q : TimerQueue τ) (a : NewTimer τ) :
    (q.newTimer a).memory a.address = some ⟨q.created.length, a.cb, a.when', a.interval⟩ :=
  Function.update_self _ _ _

/-- an address in use is not the one of a new object -/
theorem Fresh.ne {q : TimerQueue τ} {a p : Nat} {t : Timer τ} (hf : q.Fresh a)
    (hp : q.memory p = some t) : p ≠ a := by
  rintro rfl
  rw [hf.1] at hp
  cases hp

theorem sound_newTimer {out : List Nat} {q : TimerQueue τ} (h : Sound out q) {a : NewTimer τ}
    (hf : q.Fresh a.address) : Sound (a.address :: out) (q.newTimer a) := by
  have hcases : ∀ p t, (q.newTimer a).memory p = some t →
      p = a.address ∧ t.serial = q.created.length ∨ q.memory p = some t := by
    intro p t hp
    by_cases hpa : p = a.address
    · subst hpa
      rw [memory_newTimer_self] at hp
      exact .inl ⟨rfl, by rw [← Option.some.inj hp]⟩
    · rw [memory_newTimer_of_ne hpa] at hp
      exact .inr hp
  have hlen : (q.newTimer a).created.length = q.created.length + 1 := by
    show (q.created ++ [_]).length = _
    rw [List.length_append, List.length_singleton]
  refine ⟨?_, ?_, ?_, ?_, ?_, ?_, ?_⟩
  · intro e he
    obtain ⟨t, ht, hexp⟩ := h.keyed e he
    exact ⟨t, by rw [memory_newTimer_of_ne (hf.ne ht), ht], hexp⟩
  · refine List.nodup_cons.mpr ⟨fun hmem => ?_, h.nodup⟩
    obtain ⟨t, ht⟩ := h.live _ hmem
    exact hf.ne ht rfl
  · intro p hp
    by_cases hpa : p = a.address
    · exact ⟨_, hpa ▸ memory_newTimer_self q a⟩
    · obtain ⟨t, ht⟩ := h.live p ((List.mem_cons.mp hp).resolve_left hpa)
      exact ⟨t, by rw [memory_newTimer_of_ne hpa, ht]⟩
  · intro e he hmem
    obtain ⟨t, ht, -⟩ := h.keyed e he
    exact h.absent e he ((List.mem_cons.mp hmem).resolve_left (hf.ne ht))
  · intro p t hp
    rcases hcases p t hp with ⟨rfl, -⟩ | hp
    · exact hf.2
    · exact h.address p t hp
  · intro p t hp
    rw [hlen]
    rcases hcases p t hp with ⟨-, hs⟩ | hp
    · omega
    · exact Nat.lt_succ_of_lt (h.named p t hp)
  · intro p t p' t' hp hp' hs
    rcases hcases p t hp with ⟨rfl, hser⟩ | hold
    · rcases hcases p' t' hp' with ⟨rfl, -⟩ | hold'
      · rfl
      · have := h.named p' t' hold'
        omega
    · rcases hcases p' t' hp' with ⟨rfl, hser'⟩ | hold'
      · have := h.named p t hold
        omega
      · exact h.unique p t p' t' hold hold' hs

/-- a timer in use that is not in the set yet -/
theorem sound_insert {out : List Nat} {q : TimerQueue τ} {p : Nat} (h : Sound (p :: out) q) :
    ∃ t, q.memory p = some t ∧
      q.insert p = some { q with timers := q.timers.insert (toLex (t.expiration, p)) } ∧
      Sound out { q with timers := q.timers.insert (toLex (t.expiration, p)) } := by
  obtain ⟨t, ht⟩ := h.live p List.mem_cons_self
  obtain ⟨hp, hnodup⟩ := List.nodup_cons.mp h.nodup
  refine ⟨t, ht, by rw [insert, ht]; rfl, ?_, hnodup,
    fun p' hp' => h.live p' (List.mem_cons_of_mem _ hp'), ?_, h.address, h.named, h.unique⟩
  · intro e he
    rcases SortedSet.mem_insert_iff.mp he with rfl | he
    · exact ⟨t, ht, rfl⟩
    · exact h.keyed e he
  · intro e he hmem
    rcases SortedSet.mem_insert_iff.mp he with rfl | he
    · exact hp hmem
    · exact h.absent e he (List.mem_cons_of_mem _ hmem)

theorem scheduled_insert {q : TimerQueue τ} {p : Nat} {t u : Timer τ} (ht : q.memory p = some t) :
    Scheduled { q with timers := q.timers.insert (toLex (t.expiration, p)) } u ↔
      q.Scheduled u ∨ u = t := by
  constructor
  · rintro ⟨p', hp', hmem⟩
    rcases SortedSet.mem_insert_iff.mp hmem with heq | hmem
    · have hpp : p' = p := congrArg (fun e => (ofLex e).2) heq
      have hp' : q.memory p' = some u := hp'
      rw [hpp, ht] at hp'
      exact .inr (Option.some.inj hp').symm
    · exact .inl ⟨p', hp', hmem⟩
  · rintro (⟨p', hp', hmem⟩ | rfl)
    · exact ⟨p', hp', SortedSet.mem_insert_iff.mpr (.inr hmem)⟩
    · exact ⟨p, ht, SortedSet.mem_insert_iff.mpr (.inl rfl)⟩

theorem live_newTimer {q : TimerQueue τ} {a : NewTimer τ} {t : Timer τ}
    (h : (q.newTimer a).Live t) :
    q.Live t ∨ t ∈ [(⟨q.created.length, a.cb, a.when', a.interval⟩ : Timer τ)] := by
  obtain ⟨p, hp⟩ := h
  by_cases hpa : p = a.address
  · rw [hpa, memory_newTimer_self] at hp
    exact .inr (List.mem_singleton.mpr (Option.some.inj hp).symm)
  · rw [memory_newTimer_of_ne hpa] at hp
    exact .inl ⟨p, hp⟩

/-- the timers that these calls make, one after the other; a call without a free address makes none -/
def made : TimerQueue τ → List (NewTimer τ) → List (Timer τ)
  | _, [] => []
  | q, a :: as =>
    if q.Fresh a.address then
      ⟨q.created.length, a.cb, a.when', a.interval⟩ :: (q.newTimer a).made as
    else q.made as

/-- and what is in use then -/
def grown : TimerQueue τ → List (NewTimer τ) → TimerQueue τ
  | q, [] => q
  | q, a :: as => (if q.Fresh a.address then q.newTimer a else q).grown as

theorem made_single {q : TimerQueue τ} {a : NewTimer τ} (h : q.Fresh a.address) :
    q.made [a] = [⟨q.created.length, a.cb, a.when', a.interval⟩] := if_pos h

theorem made_single_of_not {q : TimerQueue τ} {a : NewTimer τ} (h : ¬ q.Fresh a.address) :
    q.made [a] = [] := if_neg h

theorem grown_append (q : TimerQueue τ) (as bs : List (NewTimer τ)) :
    q.grown (as ++ bs) = (q.grown as).grown bs := by
  induction as generalizing q with
  | nil => rfl
  | cons a as ih => exact ih _

theorem made_append (q : TimerQueue τ) (as bs : List (NewTimer τ)) :
    q.made (as ++ bs) = q.made as ++ (q.grown as).made bs := by
  induction as generalizing q with
  | nil => rfl
  | cons a as ih =>
    rw [List.cons_append, made, made, grown]
    by_cases hf : q.Fresh a.address
    · rw [if_pos hf, if_pos hf, if_pos hf, ih, List.cons_append]
    · rw [if_neg hf, if_neg hf, if_neg hf, ih]

theorem created_grown (q : TimerQueue τ) (as : List (NewTimer τ)) :
    (q.grown as).created = q.created ++ q.made as := by
  induction as generalizing q with
  | nil => exact (List.append_nil _).symm
  | cons a as ih =>
    rw [made, grown, ih]
    by_cases hf : q.Fresh a.address
    · rw [if_pos hf, if_pos hf]
      exact List.append_assoc q.created [_] _
    · rw [if_neg hf, if_neg hf]

theorem live_grown {q : TimerQueue τ} {as : List (NewTimer τ)} {t : Timer τ}
    (h : (q.grown as).Live t) : q.Live t ∨ t ∈ q.made as := by
  induction as generalizing q with
  | nil => exact .inl h
  | cons a as ih =>
    rw [made]
    rw [grown] at h
    by_cases hf : q.Fresh a.address
    · rw [if_pos hf] at h ⊢
      rcases ih h with h | h
      · rcases live_newTimer h with h | h
        · exact .inl h
        · exact .inr (List.mem_cons.mpr (.inl (List.mem_singleton.mp h)))
      · exact .inr (List.mem_cons_of_mem _ h)
    · rw [if_neg hf] at h ⊢
      exact ih h

/-- a new timer is named by its place -/
theorem serial_made (q : TimerQueue τ) (as : List (NewTimer τ)) :
    (q.made as).map Timer.serial = List.range' q.created.length (q.made as).length := by
  induction as generalizing q with
  | nil => rfl
  | cons a as ih =>
    rw [made]
    by_cases hf : q.Fresh a.address
    · have hlen : (q.newTimer a).created.length = q.created.length + 1 := List.length_append
      rw [if_pos hf, List.map_cons, ih, hlen, List.length_cons, List.range'_succ]
    · rw [if_neg hf]
      exact ih q

/-- new timers have new names -/
theorem le_serial_of_mem_made {q : TimerQueue τ} {as : List (NewTimer τ)} {t : Timer τ}
    (h : t ∈ q.made as) : q.created.length ≤ t.serial := by
  have hmem : t.serial ∈ (q.made as).map Timer.serial := List.mem_map_of_mem h
  rw [serial_made] at hmem
  exact (List.mem_range'_1.mp hmem).1

/-- the same timers are in use, and the same have been made -/
structure Alike (q q' : TimerQueue τ) : Prop where
  memory : q'.memory = q.memory
  created : q'.created = q.created

theorem Alike.fresh_iff {q q' : TimerQueue τ} (h : Alike q q') (p : Nat) :
    q'.Fresh p ↔ q.Fresh p := by
  unfold Fresh
  rw [h.memory]

theorem Alike.newTimer {q q' : TimerQueue τ} (h : Alike q q') (a : NewTimer τ) :
    Alike (q.newTimer a) (q'.newTimer a) := by
  refine ⟨?_, ?_⟩
  · simp only [TimerQueue.newTimer, h.memory, h.created]
  · simp only [TimerQueue.newTimer, h.created]

/-- the same calls make the same timers there -/
theorem Alike.made_grown {q q' : TimerQueue τ} (h : Alike q q') (as : List (NewTimer τ)) :
    q'.made as = q.made as ∧ Alike (q.grown as) (q'.grown as) := by
  induction as generalizing q q' with
  | nil => exact ⟨rfl, h⟩
  | cons a as ih =>
    rw [made, made, grown, grown]
    by_cases hf : q.Fresh a.address
    · obtain ⟨hmade, hgrown⟩ := ih (h.newTimer a)
      have hf' := (h.fresh_iff a.address).mpr hf
      rw [if_pos hf, if_pos hf', if_pos hf, if_pos hf', hmade, h.created]
      exact ⟨rfl, hgrown⟩
    · have hf' := mt (h.fresh_iff a.address).mp hf
      rw [if_neg hf, if_neg hf', if_neg hf, if_neg hf']
      exact ih h

/-- from `q` to `q'` the callbacks `runs` have been run and the calls `as` of `addTimer` made; the
timers at `out` have been left alone -/
structure Adds (out : List Nat) (runs : List (Timer τ)) (as : List (NewTimer τ))
    (q q' : TimerQueue τ) : Prop where
  sound : Sound out q'
  now : q'.nowChache = q.nowChache
  pending : q'.pending = q.pending
  memory : ∀ p ∈ out, q'.memory p = q.memory p
  ran : q'.ran = q.ran ++ runs
  grown : Alike (q.grown as) q'
  scheduled : ∀ t, q'.Scheduled t ↔ q.Scheduled t ∨ t ∈ q.made as

theorem Adds.refl {out : List Nat} {q : TimerQueue τ} (h : Sound out q) : Adds out [] [] q q where
  sound := h
  now := rfl
  pending := rfl
  memory _ _ := rfl
  ran := (List.append_nil _).symm
  grown := ⟨rfl, rfl⟩
  scheduled _ := (or_iff_left List.not_mem_nil).symm

theorem Adds.trans {out : List Nat} {runs runs' : List (Timer τ)} {as as' : List (NewTimer τ)}
    {q q' q'' : TimerQueue τ} (h : Adds out runs as q q') (h' : Adds out runs' as' q' q'') :
    Adds out (runs ++ runs') (as ++ as') q q'' := by
  obtain ⟨hmade, hgrown⟩ := h.grown.made_grown as'
  refine ⟨h'.sound, h'.now.trans h.now, h'.pending.trans h.pending,
    fun p hp => (h'.memory p hp).trans (h.memory p hp), ?_, ⟨?_, ?_⟩, ?_⟩
  · rw [h'.ran, h.ran, List.append_assoc]
  · rw [grown_append, h'.grown.memory, hgrown.memory]
  · rw [grown_append, h'.grown.created, hgrown.created]
  · intro t
    rw [h'.scheduled, h.scheduled, hmade, made_append, List.mem_append, or_assoc]

section
variable {out : List Nat} {runs : List (Timer τ)} {as : List (NewTimer τ)} {q q' : TimerQueue τ}

theorem Adds.created (h : Adds out runs as q q') : q'.created = q.created ++ q.made as :=
  h.grown.created.trans (created_grown q as)

theorem Adds.live (h : Adds out runs as q q') {t : Timer τ} (ht : q'.Live t) :
    q.Live t ∨ t ∈ q.made as := by
  obtain ⟨p, hp⟩ := ht
  rw [h.grown.memory] at hp
  exact live_grown ⟨p, hp⟩

end

theorem scheduled_newTimer {q : TimerQueue τ} {a : NewTimer τ} {out : List Nat} (h : Sound out q)
    (hf : q.Fresh a.address) (t : Timer τ) : (q.newTimer a).Scheduled t ↔ q.Scheduled t := by
  constructor
  · rintro ⟨p, hp, hmem⟩
    have hkeyed : toLex (t.expiration, p) ∈ q.timers.elems := hmem
    obtain ⟨u, hu, -⟩ := h.keyed _ hkeyed
    have hne : p ≠ a.address := hf.ne hu
    rw [memory_newTimer_of_ne hne] at hp
    exact ⟨p, hp, hmem⟩
  · rintro ⟨p, hp, hmem⟩
    exact ⟨p, by rw [memory_newTimer_of_ne (hf.ne hp), hp], hmem⟩

/-- **`addTimer`** schedules the new timer. -/
theorem adds_addTimer {out : List Nat} {q : TimerQueue τ} (h : Sound out q) (a : NewTimer τ) :
    ∃ q', q.addTimer a = some q' ∧ Adds out [] [a] q q' := by
  unfold addTimer
  by_cases hf : q.Fresh a.address
  · have hnew := sound_newTimer h hf
    obtain ⟨t, ht, hins, hs⟩ := sound_insert hnew
    obtain rfl := Option.some.inj ((memory_newTimer_self q a).symm.trans ht)
    have hgrown : q.grown [a] = q.newTimer a := if_pos hf
    rw [if_pos hf]
    refine ⟨_, hins, hs, rfl, rfl, ?_, (List.append_nil _).symm, ?_, ?_⟩
    · intro p hp
      exact memory_newTimer_of_ne fun hpa => (List.nodup_cons.mp hnew.nodup).1 (hpa ▸ hp)
    · rw [hgrown]
      exact ⟨rfl, rfl⟩
    · intro u
      rw [scheduled_insert ht, scheduled_newTimer h hf, made_single hf, List.mem_singleton]
  · have hgrown : q.grown [a] = q := if_neg hf
    rw [if_neg hf]
    refine ⟨q, rfl, h, rfl, rfl, fun _ _ => rfl, (List.append_nil _).symm, ?_, ?_⟩
    · rw [hgrown]
      exact ⟨rfl, rfl⟩
    · intro u
      rw [made_single_of_not hf]
      exact (or_iff_left List.not_mem_nil).symm

theorem adds_foldlM {out : List Nat} {q : TimerQueue τ} (h : Sound out q) (as : List (NewTimer τ)) :
    ∃ q', as.foldlM addTimer q = some q' ∧ Adds out [] as q q' := by
  induction as generalizing q with
  | nil => exact ⟨q, rfl, .refl h⟩
  | cons a as ih =>
    obtain ⟨q1, hq1, h1⟩ := adds_addTimer h a
    obtain ⟨q2, hq2, h2⟩ := ih h1.sound
    refine ⟨q2, ?_, h1.trans h2⟩
    rw [List.foldlM_cons, hq1]
    exact hq2

/-- what `n` callbacks ask for, the first of them being number `k` -/
def asked {α : Type} (adds : Nat → List α) (k : Nat) : Nat → List α
  | 0 => []
  | n + 1 => adds k ++ asked adds (k + 1) n

/-- **The first loop** runs the timers at the addresses it is given. -/
theorem adds_runTimers {out expired : List Nat} {q : TimerQueue τ} {runs : List (Timer τ)}
    (adds : Nat → List (NewTimer τ)) (k : Nat) (h : Sound out q) (hsub : ∀ p ∈ expired, p ∈ out)
    (hruns : expired.map q.memory = runs.map some) :
    ∃ q', runTimers adds k expired q = some q' ∧ Adds out runs (asked adds k runs.length) q q' := by
  induction expired generalizing q runs k with
  | nil =>
    obtain rfl := List.map_eq_nil_iff.mp hruns.symm
    exact ⟨q, rfl, .refl h⟩
  | cons item rest ih =>
    obtain ⟨t, runs', rfl, ht, hrest⟩ := List.map_eq_cons_iff.mp hruns.symm
    have hlog : Adds out [t] [] q { q with ran := q.ran ++ [t] } :=
      ⟨⟨h.keyed, h.nodup, h.live, h.absent, h.address, h.named, h.unique⟩, rfl, rfl,
        fun _ _ => rfl, rfl, ⟨rfl, rfl⟩, (Adds.refl h).scheduled⟩
    obtain ⟨q1, hq1, h1⟩ := adds_foldlM hlog.sound (adds k)
    have hadds := hlog.trans h1
    have hmem : rest.map q1.memory = runs'.map some := by
      rw [hrest]
      exact List.map_congr_left fun p hp => hadds.memory p (hsub p (List.mem_cons_of_mem _ hp))
    obtain ⟨q2, hq2, h2⟩ := ih (k + 1) hadds.sound
      (fun p hp => hsub p (List.mem_cons_of_mem _ hp)) hmem
    refine ⟨q2, ?_, hadds.trans h2⟩
    rw [runTimers, ← ht]
    show ((adds k).foldlM addTimer { q with ran := q.ran ++ [t] }).bind _ = _
    rw [hq1]
    exact hq2

/-! ## taking the due timers out -/

/-- the timers that are due, in the order of the set -/
def due (q : TimerQueue τ) : List (Timer τ) :=
  (q.timers.before (toLex (q.nowChache, uintptrMax))).filterMap fun e => q.memory (ofLex e).2

/-- an entry lies before the sentry exactly when its time has come -/
theorem lt_sentry_iff {x now : TimeStamp} {p : Nat} (hp : p < uintptrMax) :
    toLex (x, p) < toLex (now, uintptrMax) ↔ x ≤ now := by
  rw [Prod.Lex.toLex_lt_toLex]
  constructor
  · rintro (hlt | ⟨heq, -⟩)
    · exact le_of_lt hlt
    · exact le_of_eq heq
  · intro hle
    rcases lt_or_eq_of_le hle with hlt | heq
    · exact .inl hlt
    · exact .inr ⟨heq, hp⟩

theorem map_filterMap {α β : Type} {f : α → Option β} {l : List α} (h : ∀ a ∈ l, ∃ b, f a = some b) :
    l.map f = (l.filterMap f).map some := by
  induction l with
  | nil => rfl
  | cons a l ih =>
    obtain ⟨b, hb⟩ := h a List.mem_cons_self
    rw [List.map_cons, List.filterMap_cons_some hb, List.map_cons, hb,
      ih fun c hc => h c (List.mem_cons_of_mem _ hc)]

section
variable {out : List Nat} {q : TimerQueue τ} (h : Sound out q)
include h

theorem mem_due_iff (t : Timer τ) : t ∈ q.due ↔ q.Scheduled t ∧ t.expiration ≤ q.nowChache := by
  unfold due
  rw [List.mem_filterMap]
  constructor
  · rintro ⟨e, he, ht⟩
    obtain ⟨hmem, hlt⟩ := SortedSet.mem_before_iff.mp he
    obtain ⟨u, hu, hexp⟩ := h.keyed e hmem
    obtain rfl := Option.some.inj (hu.symm.trans ht)
    have hdue : (ofLex e).1 ≤ q.nowChache := (lt_sentry_iff (h.address _ u hu)).mp hlt
    rw [← hexp] at hdue
    refine ⟨⟨(ofLex e).2, hu, ?_⟩, hdue⟩
    rw [hexp]
    exact hmem
  · rintro ⟨⟨p, hp, hmem⟩, hdue⟩
    refine ⟨toLex (t.expiration, p), SortedSet.mem_before_iff.mpr ⟨hmem, ?_⟩, hp⟩
    exact (lt_sentry_iff (h.address p t hp)).mpr hdue

theorem sorted_due : q.due.Pairwise fun t u => t.expiration ≤ u.expiration := by
  have hmem : ∀ e ∈ q.timers.before (toLex (q.nowChache, uintptrMax)), e ∈ q.timers.elems :=
    fun e he => (SortedSet.mem_before_iff.mp he).1
  refine List.Pairwise.filterMap _ ?_
    ((SortedSet.sorted_before q.timers _).imp_of_mem fun {a b} ha hb hab =>
      (⟨hmem a ha, hmem b hb, hab⟩ : a ∈ q.timers.elems ∧ b ∈ q.timers.elems ∧ a < b))
  rintro a b ⟨ha, hb, hab⟩ t ht u hu
  obtain ⟨t', ht', hta⟩ := h.keyed a ha
  obtain ⟨u', hu', hub⟩ := h.keyed b hb
  obtain rfl := Option.some.inj (ht'.symm.trans ht)
  obtain rfl := Option.some.inj (hu'.symm.trans hu)
  rw [hta, hub]
  exact (Prod.Lex.le_iff.mp (le_of_lt hab)).elim le_of_lt fun heq => le_of_eq heq.1

/-- an address has one entry -/
theorem entry_of_address {e e' : TimeStamp ×ₗ Nat} (he : e ∈ q.timers.elems)
    (he' : e' ∈ q.timers.elems) (hp : (ofLex e).2 = (ofLex e').2) : e = e' := by
  obtain ⟨t, ht, hexp⟩ := h.keyed e he
  obtain ⟨t', ht', hexp'⟩ := h.keyed e' he'
  rw [hp, ht'] at ht
  obtain rfl := Option.some.inj ht
  have hpair : ofLex e = ofLex e' := Prod.ext (hexp.symm.trans hexp') hp
  exact ofLex.injective hpair

theorem nodup_due : (q.due.map Timer.serial).Nodup := by
  refine List.pairwise_map.mpr (List.Pairwise.filterMap _ ?_
    ((SortedSet.sorted_before q.timers _).imp_of_mem fun {a b} ha hb hab =>
      (⟨(SortedSet.mem_before_iff.mp ha).1, (SortedSet.mem_before_iff.mp hb).1, hab⟩ :
        a ∈ q.timers.elems ∧ b ∈ q.timers.elems ∧ a < b)))
  rintro a b ⟨ha, hb, hab⟩ t ht u hu hserial
  have hp := h.unique _ t _ u ht hu hserial
  exact absurd (entry_of_address h ha hb hp) (ne_of_lt hab)

/-- **Taking out** the due timers leaves their addresses in use, and the others in the set. -/
theorem getExpired_spec :
    Sound (q.getExpired.1 ++ out) q.getExpired.2 ∧
      q.getExpired.1.map q.getExpired.2.memory = q.due.map some ∧
      ∀ t, q.getExpired.2.Scheduled t ↔ q.Scheduled t ∧ q.nowChache < t.expiration := by
  have hbefore : ∀ e ∈ q.timers.before (toLex (q.nowChache, uintptrMax)), e ∈ q.timers.elems :=
    fun e he => (SortedSet.mem_before_iff.mp he).1
  have hsince : ∀ e ∈ (q.timers.since (toLex (q.nowChache, uintptrMax))).elems,
      e ∈ q.timers.elems ∧ ¬ e < toLex (q.nowChache, uintptrMax) :=
    fun e he => SortedSet.mem_since_iff.mp he
  refine ⟨⟨fun e he => h.keyed e (hsince e he).1, ?_, ?_, ?_, h.address, h.named, h.unique⟩, ?_, ?_⟩
  · refine List.nodup_append.mpr ⟨?_, h.nodup, ?_⟩
    · refine List.pairwise_map.mpr ((SortedSet.sorted_before q.timers _).imp_of_mem ?_)
      intro a b ha hb hab hp
      exact absurd (entry_of_address h (hbefore a ha) (hbefore b hb) hp) (ne_of_lt hab)
    · intro p hp p' hp' heq
      obtain ⟨e, he, rfl⟩ := List.mem_map.mp hp
      exact h.absent e (hbefore e he) (heq ▸ hp')
  · intro p hp
    rcases List.mem_append.mp hp with hp | hp
    · obtain ⟨e, he, rfl⟩ := List.mem_map.mp hp
      obtain ⟨t, ht, -⟩ := h.keyed e (hbefore e he)
      exact ⟨t, ht⟩
    · exact h.live p hp
  · intro e he hmem
    rcases List.mem_append.mp hmem with hp | hp
    · obtain ⟨e', he', hp⟩ := List.mem_map.mp hp
      obtain rfl := entry_of_address h (hbefore e' he') (hsince e he).1 hp
      exact (hsince e' he).2 (SortedSet.mem_before_iff.mp he').2
    · exact h.absent e (hsince e he).1 hp
  · show (List.map _ (q.timers.before _)).map q.memory = _
    rw [List.map_map]
    refine map_filterMap fun e he => ?_
    obtain ⟨t, ht, -⟩ := h.keyed e (hbefore e he)
    exact ⟨t, ht⟩
  · intro t
    constructor
    · rintro ⟨p, hp, hmem⟩
      obtain ⟨hmem, hnlt⟩ := hsince _ hmem
      refine ⟨⟨p, hp, hmem⟩, not_le.mp fun hle => hnlt ?_⟩
      exact (lt_sentry_iff (h.address p t hp)).mpr hle
    · rintro ⟨⟨p, hp, hmem⟩, hlt⟩
      refine ⟨p, hp, SortedSet.mem_since_iff.mpr ⟨hmem, fun hsentry => ?_⟩⟩
      exact absurd ((lt_sentry_iff (h.address p t hp)).mp hsentry) (not_le.mpr hlt)

end

/-! ## putting the repeating ones back -/

theorem memory_update {q : TimerQueue τ} {item p : Nat} {o : Option (Timer τ)} {t : Timer τ}
    (hp : Function.update q.memory item o p = some t) :
    p = item ∧ o = some t ∨ p ≠ item ∧ q.memory p = some t := by
  by_cases hpi : p = item
  · subst hpi
    rw [Function.update_self] at hp
    exact .inl ⟨rfl, hp⟩
  · rw [Function.update_of_ne hpi] at hp
    exact .inr ⟨hpi, hp⟩

/-- the timers in the set stand elsewhere -/
theorem Sound.keyed_update {out : List Nat} {q : TimerQueue τ} {item : Nat}
    (h : Sound (item :: out) q) (o : Option (Timer τ)) : ∀ e ∈ q.timers.elems,
      ∃ t, Function.update q.memory item o (ofLex e).2 = some t ∧ t.expiration = (ofLex e).1 := by
  intro e he
  have hne : (ofLex e).2 ≠ item := fun heq => h.absent e he (heq ▸ List.mem_cons_self)
  obtain ⟨t, ht, hexp⟩ := h.keyed e he
  exact ⟨t, (Function.update_of_ne hne _ _).trans ht, hexp⟩

/-- a timer that is out of the set gets another expiration -/
theorem sound_reset {out : List Nat} {q : TimerQueue τ} {item : Nat} {u : Timer τ}
    (h : Sound (item :: out) q) (hu : q.memory item = some u) (x : TimeStamp) :
    Sound (item :: out)
      { q with memory := Function.update q.memory item (some { u with expiration := x }) } := by
  have hother : ∀ p, p ≠ item →
      Function.update q.memory item (some { u with expiration := x }) p = q.memory p :=
    fun p hp => Function.update_of_ne hp _ _
  -- a timer in use had its name before
  have hserial : ∀ p t, Function.update q.memory item (some { u with expiration := x }) p = some t →
      ∃ t0, q.memory p = some t0 ∧ t0.serial = t.serial := by
    intro p t hp
    rcases memory_update hp with ⟨rfl, ht⟩ | ⟨-, ht⟩
    · exact ⟨u, hu, by rw [← Option.some.inj ht]⟩
    · exact ⟨t, ht, rfl⟩
  refine ⟨h.keyed_update _, h.nodup, ?_, h.absent, ?_, ?_, ?_⟩
  · intro p hp
    by_cases hpi : p = item
    · exact ⟨{ u with expiration := x }, by rw [hpi]; exact Function.update_self _ _ _⟩
    · obtain ⟨t, ht⟩ := h.live p hp
      exact ⟨t, (hother p hpi).trans ht⟩
  · intro p t hp
    obtain ⟨t0, ht0, -⟩ := hserial p t hp
    exact h.address p t0 ht0
  · intro p t hp
    obtain ⟨t0, ht0, hs⟩ := hserial p t hp
    rw [← hs]
    exact h.named p t0 ht0
  · intro p t p' t' hp hp' hs
    obtain ⟨t0, ht0, hs0⟩ := hserial p t hp
    obtain ⟨t0', ht0', hs0'⟩ := hserial p' t' hp'
    exact h.unique p t0 p' t0' ht0 ht0' (by rw [hs0, hs0', hs])

/-- a timer that is out of the set is deleted -/
theorem sound_delete {out : List Nat} {q : TimerQueue τ} {item : Nat} (h : Sound (item :: out) q) :
    Sound out { q with memory := Function.update q.memory item none } := by
  obtain ⟨hitem, hnodup⟩ := List.nodup_cons.mp h.nodup
  have hother : ∀ p, p ≠ item → Function.update q.memory item none p = q.memory p :=
    fun p hp => Function.update_of_ne hp _ _
  have hold : ∀ p t, Function.update q.memory item none p = some t → q.memory p = some t := by
    intro p t hp
    rcases memory_update hp with ⟨-, ht⟩ | ⟨-, ht⟩
    · cases ht
    · exact ht
  refine ⟨h.keyed_update _, hnodup, ?_, fun e he hmem => h.absent e he (List.mem_cons_of_mem _ hmem),
    fun p t hp => h.address p t (hold p t hp), fun p t hp => h.named p t (hold p t hp),
    fun p t p' t' hp hp' => h.unique p t p' t' (hold p t hp) (hold p' t' hp')⟩
  · intro p hp
    have hne : p ≠ item := fun heq => hitem (heq ▸ hp)
    obtain ⟨t, ht⟩ := h.live p (List.mem_cons_of_mem _ hp)
    exact ⟨t, (hother p hne).trans ht⟩

/-- replacing what stands at an address out of the set does not change what is scheduled -/
theorem scheduled_update {out : List Nat} {q : TimerQueue τ} {item : Nat}
    (h : Sound (item :: out) q) (o : Option (Timer τ)) (t : Timer τ) :
    Scheduled { q with memory := Function.update q.memory item o } t ↔ q.Scheduled t := by
  have hne : ∀ p, toLex (t.expiration, p) ∈ q.timers.elems → p ≠ item :=
    fun p hmem heq => h.absent _ hmem (by rw [← heq]; exact List.mem_cons_self)
  constructor
  · rintro ⟨p, hp, hmem⟩
    have hp : Function.update q.memory item o p = some t := hp
    rw [Function.update_of_ne (hne p hmem)] at hp
    exact ⟨p, hp, hmem⟩
  · rintro ⟨p, hp, hmem⟩
    exact ⟨p, (Function.update_of_ne (hne p hmem) _ _).trans hp, hmem⟩

/-- of the timers in use only the one at `item` is `u` -/
theorem live_update {out : List Nat} {q : TimerQueue τ} {item : Nat} {u : Timer τ}
    (h : Sound (item :: out) q) (hu : q.memory item = some u) {o : Option (Timer τ)} {p : Nat}
    {t : Timer τ} (hp : Function.update q.memory item o p = some t) :
    q.Live t ∧ t ≠ u ∨ o = some t := by
  rcases memory_update hp with ⟨-, heq⟩ | ⟨hne, hp⟩
  · exact .inr heq
  · refine .inl ⟨⟨p, hp⟩, ?_⟩
    rintro rfl
    exact hne (h.unique p t item t hp hu rfl)

/-- what the second loop does with the timers `us`, which stand at `items` -/
structure PutBack (out items : List Nat) (us : List (Timer τ)) (q q' : TimerQueue τ) : Prop where
  sound : Sound out q'
  nowChache : q'.nowChache = q.nowChache
  pending : q'.pending = q.pending
  created : q'.created = q.created
  ran : q'.ran = q.ran
  others : ∀ p, p ∉ items → q'.memory p = q.memory p
  scheduled : ∀ t, q'.Scheduled t ↔
    q.Scheduled t ∨ ∃ u ∈ us, u.isRepeat = true ∧ t = u.resetExpiration q.nowChache
  live : ∀ t, q'.Live t → q.Live t ∧ t ∉ us ∨
    ∃ u ∈ us, u.isRepeat = true ∧ t = u.resetExpiration q.nowChache

theorem PutBack.nil {out : List Nat} {q : TimerQueue τ} (h : Sound out q) : PutBack out [] [] q q where
  sound := h
  nowChache := rfl
  pending := rfl
  created := rfl
  ran := rfl
  others _ _ := rfl
  scheduled _ := (or_iff_left fun ⟨_, hu, _⟩ => absurd hu List.not_mem_nil).symm
  live _ ht := .inl ⟨ht, List.not_mem_nil⟩

/-- what the second loop does with one timer -/
def putBack (q : TimerQueue τ) (item : Nat) (t : Timer τ) : Option (TimerQueue τ) :=
  if t.isRepeat then
    { q with memory := Function.update q.memory item (some (t.resetExpiration q.nowChache)) }.insert
      item
  else some { q with memory := Function.update q.memory item none }

theorem resetTimers_cons {q : TimerQueue τ} {item : Nat} {t : Timer τ} (h : q.memory item = some t)
    (rest : List Nat) : resetTimers (item :: rest) q = (q.putBack item t).bind (resetTimers rest) := by
  rw [resetTimers, h, putBack]
  by_cases hrep : t.isRepeat = true
  · rw [if_pos hrep]
    exact if_pos hrep
  · rw [if_neg hrep]
    exact if_neg hrep

/-- a repeating timer goes back into the set, another is deleted -/
theorem putBack_spec {out : List Nat} {q : TimerQueue τ} {item : Nat} {u : Timer τ}
    (h : Sound (item :: out) q) (hu : q.memory item = some u) :
    ∃ q', q.putBack item u = some q' ∧ PutBack out [item] [u] q q' := by
  unfold putBack
  have hothers : ∀ o p, p ∉ [item] → Function.update q.memory item o p = q.memory p :=
    fun o p hp => Function.update_of_ne (fun heq => hp (List.mem_singleton.mpr heq)) _ _
  have hnot : ∀ {t}, t ≠ u → t ∉ [u] := fun hne hmem => hne (List.mem_singleton.mp hmem)
  by_cases hrep : u.isRepeat = true
  · obtain ⟨t, ht, hins, hs⟩ := sound_insert (sound_reset h hu (addTime q.nowChache u.interval))
    have hself : Function.update q.memory item (some (u.resetExpiration q.nowChache)) item =
        some (u.resetExpiration q.nowChache) := Function.update_self _ _ _
    obtain rfl := Option.some.inj (hself.symm.trans ht)
    rw [if_pos hrep]
    refine ⟨_, hins, hs, rfl, rfl, rfl, rfl, hothers _, ?_, ?_⟩
    · intro t
      rw [scheduled_insert hself, scheduled_update h, List.exists_mem_cons_iff, and_iff_right hrep]
      exact or_congr_right (or_iff_left fun ⟨_, hu, _⟩ => absurd hu List.not_mem_nil).symm
    · rintro t ⟨p, hp⟩
      rcases live_update h hu hp with ⟨hlive, hne⟩ | heq
      · exact .inl ⟨hlive, hnot hne⟩
      · exact .inr ⟨u, List.mem_cons_self, hrep, (Option.some.inj heq).symm⟩
  · rw [if_neg hrep]
    refine ⟨_, rfl, sound_delete h, rfl, rfl, rfl, rfl, hothers _, ?_, ?_⟩
    · intro t
      rw [scheduled_update h]
      refine (or_iff_left ?_).symm
      rintro ⟨v, hv, hr, -⟩
      exact hrep (List.mem_singleton.mp hv ▸ hr)
    · rintro t ⟨p, hp⟩
      rcases live_update h hu hp with ⟨hlive, hne⟩ | heq
      · exact .inl ⟨hlive, hnot hne⟩
      · cases heq

/-- one timer after the other -/
theorem PutBack.cons {out items : List Nat} {us : List (Timer τ)} {item : Nat} {u : Timer τ}
    {q q₁ q' : TimerQueue τ} (h : PutBack (items ++ out) [item] [u] q q₁)
    (h' : PutBack out items us q₁ q') : PutBack out (item :: items) (u :: us) q q' := by
  have hsched' := h'.scheduled
  have hlive' := h'.live
  rw [h.nowChache] at hsched' hlive'
  refine ⟨h'.sound, h'.nowChache.trans h.nowChache, h'.pending.trans h.pending,
    h'.created.trans h.created, h'.ran.trans h.ran, ?_, ?_, ?_⟩
  · intro p hp
    obtain ⟨hitem, hitems⟩ := not_or.mp (mt List.mem_cons.mpr hp)
    exact (h'.others p hitems).trans (h.others p fun hmem => hitem (List.mem_singleton.mp hmem))
  · intro t
    rw [hsched', h.scheduled, or_assoc, List.exists_mem_cons_iff, List.exists_mem_cons_iff]
    refine or_congr_right (or_congr_left (or_iff_left ?_))
    exact fun ⟨_, hu, _⟩ => absurd hu List.not_mem_nil
  · intro t ht
    rw [List.exists_mem_cons_iff]
    rcases hlive' t ht with ⟨ht, hnot⟩ | hback
    · rcases h.live t ht with ⟨ht, hne⟩ | ⟨v, hv, hback⟩
      · refine .inl ⟨ht, fun hmem => ?_⟩
        exact (List.mem_cons.mp hmem).elim (fun heq => hne (List.mem_singleton.mpr heq)) hnot
      · exact .inr (.inl (List.mem_singleton.mp hv ▸ hback))
    · exact .inr (.inr hback)

/-- **The second loop** puts the repeating timers back and deletes the others. -/
theorem resetTimers_spec {out expired : List Nat} {q : TimerQueue τ} {runs : List (Timer τ)}
    (h : Sound (expired ++ out) q) (hruns : expired.map q.memory = runs.map some) :
    ∃ q', resetTimers expired q = some q' ∧ PutBack out expired runs q q' := by
  induction expired generalizing q runs with
  | nil =>
    obtain rfl := List.map_eq_nil_iff.mp hruns.symm
    exact ⟨q, rfl, .nil h⟩
  | cons item rest ih =>
    obtain ⟨u, runs, rfl, hu, hrest⟩ := List.map_eq_cons_iff.mp hruns.symm
    have hitem : item ∉ rest ++ out := (List.nodup_cons.mp h.nodup).1
    obtain ⟨q₁, hq₁, hput⟩ := putBack_spec h hu.symm
    have hmem : rest.map q₁.memory = runs.map some := by
      rw [hrest]
      refine List.map_congr_left fun p hp => hput.others p fun hmem => hitem ?_
      exact List.mem_singleton.mp hmem ▸ List.mem_append_left _ hp
    obtain ⟨q', hq', hput'⟩ := ih hput.sound hmem
    refine ⟨q', ?_, hput.cons hput'⟩
    rw [resetTimers_cons hu.symm, hq₁]
    exact hq'

/-! ## an iteration -/

/-- in an iteration `runs` have been run and `added` made: those run are the due ones, those in the
set afterwards the others, the new ones and the repeating ones -/
structure Fires (q q' : TimerQueue τ) (runs added : List (Timer τ)) : Prop where
  ran : q'.ran = q.ran ++ runs
  created : q'.created = q.created ++ added
  due : ∀ t, t ∈ runs ↔ q.Scheduled t ∧ t.expiration ≤ q.nowChache
  ordered : runs.Pairwise fun t u => t.expiration ≤ u.expiration
  once : (runs.map Timer.serial).Nodup
  scheduled : ∀ t, q'.Scheduled t ↔ q.Scheduled t ∧ q.nowChache < t.expiration ∨ t ∈ added ∨
    ∃ u ∈ runs, u.isRepeat = true ∧ t = u.resetExpiration q.nowChache
  gone : ∀ u ∈ runs, u.isRepeat = false → ∀ t, q'.Live t → t.serial ≠ u.serial

/-- no name is given twice -/
structure Ages (q q' : TimerQueue τ) : Prop where
  created : q.created.length ≤ q'.created.length
  live : ∀ t, q'.Live t →
    (∃ u, q.Live u ∧ u.serial = t.serial) ∨ q.created.length ≤ t.serial

theorem Adds.ages {out : List Nat} {runs : List (Timer τ)} {as : List (NewTimer τ)}
    {q q' : TimerQueue τ} (h : Adds out runs as q q') : Ages q q' := by
  refine ⟨?_, fun t ht => (h.live ht).imp (fun ht => ⟨t, ht, rfl⟩) le_serial_of_mem_made⟩
  rw [h.created, List.length_append]
  exact Nat.le_add_right _ _

/-- the timers that wait for their `addTimerInLoop`, in order -/
def waiting (q : TimerQueue τ) : List (Option (Timer τ)) := q.pending.map q.memory

/-- **An iteration** never follows a pointer to no timer, and fires what is due. -/
theorem handleTimeEvent_spec {q : TimerQueue τ} (h : Sound q.pending q)
    (adds : Nat → List (NewTimer τ)) :
    ∃ q', q.handleTimeEvent adds = some q' ∧ Sound q'.pending q' ∧ Ages q q' ∧
      Fires q q' q.due (q.made (asked adds 0 q.due.length)) ∧
      q'.waiting = q.waiting ∧ q'.nowChache = q.nowChache := by
  obtain ⟨h1, hruns, hsched1⟩ := getExpired_spec h
  obtain ⟨q2, hq2, h2⟩ := adds_runTimers adds 0 h1 (fun p hp => List.mem_append_left _ hp) hruns
  have hruns2 : q.getExpired.1.map q2.memory = q.due.map some := by
    rw [← hruns]
    exact List.map_congr_left fun p hp => h2.memory p (List.mem_append_left _ hp)
  obtain ⟨q3, hq3, h3⟩ := resetTimers_spec h2.sound hruns2
  -- taking timers out of the set frees no address
  have halike : Alike q q.getExpired.2 := ⟨rfl, rfl⟩
  have hmade := (halike.made_grown (asked adds 0 q.due.length)).1
  have hadded := h2.created
  have hsched2 := h2.scheduled
  rw [hmade] at hadded hsched2
  -- the timers that run stay where they are until the second loop
  have hdue : ∀ u ∈ q.due, q2.Live u ∧ q.Live u := by
    intro u hu
    obtain ⟨p, hp, hmem⟩ := List.mem_map.mp (hruns2 ▸ List.mem_map_of_mem hu)
    obtain ⟨⟨p', hp', -⟩, -⟩ := (mem_due_iff h u).mp hu
    exact ⟨⟨p, hmem⟩, p', hp'⟩
  have hnow : q2.nowChache = q.nowChache := h2.now
  have hpend : q3.pending = q.pending := h3.pending.trans h2.pending
  refine ⟨q3, ?_, ?_, ?_, ?_, ?_, h3.nowChache.trans hnow⟩
  · show (runTimers adds 0 q.getExpired.1 q.getExpired.2).bind _ = _
    rw [hq2]
    exact hq3
  · rw [hpend]
    exact h3.sound
  · refine ⟨h3.created ▸ h2.ages.created, fun t ht => ?_⟩
    rcases h3.live t ht with ⟨ht, -⟩ | ⟨u, hu, -, rfl⟩
    · exact h2.ages.live t ht
    · exact .inl ⟨u, (hdue u hu).2, rfl⟩
  · refine ⟨h3.ran.trans h2.ran, h3.created.trans hadded, mem_due_iff h, sorted_due h, nodup_due h,
      ?_, ?_⟩
    · intro t
      rw [h3.scheduled, hsched2, hsched1, hnow, or_assoc]
    · intro u hu hrep t ht heq
      obtain ⟨pu, hpu⟩ := (hdue u hu).1
      rcases h3.live t ht with ⟨⟨p, hp⟩, hnot⟩ | ⟨v, hv, hvrep, rfl⟩
      · exact hnot (h2.sound.eq_of_serial hp hpu heq ▸ hu)
      · obtain ⟨pv, hpv⟩ := (hdue v hv).1
        rw [h2.sound.eq_of_serial hpv hpu heq, hrep] at hvrep
        cases hvrep
  · rw [waiting, hpend]
    refine List.map_congr_left fun p hp => ?_
    have hnot : p ∉ q.getExpired.1 := fun hmem =>
      (List.nodup_append.mp h1.nodup).2.2 p hmem p hp rfl
    exact (h3.others p hnot).trans (h2.memory p (List.mem_append_right _ hp))

/-! ## runs -/

theorem Sound.perm {out out' : List Nat} {q : TimerQueue τ} (h : Sound out q)
    (hp : out.Perm out') : Sound out' q :=
  ⟨h.keyed, hp.nodup_iff.mp h.nodup, fun p hmem => h.live p (hp.mem_iff.mpr hmem),
    fun e he hmem => h.absent e he (hp.mem_iff.mpr hmem), h.address, h.named, h.unique⟩

/-- between two steps only the timers another thread has made are in use and not in the set -/
def Consistent (q : TimerQueue τ) : Prop := Sound q.pending q

theorem consistent_empty : Consistent ({} : TimerQueue τ) := sound_empty

/-- a step that runs nothing, makes the timers `created` and puts `scheduled` into the set -/
structure Inserts (q q' : TimerQueue τ) (created scheduled : List (Timer τ)) : Prop where
  now : q'.nowChache = q.nowChache
  ran : q'.ran = q.ran
  created : q'.created = q.created ++ created
  scheduled : ∀ t, q'.Scheduled t ↔ q.Scheduled t ∨ t ∈ scheduled

/-- what a step is for: `addTimer` makes the timer it is asked for and puts it into the set, from
another thread by way of the queue of the loop; an iteration fires what is due -/
def Meets (q : TimerQueue τ) : TimerAct τ → TimerQueue τ → Prop
  | .getNextTimerTimerOut now, q' => q' = { q with nowChache := now }
  | .addTimer a, q' => Inserts q q' (q.made [a]) (q.made [a]) ∧ q'.waiting = q.waiting
  | .postTimer a, q' => Inserts q q' (q.made [a]) [] ∧
      q'.waiting = q.waiting ++ (q.made [a]).map some
  | .addTimerInLoop, q' => Inserts q q' [] (q.waiting.head?.bind id).toList ∧
      q'.waiting = q.waiting.tail
  | .handleTimeEvent adds, q' => Fires q q' q.due (q.made (asked adds 0 q.due.length)) ∧
      q'.waiting = q.waiting ∧ q'.nowChache = q.nowChache

theorem postTimer_spec {q : TimerQueue τ} (h : q.Consistent) (a : NewTimer τ) :
    (q.postTimer a).Consistent ∧ Ages q (q.postTimer a) ∧
      q.Meets (.postTimer a) (q.postTimer a) := by
  unfold postTimer
  by_cases hf : q.Fresh a.address
  · rw [if_pos hf]
    have hs := (sound_newTimer h hf).perm (List.perm_append_singleton a.address q.pending).symm
    refine ⟨⟨hs.keyed, hs.nodup, hs.live, hs.absent, hs.address, hs.named, hs.unique⟩,
      ⟨?_, fun t ht => ?_⟩, ⟨rfl, rfl, ?_, fun t => ?_⟩, ?_⟩
    · show _ ≤ (q.created ++ [_]).length
      rw [List.length_append]
      exact Nat.le_add_right _ _
    · rcases live_newTimer (q := q) (a := a) ht with ht | ht
      · exact .inl ⟨t, ht, rfl⟩
      · rw [List.mem_singleton.mp ht]
        exact .inr le_rfl
    · rw [made_single hf]
      rfl
    · exact (scheduled_newTimer h hf t).trans (or_iff_left List.not_mem_nil).symm
    · show (q.pending ++ [a.address]).map (q.newTimer a).memory = _
      rw [List.map_append, List.map_singleton, memory_newTimer_self, made_single hf]
      congr 1
      refine List.map_congr_left fun p hp => memory_newTimer_of_ne ?_
      obtain ⟨t, ht⟩ := h.live p hp
      exact hf.ne ht
  · rw [if_neg hf]
    refine ⟨h, ⟨le_rfl, fun t ht => .inl ⟨t, ht, rfl⟩⟩, ⟨rfl, rfl, ?_, fun t => ?_⟩, ?_⟩
    · rw [made_single_of_not hf, List.append_nil]
    · exact (or_iff_left List.not_mem_nil).symm
    · rw [made_single_of_not hf]
      exact (List.append_nil _).symm

theorem addTimerInLoop_spec {q : TimerQueue τ} (h : q.Consistent) :
    ∃ q', q.addTimerInLoop = some q' ∧ q'.Consistent ∧ Ages q q' ∧
      q.Meets .addTimerInLoop q' := by
  unfold addTimerInLoop
  rcases hq : q.pending with _ | ⟨p, pending⟩
  · have hwaiting : q.waiting = [] := by
      rw [waiting, hq]
      rfl
    refine ⟨q, rfl, h, ⟨le_rfl, fun t ht => .inl ⟨t, ht, rfl⟩⟩,
      ⟨rfl, rfl, (List.append_nil _).symm, fun t => ?_⟩, ?_⟩
    · rw [hwaiting]
      exact (or_iff_left List.not_mem_nil).symm
    · rw [hwaiting]
      rfl
  · rw [Consistent, hq] at h
    obtain ⟨t, ht, hins, hs⟩ := sound_insert (q := { q with pending })
      ⟨h.keyed, h.nodup, h.live, h.absent, h.address, h.named, h.unique⟩
    have hwaiting : q.waiting = some t :: pending.map q.memory := by
      rw [waiting, hq, List.map_cons]
      exact congrArg (· :: _) ht
    refine ⟨_, hins, hs, ⟨le_rfl, fun t ht => .inl ⟨t, ht, rfl⟩⟩,
      ⟨rfl, rfl, (List.append_nil _).symm, fun u => ?_⟩, ?_⟩
    · rw [hwaiting]
      exact (scheduled_insert ht).trans (or_congr_right List.mem_singleton.symm)
    · rw [hwaiting]
      rfl

/-- the computation of the timeout only keeps the reading of the clock -/
theorem snd_getNextTimerTimerOut (q : TimerQueue τ) (now : TimeStamp) :
    (q.getNextTimerTimerOut now).2 = { q with nowChache := now } := by
  simp only [getNextTimerTimerOut]
  split
  · rfl
  · split <;> rfl

/-- **One step.**  Nothing the loop does follows a pointer to no timer. -/
theorem exec_spec {q : TimerQueue τ} (h : q.Consistent) (a : TimerAct τ) :
    ∃ q', q.exec a = some q' ∧ q'.Consistent ∧ Ages q q' ∧ q.Meets a q' := by
  cases a with
  | getNextTimerTimerOut now =>
    refine ⟨_, rfl, ?_⟩
    rw [snd_getNextTimerTimerOut]
    exact ⟨⟨h.keyed, h.nodup, h.live, h.absent, h.address, h.named, h.unique⟩,
      ⟨le_rfl, fun t ht => .inl ⟨t, ht, rfl⟩⟩, rfl⟩
  | addTimer a =>
    obtain ⟨q', hq', hadds⟩ := adds_addTimer h a
    have hs : q'.Consistent := by
      rw [Consistent, hadds.pending]
      exact hadds.sound
    refine ⟨q', hq', hs, hadds.ages, ⟨hadds.now, hadds.ran.trans (List.append_nil _),
      hadds.created, hadds.scheduled⟩, ?_⟩
    rw [waiting, hadds.pending]
    exact List.map_congr_left hadds.memory
  | postTimer a => exact ⟨_, rfl, postTimer_spec h a⟩
  | addTimerInLoop => exact addTimerInLoop_spec h
  | handleTimeEvent adds => exact handleTimeEvent_spec h adds

/-- no timer in use has the name `k`, and none will get it -/
def Retired (k : Nat) (q : TimerQueue τ) : Prop :=
  k < q.created.length ∧ ∀ t, q.Live t → t.serial ≠ k

theorem Retired.mono {k : Nat} {q q' : TimerQueue τ} (h : Retired k q) (ha : Ages q q') :
    Retired k q' := by
  refine ⟨Nat.lt_of_lt_of_le h.1 ha.created, fun t ht => ?_⟩
  rcases ha.live t ht with ⟨u, hu, hserial⟩ | hle
  · exact hserial ▸ h.2 u hu
  · have := h.1
    omega

/-- only an iteration runs timers and takes them out of the set -/
theorem Meets.still {q q' : TimerQueue τ} {a : TimerAct τ} (hm : q.Meets a q')
    (hne : ∀ adds, a ≠ .handleTimeEvent adds) :
    q'.ran = q.ran ∧ ∀ t, q.Scheduled t → q'.Scheduled t := by
  cases a with
  | getNextTimerTimerOut now =>
    obtain rfl := hm
    exact ⟨rfl, fun _ ht => ht⟩
  | handleTimeEvent adds => exact absurd rfl (hne adds)
  | _ => exact ⟨hm.1.ran, fun t ht => (hm.1.scheduled t).mpr (.inl ht)⟩

/-- the timers that a step makes -/
def makes (q : TimerQueue τ) : TimerAct τ → List (Timer τ)
  | .addTimer a | .postTimer a => q.made [a]
  | .handleTimeEvent adds => q.made (asked adds 0 q.due.length)
  | _ => []

theorem Meets.created {q q' : TimerQueue τ} {a : TimerAct τ} (hm : q.Meets a q') :
    q'.created = q.created ++ q.makes a := by
  cases a with
  | getNextTimerTimerOut now =>
    obtain rfl := hm
    exact (List.append_nil _).symm
  | _ => exact hm.1.created

/-- a timer that is not in use is not run -/
theorem Retired.not_ran {k : Nat} {q q' : TimerQueue τ} {a : TimerAct τ} (h : Retired k q)
    (hm : q.Meets a q') : ∃ runs, q'.ran = q.ran ++ runs ∧ ∀ t ∈ runs, t.serial ≠ k := by
  by_cases hfire : ∃ adds, a = .handleTimeEvent adds
  · obtain ⟨adds, rfl⟩ := hfire
    obtain ⟨hf, -⟩ := hm
    refine ⟨q.due, hf.ran, fun t ht => ?_⟩
    obtain ⟨⟨p, hp, -⟩, -⟩ := (hf.due t).mp ht
    exact h.2 t ⟨p, hp⟩
  · have hran := (hm.still fun adds heq => hfire ⟨adds, heq⟩).1
    exact ⟨[], hran.trans (List.append_nil _).symm, fun _ ht => absurd ht List.not_mem_nil⟩

theorem Step.spec {q q' : TimerQueue τ} {a : TimerAct τ} (hst : Step q a q')
    (h : q.Consistent) : q'.Consistent ∧ Ages q q' ∧ q.Meets a q' := by
  obtain ⟨hexec⟩ := hst
  obtain ⟨r, hr, hspec⟩ := exec_spec h a
  obtain rfl := Option.some.inj (hr.symm.trans hexec)
  exact hspec

/-- a one-shot timer that has run is not in use any more -/
theorem Meets.retired {q q' : TimerQueue τ} {a : TimerAct τ} (hm : q.Meets a q')
    (h : q.Consistent) (ha : Ages q q') {runs : List (Timer τ)}
    (hran : q'.ran = q.ran ++ runs) {u : Timer τ} (hu : u ∈ runs) (hrep : u.isRepeat = false) :
    Retired u.serial q' := by
  by_cases hfire : ∃ adds, a = .handleTimeEvent adds
  · obtain ⟨adds, rfl⟩ := hfire
    obtain ⟨hf, -⟩ := hm
    obtain rfl : q.due = runs := List.append_cancel_left (hf.ran.symm.trans hran)
    obtain ⟨⟨p, hp, -⟩, -⟩ := (hf.due u).mp hu
    exact ⟨Nat.lt_of_lt_of_le (h.named p u hp) ha.created, hf.gone u hu hrep⟩
  · have hsame := (hm.still fun adds heq => hfire ⟨adds, heq⟩).1
    have hnil : runs = [] := List.append_cancel_left
      (hran.symm.trans (hsame.trans (List.append_nil _).symm))
    exact absurd hu (hnil ▸ List.not_mem_nil)

/-- the timers that the steps of a run make -/
def madeBy (tr : List (Tr (TimerQueue τ) (TimerAct τ))) : List (Timer τ) :=
  tr.flatMap fun e => e.pre.makes e.act

section
variable {tr : List (Tr (TimerQueue τ) (TimerAct τ))} (h : Path Step {} tr)
include h

/-- every step of a run does what it is for -/
theorem meets_run : ∀ e ∈ tr, e.pre.Meets e.act e.post := by
  have hmeets : ∀ (q : TimerQueue τ) (a : TimerAct τ) (q' : TimerQueue τ), q.Consistent →
      Step q a q' → q'.Consistent ∧ q.Meets a q' := fun q a q' h hst =>
    ⟨(hst.spec h).1, (hst.spec h).2.2⟩
  have hall := h.inv (P := fun e => e.pre.Meets e.act e.post) hmeets consistent_empty
  exact fun e he => (hall e he).2.2

/-- the timers that a run has made are those its steps have asked for, in order -/
theorem created_run : (last {} tr).created = madeBy tr := by
  have hstep : ∀ (past : List (Tr (TimerQueue τ) (TimerAct τ))) (q : TimerQueue τ) (a : TimerAct τ)
      (q' : TimerQueue τ), (q.Consistent ∧ q.created = madeBy past) → Step q a q' →
      q'.Consistent ∧ q'.created = madeBy (past ++ [⟨q, a, q'⟩]) := by
    rintro past q a q' ⟨hq, hc⟩ hst
    obtain ⟨hq', -, hm⟩ := hst.spec hq
    refine ⟨hq', ?_⟩
    rw [hm.created, hc, madeBy, madeBy, List.flatMap_append, List.flatMap_singleton]
  exact (h.history (I := fun past q => q.Consistent ∧ q.created = madeBy past) hstep
    ⟨consistent_empty, rfl⟩).2

/-- a one-shot timer that has run is never run again -/
theorem once_run {l r : List (Tr (TimerQueue τ) (TimerAct τ))} {e : Tr (TimerQueue τ) (TimerAct τ)}
    (htr : tr = l ++ e :: r) {runs : List (Timer τ)} (hran : e.post.ran = e.pre.ran ++ runs)
    {u : Timer τ} (hu : u ∈ runs) (hrep : u.isRepeat = false) :
    ∀ e' ∈ r, ∃ again, e'.post.ran = e'.pre.ran ++ again ∧ ∀ t ∈ again, t.serial ≠ u.serial := by
  -- from the iteration on which ran it, the name of the timer is retired
  have hinv : ∀ (q : TimerQueue τ) (a : TimerAct τ) (q' : TimerQueue τ), q.Consistent →
      Step q a q' → True → q'.Consistent ∧ (q'.ran = q.ran ++ runs →
        Retired u.serial q') := by
    intro q a q' h hst _
    obtain ⟨hs, ha, hm⟩ := hst.spec h
    exact ⟨hs, fun hran => hm.retired h ha hran hu hrep⟩
  have hkeep : ∀ (q : TimerQueue τ) (a : TimerAct τ) (q' : TimerQueue τ), q.Consistent →
      Retired u.serial q → Step q a q' → True → Retired u.serial q' ∧ ∃ again,
        q'.ran = q.ran ++ again ∧ ∀ t ∈ again, t.serial ≠ u.serial := by
    intro q a q' h hret hst _
    obtain ⟨-, ha, hm⟩ := hst.spec h
    exact ⟨hret.mono ha, hret.not_ran hm⟩
  exact h.after (G := fun _ _ => True) (E := fun e => e.post.ran = e.pre.ran ++ runs)
    (P := fun e => ∃ again, e.post.ran = e.pre.ran ++ again ∧ ∀ t ∈ again, t.serial ≠ u.serial)
    hinv hkeep consistent_empty (fun _ _ => trivial) htr hran

end

/-! ## the time handed to `epoll_wait` -/

/-- the microseconds from the reading of the clock to the expiration -/
def ahead (e : TimeStamp ×ₗ Nat) (now : TimeStamp) : Int := (ofLex e).1 - now

/-- a distance in microseconds as whole milliseconds, rounded up; 0 where it is past -/
def millisUp (distance : Int) : Int := (max distance 0 + 999) / 1000

/-- `epoll_wait` blocks for ever only without a timer, and does not oversleep one -/
def WakesInTime (q : TimerQueue τ) (now : TimeStamp) (timeout : Int) : Prop :=
  (timeout < 0 → q.timers.elems = []) ∧
    ∀ e ∈ q.timers.elems, 0 ≤ timeout ∧ timeout ≤ millisUp (ahead e now)

/-- the first timer is due, or its distance modulo 2^32 is no more than its milliseconds -/
def Near (q : TimerQueue τ) (now : TimeStamp) : Prop :=
  ∀ e, q.timers.elems.head? = some e →
    timeDifference (ofLex e).1 now ≤ 0 ∨
      ahead e now % 2 ^ 32 < 2 ^ 31 ∧ ahead e now % 2 ^ 32 ≤ millisUp (ahead e now)

theorem millisUp_mono {d d' : Int} (h : d ≤ d') : millisUp d ≤ millisUp d' := by
  unfold millisUp
  omega

/-- an `int64_t` handed on as an `int` -/
theorem pollTimeout_first {q : TimerQueue τ} {now : TimeStamp} {e : TimeStamp ×ₗ Nat}
    (he : q.timers.elems.head? = some e) :
    q.pollTimeout now = if timeDifference (ofLex e).1 now ≤ 0 then 0
      else Int.bmod (ahead e now) (2 ^ 32) := by
  unfold pollTimeout getNextTimerTimerOut
  dsimp only
  rw [he]
  dsimp only
  split
  · rfl
  · exact Int.bmod_bmod_of_dvd (pow_dvd_pow 2 (by omega))

/-- an `int` is the number modulo 2^32 exactly when it is not negative -/
theorem bmod_nonneg_iff (d : Int) :
    0 ≤ Int.bmod d (2 ^ 32) ↔ d % 2 ^ 32 < 2 ^ 31 ∧ Int.bmod d (2 ^ 32) = d % 2 ^ 32 := by
  rw [Int.bmod_def]
  split <;> omega

/-- **The poll timeout** is right exactly when the first timer is near: its microseconds are handed
on as milliseconds. -/
theorem poll_timeout_iff (q : TimerQueue τ) (now : TimeStamp) :
    q.WakesInTime now (q.pollTimeout now) ↔ q.Near now := by
  rcases hq : q.timers.elems.head? with _ | e
  · have hnil : q.timers.elems = [] := List.head?_eq_none_iff.mp hq
    refine iff_of_true ⟨fun _ => hnil, ?_⟩ ?_
    · rw [hnil]
      exact fun _ he => absurd he List.not_mem_nil
    · intro e he
      rw [hq] at he
      cases he
  · have hmem : e ∈ q.timers.elems := List.mem_of_mem_head? hq
    have hfirst : q.WakesInTime now (q.pollTimeout now) ↔
        0 ≤ q.pollTimeout now ∧ q.pollTimeout now ≤ millisUp (ahead e now) := by
      constructor
      · exact fun h => h.2 e hmem
      · rintro ⟨hpos, hle⟩
        refine ⟨fun hneg => absurd hpos (not_le_of_gt hneg), fun e' he' => ⟨hpos, ?_⟩⟩
        have hfst : (ofLex e).1 ≤ (ofLex e').1 :=
          (Prod.Lex.le_iff.mp (SortedSet.head_le hq he')).elim le_of_lt fun heq => le_of_eq heq.1
        exact hle.trans (millisUp_mono (Int.sub_le_sub_right hfst now))
    have hnear : q.Near now ↔ timeDifference (ofLex e).1 now ≤ 0 ∨
        ahead e now % 2 ^ 32 < 2 ^ 31 ∧ ahead e now % 2 ^ 32 ≤ millisUp (ahead e now) := by
      unfold Near
      rw [hq]
      exact ⟨fun h => h e rfl, fun h e' he' => Option.some.inj he' ▸ h⟩
    rw [hfirst, hnear, pollTimeout_first hq]
    by_cases hdue : timeDifference (ofLex e).1 now ≤ 0
    · rw [if_pos hdue]
      refine iff_of_true ⟨le_rfl, ?_⟩ (.inl hdue)
      unfold millisUp
      omega
    · rw [if_neg hdue, or_iff_right hdue, bmod_nonneg_iff]
      constructor
      · rintro ⟨⟨hlt, heq⟩, hle⟩
        exact ⟨hlt, heq ▸ hle⟩
      · rintro ⟨hlt, hle⟩
        have heq : Int.bmod (ahead e now) (2 ^ 32) = ahead e now % 2 ^ 32 :=
          Int.bmod_eq_emod_of_lt (by omega)
        exact ⟨⟨hlt, heq⟩, heq.symm ▸ hle⟩

/-- a second -/
def oneSecond : Interval := ⟨1000000, true, fun _ => by decide⟩

/-- a timer that is due in a second: `epoll_wait` gets 1000000 milliseconds -/
theorem poll_timeout_second :
    ∃ q : TimerQueue Unit, ({} : TimerQueue Unit).addTimer (runAfter 0 4096 oneSecond ()) = some q ∧
      q.pollTimeout 0 = 1000000 ∧ ¬ q.WakesInTime 0 (q.pollTimeout 0) := by
  refine ⟨_, rfl, by decide, fun h => ?_⟩
  have hle := (h.2 _ List.mem_cons_self).2
  revert hle
  decide

end TimerQueue

end Feipu
