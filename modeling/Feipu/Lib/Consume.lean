import Mathlib.Data.List.Basic

/-!
# Incremental consumers

A consumer looks at the symbols at hand and either asks for more, uses some of them up and goes on
(`take`), or stops with an outcome (`stop`).  `drive` runs it over one buffer; `feed` hands it a
sequence of chunks, each appended to what the calls before left over.

A consumer is `Stable` when a verdict other than `more` does not change as the buffer grows.  Then
the outcome and the final state depend on the concatenation of the chunks alone (`feed_eq_run`,
`feed_start`).
-/

namespace Consume

/-- what a consumer does with the symbols at hand; `n` is the number of symbols used up -/
inductive Verdict (σ ο : Type*) where
  | more
  | take (n : Nat) (s : σ)
  | stop (o : ο) (n : Nat) (s : σ)

variable {σ ο α : Type*} (step : σ → List α → Verdict σ ο)

/-- run over one buffer: the outcome (if it stopped), the state and the unused symbols -/
def drive : Nat → σ → List α → Option ο × σ × List α
  | 0, s, buf => (none, s, buf)
  | k + 1, s, buf =>
    match step s buf with
    | .more => (none, s, buf)
    | .take n s' => drive k s' (buf.drop n)
    | .stop o n s' => (some o, s', buf.drop n)

/-- every `take` uses up at least one symbol, so this fuel suffices -/
def run (s : σ) (buf : List α) : Option ο × σ × List α := drive step (buf.length + 1) s buf

/-- chunk after chunk, up to the first outcome -/
def feed (s : σ) (buf : List α) : List (List α) → Option ο × σ
  | [] => (none, s)
  | c :: cs =>
    match run step s (buf ++ c) with
    | (some o, s', _) => (some o, s')
    | (none, s', rest) => feed s' rest cs

/-- verdicts survive further input -/
structure Stable : Prop where
  take_pos : ∀ {s buf n s'}, step s buf = .take n s' → 0 < n ∧ n ≤ buf.length
  take_ext : ∀ {s buf n s'} (e : List α), step s buf = .take n s' → step s (buf ++ e) = .take n s'
  stop_ext : ∀ {s buf o n s'} (e : List α), step s buf = .stop o n s' →
    ∃ n', step s (buf ++ e) = .stop o n' s'

variable {step}

theorem drive_fuel (h : Stable step) (k k' : Nat) (s : σ) (buf : List α)
    (hk : buf.length < k) (hk' : buf.length < k') : drive step k s buf = drive step k' s buf := by
  induction k generalizing k' s buf with
  | zero => omega
  | succ k ih =>
    cases k' with
    | zero => omega
    | succ k' =>
      cases hv : step s buf with
      | more => simp only [drive, hv]
      | stop o n s' => simp only [drive, hv]
      | take n s' =>
        obtain ⟨h1, h2⟩ := h.take_pos hv
        simp only [drive, hv]
        exact ih k' s' (buf.drop n) (by rw [List.length_drop]; omega)
          (by rw [List.length_drop]; omega)

theorem run_more {s : σ} {buf : List α} (hv : step s buf = .more) :
    run step s buf = (none, s, buf) := by
  simp only [run, drive, hv]

theorem run_stop {s s' : σ} {buf : List α} {o : ο} {n : Nat} (hv : step s buf = .stop o n s') :
    run step s buf = (some o, s', buf.drop n) := by
  simp only [run, drive, hv]

theorem run_take (h : Stable step) {s s' : σ} {buf : List α} {n : Nat}
    (hv : step s buf = .take n s') : run step s buf = run step s' (buf.drop n) := by
  obtain ⟨h1, h2⟩ := h.take_pos hv
  unfold run
  rw [drive, hv]
  exact drive_fuel h _ _ s' (buf.drop n) (by rw [List.length_drop]; omega) (by omega)

/-- induction along a run: the buffer shrinks with every `take` -/
theorem run_induction (h : Stable step) {motive : σ → List α → Prop}
    (more : ∀ s buf, step s buf = .more → motive s buf)
    (stop : ∀ s buf o n s', step s buf = .stop o n s' → motive s buf)
    (take : ∀ s buf n s', step s buf = .take n s' → motive s' (buf.drop n) → motive s buf)
    (s : σ) (buf : List α) : motive s buf := by
  induction hl : buf.length using Nat.strongRecOn generalizing s buf with
  | ind m ih =>
    cases hv : step s buf with
    | more => exact more s buf hv
    | stop o n s' => exact stop s buf o n s' hv
    | take n s' =>
      obtain ⟨h1, h2⟩ := h.take_pos hv
      exact take s buf n s' hv
        (ih (buf.drop n).length (by rw [List.length_drop]; omega) s' (buf.drop n) rfl)

/-- a run that asked for more goes on where it was when input arrives -/
theorem run_append_of_none (h : Stable step) (e : List α) (s : σ) (buf : List α) {s' : σ}
    {rest : List α} (hr : run step s buf = (none, s', rest)) :
    run step s (buf ++ e) = run step s' (rest ++ e) := by
  induction s, buf using run_induction h with
  | more s buf hv =>
    rw [run_more hv] at hr
    obtain ⟨rfl, rfl⟩ := Prod.mk.inj (Prod.mk.inj hr).2
    rfl
  | stop s buf o n t hv =>
    rw [run_stop hv] at hr
    exact absurd (Prod.mk.inj hr).1 (by simp)
  | take s buf n t hv ih =>
    rw [run_take h hv] at hr
    rw [run_take h (h.take_ext e hv), List.drop_append_of_le_length (h.take_pos hv).2]
    exact ih hr

/-- a run that stopped stops the same way when there is more input -/
theorem run_append_of_some (h : Stable step) (e : List α) (s : σ) (buf : List α) {o : ο} {s' : σ}
    {rest : List α} (hr : run step s buf = (some o, s', rest)) :
    ∃ rest', run step s (buf ++ e) = (some o, s', rest') := by
  induction s, buf using run_induction h with
  | more s buf hv =>
    rw [run_more hv] at hr
    exact absurd (Prod.mk.inj hr).1 (by simp)
  | stop s buf o' n t hv =>
    rw [run_stop hv] at hr
    obtain ⟨ho, hs⟩ := Prod.mk.inj hr
    obtain ⟨n', hn'⟩ := h.stop_ext e hv
    exact ⟨(buf ++ e).drop n', by rw [run_stop hn', ho, (Prod.mk.inj hs).1]⟩
  | take s buf n t hv ih =>
    rw [run_take h hv] at hr
    rw [run_take h (h.take_ext e hv), List.drop_append_of_le_length (h.take_pos hv).2]
    exact ih hr

/-- what is left after a run that asked for more does not let the consumer go on by itself -/
theorem run_none_rest (h : Stable step) (s : σ) (buf : List α) {s' : σ} {rest : List α}
    (hr : run step s buf = (none, s', rest)) : step s' rest = .more := by
  induction s, buf using run_induction h with
  | more s buf hv =>
    rw [run_more hv] at hr
    obtain ⟨rfl, rfl⟩ := Prod.mk.inj (Prod.mk.inj hr).2
    exact hv
  | stop s buf o n t hv =>
    rw [run_stop hv] at hr
    exact absurd (Prod.mk.inj hr).1 (by simp)
  | take s buf n t hv ih =>
    rw [run_take h hv] at hr
    exact ih hr

/-- **Chunks do not matter.**  From a state waiting for input, feeding chunks gives the outcome and
the state of one run over everything. -/
theorem feed_eq_run (h : Stable step) (cs : List (List α)) (s : σ) (buf : List α)
    (hs : step s buf = .more) :
    feed step s buf cs =
      ((run step s (buf ++ cs.flatten)).1, (run step s (buf ++ cs.flatten)).2.1) := by
  induction cs generalizing s buf with
  | nil => rw [List.flatten_nil, List.append_nil, run_more hs]; rfl
  | cons c cs ih =>
    rw [List.flatten_cons, ← List.append_assoc]
    rcases hr : run step s (buf ++ c) with ⟨_ | o, s', rest⟩
    · rw [run_append_of_none h cs.flatten s (buf ++ c) hr,
        ← ih s' rest (run_none_rest h s (buf ++ c) hr)]
      simp only [feed, hr]
    · obtain ⟨rest', hr'⟩ := run_append_of_some h cs.flatten s (buf ++ c) hr
      rw [hr']
      simp only [feed, hr]

/-- with nothing left over at the start -/
theorem feed_start (h : Stable step) (cs : List (List α)) {s : σ} (hs : step s [] = .more) :
    feed step s [] cs = ((run step s cs.flatten).1, (run step s cs.flatten).2.1) :=
  feed_eq_run h cs s [] hs

end Consume
