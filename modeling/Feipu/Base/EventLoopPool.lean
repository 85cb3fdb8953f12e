import Mathlib.Data.Int.CardIntervalMod
import Feipu.Lib.Refine

/-!
# `EventLoopPool` (base/src/EventLoopPool.cpp)

The loops of a server's threads, handed out in turn.  All calls are made on the thread of the main
loop, which is the only thing the calls check.

* `selection_iff`  the picks stay inside `loops_`, and share its first `loop_num_` loops evenly,
                   exactly where the cursor is below `loop_num_` and the loops for it were made:
                   `setNum` touches neither, and `getNextLoop` wraps around only on equality.
-/

namespace Feipu

/-- the loops, by their addresses: the threads are numbered as they are made -/
inductive Loop where
  | main
  | worker (id : Nat)
deriving DecidableEq

structure EventLoopPool where
  loops : List Loop := []
  loopNum : Nat := 0
  count : Nat := 0
  /-- the loops the callback of `start` was called with -/
  inits : List Loop := []

namespace EventLoopPool

/-! ## the calls -/

def setNum (p : EventLoopPool) (loopNum : BitVec 16) : EventLoopPool :=
  { p with loopNum := loopNum.toNat }

/-- the callback, where there is one -/
def init (p : EventLoopPool) (cb : Bool) (l : Loop) : EventLoopPool :=
  { p with inits := if cb then p.inits ++ [l] else p.inits }

/-- `n` turns of the loop of `start`; the new thread calls the callback before `startloop` is
back -/
def spawn (p : EventLoopPool) (cb : Bool) : Nat → EventLoopPool
  | 0 => p
  | n + 1 =>
    let l := Loop.worker p.loops.length
    spawn { p.init cb l with loops := p.loops ++ [l] } cb n

def start (p : EventLoopPool) (cb : Bool) : EventLoopPool :=
  if p.loopNum = 0 then p.init cb .main else p.spawn cb p.loopNum

/-- `none` is the access outside `loops_` -/
def getNextLoop (p : EventLoopPool) : Option (Loop × EventLoopPool) :=
  if p.loopNum = 0 then some (.main, p)
  else p.loops[p.count]?.map fun l =>
    (l, { p with count := if p.count + 1 = p.loopNum then 0 else p.count + 1 })

inductive Call where
  | setNum (loopNum : BitVec 16)
  | start (cb : Bool)
  | getNextLoop

def exec (p : EventLoopPool) : Call → Option EventLoopPool
  | .setNum loopNum => some (p.setNum loopNum)
  | .start cb => some (p.start cb)
  | .getNextLoop => p.getNextLoop.map Prod.snd

/-- what `k` calls of `getNextLoop` return -/
def picks (p : EventLoopPool) : Nat → Option (List Loop)
  | 0 => some []
  | k + 1 => p.getNextLoop.bind fun (l, q) => (q.picks k).map (l :: ·)

/-! ## the loops -/

theorem spawn_fields (p : EventLoopPool) (cb : Bool) (n : Nat) :
    (p.spawn cb n).loops = p.loops ++ (List.range' p.loops.length n).map Loop.worker ∧
      (p.spawn cb n).loopNum = p.loopNum ∧ (p.spawn cb n).count = p.count := by
  induction n generalizing p with
  | zero => exact ⟨(List.append_nil _).symm, rfl, rfl⟩
  | succ n ih =>
    let q : EventLoopPool :=
      { p.init cb (.worker p.loops.length) with loops := p.loops ++ [.worker p.loops.length] }
    obtain ⟨hloops, hnum, hcount⟩ := ih q
    refine ⟨?_, hnum, hcount⟩
    show (q.spawn cb n).loops = _
    rw [hloops]
    show p.loops ++ [Loop.worker p.loops.length] ++
      (List.range' (p.loops ++ [Loop.worker p.loops.length]).length n).map Loop.worker = _
    rw [List.range'_succ, List.map_cons, List.append_assoc, List.singleton_append,
      List.length_append, List.length_singleton]

theorem start_fields (p : EventLoopPool) (cb : Bool) :
    (p.start cb).loops = p.loops ++ (List.range' p.loops.length p.loopNum).map Loop.worker ∧
      (p.start cb).loopNum = p.loopNum ∧ (p.start cb).count = p.count := by
  unfold start
  split
  · rename_i h
    rw [h]
    exact ⟨(List.append_nil _).symm, h, rfl⟩
  · exact spawn_fields p cb p.loopNum

/-- the loops are different, in the order in which they were made -/
def Numbered (p : EventLoopPool) : Prop := p.loops = (List.range' 0 p.loops.length).map .worker

theorem numbered_new : Numbered {} := rfl

theorem numbered_start {p : EventLoopPool} (h : p.Numbered) (cb : Bool) :
    (p.start cb).Numbered := by
  have hloops := (start_fields p cb).1
  have hlen : (p.start cb).loops.length = p.loops.length + p.loopNum := by
    rw [hloops, List.length_append, List.length_map, List.length_range']
  have hrange : List.range' 0 p.loops.length ++ List.range' p.loops.length p.loopNum =
      List.range' 0 (p.loops.length + p.loopNum) := by
    rw [← List.range'_append_1, Nat.zero_add]
  unfold Numbered at h ⊢
  rw [hlen, ← hrange, List.map_append, ← h, hloops]

theorem getNextLoop_fields {p q : EventLoopPool} {l : Loop} (h : p.getNextLoop = some (l, q)) :
    q.loops = p.loops ∧ q.loopNum = p.loopNum := by
  unfold getNextLoop at h
  split at h
  · obtain ⟨-, rfl⟩ := Prod.mk.inj (Option.some.inj h)
    exact ⟨rfl, rfl⟩
  · obtain ⟨l', -, he⟩ := Option.map_eq_some_iff.mp h
    obtain ⟨-, rfl⟩ := Prod.mk.inj he
    exact ⟨rfl, rfl⟩

theorem numbered_exec {p q : EventLoopPool} (h : p.Numbered) {c : Call} (hc : p.exec c = some q) :
    q.Numbered := by
  cases c with
  | setNum n =>
    rw [← Option.some.inj hc]
    exact h
  | start cb =>
    rw [← Option.some.inj hc]
    exact numbered_start h cb
  | getNextLoop =>
    obtain ⟨⟨l, q'⟩, hget, rfl⟩ := Option.map_eq_some_iff.mp hc
    unfold Numbered
    rw [(getNextLoop_fields hget).1]
    exact h

theorem numbered_run {p q : EventLoopPool} (h : p.Numbered) {cs : List Call}
    (hrun : Refine.run exec p cs = some q) : q.Numbered := by
  induction cs generalizing p with
  | nil =>
    rw [← Option.some.inj hrun]
    exact h
  | cons c cs ih =>
    rw [Refine.run_cons] at hrun
    obtain ⟨r, hr, hrun⟩ := Option.bind_eq_some_iff.mp hrun
    exact ih (numbered_exec h hr) hrun

theorem Numbered.getElem {p : EventLoopPool} (h : p.Numbered) {i : Nat} (hi : i < p.loops.length) :
    p.loops[i]? = some (.worker i) := by
  rw [h, List.getElem?_map, List.getElem?_range' hi, Option.map_some, Nat.one_mul, Nat.zero_add]

/-! ## picks -/

/-- the picks go around among the first `loopNum` loops, or need none -/
def Settled (p : EventLoopPool) : Prop :=
  p.loopNum = 0 ∨ p.count < p.loopNum ∧ p.loopNum ≤ p.loops.length

/-- the loop of the pick `i` from here -/
def turn (p : EventLoopPool) (i : Nat) : Loop :=
  if p.loopNum = 0 then .main else .worker ((p.count + i) % p.loopNum)

/-- **One pick** in a settled pool -/
theorem getNextLoop_settled {p : EventLoopPool} (h : p.Settled) (hn : p.Numbered) :
    ∃ q, p.getNextLoop = some (p.turn 0, q) ∧ q.Settled ∧ q.Numbered ∧
      ∀ i, q.turn i = p.turn (i + 1) := by
  unfold getNextLoop turn
  by_cases h0 : p.loopNum = 0
  · refine ⟨p, ?_, h, hn, fun i => ?_⟩
    · rw [if_pos h0, if_pos h0]
    · rw [if_pos h0, if_pos h0]
  · obtain ⟨hlt, hle⟩ := h.resolve_left h0
    have hfirst : (p.count + 0) % p.loopNum = p.count := Nat.mod_eq_of_lt hlt
    rw [if_neg h0, hn.getElem (by omega), Option.map_some, if_neg h0, hfirst]
    refine ⟨_, rfl, .inr ⟨?_, hle⟩, hn, fun i => ?_⟩
    · dsimp only
      split <;> omega
    · dsimp only
      rw [if_neg h0, if_neg h0]
      congr 1
      split
      · rename_i hwrap
        rw [show p.count + (i + 1) = p.loopNum + i by omega, Nat.zero_add, Nat.add_mod_left]
      · rw [Nat.add_assoc, Nat.add_comm 1 i]

theorem picks_settled {p : EventLoopPool} (h : p.Settled) (hn : p.Numbered) (k : Nat) :
    p.picks k = some ((List.range k).map p.turn) := by
  induction k generalizing p with
  | zero => rfl
  | succ k ih =>
    obtain ⟨q, hget, hq, hqn, hturn⟩ := getNextLoop_settled h hn
    have hshift : q.turn = p.turn ∘ Nat.succ := funext hturn
    rw [picks, hget, Option.bind_some]
    dsimp only
    rw [ih hq hqn, Option.map_some, List.range_succ_eq_map, List.map_cons, List.map_map, hshift]

/-- in any other pool the cursor runs over the end of `loops_` -/
theorem picks_unsettled {p : EventLoopPool} (h : ¬ p.Settled) :
    p.picks (p.loops.length - p.count + 1) = none := by
  unfold Settled at h
  -- by induction on the loops left above the cursor
  generalize hd : p.loops.length - p.count = d
  induction d generalizing p with
  | zero =>
    have hout : p.loops[p.count]? = none := List.getElem?_eq_none (by omega)
    rw [picks, getNextLoop, if_neg (fun h0 => h (.inl h0)), hout]
    rfl
  | succ d ih =>
    have hin : p.count < p.loops.length := by omega
    have hwrap : p.count + 1 ≠ p.loopNum := by omega
    rw [picks, getNextLoop, if_neg (fun h0 => h (.inl h0)), List.getElem?_eq_getElem hin,
      if_neg hwrap, Option.map_some, Option.bind_some]
    dsimp only
    rw [ih (by dsimp only; omega) (by dsimp only; omega), Option.map_none]

/-! ## sharing -/

/-- the floor or the ceiling of `k / n` -/
def Share (k n c : Nat) : Prop := c = k / n ∨ c = (k + n - 1) / n

/-- among `k` numbers in a row, each residue has its share -/
theorem share_window {n : Nat} (hn : 0 < n) {c j : Nat} (hc : c < n) (hj : j < n) (k : Nat) :
    Share k n ((List.range k).countP fun i => (c + i) % n = j) := by
  -- the residue `j` of `c + i` is the residue of `i` seen from the cursor
  have hshift : ∀ i, (c + i) % n = j ↔ i ≡ j + (n - c) [MOD n] := by
    intro i
    have hback : c + i ≡ c + (j + (n - c)) [MOD n] ↔ i ≡ j + (n - c) [MOD n] :=
      Nat.ModEq.add_iff_left rfl
    rw [← hback, show c + (j + (n - c)) = j + n by omega, Nat.ModEq, Nat.add_mod_right,
      Nat.mod_eq_of_lt hj]
  have hcount : (List.range k).countP (fun i => (c + i) % n = j) =
      k.count (· ≡ j + (n - c) [MOD n]) := by
    induction k with
    | zero => rfl
    | succ k ih =>
      rw [List.range_succ, List.countP_append, ih, Nat.count_succ, List.countP_singleton]
      congr 1
      simp only [decide_eq_true_eq, hshift]
  rw [hcount, Nat.count_modEq_card k hn]
  unfold Share
  by_cases hlt : (j + (n - c)) % n < k % n
  · right
    rw [if_pos hlt]
    have hceil : k + n - 1 = n * (k / n + 1) + (k % n - 1) := by
      rw [Nat.mul_add, Nat.mul_one]
      have := Nat.div_add_mod k n
      omega
    have hsmall : (k % n - 1) / n = 0 := by
      have hmod := Nat.mod_lt k hn
      exact Nat.div_eq_of_lt (by omega)
    rw [hceil, Nat.mul_add_div hn, hsmall, Nat.add_zero]
  · left
    rw [if_neg hlt, Nat.add_zero]

theorem share_picks {p : EventLoopPool} (hlt : p.count < p.loopNum) {j : Nat} (hj : j < p.loopNum)
    (k : Nat) : Share k p.loopNum (((List.range k).map p.turn).count (.worker j)) := by
  have hpos : 0 < p.loopNum := Nat.zero_lt_of_lt hlt
  have hcount : ((List.range k).map p.turn).count (.worker j) =
      (List.range k).countP fun i => (p.count + i) % p.loopNum = j := by
    rw [List.count, List.countP_map]
    congr 1
    funext i
    show (p.turn i == .worker j) = decide ((p.count + i) % p.loopNum = j)
    rw [turn, if_neg (Nat.pos_iff_ne_zero.mp hpos), beq_eq_decide]
    simp only [Loop.worker.injEq]
  rw [hcount]
  exact share_window hpos hlt hj k

/-! ## every order of the calls -/

/-- the calls end with `setNum (n)` and `start ()`, made in `s`, and then only picks -/
def Window (cs : List Call) (s : EventLoopPool) (n : BitVec 16) (cb : Bool) : Prop :=
  ∃ cs0 j, cs = cs0 ++ .setNum n :: .start cb :: List.replicate j .getNextLoop ∧
    Refine.run exec {} cs0 = some s ∧ 0 < n.toNat

/-- the loops that this `start` makes -/
def made (s : EventLoopPool) (n : BitVec 16) (cb : Bool) : List Loop :=
  ((s.setNum n).start cb).loops.drop s.loops.length

/-- after the calls `cs`, every number of picks stays inside `loops_`, and shares the loops that
the last `start` made -/
def Serves (cs : List Call) (p : EventLoopPool) : Prop :=
  ∀ k, ∃ ret, p.picks k = some ret ∧ (∀ l ∈ ret, l = .main ∨ l ∈ p.loops) ∧
    ∀ s n cb, Window cs s n cb → ∀ l ∈ s.made n cb, Share k n.toNat (ret.count l)

/-- that `start` was the first that made loops -/
def FirstMade (cs : List Call) : Prop := ∀ s n cb, Window cs s n cb → s.loops = []

theorem made_eq (s : EventLoopPool) (n : BitVec 16) (cb : Bool) :
    s.made n cb = (List.range' s.loops.length n.toNat).map .worker := by
  rw [made, (start_fields _ _).1]
  exact List.drop_left

theorem run_picks_fields {p q : EventLoopPool} {j : Nat}
    (h : Refine.run exec p (List.replicate j .getNextLoop) = some q) :
    q.loops = p.loops ∧ q.loopNum = p.loopNum := by
  induction j generalizing p with
  | zero =>
    rw [Option.some.inj h]
    exact ⟨rfl, rfl⟩
  | succ j ih =>
    rw [List.replicate_succ, Refine.run_cons] at h
    obtain ⟨r, hr, hrun⟩ := Option.bind_eq_some_iff.mp h
    obtain ⟨⟨l, r'⟩, hget, rfl⟩ := Option.map_eq_some_iff.mp hr
    obtain ⟨hloops, hnum⟩ := getNextLoop_fields hget
    obtain ⟨hloops', hnum'⟩ := ih hrun
    exact ⟨hloops'.trans hloops, hnum'.trans hnum⟩

theorem Window.fields {cs : List Call} {s p : EventLoopPool} {n : BitVec 16} {cb : Bool}
    (h : Window cs s n cb) (hrun : Refine.run exec {} cs = some p) :
    p.loops = s.loops ++ s.made n cb ∧ p.loopNum = n.toNat := by
  obtain ⟨cs0, j, rfl, hs, -⟩ := h
  rw [Refine.run_append, hs, Option.bind_some, Refine.run_cons] at hrun
  have hrun : Refine.run exec ((s.setNum n).start cb) (List.replicate j .getNextLoop) = some p :=
    hrun
  obtain ⟨hloops, hnum⟩ := run_picks_fields hrun
  refine ⟨?_, hnum.trans (start_fields _ _).2.1⟩
  rw [hloops, made_eq, (start_fields _ _).1]
  rfl

theorem turn_mem {p : EventLoopPool} (h : p.Settled) (hn : p.Numbered) (i : Nat) :
    p.turn i = .main ∨ p.turn i ∈ p.loops := by
  unfold turn
  by_cases h0 : p.loopNum = 0
  · exact .inl (if_pos h0)
  · right
    rw [if_neg h0]
    obtain ⟨hlt, hle⟩ := h.resolve_left h0
    have hmod := Nat.mod_lt (p.count + i) (Nat.pos_of_ne_zero h0)
    exact List.mem_of_getElem? (hn.getElem (Nat.lt_of_lt_of_le hmod hle))

/-- a loop that gets its share of as many picks as there are loops is one of the first -/
theorem firstMade_of_serves {cs : List Call} {p : EventLoopPool}
    (hrun : Refine.run exec {} cs = some p) (hn : p.Numbered) (hset : p.Settled)
    (h : Serves cs p) : FirstMade cs := by
  intro s n cb hw
  have hpos : 0 < n.toNat := hw.choose_spec.choose_spec.2.2
  obtain ⟨-, hnum⟩ := hw.fields hrun
  obtain ⟨ret, hret, -, hshare⟩ := h n.toNat
  rw [picks_settled hset hn] at hret
  -- the last loop that was made
  have hlast : Loop.worker (s.loops.length + (n.toNat - 1)) ∈ s.made n cb := by
    rw [made_eq]
    apply List.mem_map_of_mem
    rw [List.mem_range'_1]
    omega
  have hone : ret.count (Loop.worker (s.loops.length + (n.toNat - 1))) = 1 := by
    have hfloor : n.toNat / n.toNat = 1 := Nat.div_self hpos
    have hceil : (n.toNat + n.toNat - 1) / n.toNat = 1 := by
      rw [Nat.add_sub_assoc hpos, Nat.add_div_left _ hpos, Nat.div_eq_of_lt (by omega)]
    rcases hshare s n cb hw _ hlast with he | he
    · exact he.trans hfloor
    · exact he.trans hceil
  have hmem : Loop.worker (s.loops.length + (n.toNat - 1)) ∈ ret :=
    List.count_pos_iff.mp (by omega)
  rw [← Option.some.inj hret] at hmem
  obtain ⟨i, -, hi⟩ := List.mem_map.mp hmem
  have hi : p.turn i = .worker (s.loops.length + (n.toNat - 1)) := hi
  rw [turn, if_neg (by omega), hnum] at hi
  have hid := Loop.worker.inj hi
  have hmod := Nat.mod_lt (p.count + i) hpos
  apply List.eq_nil_of_length_eq_zero
  omega

theorem serves_iff {cs : List Call} {p : EventLoopPool}
    (hrun : Refine.run exec {} cs = some p) : Serves cs p ↔ p.Settled ∧ FirstMade cs := by
  have hn : p.Numbered := numbered_run numbered_new hrun
  constructor
  · intro h
    have hset : p.Settled := by
      by_contra hset
      obtain ⟨ret, hret, -⟩ := h (p.loops.length - p.count + 1)
      rw [picks_unsettled hset] at hret
      cases hret
    exact ⟨hset, firstMade_of_serves hrun hn hset h⟩
  · rintro ⟨hset, hfirst⟩ k
    refine ⟨_, picks_settled hset hn k, ?_, ?_⟩
    · intro l hl
      obtain ⟨i, -, rfl⟩ := List.mem_map.mp hl
      exact turn_mem hset hn i
    · intro s n cb hw l hl
      have hpos : 0 < n.toNat := hw.choose_spec.choose_spec.2.2
      obtain ⟨-, hnum⟩ := hw.fields hrun
      obtain ⟨hlt, -⟩ := hset.resolve_left (by omega)
      rw [made_eq, hfirst s n cb hw] at hl
      obtain ⟨j, hj, rfl⟩ := List.mem_map.mp hl
      rw [List.length_nil, List.mem_range'_1] at hj
      rw [← hnum]
      exact share_picks hlt (by omega) k

/-- where each pick is made in a settled pool, none leaves `loops_` -/
theorem run_settled {cs : List Call} {p : EventLoopPool} (hn : p.Numbered)
    (h : ∀ l r q, cs = l ++ .getNextLoop :: r → Refine.run exec p l = some q → q.Settled) :
    Refine.run exec p cs ≠ none := by
  induction cs generalizing p with
  | nil => exact Option.some_ne_none p
  | cons c cs ih =>
    obtain ⟨q, hq⟩ : ∃ q, p.exec c = some q := by
      cases c with
      | setNum n => exact ⟨_, rfl⟩
      | start cb => exact ⟨_, rfl⟩
      | getNextLoop =>
        obtain ⟨q, hget, -⟩ := getNextLoop_settled (h [] cs p rfl rfl) hn
        exact ⟨q, by rw [exec, hget, Option.map_some]⟩
    rw [Refine.run_cons, hq, Option.bind_some]
    apply ih (numbered_exec hn hq)
    rintro l r q' rfl hrun
    apply h (c :: l) r q' rfl
    rw [Refine.run_cons, hq, Option.bind_some, hrun]

/-- **Loop selection** is safe and fair exactly in a settled pool, whose loops were made by one
`start`; and picks made in settled pools are safe. -/
theorem selection_iff (cs : List Call) :
    (∀ p, Refine.run exec {} cs = some p → (Serves cs p ↔ p.Settled ∧ FirstMade cs)) ∧
      ((∀ l r p, cs = l ++ .getNextLoop :: r → Refine.run exec {} l = some p → p.Settled) →
        Refine.run exec {} cs ≠ none) :=
  ⟨fun _ hrun => serves_iff hrun, fun h => run_settled numbered_new h⟩

/-- three threads, set and started -/
theorem selection_three : ∃ p, Refine.run exec {} [.setNum 3, .start false] = some p ∧
    Serves [.setNum 3, .start false] p ∧
    Refine.run exec {} [.setNum 3, .start false, .getNextLoop] ≠ none := by
  refine ⟨_, rfl, ((selection_iff _).1 _ rfl).mpr ⟨?_, ?_⟩, (selection_iff _).2 ?_⟩
  · exact .inr ⟨by decide, by decide⟩
  · rintro s n cb ⟨cs0, j, hcs, hs, -⟩
    cases cs0 with
    | nil =>
      rw [← Option.some.inj hs]
    | cons c cs0 =>
      have hlen := congrArg List.length hcs
      simp only [List.length_append, List.length_cons, List.length_replicate,
        List.length_nil] at hlen
      omega
  · intro l r p hl hrun
    -- the only pick comes after the other two calls
    rcases l with _ | ⟨c1, _ | ⟨c2, _ | ⟨c3, l⟩⟩⟩
    · cases hl
    · cases hl
    · cases hl
      rw [← Option.some.inj hrun]
      exact .inr ⟨by decide, by decide⟩
    · have hlen := congrArg List.length hl
      simp only [List.length_append, List.length_cons, List.length_nil] at hlen
      omega

/-- the number of threads is set after `start`, which made none -/
theorem setNum_after_start :
    ¬ ∀ cs p, Refine.run exec {} cs = some p → Serves cs p := by
  intro hall
  obtain ⟨ret, hret, -⟩ := hall [.start false, .setNum 1] _ rfl 1
  cases hret

end EventLoopPool

end Feipu
