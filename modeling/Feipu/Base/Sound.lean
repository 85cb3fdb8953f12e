import Feipu.Base.TcpServer

/-!
# Where the connections stand

`Sound` says where every connection of a server stands: how far its life has come (`stage`, read
off its log), which functor about it waits in which queue, and what the pollers, the kernel and
`connections_` know of it.  `hand` is the connection whose functor has been taken out of its queue
and is being run.

* `Sound.became`      a step that replaces one connection keeps it, if the new one fits;
* `Sound.withLoops`   so does one that changes what the loops have in hand.
-/

namespace Feipu

namespace TcpServer
variable {ι : Type} [DecidableEq ι] {s : TcpServer ι} {c : Nat} {hand hand' : Option Nat}

/-- how many of the four functions have run -/
def stage (s : TcpServer ι) (c : Nat) : Nat := (s.conn c).log.length

/-- the whole life of a connection of the loop `loop` -/
def life (main loop : ι) : List (LifeEvent × ι) :=
  [(.connectEstablished, loop), (.handleClose, loop), (.removeConnection, main),
    (.connectDestory, loop)]

def script (s : TcpServer ι) (c : Nat) : List (LifeEvent × ι) := life s.main (s.conn c).loop

/-- the functor that carries a life on from a stage, and the loop that has it -/
def dueTask (main loop : ι) (c : Nat) : Nat → Option (ι × Task)
  | 0 => some (loop, .connectEstablished c)
  | 2 => some (main, .removeConnection c)
  | 3 => some (loop, .connectDestory c)
  | _ => none

def due (s : TcpServer ι) (c : Nat) : Option (ι × Task) :=
  if c < s.nextConnId then dueTask s.main (s.conn c).loop c (s.stage c) else none

/-- the functors about `c` in the queue of `l` -/
def queued (s : TcpServer ι) (l : ι) (c : Nat) : List Task :=
  (s.functions l).filter fun t => t.conn == c

/-- what should be there: nothing while the functor is in hand -/
def dueAt (s : TcpServer ι) (hand : Option Nat) (l : ι) (c : Nat) : List Task :=
  if hand = some c then []
  else (s.due c).toList.filterMap fun p => if p.1 = l then some p.2 else none

/-- the callbacks that may close the connection -/
def closing (calls : List EventCall) : List EventCall := calls.filter (· != .write)

structure Sound (s : TcpServer ι) (hand : Option Nat) : Prop where
  log : ∀ c, (s.conn c).log <+: s.script c
  fresh : ∀ c, s.nextConnId ≤ c →
    (s.conn c).log = [] ∧ (s.conn c).isOpen = false ∧ s.connections c = false
  tasks : ∀ l c, s.queued l c = s.dueAt hand l c
  member : ∀ c, s.connections c = true ↔ c < s.nextConnId ∧ s.stage c ≤ 2
  status : ∀ c, (s.conn c).status ≠ .disconnected ↔ s.stage c = 1
  reading : ∀ c, (s.conn c).channel.isReading = true ↔ s.stage c = 1
  writing : ∀ c, (s.conn c).channel.isWriting = true → s.stage c = 1
  mapped : ∀ l fd c, (s.poller l).fdChannelMap fd = some c ↔
    (s.conn c).loop = l ∧ (s.conn c).fd = fd ∧ 1 ≤ s.stage c ∧ s.stage c ≤ 3
  kernel : ∀ l fd e, (s.poller l).kernel fd = some e ↔
    (s.conn e.2).loop = l ∧ (s.conn e.2).fd = fd ∧ s.stage e.2 = 1 ∧
      e.1 = (s.conn e.2).channel.events.signExtend 32
  isOpen : ∀ c, c < s.nextConnId → s.stage c ≤ 3 → (s.conn c).isOpen = true
  fds : ∀ c c', (s.conn c).isOpen = true → (s.conn c').isOpen = true →
    (s.conn c).fd = (s.conn c').fd → c = c'
  active : ∀ l, ((s.active l).map (·.1)).Nodup ∧ ∀ e ∈ s.active l,
    (s.conn e.1).loop = l ∧ s.stage e.1 = 1 ∧
    (e.2 &&& (pollPri ||| pollRdhup) ≠ 0 → e.2 &&& pollIn ≠ 0) ∧
    ∀ p, s.handling l = some p → p.1 ≠ e.1
  handling : ∀ l c calls, s.handling l = some (c, calls) →
    (s.conn c).loop = l ∧ (s.conn c).isOpen = true ∧ (closing calls).length ≤ 1 ∧
    (closing calls ≠ [] → s.stage c = 1)

/-! ## what a sound server knows of a connection -/

theorem Sound.lt_next (h : s.Sound hand) (hc : 1 ≤ s.stage c) : c < s.nextConnId := by
  by_contra hn
  have hlog := (h.fresh c (Nat.le_of_not_lt hn)).1
  unfold stage at hc
  rw [hlog] at hc
  cases hc

/-- what the poller has for the descriptor of a connection -/
theorem Sound.poller_at (h : s.Sound hand) (hopen : (s.conn c).isOpen = true) :
    (s.poller (s.conn c).loop).fdChannelMap (s.conn c).fd =
        (if 1 ≤ s.stage c ∧ s.stage c ≤ 3 then some c else none) ∧
      (s.poller (s.conn c).loop).kernel (s.conn c).fd =
        if s.stage c = 1 then some ((s.conn c).channel.events.signExtend 32, c) else none := by
  constructor
  · cases hm : (s.poller (s.conn c).loop).fdChannelMap (s.conn c).fd with
    | none =>
      rw [if_neg]
      intro hst
      rw [(h.mapped _ _ _).mpr ⟨rfl, rfl, hst⟩] at hm
      cases hm
    | some c' =>
      obtain ⟨-, hfd, h1, h3⟩ := (h.mapped _ _ _).mp hm
      obtain rfl := h.fds c' c (h.isOpen c' (h.lt_next h1) h3) hopen hfd
      rw [if_pos ⟨h1, h3⟩]
  · cases hk : (s.poller (s.conn c).loop).kernel (s.conn c).fd with
    | none =>
      rw [if_neg]
      intro hst
      rw [(h.kernel _ _ ((s.conn c).channel.events.signExtend 32, c)).mpr ⟨rfl, rfl, hst, rfl⟩] at hk
      cases hk
    | some e =>
      obtain ⟨m, c'⟩ := e
      obtain ⟨-, hfd, h1, hm⟩ := (h.kernel _ _ _).mp hk
      simp only at hfd h1 hm
      obtain rfl := h.fds c' c (h.isOpen c' (h.lt_next (by omega)) (by omega)) hopen hfd
      rw [if_pos h1, hm]

/-- the log of a connection is the beginning of its script -/
theorem Sound.log_eq (h : s.Sound hand) (c : Nat) :
    (s.conn c).log = (s.script c).take (s.stage c) :=
  List.prefix_iff_eq_take.mp (h.log c)

/-- the next function of the script -/
theorem Sound.log_snoc (h : s.Sound hand) {x : LifeEvent × ι}
    (hx : (s.script c)[s.stage c]? = some x) : (s.conn c).log ++ [x] <+: s.script c := by
  have htake : (s.script c).take (s.stage c) ++ [x] = (s.script c).take (s.stage c + 1) := by
    rw [List.take_add_one, hx]
    rfl
  rw [h.log_eq c, htake]
  exact List.take_prefix _ _

omit [DecidableEq ι] in
theorem length_log_snoc {n : Nat} (hn : s.stage c = n) (x : LifeEvent × ι) :
    ((s.conn c).log ++ [x]).length = n + 1 := by
  rw [List.length_append, ← hn]
  rfl

/-- events are pending for established connections only -/
theorem Sound.not_active (h : s.Sound hand) (hne : s.stage c ≠ 1) (l : ι) :
    c ∉ (s.active l).map (·.1) := by
  intro hm
  obtain ⟨e, he, rfl⟩ := List.mem_map.mp hm
  exact hne ((h.active l).2 e he).2.1

/-- so is a callback that may close -/
theorem Sound.not_closing (h : s.Sound hand) (hne : s.stage c ≠ 1) {l : ι} {calls : List EventCall}
    (hcalls : s.handling l = some (c, calls)) : (s.conn c).isOpen = true ∧ closing calls = [] := by
  obtain ⟨-, ho, -, hst⟩ := h.handling l c calls hcalls
  refine ⟨ho, ?_⟩
  by_contra hn
  exact hne (hst hn)

/-- before and after, the connection is disconnected and its channel is without interest -/
theorem Sound.idle (h : s.Sound hand) (hne : s.stage c ≠ 1) :
    (s.conn c).status = .disconnected ∧ (s.conn c).channel.isReading = false ∧
      (s.conn c).channel.isWriting = false := by
  refine ⟨?_, ?_, ?_⟩
  · by_contra hst
    exact hne ((h.status c).mp hst)
  · rw [← Bool.not_eq_true, h.reading c]
    exact hne
  · rw [← Bool.not_eq_true]
    exact fun hw => hne (h.writing c hw)

/-! ## replacing one connection -/

/-- the connection `c` is `k`, the poller of its loop `p`, its membership `b` -/
def became (s : TcpServer ι) (next c : Nat) (k : Conn ι) (p : Poller Nat) (b : Bool) :
    TcpServer ι :=
  { s with
    nextConnId := next
    conn := Function.update s.conn c k
    poller := Function.update s.poller k.loop p
    connections := Function.update s.connections c b }

/-- `k` is the connection `c` where it was, or a new one, and no other open connection has its
descriptor -/
structure Place (s : TcpServer ι) (next c : Nat) (k : Conn ι) : Prop where
  lt_next : c < next
  next : ∀ c' ≠ c, c' < next ↔ c' < s.nextConnId
  own : s.stage c = 0 ∨ ((s.conn c).loop = k.loop ∧ (s.conn c).fd = k.fd)
  alone : ∀ c' ≠ c, (s.conn c').isOpen = true → (s.conn c').fd ≠ k.fd

theorem Sound.place (h : s.Sound hand) (hc : c < s.nextConnId) (hopen : (s.conn c).isOpen = true)
    {k : Conn ι} (hloop : (s.conn c).loop = k.loop) (hfd : (s.conn c).fd = k.fd) :
    s.Place s.nextConnId c k where
  lt_next := hc
  next _ _ := Iff.rfl
  own := .inr ⟨hloop, hfd⟩
  alone c' hne hopen' he := hne (h.fds c' c hopen' hopen (he.trans hfd.symm))

omit [DecidableEq ι] in
/-- `c` is not registered under another descriptor than that of `k` -/
theorem Place.apart {next : Nat} {k : Conn ι} (hp : s.Place next c k) {l : ι} {fd : Int}
    (hpos : ¬ (k.loop = l ∧ k.fd = fd)) (h1 : 1 ≤ s.stage c) :
    ¬ ((s.conn c).loop = l ∧ (s.conn c).fd = fd) := by
  intro ⟨hl, hfd⟩
  rcases hp.own with h0 | ⟨hl', hfd'⟩
  · omega
  · exact hpos ⟨hl'.symm.trans hl, hfd'.symm.trans hfd⟩

/-- what the new connection has to satisfy -/
structure Fits (s : TcpServer ι) (c : Nat) (k : Conn ι) (p : Poller Nat) (b : Bool) : Prop where
  log : k.log <+: life s.main k.loop
  member : b = true ↔ k.log.length ≤ 2
  status : k.status ≠ .disconnected ↔ k.log.length = 1
  reading : k.channel.isReading = true ↔ k.log.length = 1
  writing : k.channel.isWriting = true → k.log.length = 1
  mapped : p.fdChannelMap k.fd = if 1 ≤ k.log.length ∧ k.log.length ≤ 3 then some c else none
  kernel : p.kernel k.fd =
    if k.log.length = 1 then some (k.channel.events.signExtend 32, c) else none
  elsewhere : ∀ fd ≠ k.fd, p.fdChannelMap fd = (s.poller k.loop).fdChannelMap fd ∧
    p.kernel fd = (s.poller k.loop).kernel fd
  isOpen : k.log.length ≤ 3 → k.isOpen = true
  active : k.log.length = 1 ∨ ∀ l, c ∉ (s.active l).map (·.1)
  handling : ∀ l calls, s.handling l = some (c, calls) →
    (s.conn c).loop = k.loop ∧ k.isOpen = true ∧ (closing calls ≠ [] → k.log.length = 1)

section
variable {next : Nat} {k : Conn ι} {p : Poller Nat} {b : Bool}

@[simp] theorem became_conn : (s.became next c k p b).conn c = k := Function.update_self _ _ _

@[simp] theorem became_stage : (s.became next c k p b).stage c = k.log.length := by
  rw [stage, became_conn]

@[simp] theorem became_connections : (s.became next c k p b).connections c = b :=
  Function.update_self _ _ _

theorem became_poller (hf : Fits s c k p b) {l : ι} {fd : Int} (hpos : ¬ (k.loop = l ∧ k.fd = fd)) :
    ((s.became next c k p b).poller l).fdChannelMap fd = (s.poller l).fdChannelMap fd ∧
      ((s.became next c k p b).poller l).kernel fd = (s.poller l).kernel fd := by
  by_cases hl : l = k.loop
  · subst hl
    have hself : (s.became next c k p b).poller k.loop = p := Function.update_self _ _ _
    rw [hself]
    exact hf.elsewhere fd fun he => hpos ⟨rfl, he.symm⟩
  · have hsame : (s.became next c k p b).poller l = s.poller l := Function.update_of_ne hl _ _
    rw [hsame]
    exact ⟨rfl, rfl⟩

variable {c' : Nat}

theorem became_conn_other (hne : c' ≠ c) : (s.became next c k p b).conn c' = s.conn c' :=
  Function.update_of_ne hne _ _

theorem became_stage_other (hne : c' ≠ c) : (s.became next c k p b).stage c' = s.stage c' := by
  rw [stage, became_conn_other hne, stage]

theorem became_connections_other (hne : c' ≠ c) :
    (s.became next c k p b).connections c' = s.connections c' :=
  Function.update_of_ne hne _ _

/-- the queues are right about `c` if its functor is in hand or none is due -/
theorem Sound.became_tasks (h : s.Sound hand) (hp : s.Place next c k)
    (hh : hand = none ∨ hand = some c) (hh' : hand' = none ∨ hand' = some c)
    (hd : hand = some c ∨ s.due c = none)
    (hd' : hand' = some c ∨ dueTask s.main k.loop c k.log.length = none) (l : ι) (c' : Nat) :
    s.queued l c' = (s.became next c k p b).dueAt hand' l c' := by
  rw [h.tasks l c', dueAt, dueAt]
  by_cases hne : c' = c
  · subst hne
    have hleft : ∀ {g : Option Nat} {x : Option (ι × Task)}, (g = some c' ∨ x = none) →
        (if g = some c' then []
          else x.toList.filterMap fun p => if p.1 = l then some p.2 else none) = [] := by
      intro g x hg
      rcases hg with rfl | rfl
      · exact if_pos rfl
      · exact ite_self _
    have hdue : hand' = some c' ∨ (s.became next c' k p b).due c' = none := by
      refine hd'.imp_right fun he => ?_
      have hlt : c' < (s.became next c' k p b).nextConnId := hp.lt_next
      rw [due, if_pos hlt, became_conn, became_stage]
      exact he
    rw [hleft hd, hleft hdue]
  · have hdue : (s.became next c k p b).due c' = s.due c' := by
      rw [due, due, became_conn_other hne, became_stage_other hne]
      exact if_congr (hp.next c' hne) rfl rfl
    have hno : ∀ {g : Option Nat}, (g = none ∨ g = some c) → g ≠ some c' := by
      intro g hg he
      rcases hg with rfl | rfl
      · cases he
      · exact hne (Option.some.inj he).symm
    rw [hdue, if_neg (hno hh), if_neg (hno hh')]

theorem Sound.became_mapped (h : s.Sound hand) (hp : s.Place next c k) (hf : Fits s c k p b)
    (l : ι) (fd : Int) (c' : Nat) :
    ((s.became next c k p b).poller l).fdChannelMap fd = some c' ↔
      ((s.became next c k p b).conn c').loop = l ∧ ((s.became next c k p b).conn c').fd = fd ∧
        1 ≤ (s.became next c k p b).stage c' ∧ (s.became next c k p b).stage c' ≤ 3 := by
  by_cases hpos : k.loop = l ∧ k.fd = fd
  · obtain ⟨rfl, rfl⟩ := hpos
    have hself : (s.became next c k p b).poller k.loop = p := Function.update_self _ _ _
    rw [hself, hf.mapped]
    by_cases hne : c' = c
    · subst hne
      rw [became_conn, became_stage]
      simp
    · rw [became_conn_other hne, became_stage_other hne]
      constructor
      · intro he
        split at he
        · exact absurd (Option.some.inj he).symm hne
        · cases he
      · intro ⟨_, hfd, h1, h3⟩
        exact absurd hfd (hp.alone c' hne (h.isOpen c' (h.lt_next h1) h3))
  · rw [(became_poller hf hpos).1, h.mapped]
    by_cases hne : c' = c
    · subst hne
      rw [became_conn, became_stage]
      constructor
      · intro ⟨hl, hfd, h1, _⟩
        exact absurd ⟨hl, hfd⟩ (hp.apart hpos h1)
      · intro ⟨hl, hfd, _⟩
        exact absurd ⟨hl, hfd⟩ hpos
    · rw [became_conn_other hne, became_stage_other hne]

theorem Sound.became_kernel (h : s.Sound hand) (hp : s.Place next c k) (hf : Fits s c k p b)
    (l : ι) (fd : Int) (m : BitVec 32) (c' : Nat) :
    ((s.became next c k p b).poller l).kernel fd = some (m, c') ↔
      ((s.became next c k p b).conn c').loop = l ∧ ((s.became next c k p b).conn c').fd = fd ∧
        (s.became next c k p b).stage c' = 1 ∧
        m = ((s.became next c k p b).conn c').channel.events.signExtend 32 := by
  by_cases hpos : k.loop = l ∧ k.fd = fd
  · obtain ⟨rfl, rfl⟩ := hpos
    have hself : (s.became next c k p b).poller k.loop = p := Function.update_self _ _ _
    rw [hself, hf.kernel]
    by_cases hne : c' = c
    · subst hne
      rw [became_conn, became_stage]
      by_cases h1 : k.log.length = 1
      · rw [if_pos h1]
        simp [h1, eq_comm]
      · rw [if_neg h1]
        simp [h1]
    · rw [became_conn_other hne, became_stage_other hne]
      constructor
      · intro he
        split at he
        · exact absurd (Prod.mk.inj (Option.some.inj he)).2.symm hne
        · cases he
      · intro ⟨_, hfd, h1, _⟩
        exact absurd hfd (hp.alone c' hne (h.isOpen c' (h.lt_next (by omega)) (by omega)))
  · rw [(became_poller hf hpos).2, h.kernel]
    by_cases hne : c' = c
    · subst hne
      rw [became_conn, became_stage]
      constructor
      · intro ⟨hl, hfd, h1, _⟩
        exact absurd ⟨hl, hfd⟩ (hp.apart hpos (Nat.le_of_eq h1.symm))
      · intro ⟨hl, hfd, _⟩
        exact absurd ⟨hl, hfd⟩ hpos
    · rw [became_conn_other hne, became_stage_other hne]

theorem Sound.became_fds (h : s.Sound hand) (hp : s.Place next c k) (c1 c2 : Nat)
    (h1 : ((s.became next c k p b).conn c1).isOpen = true)
    (h2 : ((s.became next c k p b).conn c2).isOpen = true)
    (he : ((s.became next c k p b).conn c1).fd = ((s.became next c k p b).conn c2).fd) :
    c1 = c2 := by
  by_cases hne1 : c1 = c
  · by_cases hne2 : c2 = c
    · rw [hne1, hne2]
    · rw [hne1, became_conn, became_conn_other hne2] at he
      rw [became_conn_other hne2] at h2
      exact absurd he.symm (hp.alone c2 hne2 h2)
  · rw [became_conn_other hne1] at h1 he
    by_cases hne2 : c2 = c
    · rw [hne2, became_conn] at he
      exact absurd he (hp.alone c1 hne1 h1)
    · rw [became_conn_other hne2] at h2 he
      exact h.fds c1 c2 h1 h2 he

theorem Sound.became_active (h : s.Sound hand) (hp : s.Place next c k) (hf : Fits s c k p b) (l : ι) :
    ((s.active l).map (·.1)).Nodup ∧ ∀ e ∈ s.active l,
      ((s.became next c k p b).conn e.1).loop = l ∧ (s.became next c k p b).stage e.1 = 1 ∧
      (e.2 &&& (pollPri ||| pollRdhup) ≠ 0 → e.2 &&& pollIn ≠ 0) ∧
      ∀ q, s.handling l = some q → q.1 ≠ e.1 := by
  obtain ⟨hnd, hall⟩ := h.active l
  refine ⟨hnd, fun e he => ?_⟩
  obtain ⟨h1, h2, h3⟩ := hall e he
  by_cases hne : e.1 = c
  · rw [hne] at h1 h2
    have hst : k.log.length = 1 := by
      rcases hf.active with h' | h'
      · exact h'
      · exact absurd (hne ▸ List.mem_map_of_mem he) (h' l)
    rcases hp.own with h0 | ⟨hl, -⟩
    · rw [h2] at h0
      cases h0
    · rw [hne, became_conn, became_stage]
      exact ⟨hl.symm.trans h1, hst, hne ▸ h3⟩
  · rw [became_conn_other hne, became_stage_other hne]
    exact ⟨h1, h2, h3⟩

/-- **One connection is replaced.** -/
theorem Sound.became (h : s.Sound hand) (hp : s.Place next c k) (hf : Fits s c k p b)
    (hh : hand = none ∨ hand = some c) (hh' : hand' = none ∨ hand' = some c)
    (hd : hand = some c ∨ s.due c = none)
    (hd' : hand' = some c ∨ dueTask s.main k.loop c k.log.length = none) :
    (s.became next c k p b).Sound hand' := by
  refine ⟨?_, ?_, h.became_tasks hp hh hh' hd hd', ?_, ?_, ?_, ?_, h.became_mapped hp hf,
    fun l fd e => h.became_kernel hp hf l fd e.1 e.2, ?_, h.became_fds hp, h.became_active hp hf, ?_⟩
  · intro c'
    by_cases hne : c' = c
    · subst hne
      rw [script, became_conn]
      exact hf.log
    · rw [script, became_conn_other hne]
      exact h.log c'
  · intro c' hle
    change next ≤ c' at hle
    have hne : c' ≠ c := by
      rintro rfl
      exact absurd hp.lt_next (Nat.not_lt.mpr hle)
    have hle' : ¬ c' < s.nextConnId := by
      intro hlt
      exact absurd ((hp.next c' hne).mpr hlt) (Nat.not_lt.mpr hle)
    rw [became_conn_other hne, became_connections_other hne]
    exact h.fresh c' (Nat.le_of_not_lt hle')
  · intro c'
    by_cases hne : c' = c
    · subst hne
      rw [became_connections, became_stage, hf.member]
      exact ⟨fun h => ⟨hp.lt_next, h⟩, And.right⟩
    · rw [became_connections_other hne, became_stage_other hne, h.member c']
      exact and_congr_left fun _ => (hp.next c' hne).symm
  · intro c'
    by_cases hne : c' = c
    · subst hne
      rw [became_conn, became_stage]
      exact hf.status
    · rw [became_conn_other hne, became_stage_other hne]
      exact h.status c'
  · intro c'
    by_cases hne : c' = c
    · subst hne
      rw [became_conn, became_stage]
      exact hf.reading
    · rw [became_conn_other hne, became_stage_other hne]
      exact h.reading c'
  · intro c'
    by_cases hne : c' = c
    · subst hne
      rw [became_conn, became_stage]
      exact hf.writing
    · rw [became_conn_other hne, became_stage_other hne]
      exact h.writing c'
  · intro c' hlt h3
    by_cases hne : c' = c
    · subst hne
      rw [became_stage] at h3
      rw [became_conn]
      exact hf.isOpen h3
    · rw [became_stage_other hne] at h3
      rw [became_conn_other hne]
      exact h.isOpen c' ((hp.next c' hne).mp hlt) h3
  · intro l c' calls hcalls
    obtain ⟨h1, h2, h3, h4⟩ := h.handling l c' calls hcalls
    by_cases hne : c' = c
    · subst hne
      obtain ⟨hl, ho, hst⟩ := hf.handling l calls hcalls
      rw [became_conn, became_stage]
      exact ⟨hl.symm.trans h1, ho, h3, hst⟩
    · rw [became_conn_other hne, became_stage_other hne]
      exact ⟨h1, h2, h3, h4⟩

end

/-! ## changing what the loops have in hand -/

/-- the queues and the loops' own lists change, the connections do not -/
theorem Sound.withLoops (h : s.Sound hand) {functions : ι → List Task} {held : ι → List Nat}
    {active : ι → List (Nat × BitVec 16)} {handling : ι → Option (Nat × List EventCall)}
    {user : Nat → Bool}
    (ht : ∀ l c, (functions l).filter (fun t => t.conn == c) = s.dueAt hand' l c)
    (ha : ∀ l, ((active l).map (·.1)).Nodup ∧ ∀ e ∈ active l,
      (s.conn e.1).loop = l ∧ s.stage e.1 = 1 ∧
      (e.2 &&& (pollPri ||| pollRdhup) ≠ 0 → e.2 &&& pollIn ≠ 0) ∧
      ∀ p, handling l = some p → p.1 ≠ e.1)
    (hh : ∀ l c calls, handling l = some (c, calls) →
      (s.conn c).loop = l ∧ (s.conn c).isOpen = true ∧ (closing calls).length ≤ 1 ∧
      (closing calls ≠ [] → s.stage c = 1)) :
    ({ s with functions, held, active, handling, user } : TcpServer ι).Sound hand' where
  log := h.log
  fresh := h.fresh
  tasks := ht
  member := h.member
  status := h.status
  reading := h.reading
  writing := h.writing
  mapped := h.mapped
  kernel := h.kernel
  isOpen := h.isOpen
  fds := h.fds
  active := ha
  handling := hh

omit [DecidableEq ι] in
/-- the functor that is due is about the connection -/
theorem due_conn {l : ι} {t : Task} (hd : s.due c = some (l, t)) : t.conn = c := by
  unfold due dueTask at hd
  split at hd
  · split at hd
    · obtain ⟨-, rfl⟩ := Prod.mk.inj (Option.some.inj hd)
      rfl
    · obtain ⟨-, rfl⟩ := Prod.mk.inj (Option.some.inj hd)
      rfl
    · obtain ⟨-, rfl⟩ := Prod.mk.inj (Option.some.inj hd)
      rfl
    · cases hd
  · cases hd

theorem dueAt_self (l : ι) : s.dueAt (some c) l c = [] := if_pos rfl

theorem dueAt_other {c' : Nat} (hne : c' ≠ c) (l : ι) : s.dueAt (some c) l c' = s.dueAt none l c' := by
  have hno : some c ≠ some c' := fun he => hne (Option.some.inj he).symm
  rw [dueAt, dueAt, if_neg hno, if_neg fun he => by cases he]

theorem dueAt_none {l l' : ι} {t : Task} (hd : s.due c = some (l, t)) :
    s.dueAt none l' c = if l = l' then [t] else [] := by
  rw [dueAt, hd]
  by_cases hl : l = l'
  · simp [hl]
  · simp [hl]

theorem Sound.enqueue (h : s.Sound (some c)) {l : ι} {t : Task} (hd : s.due c = some (l, t)) :
    (s.enqueue l t).Sound none := by
  refine h.withLoops ?_ h.active h.handling
  intro l' c'
  have hq := h.tasks l' c'
  rw [queued] at hq
  by_cases hl : l' = l
  · subst hl
    rw [Function.update_self, List.filter_append, hq]
    by_cases hc : c' = c
    · subst hc
      rw [dueAt_self, dueAt_none hd, if_pos rfl]
      simp [due_conn hd]
    · have hne : ¬ c = c' := fun e => hc e.symm
      rw [dueAt_other hc]
      simp [due_conn hd, hne]
  · rw [Function.update_of_ne hl, hq]
    by_cases hc : c' = c
    · subst hc
      rw [dueAt_self, dueAt_none hd, if_neg fun e => hl e.symm]
    · exact dueAt_other hc l'

/-- the functor at the head of a queue is the one that is due -/
theorem Sound.dequeue (h : s.Sound none) {l : ι} {t : Task} {rest : List Task}
    (hq : s.functions l = t :: rest) (held : ι → List Nat) :
    s.due t.conn = some (l, t) ∧
      ({ s with functions := Function.update s.functions l rest, held } : TcpServer ι).Sound
        (some t.conn) := by
  have hhead : t :: rest.filter (fun t' => t'.conn == t.conn) = s.dueAt none l t.conn := by
    rw [← h.tasks l t.conn, queued, hq, List.filter_cons, if_pos (beq_self_eq_true _)]
  have hd : s.due t.conn = some (l, t) := by
    cases hdue : s.due t.conn with
    | none =>
      rw [dueAt, hdue] at hhead
      cases hhead
    | some p =>
      obtain ⟨l', t'⟩ := p
      rw [dueAt_none hdue] at hhead
      split at hhead
      · rename_i hl
        rw [hl, (List.cons.inj hhead).1]
      · cases hhead
  refine ⟨hd, h.withLoops ?_ h.active h.handling⟩
  intro l' c'
  by_cases hc : c' = t.conn
  · rw [hc, dueAt_self]
    by_cases hl : l' = l
    · rw [dueAt_none hd, if_pos rfl] at hhead
      rw [hl, Function.update_self]
      exact (List.cons.inj hhead).2
    · rw [Function.update_of_ne hl]
      refine (h.tasks l' t.conn).trans ?_
      rw [dueAt_none hd, if_neg fun e => hl e.symm]
  · rw [dueAt_other hc]
    refine Eq.trans ?_ (h.tasks l' c')
    by_cases hl : l' = l
    · have hne : ¬ (t.conn == c') = true := fun e => hc (beq_iff_eq.mp e).symm
      rw [hl, Function.update_self, queued, hq, List.filter_cons, if_neg hne]
    · rw [Function.update_of_ne hl, queued]

end TcpServer

end Feipu
