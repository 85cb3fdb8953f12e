import Mathlib.Logic.Function.Basic
import Feipu.Base.Channel
import Feipu.Lib.Trace

/-!
# `Poller` (base/src/Poller.cpp)

The map from descriptors to channels, and the interest set that the kernel keeps for the same
descriptors.  A channel is identified by a value of `κ`, which stands for its address.

* `agrees_iff`   after every operation the interest set is what the event words say, exactly in
                 the runs where no operation goes through the empty event word: `update_channel`
                 deletes such a channel from the kernel but leaves it in the map.
-/

namespace Feipu
open Trace

/-- the interest set: the mask and the `data.ptr` of each descriptor in it -/
abbrev Interest (κ : Type) := Int → Option (BitVec 32 × κ)

inductive EpollOp where
  | add | mod | del

/-- `epoll_ctl`; `none` is the answer `-1` -/
def epollCtl {κ : Type} (k : Interest κ) (op : EpollOp) (fd : Int) (ev : BitVec 32 × κ) :
    Option (Interest κ) :=
  match op, k fd with
  | .add, none => some (Function.update k fd (some ev))
  | .mod, some _ => some (Function.update k fd (some ev))
  | .del, some _ => some (Function.update k fd none)
  | _, _ => none

structure Poller (κ : Type) where
  fdChannelMap : Int → Option κ
  kernel : Interest κ

namespace Poller
variable {κ : Type}

def new : Poller κ where
  fdChannelMap _ := none
  kernel _ := none

/-- the call of `epoll_ctl`; an error is only logged -/
def ctl (p : Poller κ) (op : EpollOp) (fd : Int) (key : κ) (c : Channel) : Poller κ :=
  { p with kernel := (epollCtl p.kernel op fd (c.events.signExtend 32, key)).getD p.kernel }

def updateChannel (p : Poller κ) (fd : Int) (key : κ) (c : Channel) : Poller κ :=
  match p.fdChannelMap fd with
  | some _ => if c.isNoneEvent then p.ctl .del fd key c else p.ctl .mod fd key c
  | none => { p with fdChannelMap := Function.update p.fdChannelMap fd (some key) }.ctl .add fd key c

/-- `none` is the failed assertion that the map holds this channel -/
def removeChannel [DecidableEq κ] (p : Poller κ) (fd : Int) (key : κ) (c : Channel) :
    Option (Poller κ) :=
  match p.fdChannelMap fd with
  | none => some p
  | some key' =>
    if key = key' then
      some { p.ctl .del fd key c with fdChannelMap := Function.update p.fdChannelMap fd none }
    else none

/-! ## what an operation does to its descriptor, and to the others -/

theorem ctl_other (p : Poller κ) (op : EpollOp) {fd fd' : Int} (h : fd' ≠ fd) (key : κ)
    (c : Channel) : (p.ctl op fd key c).kernel fd' = p.kernel fd' := by
  cases op <;> cases hk : p.kernel fd <;> simp [ctl, epollCtl, hk, h]

theorem ctl_add (p : Poller κ) (fd : Int) (key : κ) (c : Channel) (h : p.kernel fd = none) :
    (p.ctl .add fd key c).kernel fd = some (c.events.signExtend 32, key) := by
  simp [ctl, epollCtl, h]

theorem ctl_mod (p : Poller κ) (fd : Int) (key : κ) (c : Channel) :
    (p.ctl .mod fd key c).kernel fd =
      (p.kernel fd).map fun _ => (c.events.signExtend 32, key) := by
  cases hk : p.kernel fd <;> simp [ctl, epollCtl, hk]

theorem ctl_del (p : Poller κ) (fd : Int) (key : κ) (c : Channel) :
    (p.ctl .del fd key c).kernel fd = none := by
  cases hk : p.kernel fd <;> simp [ctl, epollCtl, hk]

theorem updateChannel_map (p : Poller κ) (fd : Int) (key : κ) (c : Channel) (fd' : Int) :
    (p.updateChannel fd key c).fdChannelMap fd' =
      if fd' = fd ∧ p.fdChannelMap fd = none then some key else p.fdChannelMap fd' := by
  unfold updateChannel
  cases hm : p.fdChannelMap fd with
  | some key' =>
    have hno : ¬ (fd' = fd ∧ some key' = none) := fun h => by cases h.2
    rw [if_neg hno]
    dsimp only
    split <;> rfl
  | none =>
    show Function.update p.fdChannelMap fd (some key) fd' = _
    by_cases h : fd' = fd
    · subst h
      simp
    · simp [h]

theorem updateChannel_other (p : Poller κ) {fd fd' : Int} (h : fd' ≠ fd) (key : κ) (c : Channel) :
    (p.updateChannel fd key c).kernel fd' = p.kernel fd' := by
  unfold updateChannel
  cases p.fdChannelMap fd with
  | none => exact ctl_other _ _ h _ _
  | some key' =>
    dsimp only
    split <;> exact ctl_other _ _ h _ _

/-- an update of the channel is local to its descriptor -/
theorem updateChannel_local (p : Poller κ) (fd : Int) (key : κ) (c : Channel) :
    ∀ fd' ≠ fd, (p.updateChannel fd key c).fdChannelMap fd' = p.fdChannelMap fd' ∧
      (p.updateChannel fd key c).kernel fd' = p.kernel fd' := by
  intro fd' hne
  refine ⟨?_, updateChannel_other p hne key c⟩
  rw [updateChannel_map, if_neg fun h => hne h.1]

/-- a channel that is in the map is modified or deleted, whether the kernel has it or not -/
theorem updateChannel_old {p : Poller κ} {fd : Int} {key key' : κ} (h : p.fdChannelMap fd = some key')
    (c : Channel) : (p.updateChannel fd key c).kernel fd =
      if c.isNoneEvent then none else (p.kernel fd).map fun _ => (c.events.signExtend 32, key) := by
  unfold updateChannel
  rw [h]
  dsimp only
  split
  · exact ctl_del _ _ _ _
  · exact ctl_mod _ _ _ _

/-- one that is not is added, with interest or without -/
theorem updateChannel_new {p : Poller κ} {fd : Int} {key : κ} (h : p.fdChannelMap fd = none)
    (hk : p.kernel fd = none) (c : Channel) :
    (p.updateChannel fd key c).kernel fd = some (c.events.signExtend 32, key) := by
  unfold updateChannel
  rw [h]
  exact ctl_add _ _ _ _ hk

end Poller

/-! ## runs over many channels -/

/-- the operations of a channel -/
inductive ChannelOp where
  | enableRead | disableRead | enableWrite | disableWrite | disableAll | unRegister
deriving DecidableEq

/-- the channel after the operation -/
def ChannelOp.apply (c : Channel) : ChannelOp → Channel
  | .enableRead => c.enableRead
  | .disableRead => c.disableRead
  | .enableWrite => c.enableWrite
  | .disableWrite => c.disableWrite
  | .disableAll => c.disableAll
  | .unRegister => c

/-- a poller and the channels of its loop, one for each descriptor; `gone` are the channels whose
last operation was `un_register` -/
structure Polling where
  poller : Poller Int := .new
  chan : Int → Channel := fun _ => .new
  gone : Int → Bool := fun _ => false

namespace Polling

/-- the channel has changed and calls `update_channel` -/
def updated (s : Polling) (fd : Int) (c : Channel) : Polling where
  poller := s.poller.updateChannel fd fd c
  chan := Function.update s.chan fd c
  gone := Function.update s.gone fd false

def unRegistered (s : Polling) (fd : Int) (poller : Poller Int) : Polling :=
  { s with poller, gone := Function.update s.gone fd true }

def exec (s : Polling) (fd : Int) (op : ChannelOp) : Option Polling :=
  if op = .unRegister then
    (s.poller.removeChannel fd fd (s.chan fd)).map (s.unRegistered fd)
  else some (s.updated fd (op.apply (s.chan fd)))

inductive Step : Polling → Int × ChannelOp → Polling → Prop where
  | mk {s t : Polling} {fd : Int} {op : ChannelOp} : s.exec fd op = some t → Step s (fd, op) t

/-- what the kernel should have for a descriptor -/
def wanted (s : Polling) (fd : Int) : Option (BitVec 32 × Int) :=
  if (s.chan fd).isNoneEvent = false ∧ s.gone fd = false then
    some ((s.chan fd).events.signExtend 32, fd)
  else none

/-- the poller and the kernel agree -/
def Agrees (s : Polling) : Prop := ∀ fd, s.poller.kernel fd = s.wanted fd

/-- the operation does not go through the empty event word: a channel in the map keeps or loses
its interest, one that is not comes in with some -/
def Steady (s : Polling) : Int × ChannelOp → Prop
  | (fd, op) => op ≠ .unRegister →
    if s.poller.fdChannelMap fd = none then (op.apply (s.chan fd)).isNoneEvent = false
    else (s.chan fd).isNoneEvent = true → (op.apply (s.chan fd)).isNoneEvent = true

/-- the three views of a channel in step -/
structure InStep (s : Polling) : Prop where
  agrees : s.Agrees
  mapped : ∀ fd key, s.poller.fdChannelMap fd = some key → key = fd ∧ s.gone fd = false
  unmapped : ∀ fd, s.poller.fdChannelMap fd = none → s.wanted fd = none

theorem inStep_new : InStep {} where
  agrees _ := rfl
  mapped _ _ h := by cases h
  unmapped _ _ := rfl

/-- the assertion of `removeChannel` holds -/
theorem exec_isSome {s : Polling} (h : s.InStep) (fd : Int) (op : ChannelOp) :
    ∃ t, s.exec fd op = some t := by
  unfold exec
  split
  · unfold Poller.removeChannel
    cases hm : s.poller.fdChannelMap fd with
    | none => exact ⟨_, rfl⟩
    | some key =>
      dsimp only
      rw [if_pos (h.mapped fd key hm).1.symm]
      exact ⟨_, rfl⟩
  · exact ⟨_, rfl⟩

theorem inStep_unRegister {s t : Polling} (h : s.InStep) {fd : Int}
    (ht : s.exec fd .unRegister = some t) : t.InStep := by
  change (s.poller.removeChannel fd fd (s.chan fd)).map (s.unRegistered fd) = some t at ht
  -- whatever the map says, afterwards it and the kernel have nothing for `fd`
  obtain ⟨q, rfl, hmap, hker, hmap', hker'⟩ : ∃ q : Poller Int,
      t = s.unRegistered fd q ∧
      q.fdChannelMap fd = none ∧ q.kernel fd = none ∧
      (∀ fd' ≠ fd, q.fdChannelMap fd' = s.poller.fdChannelMap fd') ∧
      ∀ fd' ≠ fd, q.kernel fd' = s.poller.kernel fd' := by
    unfold Poller.removeChannel at ht
    cases hm : s.poller.fdChannelMap fd with
    | none =>
      rw [hm] at ht
      obtain rfl := Option.some.inj ht
      refine ⟨s.poller, rfl, hm, ?_, fun _ _ => rfl, fun _ _ => rfl⟩
      rw [h.agrees fd, h.unmapped fd hm]
    | some key =>
      rw [hm] at ht
      dsimp only at ht
      rw [if_pos (h.mapped fd key hm).1.symm] at ht
      obtain rfl := Option.some.inj ht
      refine ⟨_, rfl, Function.update_self _ _ _, Poller.ctl_del _ _ _ _, ?_, ?_⟩
      · intro fd' hne
        exact Function.update_of_ne hne _ _
      · intro fd' hne
        exact Poller.ctl_other _ _ hne _ _
  have hself : (s.unRegistered fd q).wanted fd = none := by
    simp [wanted, unRegistered]
  have hother : ∀ fd' ≠ fd, (s.unRegistered fd q).wanted fd' = s.wanted fd' := by
    intro fd' hne
    simp [wanted, unRegistered, hne]
  refine ⟨?_, ?_, ?_⟩
  · intro fd'
    by_cases hne : fd' = fd
    · subst hne
      rw [hself]
      exact hker
    · rw [hother fd' hne]
      exact (hker' fd' hne).trans (h.agrees fd')
  · intro fd' key hm
    change q.fdChannelMap fd' = some key at hm
    by_cases hne : fd' = fd
    · subst hne
      rw [hmap] at hm
      cases hm
    · rw [hmap' fd' hne] at hm
      obtain ⟨hkey, hgone⟩ := h.mapped fd' key hm
      exact ⟨hkey, (Function.update_of_ne hne _ _).trans hgone⟩
  · intro fd' hm
    by_cases hne : fd' = fd
    · subst hne
      exact hself
    · rw [hother fd' hne]
      exact h.unmapped fd' ((hmap' fd' hne).symm.trans hm)

theorem wanted_updated (s : Polling) (fd : Int) (c : Channel) : (s.updated fd c).wanted fd =
    if c.isNoneEvent = false then some (c.events.signExtend 32, fd) else none := by
  simp [updated, wanted]

theorem wanted_updated_other (s : Polling) {fd fd' : Int} (hne : fd' ≠ fd) (c : Channel) :
    (s.updated fd c).wanted fd' = s.wanted fd' := by
  simp [updated, wanted, hne]

/-- an updated channel is in the map -/
theorem map_updated {s : Polling} (h : s.InStep) (fd : Int) (c : Channel) :
    (s.updated fd c).poller.fdChannelMap fd = some fd := by
  refine (Poller.updateChannel_map _ _ _ _ _).trans ?_
  cases hm : s.poller.fdChannelMap fd with
  | none => exact if_pos ⟨rfl, rfl⟩
  | some key => rw [if_neg (fun e => by cases e.2), (h.mapped fd key hm).1]

theorem map_updated_other (s : Polling) {fd fd' : Int} (hne : fd' ≠ fd) (c : Channel) :
    (s.updated fd c).poller.fdChannelMap fd' = s.poller.fdChannelMap fd' :=
  (Poller.updateChannel_local _ _ _ _ fd' hne).1

/-- an update disturbs the agreement on its own descriptor only -/
theorem updated_agrees {s : Polling} (h : s.InStep) (fd : Int) (c : Channel) :
    (s.updated fd c).Agrees ↔
      (s.updated fd c).poller.kernel fd = (s.updated fd c).wanted fd := by
  refine ⟨fun ha => ha fd, fun he fd' => ?_⟩
  by_cases hne : fd' = fd
  · rw [hne]
    exact he
  · rw [wanted_updated_other s hne, ← h.agrees fd']
    exact Poller.updateChannel_other _ hne _ _

/-- and there it needs a steady operation -/
theorem updated_steady {s : Polling} (h : s.InStep) {fd : Int} {op : ChannelOp}
    (hop : op ≠ .unRegister) :
    (s.updated fd (op.apply (s.chan fd))).poller.kernel fd =
        (s.updated fd (op.apply (s.chan fd))).wanted fd ↔
      s.Steady (fd, op) := by
  have hold : s.poller.kernel fd = s.wanted fd := h.agrees fd
  rw [wanted_updated, Steady]
  generalize op.apply (s.chan fd) = c
  show (s.poller.updateChannel fd fd c).kernel fd = _ ↔ _
  cases hm : s.poller.fdChannelMap fd with
  | none =>
    rw [h.unmapped fd hm] at hold
    rw [Poller.updateChannel_new hm hold, if_pos rfl]
    cases hn : c.isNoneEvent with
    | false => simp
    | true => simp [hop]
  | some key =>
    rw [Poller.updateChannel_old hm, hold, wanted, (h.mapped fd key hm).2]
    cases hn : c.isNoneEvent <;> cases hs : (s.chan fd).isNoneEvent <;> simp [hop]

/-- **One operation** that updates a channel -/
theorem update_step {s t : Polling} (h : s.InStep) {fd : Int} {op : ChannelOp}
    (hop : op ≠ .unRegister) (ht : s.exec fd op = some t) :
    (t.Agrees ↔ s.Steady (fd, op)) ∧ (s.Steady (fd, op) → t.InStep) := by
  rw [exec, if_neg hop] at ht
  obtain rfl := Option.some.inj ht
  have hiff := (updated_agrees h fd (op.apply (s.chan fd))).trans (updated_steady h hop)
  refine ⟨hiff, fun hst => ⟨hiff.mpr hst, ?_, ?_⟩⟩
  · intro fd' key hm
    by_cases hne : fd' = fd
    · subst hne
      rw [map_updated h] at hm
      exact ⟨(Option.some.inj hm).symm, Function.update_self _ _ _⟩
    · rw [map_updated_other s hne] at hm
      obtain ⟨hkey, hg⟩ := h.mapped fd' key hm
      exact ⟨hkey, (Function.update_of_ne hne _ _).trans hg⟩
  · intro fd' hm
    have hne : fd' ≠ fd := by
      rintro rfl
      rw [map_updated h] at hm
      cases hm
    rw [map_updated_other s hne] at hm
    rw [wanted_updated_other s hne]
    exact h.unmapped fd' hm

/-- **The poller and the kernel agree, exactly in steady runs.** -/
theorem agrees_iff {tr : List (Tr Polling (Int × ChannelOp))} (h : Path Step {} tr) :
    (∀ e ∈ tr, e.post.Agrees) ↔ ∀ e ∈ tr, e.pre.Steady e.act := by
  have hstep : ∀ s a t, InStep s → Step s a t →
      (t.Agrees ↔ s.Steady a) ∧ (s.Steady a → t.InStep) := by
    rintro s ⟨fd, op⟩ t hs hst
    have ht : s.exec fd op = some t := by
      cases hst with
      | mk ht => exact ht
    by_cases hop : op = .unRegister
    · subst hop
      have hin := inStep_unRegister hs ht
      exact ⟨⟨fun _ hne => absurd rfl hne, fun _ => hin.agrees⟩, fun _ => hin⟩
    · exact update_step hs hop ht
  exact h.all_iff (P := fun e => e.post.Agrees) hstep inStep_new

/-- the channel of descriptor 5 reads, then also writes -/
theorem agrees_readWrite : (updated {} 5 (Channel.new.enableRead)).Agrees ∧
    ((updated {} 5 (Channel.new.enableRead)).updated 5
      (Channel.new.enableRead.enableWrite)).Agrees := by
  have h1 : Step {} (5, .enableRead) (updated {} 5 (Channel.new.enableRead)) := .mk rfl
  have h2 : Step (updated {} 5 (Channel.new.enableRead)) (5, .enableWrite)
      ((updated {} 5 (Channel.new.enableRead)).updated 5 (Channel.new.enableRead.enableWrite)) :=
    .mk rfl
  have hall := (agrees_iff (.cons h1 (.cons h2 (.nil _)))).mpr <| by
    intro e he
    rcases List.mem_cons.mp he with rfl | he
    · exact fun _ => rfl
    · obtain rfl := List.mem_singleton.mp he
      exact fun _ hn => absurd hn (by decide)
  exact ⟨hall _ List.mem_cons_self, hall _ (List.mem_cons_of_mem _ List.mem_cons_self)⟩

/-- interest is dropped to none and enabled again, and the kernel is not told -/
theorem enable_after_none :
    ¬ ∀ tr, Path Step {} tr → ∀ e ∈ tr, e.post.Agrees := by
  intro hall
  have h1 : Step {} (5, .enableRead) (updated {} 5 (Channel.new.enableRead)) := .mk rfl
  generalize hs : updated {} 5 (Channel.new.enableRead) = s1 at h1
  have h2 : Step s1 (5, .disableRead) (s1.updated 5 (s1.chan 5).disableRead) := .mk rfl
  generalize hs2 : s1.updated 5 (s1.chan 5).disableRead = s2 at h2
  have h3 : Step s2 (5, .enableRead) (s2.updated 5 (s2.chan 5).enableRead) := .mk rfl
  have hpath := Path.cons h1 (.cons h2 (.cons h3 (.nil _)))
  have hagrees := hall _ hpath ⟨s2, (5, .enableRead), s2.updated 5 (s2.chan 5).enableRead⟩ (by simp) 5
  subst hs2
  subst hs
  exact absurd hagrees (by decide)

end Polling

end Feipu
