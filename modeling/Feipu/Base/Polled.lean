import Mathlib.Data.List.Perm.Subperm
import Mathlib.Data.Nat.Log
import Feipu.Base.Poller

/-!
# `Poller::poll` and the life of the channels

The kernel hands back the pointers it was given, and `poll` reads the descriptor behind each before
it asserts that the map holds the pointer.  So a run keeps the `Channel` objects too: a value of `κ`
is an address, and an address is used again after its channel is gone.

* `never_stale`  while there is one channel for a descriptor, and a channel is removed before it is
                 destroyed, every pointer that `poll` gets is the channel in the map;
* `few_misses`   however long the run, the array of events is too small for what is ready a
                 logarithmic number of times, and is never more than twice as large as needed.
-/

namespace Feipu
open Trace

/-! ## the poller and the channels in memory -/

/-- a `Channel` in memory -/
structure ChannelObject where
  fd : Int
  chan : Channel := .new
  revents : BitVec 16 := 0

structure EpollEvent (κ : Type) where
  events : BitVec 32
  ptr : κ

/-- what `epoll_wait` answers -/
inductive Waited (κ : Type) where
  | error
  | events (evs : List (EpollEvent κ))

/-- `registered` is history: the last call for the channel was `update_channel` -/
structure Polled (κ : Type) where
  poller : Poller κ := .new
  /-- the size of `rec_events_` -/
  recEvents : Nat := 16
  object : κ → Option ChannelObject := fun _ => none
  /-- what `poll` returned -/
  active : List κ := []
  registered : κ → Bool := fun _ => false

namespace Polled
variable {κ : Type} [DecidableEq κ]

/-- the descriptor of the channel at an address -/
def fdAt (s : Polled κ) (key : κ) : Option Int := (s.object key).map ChannelObject.fd

/-- the loop of `poll`; `none` is a pointer to no channel or a failed assertion -/
def pollLoop (s : Polled κ) : List (EpollEvent κ) → Option (Polled κ)
  | [] => some s
  | ev :: evs =>
    match s.object ev.ptr with
    | none => none
    | some o =>
      if s.poller.fdChannelMap o.fd = some ev.ptr then
        pollLoop { s with
          object := Function.update s.object ev.ptr
            (some { o with revents := ev.events.setWidth 16 })
          active := s.active ++ [ev.ptr] } evs
      else none

def poll (s : Polled κ) : Waited κ → Option (Polled κ)
  | .error => some { s with active := [] }
  | .events evs => pollLoop { s with
      active := []
      recEvents := if evs.length = s.recEvents then 2 * s.recEvents else s.recEvents } evs

/-- the assertion of `update_channel` on the channel in the map -/
def fdKept (s : Polled κ) (fd : Int) : Bool :=
  match s.poller.fdChannelMap fd with
  | none => true
  | some key => s.fdAt key == some fd

/-- the channel has changed to `c` and calls `update_channel` -/
def updateChannel (s : Polled κ) (key : κ) (c : Channel) : Option (Polled κ) :=
  match s.object key with
  | none => none
  | some o =>
    if s.fdKept o.fd then
      some { s with
        poller := s.poller.updateChannel o.fd key c
        object := Function.update s.object key (some { o with chan := c })
        registered := Function.update s.registered key true }
    else none

def removeChannel (s : Polled κ) (key : κ) : Option (Polled κ) :=
  match s.object key with
  | none => none
  | some o =>
    (s.poller.removeChannel o.fd key o.chan).map fun poller =>
      { s with poller, registered := Function.update s.registered key false }

inductive Act (κ : Type) where
  | create (key : κ) (fd : Int)
  | update (key : κ) (c : Channel)
  | remove (key : κ)
  | destroy (key : κ)
  /-- the descriptor is closed, and the kernel forgets it -/
  | close (fd : Int)
  | poll (w : Waited κ)

def exec (s : Polled κ) : Act κ → Option (Polled κ)
  | .create key fd => some { s with
      object := Function.update s.object key (some { fd })
      registered := Function.update s.registered key false }
  | .update key c => s.updateChannel key c
  | .remove key => s.removeChannel key
  | .destroy key => some { s with object := Function.update s.object key none }
  | .close fd => some { s with
      poller := { s.poller with kernel := Function.update s.poller.kernel fd none } }
  | .poll w => s.poll w

/-- the use of the channels: one for a descriptor, removed before it is destroyed.  The kernel
reports pointers of its interest set, as often as it likes. -/
def May (s : Polled κ) : Act κ → Prop
  | .create key fd => s.object key = none ∧ ∀ key', s.fdAt key' ≠ some fd
  | .update key _ => s.object key ≠ none
  | .remove key => s.object key ≠ none
  | .destroy key => s.object key ≠ none ∧ s.registered key = false
  | .close _ => True
  | .poll .error => True
  | .poll (.events evs) => ∀ ev ∈ evs, ∃ fd mask, s.poller.kernel fd = some (mask, ev.ptr)

/-- `none` is a failed assertion, or a read through a pointer to no channel -/
inductive Step : Option (Polled κ) → Act κ → Option (Polled κ) → Prop where
  | mk {s : Polled κ} {a : Act κ} : s.May a → Step (some s) a (s.exec a)

/-! ## the kernel's pointers are in the map, and the map's are alive -/

structure Kept (s : Polled κ) : Prop where
  kernel : ∀ fd mask key, s.poller.kernel fd = some (mask, key) →
    s.poller.fdChannelMap fd = some key
  mapped : ∀ fd key, s.poller.fdChannelMap fd = some key →
    s.fdAt key = some fd ∧ s.registered key = true
  single : ∀ fd key key', s.fdAt key = some fd → s.fdAt key' = some fd → key = key'

omit [DecidableEq κ] in
theorem kept_new : Kept ({} : Polled κ) where
  kernel _ _ _ h := by cases h
  mapped _ _ h := by cases h
  single _ _ _ h := by cases h

/-- what `poll` asserts of a pointer -/
def Current (s : Polled κ) (key : κ) : Prop :=
  ∃ fd, s.fdAt key = some fd ∧ s.poller.fdChannelMap fd = some key

omit [DecidableEq κ] in
theorem Kept.current {s : Polled κ} (h : s.Kept) {fd : Int} {mask : BitVec 32} {key : κ}
    (hk : s.poller.kernel fd = some (mask, key)) : s.Current key := by
  have hm := h.kernel fd mask key hk
  exact ⟨fd, (h.mapped fd key hm).1, hm⟩

omit [DecidableEq κ] in
theorem fdAt_of_object {s : Polled κ} {key : κ} {o : ChannelObject} (h : s.object key = some o) :
    s.fdAt key = some o.fd := by
  rw [fdAt, h, Option.map_some]

omit [DecidableEq κ] in
theorem kernel_of_unmapped {s : Polled κ} (h : s.Kept) {fd : Int}
    (hm : s.poller.fdChannelMap fd = none) : s.poller.kernel fd = none := by
  by_contra hsome
  obtain ⟨⟨mask, key⟩, he⟩ := Option.ne_none_iff_exists'.mp hsome
  rw [h.kernel fd mask key he] at hm
  cases hm

omit [DecidableEq κ] in
/-- nothing `Kept` speaks of has changed, but kernel entries may be gone -/
theorem Kept.frame {s t : Polled κ} (h : s.Kept)
    (hker : ∀ fd e, t.poller.kernel fd = some e → s.poller.kernel fd = some e)
    (hmap : t.poller.fdChannelMap = s.poller.fdChannelMap) (hfd : ∀ key, t.fdAt key = s.fdAt key)
    (hreg : t.registered = s.registered) : t.Kept where
  kernel fd mask key hk := by
    rw [hmap]
    exact h.kernel fd mask key (hker fd _ hk)
  mapped fd key hm := by
    rw [hmap] at hm
    rw [hfd, hreg]
    exact h.mapped fd key hm
  single fd key key' h1 h2 := by
    rw [hfd] at h1 h2
    exact h.single fd key key' h1 h2

/-! ## poll -/

/-- rewriting a channel in place leaves the descriptors alone -/
theorem fdAt_rewrite {s t : Polled κ} {key : κ} {o o' : ChannelObject} (h : s.object key = some o)
    (ht : t.object = Function.update s.object key (some o')) (hfd : o'.fd = o.fd) (key' : κ) :
    t.fdAt key' = s.fdAt key' := by
  by_cases hkey : key' = key
  · subst hkey
    rw [fdAt_of_object h, fdAt, ht, Function.update_self, Option.map_some, hfd]
  · rw [fdAt, ht, Function.update_of_ne hkey, fdAt]

/-- **The loop of `poll`** gets through current pointers, and returns them. -/
theorem pollLoop_spec {s : Polled κ} {evs : List (EpollEvent κ)}
    (h : ∀ ev ∈ evs, s.Current ev.ptr) :
    ∃ t, s.pollLoop evs = some t ∧ t.active = s.active ++ evs.map EpollEvent.ptr ∧
      t.poller = s.poller ∧ t.registered = s.registered ∧ ∀ key, t.fdAt key = s.fdAt key := by
  induction evs generalizing s with
  | nil => exact ⟨s, rfl, by rw [List.map_nil, List.append_nil], rfl, rfl, fun _ => rfl⟩
  | cons ev evs ih =>
    obtain ⟨fd, hfd, hm⟩ := h ev List.mem_cons_self
    obtain ⟨o, ho, rfl⟩ := Option.map_eq_some_iff.mp hfd
    let s' : Polled κ := { s with
      object := Function.update s.object ev.ptr (some { o with revents := ev.events.setWidth 16 })
      active := s.active ++ [ev.ptr] }
    have hsame : ∀ key, s'.fdAt key = s.fdAt key := fdAt_rewrite ho rfl rfl
    have hrest : ∀ ev' ∈ evs, s'.Current ev'.ptr := by
      intro ev' hev'
      obtain ⟨fd', hfd', hm'⟩ := h ev' (List.mem_cons_of_mem _ hev')
      exact ⟨fd', (hsame _).trans hfd', hm'⟩
    obtain ⟨t, ht, hact, hpoller, hreg, hkeep⟩ := ih hrest
    refine ⟨t, ?_, ?_, hpoller, hreg, fun key => (hkeep key).trans (hsame key)⟩
    · rw [pollLoop, ho]
      dsimp only
      rw [if_pos hm]
      exact ht
    · rw [hact]
      show (s.active ++ [ev.ptr]) ++ evs.map EpollEvent.ptr = _
      rw [List.append_assoc, List.map_cons, List.singleton_append]

theorem poll_spec {s : Polled κ} (h : s.Kept) {w : Waited κ} (hw : s.May (.poll w)) :
    ∃ t, s.poll w = some t ∧ t.Kept ∧ ∀ evs, w = .events evs →
      t.active = evs.map EpollEvent.ptr ∧ ∀ ev ∈ evs, s.Current ev.ptr := by
  cases w with
  | error =>
    refine ⟨_, rfl, h.frame (fun _ _ hk => hk) rfl (fun _ => rfl) rfl, ?_⟩
    intro evs hevs
    cases hevs
  | events evs =>
    have hcur : ∀ ev ∈ evs, s.Current ev.ptr := by
      intro ev hev
      obtain ⟨fd, mask, hk⟩ := hw ev hev
      exact h.current hk
    let s' : Polled κ := { s with
      active := []
      recEvents := if evs.length = s.recEvents then 2 * s.recEvents else s.recEvents }
    obtain ⟨t, ht, hact, hpoller, hreg, hfd⟩ := pollLoop_spec (s := s') hcur
    refine ⟨t, ht, ?_, ?_⟩
    · apply h.frame _ (by rw [hpoller]) hfd hreg
      intro fd e hk
      rw [hpoller] at hk
      exact hk
    · intro evs' hevs'
      obtain rfl := Waited.events.inj hevs'
      exact ⟨hact, hcur⟩

/-! ## update and remove -/

omit [DecidableEq κ] in
theorem fdKept_of_kept {s : Polled κ} (h : s.Kept) (fd : Int) : s.fdKept fd = true := by
  unfold fdKept
  cases hm : s.poller.fdChannelMap fd with
  | none => rfl
  | some key =>
    dsimp only
    rw [(h.mapped fd key hm).1, beq_self_eq_true]

omit [DecidableEq κ] in
/-- whatever `update_channel` leaves in the kernel for the descriptor has the pointer passed -/
theorem updateChannel_pointer {p : Poller κ} {fd : Int} {key key' : κ} {c : Channel}
    {mask : BitVec 32} (h : p.fdChannelMap fd = none → p.kernel fd = none)
    (hk : (p.updateChannel fd key c).kernel fd = some (mask, key')) : key' = key := by
  cases hm : p.fdChannelMap fd with
  | none =>
    rw [Poller.updateChannel_new hm (h hm)] at hk
    exact (Prod.mk.inj (Option.some.inj hk)).2.symm
  | some key'' =>
    rw [Poller.updateChannel_old hm] at hk
    split at hk
    · cases hk
    · obtain ⟨_, -, he⟩ := Option.map_eq_some_iff.mp hk
      exact (Prod.mk.inj he).2.symm

/-- **`update_channel`**: an entry of the map stays as it is, and `MOD` stores the same pointer. -/
theorem updateChannel_spec {s : Polled κ} (h : s.Kept) {key : κ} (hkey : s.object key ≠ none)
    (c : Channel) : ∃ t, s.updateChannel key c = some t ∧ t.Kept := by
  obtain ⟨o, ho⟩ := Option.ne_none_iff_exists'.mp hkey
  have hfd := fdAt_of_object ho
  -- the only channel that the map can hold for this descriptor is the one that calls
  have hown : ∀ key', s.poller.fdChannelMap o.fd = some key' → key' = key := by
    intro key' hm
    exact h.single o.fd key' key (h.mapped o.fd key' hm).1 hfd
  let t : Polled κ := { s with
    poller := s.poller.updateChannel o.fd key c
    object := Function.update s.object key (some { o with chan := c })
    registered := Function.update s.registered key true }
  have hsame : ∀ key', t.fdAt key' = s.fdAt key' := fdAt_rewrite ho rfl rfl
  have hmap : t.poller.fdChannelMap o.fd = some key := by
    show (s.poller.updateChannel o.fd key c).fdChannelMap o.fd = _
    rw [Poller.updateChannel_map]
    cases hm : s.poller.fdChannelMap o.fd with
    | none => rw [if_pos ⟨rfl, rfl⟩]
    | some key' => rw [if_neg fun e => (by cases e.2), hown key' hm]
  have hother := s.poller.updateChannel_local o.fd key c
  refine ⟨t, ?_, ?_, ?_, ?_⟩
  · rw [updateChannel, ho]
    dsimp only
    rw [if_pos (fdKept_of_kept h o.fd)]
  · intro fd mask key' hk
    by_cases hne : fd = o.fd
    · rw [hne] at hk
      rw [hne, hmap]
      have hk : (s.poller.updateChannel o.fd key c).kernel o.fd = some (mask, key') := hk
      rw [updateChannel_pointer (kernel_of_unmapped h) hk]
    · have hk : (s.poller.updateChannel o.fd key c).kernel fd = some (mask, key') := hk
      show (s.poller.updateChannel o.fd key c).fdChannelMap fd = _
      rw [(hother fd hne).2] at hk
      rw [(hother fd hne).1]
      exact h.kernel fd mask key' hk
  · intro fd key' hm
    rw [hsame]
    by_cases hne : fd = o.fd
    · rw [hne, hmap] at hm
      obtain rfl := Option.some.inj hm
      exact ⟨hne ▸ hfd, Function.update_self _ _ _⟩
    · have hm : (s.poller.updateChannel o.fd key c).fdChannelMap fd = some key' := hm
      rw [(hother fd hne).1] at hm
      obtain ⟨hfd', hreg⟩ := h.mapped fd key' hm
      refine ⟨hfd', ?_⟩
      show Function.update s.registered key true key' = true
      by_cases hkk : key' = key
      · rw [hkk, Function.update_self]
      · rw [Function.update_of_ne hkk, hreg]
  · intro fd key1 key2 h1 h2
    rw [hsame] at h1 h2
    exact h.single fd key1 key2 h1 h2

/-- a channel that is gone from the map and the kernel is no longer registered -/
theorem Kept.forget {s : Polled κ} (h : s.Kept) {key : κ} {fd : Int} (hfd : s.fdAt key = some fd)
    {p : Poller κ} (hmap : p.fdChannelMap fd = none) (hker : p.kernel fd = none)
    (hmap' : ∀ fd' ≠ fd, p.fdChannelMap fd' = s.poller.fdChannelMap fd')
    (hker' : ∀ fd' ≠ fd, p.kernel fd' = s.poller.kernel fd') :
    Kept { s with poller := p, registered := Function.update s.registered key false } where
  kernel fd' mask key' hk := by
    by_cases hne : fd' = fd
    · rw [hne, hker] at hk
      cases hk
    · rw [hker' fd' hne] at hk
      rw [hmap' fd' hne]
      exact h.kernel fd' mask key' hk
  mapped fd' key' hm := by
    by_cases hne : fd' = fd
    · rw [hne, hmap] at hm
      cases hm
    · rw [hmap' fd' hne] at hm
      obtain ⟨hfd', hreg⟩ := h.mapped fd' key' hm
      refine ⟨hfd', ?_⟩
      have hkey : key' ≠ key := by
        intro he
        rw [he, hfd] at hfd'
        exact hne (Option.some.inj hfd').symm
      show Function.update s.registered key false key' = true
      rw [Function.update_of_ne hkey, hreg]
  single := h.single

theorem removeChannel_spec {s : Polled κ} (h : s.Kept) {key : κ} (hkey : s.object key ≠ none) :
    ∃ t, s.removeChannel key = some t ∧ t.Kept := by
  obtain ⟨o, ho⟩ := Option.ne_none_iff_exists'.mp hkey
  have hfd := fdAt_of_object ho
  rw [removeChannel, ho]
  dsimp only
  unfold Poller.removeChannel
  cases hm : s.poller.fdChannelMap o.fd with
  | none =>
    have hker : s.poller.kernel o.fd = none := kernel_of_unmapped h hm
    exact ⟨_, rfl, h.forget hfd hm hker (fun _ _ => rfl) (fun _ _ => rfl)⟩
  | some key' =>
    obtain rfl := h.single o.fd key key' hfd (h.mapped o.fd key' hm).1
    dsimp only
    rw [if_pos rfl]
    refine ⟨_, rfl, h.forget hfd (Function.update_self _ _ _) (Poller.ctl_del _ _ _ _) ?_ ?_⟩
    · intro fd' hne
      exact Function.update_of_ne hne _ _
    · intro fd' hne
      exact Poller.ctl_other _ _ hne _ _

/-! ## runs -/

theorem create_spec {s : Polled κ} (h : s.Kept) {key : κ} {fd : Int}
    (hmay : s.May (.create key fd)) : ∃ t, s.exec (.create key fd) = some t ∧ t.Kept := by
  obtain ⟨hfree, hone⟩ := hmay
  have hno : s.fdAt key = none := by rw [fdAt, hfree, Option.map_none]
  let t : Polled κ := { s with
    object := Function.update s.object key (some { fd })
    registered := Function.update s.registered key false }
  have hself : t.fdAt key = some fd := by
    show (Function.update s.object key _ key).map ChannelObject.fd = _
    rw [Function.update_self, Option.map_some]
  have hother : ∀ key' ≠ key, t.fdAt key' = s.fdAt key' := by
    intro key' hne
    show (Function.update s.object key _ key').map ChannelObject.fd = _
    rw [Function.update_of_ne hne, fdAt]
  refine ⟨t, rfl, h.kernel, ?_, ?_⟩
  · intro fd' key' hm
    obtain ⟨hfd', hreg⟩ := h.mapped fd' key' hm
    have hne : key' ≠ key := by
      intro he
      rw [he, hno] at hfd'
      cases hfd'
    refine ⟨(hother key' hne).trans hfd', ?_⟩
    show Function.update s.registered key false key' = true
    rw [Function.update_of_ne hne, hreg]
  · intro fd' key1 key2 h1 h2
    -- an old channel and the new one have different descriptors
    have hnew : ∀ key', key' ≠ key → t.fdAt key' ≠ some fd := by
      intro key' hne
      rw [hother key' hne]
      exact hone key'
    by_cases hk1 : key1 = key
    · by_cases hk2 : key2 = key
      · rw [hk1, hk2]
      · rw [hk1, hself] at h1
        rw [← h1] at h2
        exact absurd h2 (hnew key2 hk2)
    · by_cases hk2 : key2 = key
      · rw [hk2, hself] at h2
        rw [← h2] at h1
        exact absurd h1 (hnew key1 hk1)
      · rw [hother key1 hk1] at h1
        rw [hother key2 hk2] at h2
        exact h.single fd' key1 key2 h1 h2

theorem destroy_spec {s : Polled κ} (h : s.Kept) {key : κ} (hmay : s.May (.destroy key)) :
    ∃ t, s.exec (.destroy key) = some t ∧ t.Kept := by
  let t : Polled κ := { s with object := Function.update s.object key none }
  have hother : ∀ key' ≠ key, t.fdAt key' = s.fdAt key' := by
    intro key' hne
    show (Function.update s.object key none key').map ChannelObject.fd = _
    rw [Function.update_of_ne hne, fdAt]
  have hold : ∀ key' fd, t.fdAt key' = some fd → s.fdAt key' = some fd := by
    intro key' fd hfd
    by_cases hkey : key' = key
    · have hfd : (Function.update s.object key none key').map ChannelObject.fd = some fd := hfd
      rw [hkey, Function.update_self] at hfd
      cases hfd
    · rw [← hother key' hkey]
      exact hfd
  refine ⟨t, rfl, h.kernel, ?_, fun fd key1 key2 h1 h2 => ?_⟩
  · intro fd key' hm
    obtain ⟨hfd, hreg⟩ := h.mapped fd key' hm
    have hne : key' ≠ key := by
      intro he
      rw [he, hmay.2] at hreg
      cases hreg
    exact ⟨(hother key' hne).trans hfd, hreg⟩
  · exact h.single fd key1 key2 (hold key1 fd h1) (hold key2 fd h2)

/-- **One step** runs into no assertion. -/
theorem exec_spec {s : Polled κ} (h : s.Kept) {a : Act κ} (hmay : s.May a) :
    ∃ t, s.exec a = some t ∧ t.Kept := by
  cases a with
  | create key fd => exact create_spec h hmay
  | update key c => exact updateChannel_spec h hmay c
  | remove key => exact removeChannel_spec h hmay
  | destroy key => exact destroy_spec h hmay
  | close fd =>
    refine ⟨_, rfl, h.frame ?_ rfl (fun _ => rfl) rfl⟩
    intro fd' e hk
    have hk : Function.update s.poller.kernel fd none fd' = some e := hk
    by_cases hne : fd' = fd
    · rw [hne, Function.update_self] at hk
      cases hk
    · rw [Function.update_of_ne hne] at hk
      exact hk
  | poll w =>
    obtain ⟨t, ht, hkept, -⟩ := poll_spec h hmay
    exact ⟨t, ht, hkept⟩

/-- the step runs into no assertion, and a `poll` that got events returns their channels, each of
them alive and the one in the map for its descriptor -/
def Fresh (e : Tr (Option (Polled κ)) (Act κ)) : Prop :=
  ∃ s t, e.pre = some s ∧ e.post = some t ∧ ∀ evs, e.act = .poll (.events evs) →
    t.active = evs.map EpollEvent.ptr ∧ ∀ ev ∈ evs, s.Current ev.ptr

/-- **The poller never reports a stale channel.** -/
theorem never_stale {tr : List (Tr (Option (Polled κ)) (Act κ))}
    (h : Path Step (some {}) tr) : ∀ e ∈ tr, Fresh e := by
  have hstep : ∀ s (a : Act κ) t, (∃ p : Polled κ, s = some p ∧ p.Kept) → Step s a t →
      (∃ p, t = some p ∧ p.Kept) ∧ Fresh ⟨s, a, t⟩ := by
    rintro s a t ⟨p, rfl, hp⟩ hst
    cases hst with
    | mk hmay =>
      obtain ⟨q, hq, hkept⟩ := exec_spec hp hmay
      refine ⟨⟨q, hq, hkept⟩, p, q, rfl, hq, ?_⟩
      rintro evs rfl
      obtain ⟨q', hq', -, hall⟩ := poll_spec hp hmay
      have hqq : q' = q := Option.some.inj (hq'.symm.trans hq)
      rw [← hqq]
      exact hall evs rfl
  intro e he
  exact (h.inv hstep ⟨{}, rfl, kept_new⟩ e he).2.2

/-- interest passes through none, and the address is used again for another descriptor -/
theorem never_stale_reused : ∃ tr : List (Tr (Option (Polled Unit)) (Act Unit)),
    tr.map Tr.act = [.create () 5, .update () Channel.new.enableRead, .update () Channel.new,
      .update () Channel.new.enableRead, .remove (), .destroy (), .create () 6,
      .update () Channel.new.enableRead, .poll (.events [⟨1, ()⟩])] ∧
    (∀ e ∈ tr, Fresh e) ∧ (last (some {}) tr).map active = some [()] := by
  have hstep : ∀ (s : Polled Unit) (a : Act Unit), s.May a → (s.exec a).isSome = true →
      Step (some s) a (some ((s.exec a).getD {})) := by
    intro s a hmay hsome
    obtain ⟨t, ht⟩ := Option.isSome_iff_exists.mp hsome
    have hmk := Step.mk hmay
    rw [ht] at hmk ⊢
    exact hmk
  have hpath := Path.cons (hstep {} (.create () 5) ⟨rfl, fun _ h => (by cases h)⟩ rfl) <|
    .cons (hstep _ (.update () Channel.new.enableRead) (Option.some_ne_none _) rfl) <|
    .cons (hstep _ (.update () Channel.new) (Option.some_ne_none _) rfl) <|
    .cons (hstep _ (.update () Channel.new.enableRead) (Option.some_ne_none _) rfl) <|
    .cons (hstep _ (.remove ()) (Option.some_ne_none _) rfl) <|
    .cons (hstep _ (.destroy ()) ⟨Option.some_ne_none _, rfl⟩ rfl) <|
    .cons (hstep _ (.create () 6) ⟨rfl, fun _ h => (by cases h)⟩ rfl) <|
    .cons (hstep _ (.update () Channel.new.enableRead) (Option.some_ne_none _) rfl) <|
    .cons (hstep _ (.poll (.events [⟨1, ()⟩])) (fun _ _ =>
      ⟨6, _, rfl⟩) rfl) <| .nil _
  exact ⟨_, rfl, never_stale hpath, rfl⟩

/-! ## the array of events grows with what is ready -/

/-- a step, and the channels that are ready when it is made -/
structure Moment (κ : Type) where
  act : Act κ
  ready : List κ

/-- `epoll_wait` answers with as many of the ready channels as the array has room for -/
def Answers (s : Polled κ) (m : Moment κ) : Prop :=
  ∀ evs, m.act = .poll (.events evs) → (evs.map EpollEvent.ptr).Nodup ∧
    evs.map EpollEvent.ptr ⊆ m.ready ∧ evs.length = min s.recEvents m.ready.length

/-- a step of a run in which at most `n` channels are ready at a time -/
inductive Waits (n : Nat) : Option (Polled κ) → Moment κ → Option (Polled κ) → Prop where
  | mk {s : Polled κ} {m : Moment κ} : s.May m.act → s.Answers m → m.ready.length ≤ n →
      Waits n (some s) m (s.exec m.act)

/-- the poll leaves out a channel that is ready -/
def Moment.misses (m : Moment κ) : Bool :=
  match m.act with
  | .poll (.events evs) => m.ready.any fun key => !(evs.map EpollEvent.ptr).contains key
  | _ => false

/-- the loop of `poll` touches neither the array nor the interest set -/
theorem pollLoop_keeps {s t : Polled κ} {evs : List (EpollEvent κ)}
    (h : s.pollLoop evs = some t) : t.recEvents = s.recEvents ∧ t.poller = s.poller := by
  induction evs generalizing s with
  | nil =>
    obtain rfl := Option.some.inj h
    exact ⟨rfl, rfl⟩
  | cons ev evs ih =>
    rw [pollLoop] at h
    split at h
    · cases h
    · split at h
      · exact ⟨(ih h).1.trans rfl, (ih h).2.trans rfl⟩
      · cases h

/-- the answer fills the array -/
def Fills (s : Polled κ) (a : Act κ) : Prop :=
  ∃ evs, a = .poll (.events evs) ∧ evs.length = s.recEvents

/-- an array that is not full has everything that is ready -/
theorem Answers.fills {s : Polled κ} {m : Moment κ} (h : s.Answers m) (hm : m.misses = true) :
    s.Fills m.act ∧ s.recEvents < m.ready.length := by
  unfold Moment.misses at hm
  split at hm
  · rename_i evs hact
    obtain ⟨hnd, hsub, hlen⟩ := h evs hact
    by_cases hroom : m.ready.length ≤ s.recEvents
    · rw [Nat.min_eq_right hroom, ← List.length_map EpollEvent.ptr] at hlen
      have hperm := (hnd.subperm hsub).perm_of_length_le (Nat.le_of_eq hlen.symm)
      obtain ⟨key, hkey, hnot⟩ := List.any_eq_true.mp hm
      have hmem : key ∈ evs.map EpollEvent.ptr := hperm.mem_iff.mpr hkey
      rw [List.contains_iff_mem.mpr hmem] at hnot
      cases hnot
    · exact ⟨⟨evs, hact, by omega⟩, by omega⟩
  · cases hm

omit [DecidableEq κ] in
/-- and one that is full has no more events than there are ready channels -/
theorem Answers.le_ready {s : Polled κ} {m : Moment κ} (h : s.Answers m) (hf : s.Fills m.act) :
    s.recEvents ≤ m.ready.length := by
  obtain ⟨evs, hact, hfull⟩ := hf
  obtain ⟨-, -, hlen⟩ := h evs hact
  omega

theorem exec_fills {s t : Polled κ} {a : Act κ} (h : s.exec a = some t) (hf : s.Fills a) :
    t.recEvents = 2 * s.recEvents := by
  obtain ⟨evs, rfl, hfull⟩ := hf
  exact (pollLoop_keeps h).1.trans (if_pos hfull)

/-- only a full array grows -/
theorem exec_recEvents {s t : Polled κ} {a : Act κ} (h : s.exec a = some t) (hf : ¬ s.Fills a) :
    t.recEvents = s.recEvents := by
  cases a with
  | create key fd =>
    obtain rfl := Option.some.inj h
    rfl
  | update key c =>
    have h : s.updateChannel key c = some t := h
    unfold updateChannel at h
    split at h
    · cases h
    · split at h
      · obtain rfl := Option.some.inj h
        rfl
      · cases h
  | remove key =>
    have h : s.removeChannel key = some t := h
    unfold removeChannel at h
    split at h
    · cases h
    · obtain ⟨p, -, rfl⟩ := Option.map_eq_some_iff.mp h
      rfl
  | destroy key =>
    obtain rfl := Option.some.inj h
    rfl
  | close fd =>
    obtain rfl := Option.some.inj h
    rfl
  | poll w =>
    cases w with
    | error =>
      obtain rfl := Option.some.inj h
      rfl
    | events evs =>
      exact (pollLoop_keeps h).1.trans (if_neg fun hfull => hf ⟨evs, rfl, hfull⟩)

/-- the array has been doubled `j` times, and there was need -/
structure Grown (n : Nat) (s : Polled κ) : Prop where
  kept : s.Kept
  doubled : ∃ j, s.recEvents = 16 * 2 ^ j
  needed : s.recEvents ≤ max 16 (2 * n)

/-- how often the array can be doubled before `16 * 2 ^ k` events fit -/
def room (k : Nat) : Option (Polled κ) → Nat
  | none => 0
  | some s => k - Nat.log 2 (s.recEvents / 16)

omit [DecidableEq κ] in
theorem room_eq (k : Nat) {s : Polled κ} {j : Nat} (h : s.recEvents = 16 * 2 ^ j) :
    room k (some s) = k - j := by
  show k - Nat.log 2 (s.recEvents / 16) = k - j
  rw [h, Nat.mul_div_cancel_left _ (by decide), Nat.log_pow (by decide)]

/-- **One step**: a poll that leaves out a ready channel doubles the array. -/
theorem grown_step {n k : Nat} (hn : n ≤ 16 * 2 ^ k) {s : Polled κ} (h : s.Grown n)
    {m : Moment κ} {x : Option (Polled κ)} (hst : Waits n (some s) m x) :
    (∃ t, x = some t ∧ t.Grown n) ∧ m.misses.toNat + room k x ≤ room k (some s) := by
  cases hst with
  | mk hmay hans hready =>
    obtain ⟨t, ht, hkept⟩ := exec_spec h.kept hmay
    obtain ⟨j, hj⟩ := h.doubled
    rw [ht, room_eq k hj]
    by_cases hf : s.Fills m.act
    · have htwice := exec_fills ht hf
      have hle := hans.le_ready hf
      have hj' : t.recEvents = 16 * 2 ^ (j + 1) := by omega
      refine ⟨⟨t, rfl, hkept, ⟨j + 1, hj'⟩, by omega⟩, ?_⟩
      rw [room_eq k hj']
      cases hm : m.misses with
      | false =>
        show 0 + (k - (j + 1)) ≤ k - j
        omega
      | true =>
        -- there was more than the array could hold, so it had room to grow
        have hlt : 2 ^ j < 2 ^ k := by
          have := (hans.fills hm).2
          omega
        have hjk : j < k := (Nat.pow_lt_pow_iff_right Nat.one_lt_two).mp hlt
        show 1 + (k - (j + 1)) ≤ k - j
        omega
    · have hsame := exec_recEvents ht hf
      refine ⟨⟨t, rfl, hkept, ⟨j, hsame.trans hj⟩, hsame ▸ h.needed⟩, ?_⟩
      rw [room_eq k (hsame.trans hj)]
      cases hm : m.misses with
      | false => exact Nat.le_of_eq (Nat.zero_add _)
      | true => exact absurd (hans.fills hm).1 hf

/-- **Few polls leave out a ready channel.**  In a run in which at most `n ≤ 16 * 2 ^ k` channels
are ready at a time, no assertion fails, at most `k` polls leave out a channel that is ready, and
the array of events has at most `max 16 (2 * n)` elements. -/
theorem few_misses {n k : Nat} (hn : n ≤ 16 * 2 ^ k)
    {tr : List (Tr (Option (Polled κ)) (Moment κ))} (h : Path (Waits n) (some {}) tr) :
    tr.countP (fun e => e.act.misses) ≤ k ∧
      ∃ s, last (some {}) tr = some s ∧ s.recEvents ≤ max 16 (2 * n) := by
  have hstep : ∀ x m y, (∃ s : Polled κ, x = some s ∧ s.Grown n) → Waits n x m y →
      (∃ t, y = some t ∧ t.Grown n) ∧ m.misses.toNat + room k y ≤ room k x + 0 := by
    rintro x m y ⟨s, rfl, hs⟩ hst
    exact grown_step hn hs hst
  have hnew : ∃ s : Polled κ, some {} = some s ∧ s.Grown n :=
    ⟨{}, rfl, kept_new, ⟨0, rfl⟩, Nat.le_max_left _ _⟩
  refine ⟨?_, ?_⟩
  · have hsum := h.amortized (w := fun e => e.act.misses.toNat) (g := fun _ => 0) hstep hnew
    have hzero : (tr.map fun _ => 0).sum = 0 := by simp
    rw [hzero, Nat.add_zero] at hsum
    have hroom : room k (some ({} : Polled κ)) = k := room_eq k (j := 0) rfl
    rw [countP_eq_sum]
    omega
  · have hlast := h.guarded_last (G := fun _ _ => True)
      (fun x m y hx hst _ => (hstep x m y hx hst).1) hnew (fun _ _ => trivial)
    obtain ⟨s, hs, hgrown⟩ := hlast
    exact ⟨s, hs, hgrown.needed⟩

/-- the channels below `k` are open, each under its own descriptor, and are to be read -/
structure Open (k : Nat) (s : Polled Nat) : Prop where
  kept : s.Kept
  recEvents : s.recEvents = 16
  kernel : ∀ key < k, ∃ mask, s.poller.kernel key = some (mask, key)
  fdAt : ∀ key fd, s.fdAt key = some fd → fd = key ∧ key < k

/-- the address `k` and the descriptor `k` are free -/
theorem Open.free {k : Nat} {s : Polled Nat} (h : s.Open k) : s.May (.create k k) ∧
    s.poller.fdChannelMap k = none ∧ s.poller.kernel k = none := by
  have hfree : ∀ key, s.fdAt key ≠ some (k : Int) := by
    intro key hkey
    obtain ⟨heq, hlt⟩ := h.fdAt key k hkey
    omega
  have hobject : s.object k = none := by
    cases ho : s.object k with
    | none => rfl
    | some o =>
      obtain ⟨-, hlt⟩ := h.fdAt k o.fd (by rw [Polled.fdAt, ho]; rfl)
      exact absurd hlt (Nat.lt_irrefl k)
  have hmap : s.poller.fdChannelMap k = none := by
    cases hm : s.poller.fdChannelMap k with
    | none => rfl
    | some key => exact absurd (h.kept.mapped k key hm).1 (hfree key)
  refine ⟨⟨hobject, hfree⟩, hmap, ?_⟩
  cases hk : s.poller.kernel k with
  | none => rfl
  | some e =>
    rw [h.kept.kernel k e.1 e.2 hk] at hmap
    cases hmap

/-- another channel is opened -/
theorem Open.succ {n k : Nat} {s : Polled Nat} (h : s.Open k) : ∃ tr t,
    Path (Waits n) (some s) tr ∧ last (some s) tr = some t ∧ t.Open (k + 1) ∧
      tr.countP (fun e => e.act.misses) = 0 := by
  obtain ⟨hmay1, hmap, hkernel⟩ := h.free
  -- the new channel, before it is known to the poller and after
  let c : Channel := Channel.new.enableRead
  let s1 : Polled Nat := { s with
    object := Function.update s.object k (some { fd := k })
    registered := Function.update s.registered k false }
  let s2 : Polled Nat := { s with
    poller := s.poller.updateChannel k k c
    object := Function.update s1.object k (some { fd := k, chan := c })
    registered := Function.update s1.registered k true }
  have hobject1 : s1.object k = some { fd := k } := Function.update_self ..
  have hmay2 : s1.May (.update k c) := by
    show s1.object k ≠ none
    rw [hobject1]
    exact Option.some_ne_none _
  have hcreate : s.exec (.create k k) = some s1 := rfl
  have hupdate : s1.exec (.update k c) = some s2 := by
    have hfd : s1.fdKept k = true := by
      unfold fdKept
      rw [show s1.poller.fdChannelMap k = none from hmap]
    show s1.updateChannel k c = some s2
    unfold updateChannel
    rw [hobject1]
    exact if_pos hfd
  have hkept : s2.Kept := by
    obtain ⟨t, ht, hkept1⟩ := exec_spec h.kept hmay1
    obtain rfl : s1 = t := Option.some.inj (hcreate.symm.trans ht)
    obtain ⟨t, ht, hkept2⟩ := exec_spec hkept1 hmay2
    obtain rfl : s2 = t := Option.some.inj (hupdate.symm.trans ht)
    exact hkept2
  have hstep1 : Waits n (some s) ⟨.create k k, []⟩ (some s1) :=
    .mk hmay1 (fun _ hact => by cases hact) (Nat.zero_le n)
  have hstep2 : Waits n (some s1) ⟨.update k c, []⟩ (some s2) :=
    hupdate ▸ .mk hmay2 (fun _ hact => by cases hact) (Nat.zero_le n)
  refine ⟨_, s2, .cons hstep1 (.cons hstep2 (.nil _)), rfl, ⟨hkept, h.recEvents, ?_, ?_⟩, rfl⟩
  · intro key hkey
    by_cases heq : key = k
    · subst heq
      exact ⟨_, s.poller.updateChannel_new hmap hkernel c⟩
    · obtain ⟨mask, hmask⟩ := h.kernel key (by omega)
      exact ⟨mask, (s.poller.updateChannel_other (by omega) k c).trans hmask⟩
  · intro key fd hkey
    by_cases heq : key = k
    · subst heq
      have hfd : s2.fdAt key = some (key : Int) := by
        show (s2.object key).map ChannelObject.fd = _
        rw [show s2.object key = some { fd := key, chan := c } from Function.update_self ..]
        rfl
      rw [hfd] at hkey
      exact ⟨(Option.some.inj hkey).symm, Nat.lt_succ_self key⟩
    · have hfd : s2.fdAt key = s.fdAt key := by
        show (s2.object key).map ChannelObject.fd = (s.object key).map ChannelObject.fd
        rw [show s2.object key = s.object key from
          (Function.update_of_ne heq ..).trans (Function.update_of_ne heq ..)]
      rw [hfd] at hkey
      obtain ⟨hcast, hlt⟩ := h.fdAt key fd hkey
      exact ⟨hcast, by omega⟩

theorem exists_open (n k : Nat) : ∃ tr s, Path (Waits n) (some {}) tr ∧
    last (some {}) tr = some s ∧ s.Open k ∧ tr.countP (fun e => e.act.misses) = 0 := by
  induction k with
  | zero =>
    refine ⟨[], {}, .nil _, rfl, ⟨kept_new, rfl, fun key hkey => absurd hkey (Nat.not_lt_zero key), ?_⟩,
      rfl⟩
    intro key fd hkey
    cases hkey
  | succ k ih =>
    obtain ⟨tr, s, hpath, hlast, hopen, hcount⟩ := ih
    obtain ⟨tr', t, hpath', hlast', hopen', hcount'⟩ := hopen.succ (n := n)
    rw [← hlast] at hpath' hlast'
    exact ⟨tr ++ tr', t, hpath.append hpath', (last_append ..).trans hlast', hopen',
      by rw [List.countP_append, hcount, hcount']⟩

/-- a poll of open channels that are all ready: the kernel answers with the first of them -/
theorem polls_open {n k j : Nat} {s : Polled Nat} (hkept : s.Kept)
    (hkernel : ∀ key < k, ∃ mask, s.poller.kernel key = some (mask, key)) (hk : k ≤ n)
    (hj : j = min s.recEvents k) : ∃ t,
    Waits n (some s) ⟨.poll (.events ((List.range j).map (⟨1, ·⟩))), List.range k⟩ (some t) ∧
      t.Kept ∧ t.poller = s.poller ∧
      t.recEvents = if j = s.recEvents then 2 * s.recEvents else s.recEvents := by
  have hjk : j ≤ k := hj ▸ Nat.min_le_right _ _
  have hptr : ((List.range j).map fun key => (⟨1, key⟩ : EpollEvent Nat)).map EpollEvent.ptr =
      List.range j := by
    rw [List.map_map]
    exact List.map_id _
  have hmay : s.May (.poll (.events ((List.range j).map (⟨1, ·⟩)))) := by
    intro ev hev
    obtain ⟨key, hkey, rfl⟩ := List.mem_map.mp hev
    obtain ⟨mask, hmask⟩ := hkernel key (by have := List.mem_range.mp hkey; omega)
    exact ⟨_, mask, hmask⟩
  obtain ⟨t, ht, hkept'⟩ := exec_spec hkept hmay
  obtain ⟨hrec, hpoller⟩ := pollLoop_keeps ht
  refine ⟨t, ht ▸ .mk hmay ?_ ?_, hkept', hpoller, ?_⟩
  · intro evs hact
    obtain rfl := Waited.events.inj (Act.poll.inj hact)
    rw [hptr, List.length_map, List.length_range]
    refine ⟨List.nodup_range, fun key hkey => ?_, ?_⟩
    · exact List.mem_range.mpr (by have := List.mem_range.mp hkey; omega)
    · show j = min s.recEvents (List.range k).length
      rw [List.length_range, hj]
  · show (List.range k).length ≤ n
    rw [List.length_range]
    exact hk
  · rw [hrec]
    show (if (List.map _ (List.range j)).length = s.recEvents then _ else _) = _
    rw [List.length_map, List.length_range]

/-- twenty channels, which are ready at two polls: the first leaves out four, and the array grows -/
theorem few_misses_twenty : ∃ (tr : List (Tr (Option (Polled Nat)) (Moment Nat))) (s : Polled Nat),
    Path (Waits 20) (some {}) tr ∧ last (some {}) tr = some s ∧ s.recEvents = 32 ∧
      tr.countP (fun e => e.act.misses) = 1 := by
  obtain ⟨tr, s, hpath, hlast, hopen, hcount⟩ := exists_open 20 20
  obtain ⟨t, hfirst, hkept, hpoller, hrec⟩ :=
    polls_open (j := 16) hopen.kept hopen.kernel le_rfl (by rw [hopen.recEvents]; rfl)
  rw [hopen.recEvents, if_pos rfl] at hrec
  obtain ⟨u, hsecond, -, -, hrec'⟩ :=
    polls_open (j := 20) hkept (hpoller ▸ hopen.kernel) le_rfl (by rw [hrec]; rfl)
  rw [hrec, if_neg (by decide)] at hrec'
  have hpolls := Path.cons hfirst (.cons hsecond (.nil _))
  rw [← hlast] at hpolls
  have hrun := hpath.append hpolls
  have hmisses := (few_misses (k := 1) (by decide) hrun).1
  refine ⟨_, u, hrun, last_append .., hrec', Nat.le_antisymm hmisses ?_⟩
  rw [List.countP_append, hcount]
  exact Nat.le_of_eq rfl

end Polled

end Feipu
