import Feipu.Base.Buffer
import Feipu.Lib.Refine
import Feipu.Lib.Trace

/-!
# A `Buffer` is a queue of bytes

The readable bytes are a queue: `append` puts bytes at its back, `retrieve` and `retrieveUntil` drop
bytes at its front, `replaceCRCF` overwrites two of them.

* `buffer_queue`   a sequence of operations on a buffer does what it does on the queue, and fails
                   where it fails there.
* `readFd_iff`     `readFd` appends what was read exactly where the free tail of the buffer, as an
                   `int`, is not less than what was read.
-/

namespace Feipu
open CStr Trace

/-! ## the queue -/

inductive BufferOp where
  | append (data : Bytes)
  | retrieve (len : Nat)
  /-- up to the pointer `peek () + len` -/
  | retrieveUntil (len : Nat)
  | replaceCRCF (index : Nat)

/-- an operation on the queue; `none` where it leaves the readable range, or finds no CRLF -/
def queueOp (q : Bytes) : BufferOp → Option Bytes
  | .append data => some (q ++ data)
  | .retrieve len => if len ≤ q.length then some (q.drop len) else none
  | .retrieveUntil len => if len ≤ q.length then some (q.drop len) else none
  | .replaceCRCF index =>
    if index + 1 < q.length ∧ at' q index = 13 ∧ at' q (index + 1) = 10 then
      some ((q.set index 0).set (index + 1) 0)
    else none

namespace Buffer

def exec (b : Buffer) : BufferOp → Option Buffer
  | .append data => some (b.append data)
  | .retrieve len => b.retrieve len
  | .retrieveUntil len => b.retrieveUntil (b.readIndex + len)
  | .replaceCRCF index => b.replaceCRCF index

theorem retrieve_queue (b : Buffer) (len : Nat) :
    (b.retrieve len).map readable = queueOp b.readable (.retrieve len) := by
  show _ = if len ≤ b.readable.length then some (b.readable.drop len) else none
  by_cases h : len ≤ b.readable.length
  · obtain ⟨b', hb', hr⟩ := readable_retrieve h
    rw [hb', if_pos h, Option.map_some, hr]
  · rw [if_neg h]
    rw [length_readable] at h
    rw [retrieve, dif_neg h, Option.map_none]

/-- a pointer into the readable range -/
theorem retrieveUntil_peek (b : Buffer) (len : Nat) :
    b.retrieveUntil (b.readIndex + len) = b.retrieve len := by
  have hr := b.read_le
  rw [retrieveUntil, Nat.add_sub_cancel_left]
  by_cases h : len ≤ b.getReadableBytes
  · have hstop : b.readIndex + len ≤ b.writeIndex := by
      unfold getReadableBytes at h
      omega
    rw [if_pos ⟨hstop, Nat.le_add_right _ _⟩]
  · have hstop : ¬ b.readIndex + len ≤ b.writeIndex := by
      unfold getReadableBytes at h
      omega
    rw [if_neg fun hc => hstop hc.1, retrieve, dif_neg h]

theorem replaceCRCF_queue (b : Buffer) (index : Nat) :
    (b.replaceCRCF index).map readable = queueOp b.readable (.replaceCRCF index) := by
  have h1 := b.length_readable
  have h2 := b.read_le
  show _ = if index + 1 < b.readable.length ∧ at' b.readable index = 13 ∧
    at' b.readable (index + 1) = 10 then some ((b.readable.set index 0).set (index + 1) 0) else none
  by_cases hlen : index + 1 < b.readable.length
  · -- the bytes looked at are readable ones
    have hc : at' b.data (b.readIndex + index) = at' b.readable index := at_data (by omega)
    have hl : at' b.data (b.readIndex + index + 1) = at' b.readable (index + 1) := at_data hlen
    by_cases hcrlf : at' b.readable index = 13 ∧ at' b.readable (index + 1) = 10
    · have hsplit : b.readable =
          b.readable.take index ++ 13 :: 10 :: b.readable.drop (index + 2) := by
        obtain ⟨hcr, hlf⟩ := hcrlf
        rw [at_of_lt (by omega)] at hcr
        rw [at_of_lt hlen] at hlf
        rw [← hcr, ← hlf, ← List.drop_eq_getElem_cons hlen,
          ← List.drop_eq_getElem_cons (Nat.lt_of_succ_lt hlen), List.take_append_drop]
      obtain ⟨b', hb', hr⟩ := readable_replaceCRCF hsplit
      have htake : (b.readable.take index).length = index := by
        rw [List.length_take]
        omega
      rw [htake] at hb'
      rw [hb', if_pos ⟨hlen, hcrlf⟩, Option.map_some, hr]
      conv_rhs => rw [hsplit]
      have hset : ∀ (l r : Bytes) (x y : UInt8), l.length = index →
          ((l ++ x :: y :: r).set index 0).set (index + 1) 0 = l ++ 0 :: 0 :: r := by
        rintro l r x y rfl
        simp
      rw [hset _ _ _ _ htake]
    · rw [if_neg fun h => hcrlf h.2, replaceCRCF, hc, hl, if_neg fun h => hcrlf h.2,
        Option.map_none]
  · have hbound : ¬ b.readIndex + index + 1 < b.writeIndex := by
      unfold getReadableBytes at h1
      omega
    rw [if_neg fun h => hlen h.1, replaceCRCF, if_neg fun h => hbound h.1, Option.map_none]

/-- **One operation** on the buffer is the operation on the queue. -/
theorem commutes_exec : Refine.Commutes readable exec queueOp := by
  intro b op
  cases op with
  | append data =>
    show some (b.append data).readable = some (b.readable ++ data)
    rw [readable_append]
  | retrieve len => exact b.retrieve_queue len
  | retrieveUntil len =>
    show (b.retrieveUntil (b.readIndex + len)).map readable = _
    rw [retrieveUntil_peek]
    exact b.retrieve_queue len
  | replaceCRCF index => exact b.replaceCRCF_queue index

/-- the bytes from `peek ()` of length `getReadableBytes ()` -/
theorem take_peek (b : Buffer) : b.peek.take b.getReadableBytes = b.readable := by
  rw [peek_eq, ← length_readable, List.take_left]

/-- **A buffer is a byte queue.** -/
theorem buffer_queue (ops : List BufferOp) :
    (Refine.run exec new ops).map (fun b => b.peek.take b.getReadableBytes) =
        Refine.run queueOp [] ops ∧
      ∀ b, Refine.run exec new ops = some b → 8 ≤ b.readIndex ∧ b.readIndex ≤ b.writeIndex ∧
        b.writeIndex ≤ b.data.length := by
  refine ⟨?_, fun b _ => ⟨b.pre_le, b.read_le, b.write_le⟩⟩
  have habs : (fun b : Buffer => b.peek.take b.getReadableBytes) = readable :=
    funext take_peek
  have hrun := commutes_exec.run new ops
  rw [readable_new] at hrun
  rw [habs]
  exact hrun

/-- where `append` slides the readable bytes, it copies them to lower addresses -/
theorem slides_left {b : Buffer} {len : Nat} (h : len > b.getWriteableBytes)
    (hs : b.getWriteableBytes + b.readIndex - defaultPreSize ≥ len) : defaultPreSize < b.readIndex := by
  have := b.pre_le
  omega

/-! ## reading -/

theorem length_new : new.data.length = 1032 := List.length_replicate

theorem writeable_new : new.getWriteableBytes = 1024 := by
  rw [getWriteableBytes, length_new]
  rfl

theorem length_put (b : Buffer) (src : Bytes) (h : src.length ≤ b.getWriteableBytes) :
    (b.put src h).data.length = b.data.length := by
  have hw := b.write_le
  unfold getWriteableBytes at h
  exact length_overwrite (by omega)

/-- the length `readFd` hands to `append` when `n` bytes were read: an `int` less a `size_t` -/
def overflowLength (b : Buffer) (n : Nat) : Option Nat :=
  if (n : Int) ≤ toInt32 b.getWriteableBytes then none
  else some (toSizeT ((n : Int) - b.getWriteableBytes))

/-- the readable bytes are the old ones and then what was read, and `append` got at most the size
of `extrabuf` -/
def ReadsExactly (b : Buffer) (got : Bytes) (b' : Option Buffer) : Prop :=
  (∃ t, b' = some t ∧ t.readable = b.readable ++ got) ∧
    ∀ len, b.overflowLength got.length = some len → len ≤ 65536

/-- the free tail, converted to `int`, is right, or at least not less than what was read -/
def TailFits (b : Buffer) (n : Nat) : Prop :=
  b.getWriteableBytes < 2 ^ 31 ∨
    b.getWriteableBytes % 2 ^ 32 < 2 ^ 31 ∧ n ≤ b.getWriteableBytes % 2 ^ 32

theorem toInt32_eq (x : Nat) :
    toInt32 x = if x % 2 ^ 32 < 2 ^ 31 then ((x % 2 ^ 32 : Nat) : Int)
      else ((x % 2 ^ 32 : Nat) : Int) - 2 ^ 32 := by
  unfold toInt32
  rw [Int.bmod_def]
  split <;> split <;> omega

/-- the comparison goes the way that says there is room, or there is none -/
theorem tailFits_iff {b : Buffer} {n : Nat} (hn : n < 2 ^ 31) :
    b.TailFits n ↔ (n : Int) ≤ toInt32 b.getWriteableBytes ∨ b.getWriteableBytes < n := by
  unfold TailFits
  rw [toInt32_eq]
  split <;> omega

/-- **One call of `readFd`** -/
theorem readsExactly_iff {b : Buffer} {got : Bytes} (hsize : b.data.length < 2 ^ 63)
    (hn : got.length < 2 ^ 31) (hmax : got.length ≤ b.getWriteableBytes + 65536) :
    b.ReadsExactly got (b.readFd got) ↔ b.TailFits got.length := by
  have hw : b.getWriteableBytes < 2 ^ 63 := by
    unfold getWriteableBytes
    omega
  rw [tailFits_iff hn]
  constructor
  · rintro ⟨-, hlen⟩
    by_cases hcmp : (got.length : Int) ≤ toInt32 b.getWriteableBytes
    · exact .inl hcmp
    · -- otherwise the length handed to `append` is small, so it is no wrapped one
      have hle := hlen _ (if_neg hcmp)
      have hne : (b.getWriteableBytes : Int) ≠ got.length := by
        intro heq
        rw [toInt32_of_lt (by omega)] at hcmp
        omega
      unfold toSizeT at hle
      omega
  · intro hfits
    have hread : ∃ t, b.readFd got = some t := by
      unfold readFd
      split
      · exact ⟨_, rfl⟩
      · rename_i hcmp
        rw [if_pos (Nat.le_of_lt (hfits.resolve_left hcmp))]
        exact ⟨_, rfl⟩
    obtain ⟨t, ht⟩ := hread
    refine ⟨⟨t, ht, readable_readFd ht⟩, ?_⟩
    intro len hlen
    unfold overflowLength at hlen
    split at hlen
    · cases hlen
    · rename_i hcmp
      rw [← Option.some.inj hlen]
      have hlt := hfits.resolve_left hcmp
      unfold toSizeT
      omega

/-- what happens to a buffer: an operation, or a `readFd` whose `readv` delivers `got` -/
inductive Event where
  | op (op : BufferOp)
  | readFd (got : Bytes)

/-- one event; an operation is called within the readable range, `readv` fills the tail and
`extrabuf` at most, and no vector is larger than `max_size ()`.  `none` is a buffer after a stray
copy. -/
inductive Step : Option Buffer → Event → Option Buffer → Prop where
  | op {b t : Buffer} {op : BufferOp} : b.exec op = some t → t.data.length < 2 ^ 63 →
      Step (some b) (.op op) (some t)
  | readFd {b : Buffer} {got : Bytes} : got.length ≤ b.getWriteableBytes + 65536 →
      got.length < 2 ^ 31 → (∀ t, b.readFd got = some t → t.data.length < 2 ^ 63) →
      Step (some b) (.readFd got) (b.readFd got)

/-- if the event is a `readFd`, it appends exactly what was read -/
def ReadOk (e : Tr (Option Buffer) Event) : Prop :=
  ∀ b got, e.pre = some b → e.act = .readFd got → b.ReadsExactly got e.post

/-- if the event is a `readFd`, the tail fits -/
def ReadFits (s : Option Buffer) (a : Event) : Prop :=
  ∀ b got, s = some b → a = .readFd got → b.TailFits got.length

/-- **`readFd` appends exactly what was read** wherever the tail fits, and only there. -/
theorem readFd_iff {tr : List (Tr (Option Buffer) Event)} (h : Path Step (some new) tr) :
    (∀ e ∈ tr, ReadOk e) ↔ ∀ e ∈ tr, ReadFits e.pre e.act := by
  have hstep : ∀ s a t, (∀ b, s = some b → b.data.length < 2 ^ 63) → Step s a t →
      (ReadOk ⟨s, a, t⟩ ↔ ReadFits s a) ∧
        (ReadFits s a → ∀ b, t = some b → b.data.length < 2 ^ 63) := by
    intro s a t hs hst
    cases hst with
    | op hop hsize =>
      refine ⟨⟨fun _ _ _ _ ha => (by cases ha), fun _ _ _ _ ha => (by cases ha)⟩, ?_⟩
      intro _ b hb
      rw [← Option.some.inj hb]
      exact hsize
    | @readFd b got hmax hn hsize =>
      have hiff := readsExactly_iff (hs b rfl) hn hmax
      refine ⟨⟨?_, ?_⟩, fun _ t ht => hsize t ht⟩
      · intro hok b' got' hb' hgot'
        obtain rfl := Option.some.inj hb'
        obtain rfl := Event.readFd.inj hgot'
        have hexact := hok b got rfl rfl
        dsimp only at hexact
        exact hiff.mp hexact
      · intro hfits b' got' hb' hgot'
        obtain rfl := Option.some.inj hb'
        obtain rfl := Event.readFd.inj hgot'
        have hfits : b.TailFits got.length := hfits b got rfl rfl
        dsimp only
        exact hiff.mpr hfits
  apply h.all_iff hstep
  intro b hb
  rw [← Option.some.inj hb, length_new]
  omega

/-- two bytes read into a new buffer -/
theorem readFd_two : ReadOk ⟨some new, .readFd [1, 2], new.readFd [1, 2]⟩ := by
  have hw := writeable_new
  have hroom : (([1, 2] : Bytes).length : Int) ≤ toInt32 new.getWriteableBytes := by
    rw [hw, toInt32_of_lt (by omega)]
    decide
  have hstep : Step (some new) (.readFd [1, 2]) (new.readFd [1, 2]) := by
    refine .readFd (by rw [hw]; decide) (by decide) ?_
    intro t ht
    rw [readFd, dif_pos hroom] at ht
    rw [← Option.some.inj ht, length_put, length_new]
    omega
  refine (readFd_iff (.cons hstep (.nil _))).mpr ?_ _ (List.mem_singleton.mpr rfl)
  intro e he b got hb hgot
  obtain rfl := List.mem_singleton.mp he
  rw [← Option.some.inj hb]
  exact .inl (by rw [hw]; omega)

/-- the vector grows by what does not fit -/
theorem append_grows {b : Buffer} {src : Bytes} (h : src.length > b.getWriteableBytes)
    (hs : b.getWriteableBytes + b.readIndex - defaultPreSize < src.length) :
    (b.append src).data.length = b.writeIndex + src.length ∧
      (b.append src).readIndex = b.readIndex ∧
      (b.append src).writeIndex = b.writeIndex + src.length := by
  have hspace : b.makeSpace src.length = { b with
      data := resize b.data (b.writeIndex + src.length)
      write_le := by rw [length_resize]; omega } := if_neg (by omega)
  rw [append, dif_pos h]
  refine ⟨?_, ?_, ?_⟩
  · rw [length_put, hspace]
    exact length_resize _ _
  · show (b.makeSpace src.length).readIndex = _
    rw [hspace]
  · show (b.makeSpace src.length).writeIndex + src.length = _
    rw [hspace]

/-- the vector keeps its size where the bytes already consumed make room -/
theorem append_slides {b : Buffer} {src : Bytes} (h : src.length > b.getWriteableBytes)
    (hs : b.getWriteableBytes + b.readIndex - defaultPreSize ≥ src.length) :
    (b.append src).data.length = b.data.length ∧
      (b.append src).writeIndex = b.getReadableBytes + defaultPreSize + src.length := by
  rw [append, dif_pos h]
  have hlen : (b.makeSpace src.length).data.length = b.data.length := by
    have h1 := b.pre_le
    have h2 := b.read_le
    have h3 := b.write_le
    rw [makeSpace, if_pos hs]
    apply length_overwrite
    rw [length_readable]
    unfold getReadableBytes
    omega
  refine ⟨by rw [length_put, hlen], ?_⟩
  show (b.makeSpace src.length).writeIndex + src.length = _
  rw [makeSpace, if_pos hs]

theorem retrieve_fields {b b' : Buffer} {len : Nat} (h : b.retrieve len = some b') :
    b'.data = b.data ∧ b'.readIndex = b.readIndex + len ∧ b'.writeIndex = b.writeIndex := by
  unfold retrieve at h
  split at h
  · rw [← Option.some.inj h]
    exact ⟨rfl, rfl, rfl⟩
  · cases h

/-- the room of a backlog that has been consumed is free again -/
theorem freed_backlog {src : Bytes} (hsrc : 1024 < src.length) (x : UInt8) :
    ∃ b, (new.append src).retrieve src.length = some b ∧ b.data.length = src.length + 8 ∧
      (b.append [x]).data.length = src.length + 8 ∧
      (b.append [x]).getWriteableBytes = src.length - 1 := by
  have hw := writeable_new
  have hmore : src.length > new.getWriteableBytes := by omega
  have hnoroom : new.getWriteableBytes + new.readIndex - defaultPreSize < src.length := by
    rw [hw]
    show 1024 + 8 - 8 < _
    omega
  obtain ⟨hd, hr, hwi⟩ := append_grows hmore hnoroom
  have hwi : (new.append src).writeIndex = 8 + src.length := hwi
  have hr : (new.append src).readIndex = 8 := hr
  have hle : src.length ≤ (new.append src).readable.length := by
    rw [readable_append, List.length_append]
    exact Nat.le_add_left _ _
  obtain ⟨b, hb, -⟩ := readable_retrieve hle
  obtain ⟨hdata, hbr, hbw⟩ := retrieve_fields hb
  rw [hr] at hbr
  rw [hwi] at hbw
  have hbd : b.data.length = src.length + 8 := by
    rw [hdata, hd, Nat.add_comm]
    rfl
  refine ⟨b, hb, hbd, ?_⟩
  have hfull : b.getWriteableBytes = 0 := by
    rw [getWriteableBytes, hbd, hbw]
    omega
  have hmore : [x].length > b.getWriteableBytes := by
    rw [hfull]
    exact Nat.one_pos
  have hroom : b.getWriteableBytes + b.readIndex - defaultPreSize ≥ [x].length := by
    rw [hfull, hbr, List.length_singleton]
    unfold defaultPreSize
    omega
  obtain ⟨hd', hw'⟩ := append_slides hmore hroom
  rw [List.length_singleton, getReadableBytes, hbr, hbw] at hw'
  refine ⟨hd'.trans hbd, ?_⟩
  rw [getWriteableBytes, hd', hbd, hw']
  unfold defaultPreSize
  omega

/-- a byte read after a backlog of 2 GiB has been consumed -/
theorem readFd_backlog : ¬ ∀ tr, Path Step (some new) tr → ∀ e ∈ tr, ReadOk e := by
  intro hall
  obtain ⟨src, hsrc⟩ : ∃ src : Bytes, src.length = 2 ^ 31 + 1 :=
    ⟨List.replicate (2 ^ 31 + 1) 0, List.length_replicate⟩
  have hlarge : 1024 < src.length := by omega
  obtain ⟨b, hb, hbd, hd, hw⟩ := freed_backlog hlarge 0
  have hgrown : (new.append src).data.length < 2 ^ 63 := by
    rw [← (retrieve_fields hb).1]
    omega
  have hfail : (b.append [0]).readFd [0] = none := by
    rw [readFd, dif_neg, if_neg]
    · rw [hw]
      show ¬ src.length - 1 ≤ 1
      omega
    · rw [hw, hsrc]
      decide
  have hpath : Path Step (some new) [⟨some new, .op (.append src), some (new.append src)⟩,
      ⟨some (new.append src), .op (.retrieve src.length), some b⟩,
      ⟨some b, .op (.append [0]), some (b.append [0])⟩,
      ⟨some (b.append [0]), .readFd [0], (b.append [0]).readFd [0]⟩] := by
    refine .cons (.op rfl hgrown) (.cons (.op hb (by omega)) (.cons (.op rfl (by omega))
      (.cons (.readFd ?_ ?_ ?_) (.nil _))))
    · show 1 ≤ _
      omega
    · show 1 < 2 ^ 31
      omega
    · rw [hfail]
      exact fun t ht => (by cases ht)
  have hok := hall _ hpath _ (List.getLast_mem (List.cons_ne_nil _ _))
  obtain ⟨⟨t, ht, -⟩, -⟩ := hok (b.append [0]) [0] rfl rfl
  rw [hfail] at ht
  cases ht

end Buffer

end Feipu
