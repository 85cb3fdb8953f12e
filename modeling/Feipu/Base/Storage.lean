import Feipu.Base.ByteQueue

/-!
# The storage behind a `Buffer`

`retrieve` leaves the vector alone and only moves `readIndex`, so the room in front of the readable
bytes grows until `makeSpace` slides them back.  It enlarges the vector only where that room does
not do, and then to at most the readable bytes and twice what is appended.

* `storage_bounded`  the size of the vector follows the largest backlog seen by an `append`, not
                     the number of bytes that went through.
-/

namespace Feipu

/-! ## what the queue asks for -/

/-- what an operation asks of the vector: the readable bytes before an `append`, and twice the
bytes appended -/
def BufferOp.need (q : Bytes) : BufferOp → Nat
  | .append data => q.length + 2 * data.length
  | _ => 0

/-- the largest `need` of a sequence of operations, up to the first that fails -/
def demand (q : Bytes) : List BufferOp → Nat
  | [] => 0
  | op :: ops => max (op.need q) (((queueOp q op).map fun t => demand t ops).getD 0)

theorem demand_cons {q t : Bytes} {op : BufferOp} (h : queueOp q op = some t)
    (ops : List BufferOp) : demand q (op :: ops) = max (op.need q) (demand t ops) := by
  rw [demand, h]
  rfl

namespace Buffer

/-! ## one operation -/

theorem append_fits {b : Buffer} {src : Bytes} (h : ¬ src.length > b.getWriteableBytes) :
    (b.append src).data.length = b.data.length := by
  rw [append, dif_neg h, length_put]

theorem append_size (b : Buffer) (src : Bytes) :
    b.data.length ≤ (b.append src).data.length ∧
      (b.append src).data.length ≤
        max b.data.length (8 + (b.readable.length + 2 * src.length)) := by
  by_cases hfit : src.length > b.getWriteableBytes
  · by_cases hroom : b.getWriteableBytes + b.readIndex - defaultPreSize ≥ src.length
    · rw [(append_slides hfit hroom).1]
      exact ⟨Nat.le_refl _, Nat.le_max_left _ _⟩
    · rw [(append_grows hfit (Nat.lt_of_not_ge hroom)).1]
      -- neither the tail nor the front has room, so the readable bytes fill most of the vector
      have hread := b.length_readable
      have hpre := b.pre_le
      have hle := b.read_le
      have hw := b.write_le
      unfold getReadableBytes at hread
      unfold getWriteableBytes at hfit hroom
      unfold defaultPreSize at hroom hpre
      constructor
      · omega
      · apply le_max_of_le_right
        omega
  · rw [append_fits hfit]
    exact ⟨Nat.le_refl _, Nat.le_max_left _ _⟩

theorem retrieve_size {b b' : Buffer} {len : Nat} (h : b.retrieve len = some b') :
    b'.data.length = b.data.length := by
  rw [(retrieve_fields h).1]

theorem replaceCRCF_size {b b' : Buffer} {index : Nat} (h : b.replaceCRCF index = some b') :
    b'.data.length = b.data.length := by
  unfold replaceCRCF at h
  split at h
  · rw [← Option.some.inj h]
    show ((b.data.set _ 0).set _ 0).length = b.data.length
    rw [List.length_set, List.length_set]
  · cases h

/-- **One operation** keeps the vector or enlarges it, to what the operation asks for. -/
theorem exec_size {b b' : Buffer} {op : BufferOp} (h : b.exec op = some b') :
    b.data.length ≤ b'.data.length ∧
      b'.data.length ≤ max b.data.length (8 + op.need b.readable) := by
  cases op with
  | append data =>
    rw [← Option.some.inj h]
    exact b.append_size data
  | retrieve len =>
    rw [retrieve_size h]
    exact ⟨Nat.le_refl _, Nat.le_max_left _ _⟩
  | retrieveUntil len =>
    have h : b.retrieveUntil (b.readIndex + len) = some b' := h
    rw [retrieveUntil_peek] at h
    rw [retrieve_size h]
    exact ⟨Nat.le_refl _, Nat.le_max_left _ _⟩
  | replaceCRCF index =>
    rw [replaceCRCF_size h]
    exact ⟨Nat.le_refl _, Nat.le_max_left _ _⟩

/-! ## a sequence of operations -/

/-- the same from any buffer, by induction on the operations -/
theorem run_size {b b' : Buffer} {ops : List BufferOp} (h : Refine.run exec b ops = some b') :
    b.data.length ≤ b'.data.length ∧
      b'.data.length ≤ max b.data.length (8 + demand b.readable ops) := by
  induction ops generalizing b with
  | nil =>
    rw [← Option.some.inj h]
    exact ⟨Nat.le_refl _, Nat.le_max_left _ _⟩
  | cons op ops ih =>
    rw [Refine.run_cons] at h
    obtain ⟨c, hc, hrun⟩ := Option.bind_eq_some_iff.mp h
    have hq : queueOp b.readable op = some c.readable := by
      rw [← commutes_exec b op, hc, Option.map_some]
    obtain ⟨hstep, hstep'⟩ := exec_size hc
    obtain ⟨hrest, hrest'⟩ := ih hrun
    rw [demand_cons hq]
    omega

/-- **The storage is bounded by the live data.**  And where each `append` finds room for its need
in a new buffer, the vector keeps its size for good. -/
theorem storage_bounded (ops : List BufferOp) (b : Buffer)
    (h : Refine.run exec new ops = some b) :
    b.data.length ≤ max 1032 (8 + demand [] ops) ∧
      (demand [] ops ≤ 1024 → b.data.length = 1032) := by
  obtain ⟨hle, hge⟩ := run_size h
  rw [length_new, readable_new] at hge
  rw [length_new] at hle
  refine ⟨hge, ?_⟩
  intro hsmall
  omega

/-- two bytes come and go, then three come -/
theorem storage_bounded_five : ∃ b,
    Refine.run exec new [.append [1, 2], .retrieve 2, .append [3, 4, 5]] = some b ∧
      demand [] [.append [1, 2], .retrieve 2, .append [3, 4, 5]] = 6 ∧ b.data.length = 1032 := by
  have hlen : 2 ≤ (new.append [1, 2]).readable.length := by
    rw [readable_append, readable_new]
    exact Nat.le_refl _
  obtain ⟨c, hc, -⟩ := readable_retrieve hlen
  have hrun : Refine.run exec new [.append [1, 2], .retrieve 2, .append [3, 4, 5]] =
      some (c.append [3, 4, 5]) := by
    rw [Refine.run_cons]
    show Refine.run exec (new.append [1, 2]) [.retrieve 2, .append [3, 4, 5]] = _
    rw [Refine.run_cons]
    show ((new.append [1, 2]).retrieve 2).bind _ = _
    rw [hc]
    rfl
  have hdemand : demand [] [.append [1, 2], .retrieve 2, .append [3, 4, 5]] = 6 := by decide
  exact ⟨_, hrun, hdemand, (storage_bounded _ _ hrun).2 (by rw [hdemand]; decide)⟩

end Buffer

end Feipu
