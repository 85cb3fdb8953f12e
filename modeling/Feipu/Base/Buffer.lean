import Mathlib.Algebra.Order.Ring.Int
import Feipu.Lib.CStr

/-!
# `Buffer` (base/src/Buffer.cpp)

The readable bytes are `data[readIndex, writeIndex)`; the order of the three bounds is part of the
type, so every operation below proves it.  An operation with an `assert`, or with a copy that could
leave its arrays, returns `Option`: `none` is the failed assertion or the stray copy.

* `readable_append`, `readable_retrieve`, `readable_replaceCRCF`, `readable_readFd`  the operations
  on the readable bytes, which is all the rest of the program sees of a buffer.
-/

namespace Feipu
open CStr

def defaultSize : Nat := 1024
def defaultPreSize : Nat := 8

/-- the value of a `size_t` converted to `int` -/
def toInt32 (x : Nat) : Int := Int.bmod x (2 ^ 32)

theorem toInt32_le (x : Nat) : toInt32 x ≤ x := by
  unfold toInt32
  rw [Int.bmod_def]
  split <;> omega

theorem toInt32_of_lt {x : Nat} (h : x < 2 ^ 31) : toInt32 x = x := by
  unfold toInt32
  rw [Int.bmod_def]
  split <;> omega

/-- `std::copy (src, src + len, d.begin () + i)` -/
def overwrite (d : Bytes) (i : Nat) (src : Bytes) : Bytes :=
  d.take i ++ src ++ d.drop (i + src.length)

/-- `std::vector::resize` -/
def resize (d : Bytes) (n : Nat) : Bytes := d.take n ++ List.replicate (n - d.length) 0

theorem length_overwrite {d src : Bytes} {i : Nat} (h : i + src.length ≤ d.length) :
    (overwrite d i src).length = d.length := by
  simp [overwrite]
  omega

theorem length_resize (d : Bytes) (n : Nat) : (resize d n).length = n := by
  simp [resize]
  omega

theorem take_overwrite {d src : Bytes} {i : Nat} (h : i ≤ d.length) :
    (overwrite d i src).take (i + src.length) = d.take i ++ src := by
  have e : (d.take i ++ src).length = i + src.length := by simp; omega
  rw [overwrite, ← e, List.take_left]

theorem take_resize {d : Bytes} {i n : Nat} (h : i ≤ d.length) (hn : i ≤ n) :
    (resize d n).take i = d.take i := by
  have e : i ≤ (d.take n).length := by simp; omega
  rw [resize, List.take_append_of_le_length e, List.take_take, Nat.min_eq_left hn]

structure Buffer where
  data : Bytes
  readIndex : Nat
  writeIndex : Nat
  pre_le : defaultPreSize ≤ readIndex
  read_le : readIndex ≤ writeIndex
  write_le : writeIndex ≤ data.length

namespace Buffer

/-- `Buffer::Buffer` -/
def new : Buffer where
  data := List.replicate (defaultSize + defaultPreSize) 0
  readIndex := defaultPreSize
  writeIndex := defaultPreSize
  pre_le := Nat.le_refl _
  read_le := Nat.le_refl _
  write_le := by rw [List.length_replicate]; exact Nat.le_add_left _ _

def getReadableBytes (b : Buffer) : Nat := b.writeIndex - b.readIndex
def getWriteableBytes (b : Buffer) : Nat := b.data.length - b.writeIndex

/-- the memory from `peek ()` on, up to the end of the vector -/
def peek (b : Buffer) : Bytes := b.data.drop b.readIndex

/-- the `getReadableBytes ()` bytes at `peek ()` -/
def readable (b : Buffer) : Bytes := (b.data.take b.writeIndex).drop b.readIndex

def retrieve (b : Buffer) (len : Nat) : Option Buffer :=
  if h : len ≤ b.getReadableBytes then
    some { b with
      readIndex := b.readIndex + len
      pre_le := Nat.le_add_right_of_le b.pre_le
      read_le := by have := b.read_le; unfold getReadableBytes at h; omega }
  else none

/-- the pointer `end` is `data_.begin () + stop` -/
def retrieveUntil (b : Buffer) (stop : Nat) : Option Buffer :=
  if stop ≤ b.writeIndex ∧ b.readIndex ≤ stop then b.retrieve (stop - b.readIndex) else none

/-- the two bytes of a line end become NUL -/
def replaceCRCF (b : Buffer) (index : Nat) : Option Buffer :=
  if b.readIndex + index + 1 < b.writeIndex ∧ at' b.data (b.readIndex + index) = 13 ∧
      at' b.data (b.readIndex + index + 1) = 10 then
    some { b with
      data := (b.data.set (b.readIndex + index) 0).set (b.readIndex + index + 1) 0
      write_le := by simpa using b.write_le }
  else none

theorem length_readable (b : Buffer) : b.readable.length = b.getReadableBytes := by
  have := b.write_le
  simp [readable, getReadableBytes]
  omega

theorem peek_eq (b : Buffer) : b.peek = b.readable ++ b.data.drop b.writeIndex := by
  have hw := b.write_le
  have hr := b.read_le
  have e : b.readIndex ≤ (b.data.take b.writeIndex).length := by simp; omega
  rw [peek, readable, ← List.drop_append_of_le_length e, List.take_append_drop]

/-- move the readable bytes to the front, or enlarge the vector -/
def makeSpace (b : Buffer) (len : Nat) : Buffer :=
  if b.getWriteableBytes + b.readIndex - defaultPreSize ≥ len then
    { data := overwrite b.data defaultPreSize b.readable
      readIndex := defaultPreSize
      writeIndex := b.getReadableBytes + defaultPreSize
      pre_le := Nat.le_refl _
      read_le := Nat.le_add_left _ _
      write_le := by
        have h1 := b.pre_le
        have h2 := b.read_le
        have h3 := b.write_le
        have h4 := b.length_readable
        rw [length_overwrite (by rw [h4]; unfold getReadableBytes; omega)]
        unfold getReadableBytes
        omega }
  else
    { b with
      data := resize b.data (b.writeIndex + len)
      write_le := by rw [length_resize]; omega }

theorem makeSpace_writeable (b : Buffer) (len : Nat) (h : len > b.getWriteableBytes) :
    len ≤ (b.makeSpace len).getWriteableBytes := by
  have h1 := b.pre_le
  have h2 := b.read_le
  have h3 := b.write_le
  have h4 := b.length_readable
  unfold makeSpace
  split
  · rename_i hc
    unfold getWriteableBytes at hc ⊢
    dsimp only
    rw [length_overwrite (by rw [h4]; unfold getReadableBytes; omega)]
    unfold getReadableBytes
    omega
  · unfold getWriteableBytes
    dsimp only
    rw [length_resize]
    omega

/-- the copy at the end of `append`, once there is room -/
def put (b : Buffer) (src : Bytes) (h : src.length ≤ b.getWriteableBytes) : Buffer :=
  { b with
    data := overwrite b.data b.writeIndex src
    writeIndex := b.writeIndex + src.length
    read_le := Nat.le_add_right_of_le b.read_le
    write_le := by
      have h1 := b.write_le
      unfold getWriteableBytes at h
      rw [length_overwrite (by omega)]
      omega }

def append (b : Buffer) (src : Bytes) : Buffer :=
  if h : src.length > b.getWriteableBytes then
    (b.makeSpace src.length).put src (b.makeSpace_writeable _ h)
  else b.put src (Nat.le_of_not_gt h)

/-- `readv` has delivered `got`: the free tail of `data` first, `extrabuf` after.  The comparison
is made in `int`; where it goes the wrong way the length handed to `append` wraps. -/
def readFd (b : Buffer) (got : Bytes) : Option Buffer :=
  if h : (got.length : Int) ≤ toInt32 b.getWriteableBytes then
    some (b.put got (by have := toInt32_le b.getWriteableBytes; omega))
  else if b.getWriteableBytes ≤ got.length then
    let full := b.put (got.take b.getWriteableBytes) (List.length_take_le _ _)
    some (full.append (got.drop b.getWriteableBytes))
  else none

/-! ## the readable bytes -/

@[simp] theorem readable_new : new.readable = [] := by
  apply List.eq_nil_of_length_eq_zero
  rw [length_readable]
  rfl

theorem readable_put (b : Buffer) (src : Bytes) (h : src.length ≤ b.getWriteableBytes) :
    (b.put src h).readable = b.readable ++ src := by
  have h1 := b.read_le
  have h2 := b.write_le
  show ((overwrite b.data b.writeIndex src).take (b.writeIndex + src.length)).drop b.readIndex = _
  rw [take_overwrite h2, List.drop_append_of_le_length (by simp; omega)]
  rfl

theorem readable_makeSpace (b : Buffer) (len : Nat) : (b.makeSpace len).readable = b.readable := by
  have h1 := b.pre_le
  have h2 := b.read_le
  have h3 := b.write_le
  unfold makeSpace
  split
  · show ((overwrite b.data defaultPreSize b.readable).take
      (b.getReadableBytes + defaultPreSize)).drop defaultPreSize = _
    have e : (b.data.take defaultPreSize).length = defaultPreSize := by simp; omega
    rw [Nat.add_comm, ← length_readable, take_overwrite (by omega), List.drop_append_of_le_length
      (by omega), List.drop_of_length_le (by omega), List.nil_append]
  · show ((resize b.data (b.writeIndex + len)).take b.writeIndex).drop b.readIndex = _
    rw [take_resize h3 (by omega)]
    rfl

@[simp] theorem readable_append (b : Buffer) (src : Bytes) :
    (b.append src).readable = b.readable ++ src := by
  unfold append
  split
  · rw [readable_put, readable_makeSpace]
  · rw [readable_put]

theorem readable_retrieve {b : Buffer} {len : Nat} (h : len ≤ b.readable.length) :
    ∃ b', b.retrieve len = some b' ∧ b'.readable = b.readable.drop len := by
  rw [length_readable] at h
  refine ⟨_, dif_pos h, ?_⟩
  show (b.data.take b.writeIndex).drop (b.readIndex + len) = _
  rw [readable, List.drop_drop]

/-- a readable byte is the byte of the vector -/
theorem at_peek {b : Buffer} {i : Nat} (h : i < b.readable.length) :
    at' b.peek i = at' b.readable i := by
  rw [peek_eq, at_append_left h]

theorem at_data {b : Buffer} {i : Nat} (h : i < b.readable.length) :
    at' b.data (b.readIndex + i) = at' b.readable i := by
  rw [← at_peek h, peek, at_drop]

theorem readable_replaceCRCF {b : Buffer} {l r : Bytes} (h : b.readable = l ++ 13 :: 10 :: r) :
    ∃ b', b.replaceCRCF l.length = some b' ∧ b'.readable = l ++ 0 :: 0 :: r := by
  have hlen : b.readable.length = l.length + r.length + 2 := by
    rw [h]; simp; omega
  have h1 := b.length_readable
  have h2 := b.read_le
  have h3 := b.write_le
  have hc : at' b.data (b.readIndex + l.length) = 13 := by
    rw [at_data (by omega), h]
    exact at_append_right l _ 0
  have hl : at' b.data (b.readIndex + (l.length + 1)) = 10 := by
    rw [at_data (by omega), h]
    exact at_append_right l _ 1
  unfold getReadableBytes at h1
  refine ⟨_, if_pos ⟨by omega, hc, hl⟩, ?_⟩
  show (((b.data.set (b.readIndex + l.length) 0).set (b.readIndex + l.length + 1) 0).take
    b.writeIndex).drop b.readIndex = _
  have hset : ∀ (d : Bytes) (i : Nat), ((d.set (b.readIndex + i) 0).take b.writeIndex).drop b.readIndex
      = (((d.take b.writeIndex).drop b.readIndex).set i 0) := by
    intro d i
    rw [List.take_set, List.drop_set, if_neg (by omega), Nat.add_sub_cancel_left]
  rw [Nat.add_assoc, hset, hset]
  show (b.readable.set l.length 0).set (l.length + 1) 0 = _
  rw [h]
  simp

theorem readable_readFd {b b' : Buffer} {got : Bytes} (h : b.readFd got = some b') :
    b'.readable = b.readable ++ got := by
  unfold readFd at h
  split at h
  · obtain rfl := Option.some.inj h
    exact readable_put b got _
  · split at h
    · obtain rfl := Option.some.inj h
      rw [readable_append, readable_put, List.append_assoc, List.take_append_drop]
    · exact absurd h (by simp)

end Buffer

end Feipu
