import Mathlib.Data.List.Basic
import Mathlib.Data.List.TakeWhile

/-!
# Segments between separators

`joinSegs sep ks` writes every segment of `ks` behind a separator; `segments sep s` cuts a list
that starts with a separator back into them.

* `joinSegs_segments`    a list that starts with the separator is what its segments join to;
* `segments_joinSegs`    segments without a separator are read back;
* `takeWhile_joinSegs`, `dropWhile_joinSegs`   a scan for the separator stops after one segment.
-/

namespace Segments

variable {α : Type} [BEq α] [LawfulBEq α] {sep : α} {p : α → Bool}

def joinSegs (sep : α) (ks : List (List α)) : List α := ks.flatMap (sep :: ·)

/-- the segments of a list that starts with a separator -/
def segments (sep : α) (s : List α) : List (List α) := s.tail.splitOn sep

omit [BEq α] [LawfulBEq α] in
theorem joinSegs_nil : joinSegs sep [] = [] := rfl

omit [BEq α] [LawfulBEq α] in
theorem joinSegs_cons (k : List α) (ks : List (List α)) :
    joinSegs sep (k :: ks) = sep :: (k ++ joinSegs sep ks) := rfl

omit [BEq α] [LawfulBEq α] in
theorem joinSegs_eq_intercalate {ks : List (List α)} (h : ks ≠ []) :
    joinSegs sep ks = sep :: [sep].intercalate ks := by
  induction ks with
  | nil => exact absurd rfl h
  | cons k ks ih =>
    cases ks with
    | nil => simp [joinSegs]
    | cons k' ks =>
      rw [joinSegs_cons, ih (List.cons_ne_nil _ _), List.intercalate_cons_cons]
      simp

theorem joinSegs_segments {s : List α} (h : s.head? = some sep) :
    joinSegs sep (segments sep s) = s := by
  cases s with
  | nil => cases h
  | cons c s =>
    obtain rfl := Option.some.inj h
    rw [segments, List.tail_cons, joinSegs_eq_intercalate (List.splitOn_ne_nil _ _),
      List.intercalate_splitOn]

theorem segments_joinSegs {ks : List (List α)} (hne : ks ≠ []) (h : ∀ k ∈ ks, sep ∉ k) :
    segments sep (joinSegs sep ks) = ks := by
  rw [joinSegs_eq_intercalate hne]
  exact List.splitOn_intercalate sep h hne

/-- a segment has no separator -/
theorem sep_notMem_segments {s k : List α} (h : k ∈ segments sep s) : sep ∉ k := by
  unfold segments at h
  generalize s.tail = t at h
  induction t generalizing k with
  | nil =>
    rw [List.splitOn_nil] at h
    rw [List.mem_singleton.mp h]
    exact List.not_mem_nil
  | cons c t ih =>
    rw [List.splitOn_cons_eq_if_modifyHead] at h
    split at h
    · rcases List.mem_cons.mp h with rfl | h
      · exact List.not_mem_nil
      · exact ih h
    · rename_i hc
      cases hs : t.splitOn sep with
      | nil => exact absurd hs (List.splitOn_ne_nil _ _)
      | cons k' ks =>
        rw [hs] at h ih
        rcases List.mem_cons.mp h with rfl | h
        · intro hm
          rcases List.mem_cons.mp hm with rfl | hm
          · exact hc (BEq.refl _)
          · exact ih List.mem_cons_self hm
        · exact ih (List.mem_cons_of_mem _ h)

/-- a byte of a segment is one of the list -/
theorem mem_of_mem_segments {s k : List α} {c : α} (hs : s.head? = some sep)
    (hk : k ∈ segments sep s) (hc : c ∈ k) : c ∈ s := by
  rw [← joinSegs_segments hs]
  exact List.mem_flatMap.mpr ⟨k, hk, List.mem_cons_of_mem _ hc⟩

/-! ## scans -/

omit [BEq α] [LawfulBEq α] in
theorem takeWhile_joinSegs {k : List α} (hk : ∀ c ∈ k, p c = true) (hsep : p sep = false)
    (ks : List (List α)) : (k ++ joinSegs sep ks).takeWhile p = k := by
  rw [List.takeWhile_append_of_pos hk]
  cases ks with
  | nil => rw [joinSegs_nil, List.takeWhile_nil, List.append_nil]
  | cons k' ks =>
    rw [joinSegs_cons, List.takeWhile_cons_of_neg (by rw [hsep]; exact Bool.false_ne_true),
      List.append_nil]

omit [BEq α] [LawfulBEq α] in
theorem dropWhile_joinSegs {k : List α} (hk : ∀ c ∈ k, p c = true) (hsep : p sep = false)
    (ks : List (List α)) : (k ++ joinSegs sep ks).dropWhile p = joinSegs sep ks := by
  rw [List.dropWhile_append_of_pos hk]
  cases ks with
  | nil => rfl
  | cons k' ks =>
    rw [joinSegs_cons, List.dropWhile_cons_of_neg (by rw [hsep]; exact Bool.false_ne_true)]

end Segments
