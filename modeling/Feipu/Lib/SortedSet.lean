import Mathlib.Data.List.Sort

/-!
# Ordered sets

`SortedSet α` is an ordered set as the strictly increasing list of its elements (the field `sorted`), so
that it is walked in order.  `before a` and `since a` are its two parts on the sides of
`lower_bound (a)`.
-/

/-- a set as its elements in order -/
structure SortedSet (α : Type) [LinearOrder α] where
  elems : List α
  sorted : elems.Pairwise (· < ·)

namespace SortedSet
variable {α : Type} [LinearOrder α]

def empty : SortedSet α := ⟨[], List.Pairwise.nil⟩

theorem sorted_orderedInsert {a : α} {l : List α} (h : l.Pairwise (· < ·)) (ha : a ∉ l) :
    (l.orderedInsert (· ≤ ·) a).Pairwise (· < ·) := by
  induction l with
  | nil => exact List.pairwise_singleton _ _
  | cons b l ih =>
    obtain ⟨hb, hl⟩ := List.pairwise_cons.mp h
    have hne : a ≠ b := fun e => ha (e ▸ List.mem_cons_self)
    rw [List.orderedInsert_cons]
    split
    · rename_i hle
      have hlt : a < b := lt_of_le_of_ne hle hne
      refine List.pairwise_cons.mpr ⟨fun c hc => ?_, h⟩
      rcases List.mem_cons.mp hc with rfl | hc
      · exact hlt
      · exact hlt.trans (hb c hc)
    · rename_i hnle
      refine List.pairwise_cons.mpr ⟨fun c hc => ?_, ih hl fun h => ha (List.mem_cons_of_mem _ h)⟩
      rcases (List.mem_orderedInsert _).mp hc with rfl | hc
      · exact not_le.mp hnle
      · exact hb c hc

/-- an element that is there already stays as it is -/
def insert (s : SortedSet α) (a : α) : SortedSet α :=
  if h : a ∈ s.elems then s
  else ⟨s.elems.orderedInsert (· ≤ ·) a, sorted_orderedInsert s.sorted h⟩

theorem mem_insert_iff {s : SortedSet α} {a b : α} :
    b ∈ (s.insert a).elems ↔ b = a ∨ b ∈ s.elems := by
  unfold insert
  split
  · rename_i ha
    exact ⟨.inr, fun h => h.elim (fun e => e ▸ ha) id⟩
  · exact List.mem_orderedInsert _

/-- the elements less than `a` -/
def before (s : SortedSet α) (a : α) : List α := s.elems.takeWhile (· < a)

/-- the others -/
def since (s : SortedSet α) (a : α) : SortedSet α :=
  ⟨s.elems.dropWhile (· < a), s.sorted.sublist (List.dropWhile_sublist _)⟩

theorem sorted_before (s : SortedSet α) (a : α) : (s.before a).Pairwise (· < ·) :=
  s.sorted.sublist (List.takeWhile_sublist _)

theorem before_since (s : SortedSet α) (a : α) : s.before a ++ (s.since a).elems = s.elems :=
  List.takeWhile_append_dropWhile

theorem mem_before_iff {s : SortedSet α} {a b : α} : b ∈ s.before a ↔ b ∈ s.elems ∧ b < a := by
  obtain ⟨l, hl⟩ := s
  unfold before
  dsimp only
  induction l with
  | nil => simp
  | cons c l ih =>
    obtain ⟨hc, hl⟩ := List.pairwise_cons.mp hl
    by_cases hca : c < a
    · rw [List.takeWhile_cons_of_pos (by simpa using hca), List.mem_cons, List.mem_cons, ih hl]
      constructor
      · rintro (rfl | ⟨hb, hlt⟩)
        · exact ⟨.inl rfl, hca⟩
        · exact ⟨.inr hb, hlt⟩
      · rintro ⟨rfl | hb, hlt⟩
        · exact .inl rfl
        · exact .inr ⟨hb, hlt⟩
    · rw [List.takeWhile_cons_of_neg (by simpa using hca)]
      refine ⟨fun h => absurd h List.not_mem_nil, ?_⟩
      rintro ⟨hb, hlt⟩
      rcases List.mem_cons.mp hb with rfl | hb
      · exact absurd hlt hca
      · exact absurd ((hc b hb).trans hlt) hca

theorem mem_since_iff {s : SortedSet α} {a b : α} : b ∈ (s.since a).elems ↔ b ∈ s.elems ∧ ¬ b < a := by
  have hnodup : s.elems.Nodup := s.sorted.imp fun h => ne_of_lt h
  rw [← before_since s a] at hnodup
  have hdisj := (List.nodup_append.mp hnodup).2.2
  constructor
  · intro h
    have hb : b ∈ s.elems := before_since s a ▸ List.mem_append_right _ h
    exact ⟨hb, fun hlt => hdisj b (mem_before_iff.mpr ⟨hb, hlt⟩) b h rfl⟩
  · rintro ⟨hb, hnlt⟩
    rw [← before_since s a] at hb
    rcases List.mem_append.mp hb with hb | hb
    · exact absurd (mem_before_iff.mp hb).2 hnlt
    · exact hb

/-- the first element is the least -/
theorem head_le {s : SortedSet α} {a b : α} (ha : s.elems.head? = some a) (hb : b ∈ s.elems) : a ≤ b := by
  obtain ⟨l, hl⟩ := List.head?_eq_some_iff.mp ha
  have hs := s.sorted
  rw [hl] at hs hb
  rcases List.mem_cons.mp hb with rfl | hb
  · exact le_rfl
  · exact le_of_lt ((List.pairwise_cons.mp hs).1 b hb)

end SortedSet
