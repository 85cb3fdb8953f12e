import Feipu.Http.Grammar

/-!
# NUL inside a line

A line ends at its CRLF, and it is read up to its first NUL.

* `whole_lines_iff`   what stands before the blank line has no NUL when `PARSE_END` is returned,
                      unless the lines, each cut off at its first NUL, are a request.
-/

namespace Feipu
open CStr Lines Consume

/-- the lines before the first empty one have no NUL -/
def WholeLines (s : Bytes) : Prop :=
  ∃ l0 hs r, s = joinLines 13 10 (l0 :: (hs ++ [[]])) ++ r ∧
    (∀ l ∈ l0 :: hs, Clean 13 10 l ∧ 0 ∉ l) ∧ ∀ h ∈ hs, h ≠ []

/-- the stream is read as a request, and one of its lines has a NUL -/
def Truncated (s : Bytes) : Prop :=
  ∃ l0 hs z r, s = joinLines 13 10 (l0 :: (hs ++ [z])) ++ r ∧ ReadAs l0 hs z r ∧
    ∃ l ∈ l0 :: (hs ++ [z]), 0 ∈ l

/-- two readings of the header lines, the second without NUL -/
theorem header_lines_unique {hs hs' : List Bytes} {z r r' : Bytes}
    (h : joinLines 13 10 (hs ++ [z]) ++ r = joinLines 13 10 (hs' ++ [[]]) ++ r')
    (hclean : ∀ l ∈ hs ++ [z], Clean 13 10 l) (hclean' : ∀ l ∈ hs', Clean 13 10 l ∧ 0 ∉ l)
    (hne : ∀ l ∈ hs, cstr l ≠ []) (hne' : ∀ l ∈ hs', l ≠ []) (hblank : cstr z = []) :
    hs = hs' ∧ z = [] := by
  induction hs generalizing hs' with
  | nil =>
    have hz : Clean 13 10 z := hclean z (List.mem_singleton_self z)
    cases hs' with
    | nil => exact ⟨rfl, (joinLines_cons_inj 13 10 hz (clean_nil 13 10) h).1⟩
    | cons h' hs' =>
      obtain ⟨hc', h0⟩ := hclean' h' List.mem_cons_self
      obtain ⟨rfl, -⟩ := joinLines_cons_inj 13 10 hz hc' h
      rw [cstr_of_notMem h0] at hblank
      exact absurd hblank (hne' z List.mem_cons_self)
  | cons l hs ih =>
    obtain ⟨hl, hclean⟩ := List.forall_mem_cons.mp hclean
    obtain ⟨hnel, hne⟩ := List.forall_mem_cons.mp hne
    cases hs' with
    | nil =>
      obtain ⟨rfl, -⟩ := joinLines_cons_inj 13 10 hl (clean_nil 13 10) h
      exact absurd rfl hnel
    | cons h' hs' =>
      obtain ⟨⟨hc', -⟩, hcs'⟩ := List.forall_mem_cons.mp hclean'
      obtain ⟨rfl, hrest⟩ := joinLines_cons_inj 13 10 hl hc' h
      obtain ⟨rfl, hz⟩ := ih hrest hclean hcs' hne (List.forall_mem_cons.mp hne').2
      exact ⟨rfl, hz⟩

theorem not_whole_of_truncated {s : Bytes} (h : Truncated s) : ¬ WholeLines s := by
  obtain ⟨l0, hs, z, r, rfl, hread, l, hl, hnul⟩ := h
  rintro ⟨l0', hs', r', heq, hwhole, hne'⟩
  obtain ⟨hc, hclean⟩ := List.forall_mem_cons.mp hread.clean
  obtain ⟨⟨hc', h0⟩, hhs'⟩ := List.forall_mem_cons.mp hwhole
  obtain ⟨rfl, hrest⟩ := joinLines_cons_inj 13 10 hc hc' heq
  obtain ⟨rfl, rfl⟩ := header_lines_unique hrest hclean hhs' (fun l hm => (hread.fields l hm).1)
    hne' hread.blank
  rcases List.mem_cons.mp hl with rfl | hl
  · exact h0 hnul
  · rcases List.mem_append.mp hl with hl | hl
    · exact (hhs' l hl).2 hnul
    · rw [List.mem_singleton.mp hl] at hnul
      cases hnul

theorem whole_of_not_truncated {s : Bytes} (hacc : Accepts .requestline 0 s)
    (h : ¬ Truncated s) : WholeLines s := by
  obtain ⟨l0, hs, z, r, rfl, hread⟩ := (accepts_iff_readAs s).mp hacc
  have hnul : ∀ l ∈ l0 :: (hs ++ [z]), (0 : UInt8) ∉ l :=
    fun l hl h0 => h ⟨l0, hs, z, r, rfl, hread, l, hl, h0⟩
  have hz : z = [] := by
    have hmem : z ∈ l0 :: (hs ++ [z]) := by simp
    rw [← cstr_of_notMem (hnul z hmem), hread.blank]
  subst hz
  have hsub : ∀ l ∈ l0 :: hs, l ∈ l0 :: (hs ++ [[]]) :=
    fun l hl => List.cons_subset_cons _ (List.subset_append_left _ _) hl
  refine ⟨l0, hs, r, rfl, fun l hl => ⟨hread.clean l (hsub l hl), hnul l (hsub l hl)⟩, ?_⟩
  intro h hm hnil
  exact (hread.fields h hm).1 (by rw [hnil]; rfl)

/-! ## the parser -/

/-- `PARSE_END`, by the language -/
theorem feedChunks_end_iff (m : HttpMethod) (c : HttpStatus) (cs : List Bytes) :
    (∃ h, feedChunks (.fresh m c) .new cs = some (.parseEnd, h)) ↔
      Accepts .requestline 0 cs.flatten := by
  obtain ⟨h', hfeed, -⟩ := feedChunks_start (h := .fresh m c) cs rfl rfl
  have hend := (run_decides (.requestline, .new m) cs.flatten).2
  rw [hfeed]
  refine Iff.trans ?_ hend
  show (∃ h, some (statusOf (run textStep (.requestline, .new m) cs.flatten).1, h') =
    some (.parseEnd, h)) ↔ _
  cases (run textStep (.requestline, .new m) cs.flatten).1 with
  | none => exact iff_of_false (fun ⟨h, heq⟩ => by cases heq) (fun h => by cases h)
  | some status =>
    constructor
    · rintro ⟨h, heq⟩
      cases heq
      rfl
    · intro heq
      cases heq
      exact ⟨h', rfl⟩

/-- **Lines are whole at `PARSE_END`** unless the stream reads as a request without being one. -/
theorem whole_lines_iff (m : HttpMethod) (c : HttpStatus) (cs : List Bytes) :
    (∀ h, feedChunks (.fresh m c) .new cs = some (.parseEnd, h) → WholeLines cs.flatten) ↔
      ¬ Truncated cs.flatten := by
  have hend := feedChunks_end_iff m c cs
  constructor
  · intro hwhole htr
    have ⟨l0, hs, z, r, heq, hread, _⟩ := htr
    obtain ⟨h, hfeed⟩ := hend.mpr ((accepts_iff_readAs _).mpr ⟨l0, hs, z, r, heq, hread⟩)
    exact not_whole_of_truncated htr (hwhole h hfeed)
  · intro htr h hfeed
    exact whole_of_not_truncated (hend.mp ⟨h, hfeed⟩) htr

/-- a version followed by other bytes -/
theorem truncated_version :
    ∃ h, feedChunks (.fresh .get 0) .new [asc "GET / HTTP/1.1" ++ 0 :: asc "junk\r\n\r\n"] =
        some (.parseEnd, h) ∧
      ¬ WholeLines [asc "GET / HTTP/1.1" ++ 0 :: asc "junk\r\n\r\n"].flatten := by
  have hread : ReadAs (asc "GET / HTTP/1.1" ++ 0 :: asc "junk") [] [] [] := by
    refine ⟨by decide, ?_, fun h hm => (by cases hm), rfl, le_rfl⟩
    exact ⟨asc "GET", asc "/", by decide, by decide, by decide, by decide⟩
  have hs : [asc "GET / HTTP/1.1" ++ 0 :: asc "junk\r\n\r\n"].flatten =
      joinLines 13 10 [asc "GET / HTTP/1.1" ++ 0 :: asc "junk", []] ++ [] := by decide
  obtain ⟨h, hfeed⟩ := (feedChunks_end_iff .get 0 _).mpr
    ((accepts_iff_readAs _).mpr ⟨_, [], [], [], hs, hread⟩)
  refine ⟨h, hfeed, not_whole_of_truncated ⟨_, [], [], [], hs, hread, _, List.mem_cons_self, ?_⟩⟩
  decide

end Feipu
