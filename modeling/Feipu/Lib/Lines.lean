import Mathlib.Data.List.Basic

/-!
# Cutting one line off a sequence

A line ends with the two symbols `cr`, `lf`; inside it neither may occur.  `cut s` looks for the
first line of `s`:

* `line l r`   the first line is `l` and `r` is what follows its `cr lf`;
* `bad`        before any line end there is a `cr` followed by something else, or a lone `lf`;
* `more`       neither can be told yet.

`cut_line_iff` and `cut_bad_iff` say this without `cut`; `cut_line_append`, `cut_bad_append` say
that a verdict other than `more` does not depend on what comes later.
-/

namespace Lines

/-- the outcome of looking for a line -/
inductive Cut (α : Type*) where
  | more
  | bad
  | line (l rest : List α)
deriving DecidableEq

variable {α : Type*}

/-- a list is split in one way at its first `c` -/
theorem split_first {c : α} {k k' x x' : List α} (hk : c ∉ k) (hk' : c ∉ k')
    (h : k ++ c :: x = k' ++ c :: x') : k = k' ∧ x = x' := by
  induction k generalizing k' with
  | nil =>
    cases k' with
    | nil => exact ⟨rfl, (List.cons.inj h).2⟩
    | cons d k' => exact absurd ((List.cons.inj h).1 ▸ List.mem_cons_self) hk'
  | cons d k ih =>
    cases k' with
    | nil => exact absurd ((List.cons.inj h).1 ▸ List.mem_cons_self) hk
    | cons d' k' =>
      obtain ⟨rfl, hrest⟩ := List.cons.inj h
      obtain ⟨rfl, hx⟩ := ih (fun hm => hk (List.mem_cons_of_mem _ hm))
        (fun hm => hk' (List.mem_cons_of_mem _ hm)) hrest
      exact ⟨rfl, hx⟩

/-- the outcome when `p` stood before -/
def Cut.push (p : List α) : Cut α → Cut α
  | .more => .more
  | .bad => .bad
  | .line l r => .line (p ++ l) r

theorem Cut.push_nil (c : Cut α) : c.push [] = c := by cases c <;> rfl

theorem Cut.push_push (p q : List α) (c : Cut α) : (c.push q).push p = c.push (p ++ q) := by
  cases c <;> simp [Cut.push]

/-- neither end symbol occurs -/
def Clean (cr lf : α) (l : List α) : Prop := ∀ c ∈ l, c ≠ cr ∧ c ≠ lf

theorem clean_nil (cr lf : α) : Clean cr lf ([] : List α) := by simp [Clean]

theorem clean_cons {cr lf c : α} {l : List α} :
    Clean cr lf (c :: l) ↔ (c ≠ cr ∧ c ≠ lf) ∧ Clean cr lf l := by simp [Clean]

/-- the lines `ls`, each with its end -/
def joinLines (cr lf : α) (ls : List (List α)) : List α := ls.flatMap (· ++ [cr, lf])

@[simp] theorem joinLines_nil (cr lf : α) : joinLines cr lf [] = [] := rfl

@[simp] theorem joinLines_cons (cr lf : α) (l : List α) (ls : List (List α)) :
    joinLines cr lf (l :: ls) = l ++ cr :: lf :: joinLines cr lf ls := by
  simp [joinLines]

theorem joinLines_append (cr lf : α) (a b : List (List α)) :
    joinLines cr lf (a ++ b) = joinLines cr lf a ++ joinLines cr lf b := by
  simp [joinLines]

/-- a `cr` without its `lf`, or an `lf` without its `cr`, before the first line end -/
def Broken (cr lf : α) (s : List α) : Prop :=
  ∃ l, Clean cr lf l ∧ ((∃ x r, x ≠ lf ∧ s = l ++ cr :: x :: r) ∨ ∃ r, s = l ++ lf :: r)

variable [DecidableEq α] (cr lf : α)

instance (l : List α) : Decidable (Clean cr lf l) :=
  inferInstanceAs (Decidable (∀ c ∈ l, c ≠ cr ∧ c ≠ lf))

/-- what follows a `cr` -/
def afterCr : List α → Cut α
  | [] => .more
  | d :: r => if d = lf then .line [] r else .bad

def cut : List α → Cut α
  | [] => .more
  | c :: t => if c = cr then afterCr lf t else if c = lf then .bad else (cut t).push [c]

theorem cut_cons_clean {c : α} (h : c ≠ cr) (h' : c ≠ lf) (t : List α) :
    cut cr lf (c :: t) = (cut cr lf t).push [c] := by
  simp [cut, h, h']

theorem cut_cons_cr (t : List α) : cut cr lf (cr :: t) = afterCr lf t := by simp [cut]

theorem cut_cons_lf (hne : cr ≠ lf) (t : List α) : cut cr lf (lf :: t) = .bad := by
  simp [cut, hne.symm]

/-- clean symbols in front only lengthen the line -/
theorem cut_append {l : List α} (hl : Clean cr lf l) (s : List α) :
    cut cr lf (l ++ s) = (cut cr lf s).push l := by
  induction l with
  | nil => exact (Cut.push_nil _).symm
  | cons c l ih =>
    obtain ⟨⟨h, h'⟩, hl'⟩ := clean_cons.mp hl
    rw [List.cons_append, cut_cons_clean cr lf h h', ih hl', Cut.push_push]
    rfl

theorem cut_clean {l : List α} (hl : Clean cr lf l) : cut cr lf l = .more := by
  have h := cut_append cr lf hl []
  rwa [List.append_nil] at h

theorem cut_line {l : List α} (hl : Clean cr lf l) (r : List α) :
    cut cr lf (l ++ cr :: lf :: r) = .line l r := by
  rw [cut_append cr lf hl, cut_cons_cr]
  simp [afterCr, Cut.push]

omit [DecidableEq α] in
theorem drop_line (l r : List α) : (l ++ cr :: lf :: r).drop (l.length + 2) = r := by
  rw [← List.drop_drop, List.drop_left]
  rfl

/-- the first of the lines in front is determined -/
theorem joinLines_cons_inj {l l' r r' : List α} {ls ls' : List (List α)} (hl : Clean cr lf l)
    (hl' : Clean cr lf l')
    (h : joinLines cr lf (l :: ls) ++ r = joinLines cr lf (l' :: ls') ++ r') :
    l = l' ∧ joinLines cr lf ls ++ r = joinLines cr lf ls' ++ r' := by
  rw [joinLines_cons, List.append_assoc, joinLines_cons, List.append_assoc] at h
  have hcut := cut_line cr lf hl (joinLines cr lf ls ++ r)
  have hcut' := cut_line cr lf hl' (joinLines cr lf ls' ++ r')
  obtain ⟨rfl, hrest⟩ := Cut.line.inj (hcut.symm.trans ((congrArg _ h).trans hcut'))
  exact ⟨rfl, hrest⟩

/-- lines that are not empty, the empty line that ends them, and what follows it are determined -/
theorem joinLines_blank_inj {ls ls' : List (List α)} {b b' : List α}
    (hl : ∀ l ∈ ls, Clean cr lf l ∧ l ≠ []) (hl' : ∀ l ∈ ls', Clean cr lf l ∧ l ≠ [])
    (h : joinLines cr lf ls ++ cr :: lf :: b = joinLines cr lf ls' ++ cr :: lf :: b') :
    ls = ls' ∧ b = b' := by
  have hend : ∀ b : List α, cr :: lf :: b = joinLines cr lf [[]] ++ b := fun b => by simp
  rw [hend b, hend b', ← List.append_assoc, ← List.append_assoc, ← joinLines_append,
    ← joinLines_append] at h
  induction ls generalizing ls' with
  | nil =>
    cases ls' with
    | nil => exact ⟨rfl, List.append_cancel_left h⟩
    | cons l' ls' =>
      obtain ⟨hc, hne⟩ := hl' l' List.mem_cons_self
      exact absurd (joinLines_cons_inj cr lf (clean_nil cr lf) hc h).1.symm hne
  | cons l ls ih =>
    obtain ⟨hc, hne⟩ := hl l List.mem_cons_self
    cases ls' with
    | nil => exact absurd (joinLines_cons_inj cr lf hc (clean_nil cr lf) h).1 hne
    | cons l' ls' =>
      obtain ⟨rfl, hrest⟩ := joinLines_cons_inj cr lf hc (hl' l' List.mem_cons_self).1 h
      obtain ⟨rfl, rfl⟩ := ih (fun l h => hl l (List.mem_cons_of_mem _ h))
        (fun l h => hl' l (List.mem_cons_of_mem _ h)) hrest
      exact ⟨rfl, rfl⟩

/-- every sequence is clean up to its first end symbol -/
theorem clean_or_split (s : List α) :
    Clean cr lf s ∨ ∃ l c r, Clean cr lf l ∧ (c = cr ∨ c = lf) ∧ s = l ++ c :: r := by
  induction s with
  | nil => exact .inl (clean_nil cr lf)
  | cons c t ih =>
    by_cases hc : c = cr ∨ c = lf
    · exact .inr ⟨[], c, t, clean_nil cr lf, hc, rfl⟩
    · have hc' : c ≠ cr ∧ c ≠ lf := not_or.mp hc
      rcases ih with h | ⟨l, d, r, hl, hd, rfl⟩
      · exact .inl (clean_cons.mpr ⟨hc', h⟩)
      · exact .inr ⟨c :: l, d, r, clean_cons.mpr ⟨hc', hl⟩, hd, rfl⟩

variable {cr lf}

theorem cut_line_iff (hne : cr ≠ lf) {s l r : List α} :
    cut cr lf s = .line l r ↔ Clean cr lf l ∧ s = l ++ cr :: lf :: r := by
  constructor
  · intro h
    rcases clean_or_split cr lf s with hs | ⟨l', c, r', hl, rfl | rfl, rfl⟩
    · rw [cut_clean cr lf hs] at h; cases h
    · rw [cut_append _ _ hl, cut_cons_cr] at h
      cases r' with
      | nil => cases h
      | cons d r' =>
        by_cases hd : d = lf
        · subst hd
          simp only [afterCr, ite_true, Cut.push, List.append_nil, Cut.line.injEq] at h
          obtain ⟨rfl, rfl⟩ := h
          exact ⟨hl, rfl⟩
        · simp [afterCr, hd, Cut.push] at h
    · rw [cut_append _ _ hl, cut_cons_lf _ _ hne] at h; cases h
  · rintro ⟨hl, rfl⟩
    exact cut_line cr lf hl r

theorem cut_bad_iff (hne : cr ≠ lf) {s : List α} : cut cr lf s = .bad ↔ Broken cr lf s := by
  constructor
  · intro h
    rcases clean_or_split cr lf s with hs | ⟨l, c, r, hl, rfl | rfl, rfl⟩
    · rw [cut_clean cr lf hs] at h; cases h
    · rw [cut_append _ _ hl, cut_cons_cr] at h
      cases r with
      | nil => cases h
      | cons d r =>
        refine ⟨l, hl, .inl ⟨d, r, ?_, rfl⟩⟩
        rintro rfl
        simp [afterCr, Cut.push] at h
    · exact ⟨l, hl, .inr ⟨r, rfl⟩⟩
  · rintro ⟨l, hl, ⟨x, r, hx, rfl⟩ | ⟨r, rfl⟩⟩
    · rw [cut_append _ _ hl, cut_cons_cr]; simp [afterCr, hx, Cut.push]
    · rw [cut_append _ _ hl, cut_cons_lf _ _ hne]; rfl

theorem cut_line_append (hne : cr ≠ lf) {s l r : List α} (h : cut cr lf s = .line l r)
    (e : List α) : cut cr lf (s ++ e) = .line l (r ++ e) := by
  obtain ⟨hl, rfl⟩ := (cut_line_iff hne).mp h
  rw [List.append_assoc]
  exact cut_line cr lf hl (r ++ e)

theorem cut_bad_append (hne : cr ≠ lf) {s : List α} (h : cut cr lf s = .bad) (e : List α) :
    cut cr lf (s ++ e) = .bad := by
  obtain ⟨l, hl, ⟨x, r, hx, rfl⟩ | ⟨r, rfl⟩⟩ := (cut_bad_iff hne).mp h
  · exact (cut_bad_iff hne).mpr ⟨l, hl, .inl ⟨x, r ++ e, hx, by simp⟩⟩
  · exact (cut_bad_iff hne).mpr ⟨l, hl, .inr ⟨r ++ e, by simp⟩⟩

end Lines
