import Mathlib.Logic.Function.Basic

/-!
# Cells of memory

A memory is a partial function from addresses to values: a cell that is not allocated holds none.

* `Holds m p v`   the cells from `p` on hold the values `v`;
* `Reads m p v`   a read of `v.length` cells from `p` on may give `v`: what a cell that is not
                  allocated gives is anything.

`Holds.eq_of_reads`: a read of what is held gives it; `Holds.frame`: a change elsewhere keeps it.
-/

namespace Memory

variable {α : Type*} {m m' : Nat → Option α} {p q : Nat} {v w : List α}

def Holds (m : Nat → Option α) (p : Nat) : List α → Prop
  | [] => True
  | a :: v => m p = some a ∧ Holds m (p + 1) v

def Reads (m : Nat → Option α) (p : Nat) : List α → Prop
  | [] => True
  | a :: v => (∀ b, m p = some b → a = b) ∧ Reads m (p + 1) v

/-- the address lies in the range of `len` cells from `p` on -/
def Within (p len q : Nat) : Prop := p ≤ q ∧ q < p + len

theorem Holds.eq_of_reads (h : Holds m p v) (hr : Reads m p w) (hlen : w.length = v.length) :
    w = v := by
  induction v generalizing p w with
  | nil => exact List.length_eq_zero_iff.mp hlen
  | cons a v ih =>
    cases w with
    | nil => cases hlen
    | cons b w =>
      rw [hr.1 a h.1, ih h.2 hr.2 (Nat.succ.inj hlen)]

theorem Holds.frame (h : Holds m p v) (hm : ∀ q, Within p v.length q → m' q = m q) :
    Holds m' p v := by
  induction v generalizing p with
  | nil => trivial
  | cons a v ih =>
    refine ⟨?_, ih h.2 ?_⟩
    · rw [hm p ⟨Nat.le_refl p, by simp⟩]
      exact h.1
    · intro q hq
      apply hm q
      obtain ⟨h1, h2⟩ := hq
      rw [Within, List.length_cons]
      omega

theorem Holds.update (h : Holds m p v) (b : Option α)
    (hq : ¬ Within p v.length q) : Holds (Function.update m q b) p v := by
  apply h.frame
  intro r hr
  apply Function.update_of_ne
  intro heq
  exact hq (heq ▸ hr)

end Memory
