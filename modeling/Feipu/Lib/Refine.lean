import Mathlib.Data.List.Basic

/-!
# Fallible operations and what they do to an abstraction

An operation `f` of type `ι` on states `σ` may fail.  It refines an operation `g` on abstract
states `τ` when it fails where `g` does, and otherwise leads to a state whose abstraction is what
`g` gives (`Commutes`).  Then so do sequences of operations (`Commutes.run`).

`Checked P x y` compares a computation `x` that checks what it does with the same computation `y`
without the checks: they pass exactly where `P` holds.
-/

namespace Refine

variable {σ τ ι : Type}

/-- the operations one after the other, up to the first that fails -/
def run (f : σ → ι → Option σ) (s : σ) (ops : List ι) : Option σ := ops.foldlM f s

def Commutes (abs : σ → τ) (f : σ → ι → Option σ) (g : τ → ι → Option τ) : Prop :=
  ∀ s a, (f s a).map abs = g (abs s) a

variable {abs : σ → τ} {f : σ → ι → Option σ} {g : τ → ι → Option τ}

theorem run_cons (s : σ) (a : ι) (ops : List ι) :
    run f s (a :: ops) = (f s a).bind fun t => run f t ops := by
  rw [run, List.foldlM_cons]
  rfl

theorem run_append (s : σ) (l r : List ι) :
    run f s (l ++ r) = (run f s l).bind fun t => run f t r := by
  rw [run, List.foldlM_append]
  rfl

theorem Commutes.run (h : Commutes abs f g) (s : σ) (ops : List ι) :
    (run f s ops).map abs = Refine.run g (abs s) ops := by
  induction ops generalizing s with
  | nil => rfl
  | cons a ops ih =>
    rw [run_cons, run_cons, ← h s a]
    cases f s a with
    | none => rfl
    | some t => exact ih t

/-! ## checks -/

/-- the checked computation `x` is `y` where `P` holds, and fails elsewhere -/
def Checked {α : Type*} (P : Prop) (x y : Option α) : Prop := (P → x = y) ∧ (¬P → x = none)

namespace Checked
variable {α β : Type*} {P Q c : Prop} {x y : Option α}

theorem refl (x : Option α) : Checked True x x := ⟨fun _ => rfl, fun h => absurd trivial h⟩

theorem imp (h : P ↔ Q) (hx : Checked P x y) : Checked Q x y :=
  ⟨fun hq => hx.1 (h.mpr hq), fun hq => hx.2 (mt h.mp hq)⟩

theorem given (hc : c) (hx : Checked P x y) : Checked (c → P) x y :=
  hx.imp ⟨fun hp _ => hp, fun hp => hp hc⟩

theorem vacuous (hc : ¬c) (x : Option α) : Checked (c → P) x x :=
  (refl x).imp ⟨fun _ h => absurd h hc, fun _ => trivial⟩

/-- a check on the way -/
theorem guard [Decidable c] (h : c → Checked P x y) :
    Checked (c ∧ P) (if c then x else none) y := by
  constructor
  · intro hp
    rw [if_pos hp.1]
    exact (h hp.1).1 hp.2
  · intro hp
    by_cases hc : c
    · rw [if_pos hc]
      exact (h hc).2 fun hP => hp ⟨hc, hP⟩
    · rw [if_neg hc]

/-- two checks one after the other -/
theorem andThen (hx : Checked P x y) {f g : α → Option β}
    (hf : ∀ a, y = some a → Checked Q (f a) (g a)) :
    Checked (P ∧ Q) (x.bind f) (y.bind g) := by
  by_cases hp : P
  · rw [hx.1 hp]
    cases hy : y with
    | none => exact ⟨fun _ => rfl, fun _ => rfl⟩
    | some a => exact (hf a hy).imp ⟨fun hq => ⟨hp, hq⟩, And.right⟩
  · rw [hx.2 hp]
    exact ⟨fun h => absurd h.1 hp, fun _ => rfl⟩

theorem bind (hx : Checked P x y) (f : α → Option β) : Checked P (x.bind f) (y.bind f) := by
  constructor
  · intro hp
    rw [hx.1 hp]
  · intro hp
    rw [hx.2 hp]
    rfl

end Checked

end Refine
