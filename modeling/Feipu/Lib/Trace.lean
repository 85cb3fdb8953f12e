import Mathlib.Logic.Relation
import Mathlib.Data.List.Basic
import Mathlib.Algebra.GroupWithZero.Nat

/-!
# Runs of a labelled transition system

A system is a relation `step : σ → ι → σ → Prop`: the label `ι` names the event and carries the
answers of the environment.  Two forms of run are used:

* `Path step s tr`   the transitions `tr` follow one another from the state `s`;
* `Reach step s t`   some path leads from `s` to `t`.

Each form has its induction once: `Path.guarded` (what holds along a path all of whose steps meet
a condition), `Path.all_iff` (the condition is exact), `Path.after` (what one step establishes and
the later ones keep), `Path.history` (what holds of the transitions so far), `Path.amortized` (what
a path costs), `Reach.inv` and `Reach.simulated`.
-/

namespace Trace

variable {σ ι : Type*}

/-- one transition: the state before, the label, the state after -/
structure Tr (σ ι : Type*) where
  pre : σ
  act : ι
  post : σ

def Tr.relabel {κ : Type*} (f : ι → κ) (e : Tr σ ι) : Tr σ κ := ⟨e.pre, f e.act, e.post⟩

/-- consecutive transitions of the system, the first one from the given state -/
inductive Path (step : σ → ι → σ → Prop) : σ → List (Tr σ ι) → Prop where
  | nil (s : σ) : Path step s []
  | cons {s : σ} {a : ι} {t : σ} {tr : List (Tr σ ι)} :
      step s a t → Path step t tr → Path step s (⟨s, a, t⟩ :: tr)

/-- the state a path ends in -/
def last (s : σ) : List (Tr σ ι) → σ
  | [] => s
  | e :: tr => last e.post tr

theorem last_append (s : σ) (tr tr' : List (Tr σ ι)) :
    last s (tr ++ tr') = last (last s tr) tr' := by
  induction tr generalizing s with
  | nil => rfl
  | cons e tr ih => exact ih e.post

namespace Path
variable {step : σ → ι → σ → Prop} {s : σ} {tr tr' : List (Tr σ ι)}

theorem append (h : Path step s tr) (h' : Path step (last s tr) tr') : Path step s (tr ++ tr') := by
  induction h with
  | nil s => exact h'
  | cons hst _ ih => exact .cons hst (ih h')

theorem split (h : Path step s (tr ++ tr')) : Path step s tr ∧ Path step (last s tr) tr' := by
  induction tr generalizing s with
  | nil => exact ⟨.nil s, h⟩
  | cons e tr ih =>
    cases h with
    | cons hst hp =>
      obtain ⟨h1, h2⟩ := ih hp
      exact ⟨.cons hst h1, h2⟩

/-- **Guarded runs.**  An invariant that every step meeting the condition `G` keeps holds along a
path whose steps all meet `G`, and so does whatever such a step guarantees. -/
theorem guarded {Inv : σ → Prop} {G : σ → ι → Prop} {P : Tr σ ι → Prop}
    (hstep : ∀ s a t, Inv s → step s a t → G s a → Inv t ∧ P ⟨s, a, t⟩)
    (h : Path step s tr) (h0 : Inv s) (hG : ∀ e ∈ tr, G e.pre e.act) :
    ∀ e ∈ tr, Inv e.pre ∧ Inv e.post ∧ P e := by
  induction h with
  | nil s => intro e he; exact absurd he List.not_mem_nil
  | @cons s a t tr hst _ ih =>
    obtain ⟨ht, hP⟩ := hstep s a t h0 hst (hG _ List.mem_cons_self)
    intro e he
    rcases List.mem_cons.mp he with rfl | he'
    · exact ⟨h0, ht, hP⟩
    · exact ih ht (fun e' h' => hG e' (List.mem_cons_of_mem _ h')) e he'

/-- what every step keeps and guarantees from a good state -/
theorem inv {Inv : σ → Prop} {P : Tr σ ι → Prop}
    (hstep : ∀ s a t, Inv s → step s a t → Inv t ∧ P ⟨s, a, t⟩)
    (h : Path step s tr) (h0 : Inv s) : ∀ e ∈ tr, Inv e.pre ∧ Inv e.post ∧ P e :=
  h.guarded (G := fun _ _ => True) (fun s a t hs hst _ => hstep s a t hs hst) h0
    (fun _ _ => trivial)

/-- a path whose steps are steps of another system -/
theorem relabel {κ : Type*} {step' : σ → κ → σ → Prop} {Inv : σ → Prop} {f : ι → κ}
    (hstep : ∀ s a t, Inv s → step s a t → step' s (f a) t ∧ Inv t)
    (h : Path step s tr) (h0 : Inv s) : Path step' s (tr.map (Tr.relabel f)) := by
  induction h with
  | nil s => exact .nil s
  | @cons s a t tr hst _ ih =>
    obtain ⟨hst', ht⟩ := hstep s a t h0 hst
    exact .cons hst' (ih ht)

/-- steps that are computed, one after the other -/
theorem of_foldlM {exec : σ → ι → Option σ} (hstep : ∀ s a t, exec s a = some t → step s a t)
    {acts : List ι} {t : σ} (h : acts.foldlM exec s = some t) :
    ∃ tr, Path step s tr ∧ tr.map Tr.act = acts ∧ last s tr = t := by
  induction acts generalizing s with
  | nil => exact ⟨[], .nil s, rfl, Option.some.inj h⟩
  | cons a acts ih =>
    rw [List.foldlM_cons] at h
    obtain ⟨u, hu, hrest⟩ := Option.bind_eq_some_iff.mp h
    obtain ⟨tr, hpath, hacts, hlast⟩ := ih hrest
    exact ⟨⟨s, a, u⟩ :: tr, .cons (hstep s a u hu) hpath, by rw [List.map_cons, hacts], hlast⟩

/-- **What a run remembers.**  An invariant that speaks of the transitions so far. -/
theorem history {I : List (Tr σ ι) → σ → Prop}
    (hstep : ∀ past s a t, I past s → step s a t → I (past ++ [⟨s, a, t⟩]) t)
    (h : Path step s tr) (h0 : I [] s) : I tr (last s tr) := by
  have hmore : ∀ past, I past s → I (past ++ tr) (last s tr) := by
    clear h0
    induction h with
    | nil s =>
      intro past hp
      rw [List.append_nil]
      exact hp
    | @cons s a t tr hst _ ih =>
      intro past hp
      have hnext := ih _ (hstep past s a t hp hst)
      rw [List.append_assoc] at hnext
      exact hnext
  exact hmore [] h0

theorem guarded_last {Inv : σ → Prop} {G : σ → ι → Prop}
    (hstep : ∀ s a t, Inv s → step s a t → G s a → Inv t)
    (h : Path step s tr) (h0 : Inv s) (hG : ∀ e ∈ tr, G e.pre e.act) : Inv (last s tr) := by
  induction h with
  | nil s => exact h0
  | @cons s a t tr hst _ ih =>
    exact ih (hstep s a t h0 hst (hG ⟨s, a, t⟩ List.mem_cons_self))
      (fun e' h' => hG e' (List.mem_cons_of_mem _ h'))

/-- **Exact conditions.**  If from a good state a step has the property `P` exactly when it meets
`G`, and then leads to a good state again, then all steps of a path have `P` exactly when all of
them meet `G`. -/
theorem all_iff {Inv : σ → Prop} {G : σ → ι → Prop} {P : Tr σ ι → Prop}
    (hstep : ∀ s a t, Inv s → step s a t → (P ⟨s, a, t⟩ ↔ G s a) ∧ (G s a → Inv t))
    (h : Path step s tr) (h0 : Inv s) :
    (∀ e ∈ tr, P e) ↔ ∀ e ∈ tr, G e.pre e.act := by
  induction h with
  | nil s => simp
  | @cons s a t tr hst _ ih =>
    obtain ⟨hPG, hnext⟩ := hstep s a t h0 hst
    rw [List.forall_mem_cons, List.forall_mem_cons, hPG]
    exact and_congr_right fun hg => ih (hnext hg)

/-- **Once and for all.**  What one transition establishes and all later ones keep (and use) holds
at every later transition. -/
theorem after {Inv : σ → Prop} {G : σ → ι → Prop} {E P : Tr σ ι → Prop} {Q : σ → Prop}
    (hinv : ∀ s a t, Inv s → step s a t → G s a → Inv t ∧ (E ⟨s, a, t⟩ → Q t))
    (hkeep : ∀ s a t, Inv s → Q s → step s a t → G s a → Q t ∧ P ⟨s, a, t⟩)
    (h : Path step s tr) (h0 : Inv s) (hG : ∀ e ∈ tr, G e.pre e.act)
    {l r : List (Tr σ ι)} {e : Tr σ ι} (htr : tr = l ++ e :: r) (he : E e) :
    ∀ e' ∈ r, P e' := by
  subst htr
  obtain ⟨hl, her⟩ := h.split
  have hI : Inv (last s l) := hl.guarded_last (fun s a t hs hst hg => (hinv s a t hs hst hg).1) h0
    (fun e' h' => hG e' (List.mem_append_left _ h'))
  cases her with
  | @cons _ a t _ hst hr =>
    have hGr : ∀ e' ∈ r, G e'.pre e'.act := fun e' h' =>
      hG e' (List.mem_append_right _ (List.mem_cons_of_mem _ h'))
    obtain ⟨hIt, hQ⟩ := hinv _ _ _ hI hst (hG ⟨_, a, t⟩ (by simp))
    have hstep : ∀ s a t, (Inv s ∧ Q s) → step s a t → G s a → (Inv t ∧ Q t) ∧ P ⟨s, a, t⟩ := by
      intro s a t ⟨hs, hq⟩ hst hg
      obtain ⟨hqt, hp⟩ := hkeep s a t hs hq hst hg
      exact ⟨⟨(hinv s a t hs hst hg).1, hqt⟩, hp⟩
    intro e' h'
    exact (hr.guarded hstep ⟨hIt, hQ he⟩ hGr e' h').2.2

/-- **Amortised cost.**  Where a step costs `w` and is charged `g`, and the potential `Φ` pays the
difference, the cost of a path is at most what it is charged and the potential it starts with. -/
theorem amortized {Inv : σ → Prop} {Φ : σ → Nat} {w g : Tr σ ι → Nat}
    (hstep : ∀ s a t, Inv s → step s a t → Inv t ∧ w ⟨s, a, t⟩ + Φ t ≤ Φ s + g ⟨s, a, t⟩)
    (h : Path step s tr) (h0 : Inv s) :
    (tr.map w).sum + Φ (last s tr) ≤ Φ s + (tr.map g).sum := by
  induction h with
  | nil s => exact Nat.le_of_eq (Nat.add_comm _ _)
  | @cons s a t tr hst _ ih =>
    obtain ⟨ht, hcost⟩ := hstep s a t h0 hst
    have hrest := ih ht
    rw [List.map_cons, List.map_cons, List.sum_cons, List.sum_cons]
    show w ⟨s, a, t⟩ + (tr.map w).sum + Φ (last t tr) ≤ Φ s + (g ⟨s, a, t⟩ + (tr.map g).sum)
    omega

end Path

/-- counting transitions as a cost of one each -/
theorem countP_eq_sum {α : Type*} (p : α → Bool) (l : List α) :
    l.countP p = (l.map fun a => (p a).toNat).sum := by
  induction l with
  | nil => rfl
  | cons a l ih =>
    rw [List.countP_cons, List.map_cons, List.sum_cons, ih]
    cases p a with
    | false => exact (Nat.zero_add _).symm
    | true => exact Nat.add_comm _ _

/-- some path leads from the first state to the second -/
def Reach (step : σ → ι → σ → Prop) : σ → σ → Prop :=
  Relation.ReflTransGen fun s t => ∃ a, step s a t

namespace Reach
variable {step : σ → ι → σ → Prop} {s t u : σ}

theorem refl : Reach step s s := Relation.ReflTransGen.refl

theorem snoc {a : ι} (h : Reach step s t) (hst : step t a u) : Reach step s u :=
  Relation.ReflTransGen.tail h ⟨a, hst⟩

/-- what holds at the start and is kept by every step holds in every state reached -/
theorem inv {Inv : σ → Prop} (hstep : ∀ s a t, Inv s → step s a t → Inv t)
    (h : Reach step s t) (h0 : Inv s) : Inv t := by
  induction h with
  | refl => exact h0
  | tail _ hst ih => obtain ⟨a, ha⟩ := hst; exact hstep _ a _ ih ha

theorem of_path {tr : List (Tr σ ι)} (h : Path step s tr) : Reach step s (last s tr) := by
  induction h with
  | nil s => exact refl
  | cons hst _ ih => exact Relation.ReflTransGen.head ⟨_, hst⟩ ih

theorem trans (h : Reach step s t) (h' : Reach step t u) : Reach step s u :=
  Relation.ReflTransGen.trans h h'

/-- **Simulation.**  Where each step is matched by steps of a second system, so is every run. -/
theorem simulated {σ' ι' : Type*} {step' : σ' → ι' → σ' → Prop} {R : σ → σ' → Prop}
    (hstep : ∀ s a t s', R s s' → step s a t → ∃ t', Reach step' s' t' ∧ R t t')
    (h : Reach step s t) {s' : σ'} (h0 : R s s') : ∃ t', Reach step' s' t' ∧ R t t' := by
  induction h with
  | refl => exact ⟨s', refl, h0⟩
  | tail _ hst ih =>
    obtain ⟨a, ha⟩ := hst
    obtain ⟨u', hu, hR⟩ := ih
    obtain ⟨t', ht, hR'⟩ := hstep _ a _ u' hR ha
    exact ⟨t', hu.trans ht, hR'⟩

end Reach

end Trace
