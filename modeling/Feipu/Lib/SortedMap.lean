import Mathlib.Data.List.Nodup
import Mathlib.Order.Lattice

/-!
# Ordered maps

`SMap α β` is an ordered map as a list of entries in strictly increasing key order (the field
`sorted`), so that two maps with the same entries are equal and are walked in the same order.
-/

variable {α β : Type}

/-- put `(k, v)` at its place, replacing an entry with the key `k` -/
def insertEntry [LinearOrder α] (k : α) (v : β) : List (α × β) → List (α × β)
  | [] => [(k, v)]
  | (k', v') :: r =>
    if k < k' then (k, v) :: (k', v') :: r
    else if k = k' then (k, v) :: r
    else (k', v') :: insertEntry k v r

theorem mem_insertEntry [LinearOrder α] {k : α} {v : β} {e : α × β} {l : List (α × β)}
    (h : e ∈ insertEntry k v l) : e = (k, v) ∨ e ∈ l := by
  induction l with
  | nil => exact .inl (List.mem_singleton.mp h)
  | cons e' r ih =>
    obtain ⟨k', v'⟩ := e'
    rw [insertEntry] at h
    split at h
    · rcases List.mem_cons.mp h with rfl | h
      · exact .inl rfl
      · exact .inr h
    · split at h
      · rcases List.mem_cons.mp h with rfl | h
        · exact .inl rfl
        · exact .inr (List.mem_cons_of_mem _ h)
      · rcases List.mem_cons.mp h with rfl | h
        · exact .inr List.mem_cons_self
        · exact (ih h).imp_right (List.mem_cons_of_mem _)

theorem sorted_insertEntry [LinearOrder α] (k : α) (v : β) {l : List (α × β)}
    (h : l.Pairwise fun a b => a.1 < b.1) :
    (insertEntry k v l).Pairwise fun a b => a.1 < b.1 := by
  induction l with
  | nil => exact List.pairwise_singleton _ _
  | cons e' r ih =>
    obtain ⟨k', v'⟩ := e'
    obtain ⟨hk', hr⟩ := List.pairwise_cons.mp h
    rw [insertEntry]
    split
    · rename_i hlt
      refine List.pairwise_cons.mpr ⟨fun b hb => ?_, h⟩
      rcases List.mem_cons.mp hb with rfl | hb
      · exact hlt
      · exact hlt.trans (hk' b hb)
    · split
      · rename_i heq
        exact List.pairwise_cons.mpr ⟨fun b hb => heq ▸ hk' b hb, hr⟩
      · rename_i hnlt hne
        refine List.pairwise_cons.mpr ⟨fun b hb => ?_, ih hr⟩
        rcases mem_insertEntry hb with rfl | hb
        · exact lt_of_le_of_ne (not_lt.mp hnlt) (Ne.symm hne)
        · exact hk' b hb

theorem mem_insertEntry_iff [LinearOrder α] {k : α} {v : β} {e : α × β} {l : List (α × β)}
    (h : l.Pairwise fun a b => a.1 < b.1) :
    e ∈ insertEntry k v l ↔ e = (k, v) ∨ e ∈ l ∧ e.1 ≠ k := by
  induction l with
  | nil => simp [insertEntry]
  | cons e' r ih =>
    obtain ⟨k', v'⟩ := e'
    obtain ⟨hk', hr⟩ := List.pairwise_cons.mp h
    rw [insertEntry]
    split
    · rename_i hlt
      have hne : ∀ e ∈ (k', v') :: r, e.1 ≠ k := by
        intro e he heq
        rcases List.mem_cons.mp he with rfl | he
        · exact absurd heq (ne_of_gt hlt)
        · exact absurd heq (ne_of_gt (hlt.trans (hk' e he)))
      rw [List.mem_cons]
      exact or_congr_right ⟨fun he => ⟨he, hne e he⟩, fun he => he.1⟩
    · split
      · rename_i heq
        subst heq
        rw [List.mem_cons]
        refine or_congr_right ⟨fun he => ⟨List.mem_cons_of_mem _ he, ne_of_gt (hk' e he)⟩, ?_⟩
        rintro ⟨he, hne⟩
        rcases List.mem_cons.mp he with rfl | he
        · exact absurd rfl hne
        · exact he
      · rename_i hnlt hne
        rw [List.mem_cons, List.mem_cons, ih hr]
        constructor
        · rintro (rfl | rfl | ⟨he, hek⟩)
          · exact .inr ⟨.inl rfl, Ne.symm hne⟩
          · exact .inl rfl
          · exact .inr ⟨.inr he, hek⟩
        · rintro (rfl | ⟨rfl | he, hek⟩)
          · exact .inr (.inl rfl)
          · exact .inl rfl
          · exact .inr (.inr ⟨he, hek⟩)

theorem insertEntry_last [LinearOrder α] {k : α} {v : β} {l : List (α × β)}
    (h : ∀ e ∈ l, e.1 < k) : insertEntry k v l = l ++ [(k, v)] := by
  induction l with
  | nil => rfl
  | cons e l ih =>
    have hlt := h e List.mem_cons_self
    rw [insertEntry, if_neg (lt_asymm hlt), if_neg (ne_of_gt hlt),
      ih fun e' he' => h e' (List.mem_cons_of_mem _ he')]
    rfl

/-- a map as its entries in key order -/
structure SMap (α β : Type) [LinearOrder α] where
  entries : List (α × β)
  sorted : entries.Pairwise fun a b => a.1 < b.1

namespace SMap
variable [LinearOrder α]

def empty : SMap α β := ⟨[], List.Pairwise.nil⟩

/-- `m[k] = v` -/
def set (m : SMap α β) (k : α) (v : β) : SMap α β :=
  ⟨insertEntry k v m.entries, sorted_insertEntry k v m.sorted⟩

/-- an entry after `m[k] = v` -/
theorem mem_set_iff {m : SMap α β} {k : α} {v : β} {e : α × β} :
    e ∈ (m.set k v).entries ↔ e = (k, v) ∨ e ∈ m.entries ∧ e.1 ≠ k :=
  mem_insertEntry_iff m.sorted

/-- a key has one entry -/
theorem entry_unique {m : SMap α β} {e e' : α × β} (he : e ∈ m.entries) (he' : e' ∈ m.entries)
    (hk : e.1 = e'.1) : e = e' := by
  have hnodup : (m.entries.map (·.1)).Nodup :=
    List.pairwise_map.mpr (m.sorted.imp fun h => ne_of_lt h)
  exact List.inj_on_of_nodup_map hnodup he he' hk

theorem ext_entries {m m' : SMap α β} (h : m.entries = m'.entries) : m = m' := by
  cases m
  cases m'
  cases h
  rfl

/-- a map is read back from its entries, put in one after the other -/
theorem foldl_set (es : List (α × β)) (m : SMap α β)
    (h : (m.entries ++ es).Pairwise fun a b => a.1 < b.1) :
    (es.foldl (fun m e => m.set e.1 e.2) m).entries = m.entries ++ es := by
  induction es generalizing m with
  | nil => rw [List.foldl_nil, List.append_nil]
  | cons e es ih =>
    have hlast : (m.set e.1 e.2).entries = m.entries ++ [e] := by
      apply insertEntry_last
      intro a ha
      exact (List.pairwise_append.mp h).2.2 a ha e List.mem_cons_self
    rw [List.foldl_cons, ih (m.set e.1 e.2) (by rw [hlast, List.append_assoc]; exact h), hlast,
      List.append_assoc]
    rfl

/-- an entry after assignments comes from one of them or was there before -/
theorem mem_foldl_set {es : List (α × β)} {m : SMap α β} {e : α × β}
    (h : e ∈ (es.foldl (fun m e => m.set e.1 e.2) m).entries) : e ∈ es ∨ e ∈ m.entries := by
  induction es generalizing m with
  | nil => exact .inr h
  | cons a es ih =>
    rcases ih h with h | h
    · exact .inl (List.mem_cons_of_mem _ h)
    · rcases mem_set_iff.mp h with rfl | ⟨h, -⟩
      · exact .inl List.mem_cons_self
      · exact .inr h

/-- an entry after assignments to keys that are all different -/
theorem mem_foldl_set_iff {es : List (α × β)} {m : SMap α β} {e : α × β}
    (h : es.Pairwise fun a b => a.1 ≠ b.1) :
    e ∈ (es.foldl (fun m e => m.set e.1 e.2) m).entries ↔
      e ∈ es ∨ e ∈ m.entries ∧ ∀ a ∈ es, e.1 ≠ a.1 := by
  induction es generalizing m with
  | nil => simp
  | cons a es ih =>
    obtain ⟨ha, hes⟩ := List.pairwise_cons.mp h
    rw [List.foldl_cons, ih hes, mem_set_iff, List.mem_cons, List.forall_mem_cons]
    constructor
    · rintro (he | ⟨rfl | ⟨he, hne⟩, hall⟩)
      · exact .inl (.inr he)
      · exact .inl (.inl rfl)
      · exact .inr ⟨he, hne, hall⟩
    · rintro ((rfl | he) | ⟨he, hne, hall⟩)
      · exact .inr ⟨.inl rfl, fun b hb => ha b hb⟩
      · exact .inl he
      · exact .inr ⟨.inr ⟨he, hne⟩, hall⟩

theorem foldl_set_entries (m : SMap α β) :
    m.entries.foldl (fun m e => m.set e.1 e.2) .empty = m :=
  ext_entries (foldl_set m.entries .empty m.sorted)

end SMap
