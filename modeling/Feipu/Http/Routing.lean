import Feipu.Http.Router
import Feipu.Lib.Search
import Feipu.Lib.Segments

/-!
# Routes by their segments

`Router::match` walks a pattern and a path byte by byte.  Both are cut at their `'/'` here: what
stands before the first one, and the segments.  `SegMatch` says when the segments match and what is
captured, `Reaches` when the walk comes to a "*name" in the middle of the pattern.

* `matchLoop_segs`    the walk ends as the segments say, for every pattern;
* `match_exact`       a request is answered by a route that matches it, whatever the order;
* `match_order_iff`   and when the order of the table makes no difference.
-/

namespace Feipu
open CStr Segments

/-! ## segments -/

/-- ":name" or "{name}" -/
def IsParam (k : Bytes) : Prop := k.head? = some 58 ∨ k.head? = some 123

/-- "*name" -/
def IsStar (k : Bytes) : Prop := k.head? = some 42

instance decidableIsParam (k : Bytes) : Decidable (IsParam k) :=
  inferInstanceAs (Decidable (k.head? = some 58 ∨ k.head? = some 123))

instance decidableIsStar (k : Bytes) : Decidable (IsStar k) :=
  inferInstanceAs (Decidable (k.head? = some 42))

/-- the segments of a pattern match those of a path, and `es` is captured -/
inductive SegMatch : List Bytes → List Bytes → List (Bytes × Bytes) → Prop where
  | done : SegMatch [] [] []
  | literal {k : Bytes} {ks vs : List Bytes} {es : List (Bytes × Bytes)} :
      ¬ IsParam k → ¬ IsStar k → SegMatch ks vs es → SegMatch (k :: ks) (k :: vs) es
  | param {k v : Bytes} {ks vs : List Bytes} {es : List (Bytes × Bytes)} :
      IsParam k → SegMatch ks vs es → SegMatch (k :: ks) (v :: vs) ((k, v) :: es)
  | rest {name v : Bytes} {vs : List Bytes} :
      SegMatch [42 :: name] (v :: vs) [(name, (joinSegs slash (v :: vs)).tail)]

/-- the segments of a path lead to a "*name" that more than a final `'/'` follows -/
inductive Reaches : List Bytes → List Bytes → Prop where
  | star {name v : Bytes} {back vs : List Bytes} :
      back ≠ [] → back ≠ [[]] → Reaches ((42 :: name) :: back) (v :: vs)
  | literal {k : Bytes} {ks vs : List Bytes} :
      ¬ IsParam k → ¬ IsStar k → Reaches ks vs → Reaches (k :: ks) (k :: vs)
  | param {k v : Bytes} {ks vs : List Bytes} :
      IsParam k → Reaches ks vs → Reaches (k :: ks) (v :: vs)

/-- no segment but the last starts with `'*'` -/
def StarLast (ks : List Bytes) : Prop := ∀ k ∈ ks.dropLast, ¬ IsStar k

/-- the bytes of a segment -/
def SegText (k : Bytes) : Prop := ∀ c ∈ k, inSegment c = true

theorem slash_ne_zero : slash ≠ 0 := by decide

theorem inSegment_iff {c : UInt8} : inSegment c = true ↔ c ≠ 0 ∧ c ≠ slash := by
  rw [inSegment, Bool.and_eq_true, bne_iff_ne, bne_iff_ne]

theorem StarLast.tail {k : Bytes} {ks : List Bytes} (h : StarLast (k :: ks)) : StarLast ks := by
  cases ks with
  | nil => exact fun _ hx => absurd hx List.not_mem_nil
  | cons k' ks => exact fun x hx => h x (List.mem_cons_of_mem _ hx)

theorem StarLast.last {k : Bytes} {ks : List Bytes} (h : StarLast (k :: ks)) (hk : IsStar k) :
    ks = [] := by
  cases ks with
  | nil => rfl
  | cons k' ks => exact absurd hk (h k List.mem_cons_self)

theorem isParam_not_star {k : Bytes} (h : IsParam k) : ¬ IsStar k := by
  intro hs
  rw [IsStar] at hs
  rcases h with h | h <;> rw [h] at hs <;> cases hs

theorem SegMatch.of_literal {k : Bytes} {ks vs : List Bytes} {es : List (Bytes × Bytes)}
    (hp : ¬ IsParam k) (hs : ¬ IsStar k) (h : SegMatch (k :: ks) vs es) :
    ∃ ws, vs = k :: ws ∧ SegMatch ks ws es := by
  cases h with
  | literal _ _ h => exact ⟨_, rfl, h⟩
  | param hp' _ => exact absurd hp' hp
  | rest => exact absurd rfl hs

theorem SegMatch.of_param {k : Bytes} {ks vs : List Bytes} {es : List (Bytes × Bytes)}
    (hp : IsParam k) (h : SegMatch (k :: ks) vs es) :
    ∃ v ws ds, vs = v :: ws ∧ es = (k, v) :: ds ∧ SegMatch ks ws ds := by
  cases h with
  | literal hp' _ _ => exact absurd hp hp'
  | param _ h => exact ⟨_, _, _, rfl, rfl, h⟩
  | rest => exact absurd rfl (isParam_not_star hp)

theorem SegMatch.of_star {name : Bytes} {ks vs : List Bytes} {es : List (Bytes × Bytes)}
    (h : SegMatch ((42 :: name) :: ks) vs es) :
    ks = [] ∧ ∃ v ws, vs = v :: ws ∧ es = [(name, (joinSegs slash (v :: ws)).tail)] := by
  cases h with
  | literal _ hs _ => exact absurd rfl hs
  | param hp _ => exact absurd rfl (isParam_not_star hp)
  | rest => exact ⟨rfl, _, _, rfl, rfl⟩

theorem SegMatch.unique {ks vs : List Bytes} {es es' : List (Bytes × Bytes)}
    (h : SegMatch ks vs es) (h' : SegMatch ks vs es') : es = es' := by
  induction h generalizing es' with
  | done =>
    cases h'
    rfl
  | literal hp hs _ ih =>
    obtain ⟨ws, hv, h'⟩ := h'.of_literal hp hs
    rw [← (List.cons.inj hv).2] at h'
    exact ih h'
  | param hp _ ih =>
    obtain ⟨v, ws, ds, hv, rfl, h'⟩ := h'.of_param hp
    obtain ⟨rfl, rfl⟩ := List.cons.inj hv
    rw [ih h']
  | rest =>
    obtain ⟨-, v, ws, hv, rfl⟩ := h'.of_star
    rw [hv]

theorem Reaches.of_literal {k : Bytes} {ks vs : List Bytes} (hp : ¬ IsParam k) (hs : ¬ IsStar k)
    (h : Reaches (k :: ks) vs) : ∃ ws, vs = k :: ws ∧ Reaches ks ws := by
  cases h with
  | star _ _ => exact absurd rfl hs
  | literal _ _ h => exact ⟨_, rfl, h⟩
  | param hp' _ => exact absurd hp' hp

theorem Reaches.of_param {k : Bytes} {ks vs : List Bytes} (hp : IsParam k)
    (h : Reaches (k :: ks) vs) : ∃ v ws, vs = v :: ws ∧ Reaches ks ws := by
  cases h with
  | star _ _ => exact absurd rfl (isParam_not_star hp)
  | literal hp' _ _ => exact absurd hp hp'
  | param _ h => exact ⟨_, _, rfl, h⟩

theorem Reaches.of_star {name : Bytes} {ks vs : List Bytes} (h : Reaches ((42 :: name) :: ks) vs) :
    ks ≠ [] ∧ ks ≠ [[]] := by
  cases h with
  | star h1 h2 => exact ⟨h1, h2⟩
  | literal _ hs _ => exact absurd rfl hs
  | param hp _ => exact absurd rfl (isParam_not_star hp)

/-- a pattern with a "*name" in its middle that a path leads to does not match it -/
theorem Reaches.not_match {ks vs : List Bytes} (h : Reaches ks vs) (es : List (Bytes × Bytes)) :
    ¬ SegMatch ks vs es := by
  induction h generalizing es with
  | star h1 _ => exact fun hm => h1 hm.of_star.1
  | literal hp hs _ ih =>
    intro hm
    obtain ⟨ws, hv, hm⟩ := hm.of_literal hp hs
    rw [← (List.cons.inj hv).2] at hm
    exact ih es hm
  | param hp _ ih =>
    intro hm
    obtain ⟨v, ws, ds, hv, -, hm⟩ := hm.of_param hp
    rw [← (List.cons.inj hv).2] at hm
    exact ih ds hm

/-- a "*name" at the end is no obstacle -/
theorem StarLast.not_reaches {ks vs : List Bytes} (hs : StarLast ks) : ¬ Reaches ks vs := by
  intro h
  induction h with
  | star h1 _ => exact h1 (hs.last rfl)
  | literal _ _ _ ih => exact ih hs.tail
  | param _ _ ih => exact ih hs.tail

/-- what follows a segment is the end or a `'/'` -/
theorem at'_joinSegs (ks : List Bytes) :
    at' (joinSegs slash ks) 0 = 0 ∧ ks = [] ∨ at' (joinSegs slash ks) 0 = slash ∧ ks ≠ [] := by
  cases ks with
  | nil => exact .inl ⟨rfl, rfl⟩
  | cons k ks => exact .inr ⟨rfl, List.cons_ne_nil _ _⟩

theorem zero_notMem_joinSegs {ks : List Bytes} (h : ∀ k ∈ ks, SegText k) :
    0 ∉ joinSegs slash ks := by
  intro hmem
  obtain ⟨k, hk, hmem⟩ := List.mem_flatMap.mp hmem
  rcases List.mem_cons.mp hmem with h0 | h0
  · exact slash_ne_zero h0.symm
  · exact (inSegment_iff.mp (h k hk 0 h0)).1 rfl

/-! ## the steps of the walk -/

namespace Router

/-- the walk ends with something left of the pattern or of the path -/
def Stops (x : Except Fatal (Bytes × Bytes × SMap Bytes Bytes)) : Prop :=
  ∃ kp vp m, x = .ok (kp, vp, m) ∧ ¬ (at' vp 0 = 0 ∧ at' kp 0 = 0)

theorem matchLoop_end {n : Nat} {kp vp : Bytes} {m : SMap Bytes Bytes}
    (h : at' kp 0 = 0 ∨ at' vp 0 = 0) : matchLoop n kp vp m = .ok (kp, vp, m) := by
  cases n with
  | zero => rfl
  | succ n => rw [matchLoop, if_pos h]

theorem matchLoop_differ {n : Nat} {kp vp : Bytes} {m : SMap Bytes Bytes}
    (h : at' kp 0 ≠ at' vp 0) : matchLoop n kp vp m = .ok (kp, vp, m) := by
  cases n with
  | zero => rfl
  | succ n =>
    by_cases h0 : at' kp 0 = 0 ∨ at' vp 0 = 0
    · rw [matchLoop, if_pos h0]
    · rw [matchLoop, if_neg h0, if_pos h]

theorem stops_differ {n : Nat} {kp vp : Bytes} {m : SMap Bytes Bytes}
    (h : at' kp 0 ≠ at' vp 0) : Stops (matchLoop n kp vp m) := by
  refine ⟨kp, vp, m, matchLoop_differ h, ?_⟩
  intro ⟨hv, hk⟩
  exact h (hk.trans hv.symm)

/-- a byte that starts no capture -/
theorem matchLoop_byte {n : Nat} {c : UInt8} {kp vp : Bytes} {m : SMap Bytes Bytes} (hc : c ≠ 0)
    (h : c = slash → at' kp 0 ≠ 42 ∧ at' kp 0 ≠ 58 ∧ at' kp 0 ≠ 123) :
    matchLoop (n + 1) (c :: kp) (c :: vp) m = matchLoop n kp vp m := by
  have h0 : ¬ (at' (c :: kp) 0 = 0 ∨ at' (c :: vp) 0 = 0) := fun h => h.elim hc hc
  have hne : ¬ at' (c :: kp) 0 ≠ at' (c :: vp) 0 := fun h => h rfl
  have hstar : ¬ (at' (c :: kp) 0 = slash ∧ at' (c :: kp) 1 = 42) := fun hs => (h hs.1).1 hs.2
  have hparam : ¬ (at' (c :: kp) 0 = slash ∧ (at' (c :: kp) 1 = 58 ∨ at' (c :: kp) 1 = 123)) :=
    fun hs => hs.2.elim (h hs.1).2.1 (h hs.1).2.2
  rw [matchLoop, if_neg h0, if_neg hne, if_neg hstar, if_neg hparam]
  rfl

/-- the bytes of a segment of both -/
theorem matchLoop_same {k : Bytes} (hk : SegText k) (n : Nat) (kp vp : Bytes)
    (m : SMap Bytes Bytes) :
    matchLoop (k.length + n) (k ++ kp) (k ++ vp) m = matchLoop n kp vp m := by
  induction k with
  | nil => rw [List.length_nil, Nat.zero_add, List.nil_append, List.nil_append]
  | cons c k ih =>
    obtain ⟨hc0, hcs⟩ := inSegment_iff.mp (hk c List.mem_cons_self)
    rw [show (c :: k).length + n = k.length + n + 1 by rw [List.length_cons]; omega]
    show matchLoop (k.length + n + 1) (c :: (k ++ kp)) (c :: (k ++ vp)) m = matchLoop n kp vp m
    rw [matchLoop_byte hc0 fun h => absurd h hcs]
    exact ih fun d hd => hk d (List.mem_cons_of_mem _ hd)

/-- two different segments -/
theorem stops_segment {k v : Bytes} (hk : SegText k) (hv : SegText v) (hne : k ≠ v) (n : Nat)
    (ks vs : List Bytes) (m : SMap Bytes Bytes) :
    Stops (matchLoop n (k ++ joinSegs slash ks) (v ++ joinSegs slash vs) m) := by
  induction k generalizing v n with
  | nil =>
    cases v with
    | nil => exact absurd rfl hne
    | cons d v =>
      obtain ⟨hd0, hds⟩ := inSegment_iff.mp (hv d List.mem_cons_self)
      apply stops_differ
      show at' (joinSegs slash ks) 0 ≠ d
      rcases at'_joinSegs ks with ⟨h, -⟩ | ⟨h, -⟩
      · rw [h]; exact hd0.symm
      · rw [h]; exact hds.symm
  | cons c k ih =>
    obtain ⟨hc0, hcs⟩ := inSegment_iff.mp (hk c List.mem_cons_self)
    cases v with
    | nil =>
      apply stops_differ
      show c ≠ at' (joinSegs slash vs) 0
      rcases at'_joinSegs vs with ⟨h, -⟩ | ⟨h, -⟩
      · rw [h]; exact hc0
      · rw [h]; exact hcs
    | cons d v =>
      by_cases hcd : c = d
      · subst hcd
        cases n with
        | zero => exact ⟨_, _, _, rfl, fun h => hc0 h.1⟩
        | succ n =>
          show Stops (matchLoop (n + 1) (c :: (k ++ joinSegs slash ks))
            (c :: (v ++ joinSegs slash vs)) m)
          rw [matchLoop_byte hc0 fun h => absurd h hcs]
          exact ih (fun d hd => hk d (List.mem_cons_of_mem _ hd))
            (fun d hd => hv d (List.mem_cons_of_mem _ hd)) (fun h => hne (by rw [h])) n
      · exact stops_differ hcd

/-- the `'/'` before a literal segment -/
theorem matchLoop_literal {k : Bytes} (hparam : ¬ IsParam k) (hstar : ¬ IsStar k) (n : Nat)
    (ks : List Bytes) (vp : Bytes) (m : SMap Bytes Bytes) :
    matchLoop (n + 1) (slash :: (k ++ joinSegs slash ks)) (slash :: vp) m =
      matchLoop n (k ++ joinSegs slash ks) vp m := by
  refine matchLoop_byte slash_ne_zero fun _ => ?_
  cases k with
  | nil =>
    show at' (joinSegs slash ks) 0 ≠ 42 ∧ at' (joinSegs slash ks) 0 ≠ 58 ∧
      at' (joinSegs slash ks) 0 ≠ 123
    rcases at'_joinSegs ks with ⟨h, -⟩ | ⟨h, -⟩
    · rw [h]; decide
    · rw [h]; decide
  | cons c k =>
    exact ⟨fun h => hstar (congrArg some h), fun h => hparam (.inl (congrArg some h)),
      fun h => hparam (.inr (congrArg some h))⟩

/-- "*name" with what follows it in the pattern -/
theorem matchLoop_star_back {name : Bytes} (hname : SegText name) (back : List Bytes) (n : Nat)
    (vp : Bytes) (m : SMap Bytes Bytes) :
    matchLoop (n + 1) (slash :: 42 :: (name ++ joinSegs slash back)) (slash :: vp) m =
      if at' (joinSegs slash back) 0 = slash ∧ at' (joinSegs slash back) 1 ≠ 0 then
        .error .routerMatch
      else matchLoop n (joinSegs slash back) (vp.dropWhile (· != 0)) (m.set name (cstr vp)) := by
  have hsep : inSegment slash = false := rfl
  have h0 : ¬ (at' (slash :: 42 :: (name ++ joinSegs slash back)) 0 = 0 ∨
      at' (slash :: vp) 0 = 0) :=
    fun h => h.elim (fun h => by cases h) (fun h => by cases h)
  have hne : ¬ at' (slash :: 42 :: (name ++ joinSegs slash back)) 0 ≠ at' (slash :: vp) 0 :=
    fun h => h rfl
  rw [matchLoop, if_neg h0, if_neg hne, if_pos ⟨rfl, rfl⟩]
  show (if at' ((name ++ joinSegs slash back).dropWhile inSegment) 0 = slash ∧
        at' ((name ++ joinSegs slash back).dropWhile inSegment) 1 ≠ 0 then
      Except.error Fatal.routerMatch
    else matchLoop n ((name ++ joinSegs slash back).dropWhile inSegment) (vp.dropWhile (· != 0))
      (m.set ((name ++ joinSegs slash back).takeWhile inSegment) (cstr vp))) = _
  rw [dropWhile_joinSegs hname hsep, takeWhile_joinSegs hname hsep]

/-- a string without NUL is passed over to its end -/
theorem dropWhile_of_notMem {vp : Bytes} (hvp : 0 ∉ vp) : vp.dropWhile (· != 0) = [] := by
  rw [List.dropWhile_eq_nil_iff]
  intro c hc
  exact bne_iff_ne.mpr fun h => hvp (h ▸ hc)

/-- "*name" takes all that remains -/
theorem matchLoop_star {name vp : Bytes} (hname : SegText name) (hvp : 0 ∉ vp) (n : Nat)
    (m : SMap Bytes Bytes) :
    matchLoop (n + 1) (slash :: 42 :: name) (slash :: vp) m = .ok ([], [], m.set name vp) := by
  have h := matchLoop_star_back hname [] n vp m
  rw [joinSegs_nil, List.append_nil, if_neg (fun h => by cases h.1), dropWhile_of_notMem hvp,
    cstr_of_notMem hvp] at h
  exact h.trans (matchLoop_end (.inl rfl))

/-- ":name" and "{name}" take one segment; the key is the segment of the pattern as it stands -/
theorem matchLoop_param {k v : Bytes} (hparam : IsParam k) (hk : SegText k) (hv : SegText v)
    (n : Nat) (ks vs : List Bytes) (m : SMap Bytes Bytes) :
    matchLoop (n + 1) (slash :: (k ++ joinSegs slash ks)) (slash :: (v ++ joinSegs slash vs)) m =
      matchLoop n (joinSegs slash ks) (joinSegs slash vs) (m.set k v) := by
  have hsep : inSegment slash = false := rfl
  obtain ⟨c, k', rfl⟩ : ∃ c k', k = c :: k' := by
    cases k with
    | nil => exact hparam.elim (fun h => by cases h) (fun h => by cases h)
    | cons c k' => exact ⟨c, k', rfl⟩
  have hc : c = 58 ∨ c = 123 := hparam.imp Option.some.inj Option.some.inj
  have h0 : ¬ (at' (slash :: (c :: k' ++ joinSegs slash ks)) 0 = 0 ∨
      at' (slash :: (v ++ joinSegs slash vs)) 0 = 0) :=
    fun h => h.elim (fun h => by cases h) (fun h => by cases h)
  have hne : ¬ at' (slash :: (c :: k' ++ joinSegs slash ks)) 0 ≠
      at' (slash :: (v ++ joinSegs slash vs)) 0 := fun h => h rfl
  have hstar : ¬ (at' (slash :: (c :: k' ++ joinSegs slash ks)) 0 = slash ∧
      at' (slash :: (c :: k' ++ joinSegs slash ks)) 1 = 42) := by
    intro hs
    have h : c = 42 := hs.2
    rcases hc with rfl | rfl <;> cases h
  rw [matchLoop, if_neg h0, if_neg hne, if_neg hstar, if_pos ⟨rfl, hc⟩]
  show matchLoop n ((c :: k' ++ joinSegs slash ks).dropWhile inSegment)
    ((v ++ joinSegs slash vs).dropWhile inSegment)
    (m.set ((c :: k' ++ joinSegs slash ks).take
      ((c :: k' ++ joinSegs slash ks).takeWhile inSegment).length)
      ((v ++ joinSegs slash vs).takeWhile inSegment)) = _
  rw [dropWhile_joinSegs hk hsep, dropWhile_joinSegs hv hsep, takeWhile_joinSegs hk hsep,
    takeWhile_joinSegs hv hsep, List.take_left]

/-- a misused "*name" is the only error -/
theorem matchLoop_error {n : Nat} {kp vp : Bytes} {m : SMap Bytes Bytes} {f : Fatal}
    (h : matchLoop n kp vp m = .error f) : f = .routerMatch := by
  induction n generalizing kp vp m with
  | zero => cases h
  | succ n ih =>
    rw [matchLoop] at h
    split at h
    · cases h
    · split at h
      · cases h
      · split at h
        · dsimp only at h
          split at h
          · exact (Except.error.inj h).symm
          · exact ih h
        · split at h
          · exact ih h
          · exact ih h

theorem matchEntries_error {req : HttpRequest} {es : List (Bytes × List HttpMethodHandler)} {f : Fatal}
    (h : matchEntries req es = .error f) : f = .routerMatch := by
  induction es with
  | nil => cases h
  | cons e es ih =>
    rw [matchEntries] at h
    cases hloop : matchLoop (e.1.length + 1) (cstr e.1) (matchPath req) .empty with
    | error f' =>
      rw [hloop] at h
      obtain rfl := Except.error.inj h
      exact matchLoop_error hloop
    | ok w =>
      rw [hloop] at h
      change (if at' w.2.1 0 = 0 ∧ at' w.1 0 = 0 then _ else _) = _ at h
      split at h
      · split at h
        · cases h
        · exact ih h
      · exact ih h

theorem deal_error {r : Router} {req : HttpRequest} {resp : HttpResponse} {f : Fatal}
    (h : r.deal req resp = .error f) : f = .routerMatch := by
  rw [deal] at h
  cases hm : r.match' req with
  | error f' =>
    rw [hm] at h
    obtain rfl := Except.error.inj h
    exact matchEntries_error hm
  | ok q =>
    obtain ⟨func, req'⟩ := q
    rw [hm] at h
    cases func with
    | none => cases h
    | some func => cases h

/-- what follows the name is the end, a `'/'` at the end, or more -/
theorem at'_back {back : List Bytes} (hback : ∀ k ∈ back, SegText k) :
    (at' (joinSegs slash back) 0 = slash ∧ at' (joinSegs slash back) 1 ≠ 0) ↔
      back ≠ [] ∧ back ≠ [[]] := by
  cases back with
  | nil => exact iff_of_false (fun h => by cases h.1) (fun h => h.1 rfl)
  | cons k ks =>
    have hzero : at' (joinSegs slash (k :: ks)) 1 = at' (k ++ joinSegs slash ks) 0 := rfl
    rw [hzero, and_iff_right (show at' (joinSegs slash (k :: ks)) 0 = slash from rfl),
      and_iff_right (List.cons_ne_nil k ks)]
    cases k with
    | nil =>
      rw [List.nil_append]
      rcases at'_joinSegs ks with ⟨h, rfl⟩ | ⟨h, hks⟩
      · exact iff_of_false (fun hne => hne h) (fun hne => hne rfl)
      · refine iff_of_true ?_ fun heq => hks (List.cons.inj heq).2
        rw [h]
        exact slash_ne_zero
    | cons c k =>
      have hc := (inSegment_iff.mp (hback _ List.mem_cons_self c List.mem_cons_self)).1
      exact iff_of_true hc fun heq => by cases heq

/-- with enough rounds the walk over the segments comes to both ends where they match, to the end of
the process where they reach a "*name" in the middle, and otherwise leaves something -/
def Follows (ks vs : List Bytes) : Prop :=
  ∀ (n : Nat) (m : SMap Bytes Bytes), (joinSegs slash ks).length < n →
    (∃ es, SegMatch ks vs es ∧ matchLoop n (joinSegs slash ks) (joinSegs slash vs) m =
        .ok ([], [], es.foldl (fun m e => m.set e.1 e.2) m)) ∨
      (Reaches ks vs ∧
        matchLoop n (joinSegs slash ks) (joinSegs slash vs) m = .error .routerMatch) ∨
      (∀ es, ¬ SegMatch ks vs es) ∧ ¬ Reaches ks vs ∧
        Stops (matchLoop n (joinSegs slash ks) (joinSegs slash vs) m)

theorem follows_star {name v : Bytes} {ks vs : List Bytes} (hname : SegText name)
    (hk : ∀ k ∈ ks, SegText k) (hv : ∀ w ∈ v :: vs, SegText w) :
    Follows ((42 :: name) :: ks) (v :: vs) := by
  intro n m hn
  have hrest : 0 ∉ v ++ joinSegs slash vs := fun h =>
    zero_notMem_joinSegs hv (List.mem_cons_of_mem _ h)
  have hback := at'_back hk
  cases n with
  | zero => cases hn
  | succ n =>
    rw [joinSegs_cons, joinSegs_cons, List.cons_append]
    by_cases hend : ks = []
    · subst hend
      rw [joinSegs_nil, List.append_nil]
      exact .inl ⟨_, .rest, matchLoop_star hname hrest n m⟩
    rw [matchLoop_star_back hname]
    by_cases hslash : ks = [[]]
    · -- a final `'/'` is left of the pattern, and nothing of the path
      subst hslash
      rw [if_neg (fun h => (hback.mp h).2 rfl), dropWhile_of_notMem hrest]
      refine .inr (.inr ⟨fun es hm => hend hm.of_star.1, fun hr => hr.of_star.2 rfl, ?_⟩)
      exact ⟨_, _, _, matchLoop_end (.inr rfl), fun h => slash_ne_zero h.2⟩
    · rw [if_pos (hback.mpr ⟨hend, hslash⟩)]
      exact .inr (.inl ⟨.star hend hslash, rfl⟩)

theorem follows_param {k v : Bytes} {ks vs : List Bytes} (hparam : IsParam k) (hk : SegText k)
    (hv : SegText v) (h : Follows ks vs) : Follows (k :: ks) (v :: vs) := by
  intro n m hn
  cases n with
  | zero => cases hn
  | succ n =>
    rw [joinSegs_cons, List.length_cons, List.length_append] at hn
    rw [joinSegs_cons, joinSegs_cons, matchLoop_param hparam hk hv]
    rcases h n (m.set k v) (by omega) with ⟨es, hm, heq⟩ | ⟨hr, heq⟩ | ⟨hno, hnot, hstops⟩
    · exact .inl ⟨_, .param hparam hm, heq⟩
    · exact .inr (.inl ⟨.param hparam hr, heq⟩)
    · refine .inr (.inr ⟨fun es hm => ?_, fun hr => ?_, hstops⟩)
      · obtain ⟨w, ws, ds, hv, -, hm⟩ := hm.of_param hparam
        rw [← (List.cons.inj hv).2] at hm
        exact hno ds hm
      · obtain ⟨w, ws, hv, hr⟩ := hr.of_param hparam
        rw [← (List.cons.inj hv).2] at hr
        exact hnot hr

theorem follows_literal {k v : Bytes} {ks vs : List Bytes} (hparam : ¬ IsParam k)
    (hstar : ¬ IsStar k) (hk : SegText k) (hv : SegText v) (h : Follows ks vs) :
    Follows (k :: ks) (v :: vs) := by
  intro n m hn
  cases n with
  | zero => cases hn
  | succ n =>
    rw [joinSegs_cons, List.length_cons, List.length_append] at hn
    rw [joinSegs_cons, joinSegs_cons, matchLoop_literal hparam hstar]
    by_cases hkv : k = v
    · subst hkv
      obtain ⟨i, rfl⟩ : ∃ i, n = k.length + i := ⟨n - k.length, by omega⟩
      rw [matchLoop_same hk]
      rcases h i m (by omega) with ⟨es, hm, heq⟩ | ⟨hr, heq⟩ | ⟨hno, hnot, hstops⟩
      · exact .inl ⟨_, .literal hparam hstar hm, heq⟩
      · exact .inr (.inl ⟨.literal hparam hstar hr, heq⟩)
      · refine .inr (.inr ⟨fun es hm => ?_, fun hr => ?_, hstops⟩)
        · obtain ⟨ws, hv, hm⟩ := hm.of_literal hparam hstar
          rw [← (List.cons.inj hv).2] at hm
          exact hno es hm
        · obtain ⟨ws, hv, hr⟩ := hr.of_literal hparam hstar
          rw [← (List.cons.inj hv).2] at hr
          exact hnot hr
    · refine .inr (.inr ⟨fun es hm => ?_, fun hr => ?_, stops_segment hk hv hkv n ks vs m⟩)
      · obtain ⟨ws, hv, -⟩ := hm.of_literal hparam hstar
        exact hkv (List.cons.inj hv).1.symm
      · obtain ⟨ws, hv, -⟩ := hr.of_literal hparam hstar
        exact hkv (List.cons.inj hv).1.symm

/-- **The walk follows the segments.** -/
theorem matchLoop_segs {ks vs : List Bytes} (hk : ∀ k ∈ ks, SegText k) (hv : ∀ v ∈ vs, SegText v) :
    Follows ks vs := by
  induction ks generalizing vs with
  | nil =>
    intro n m _
    cases vs with
    | nil => exact .inl ⟨[], .done, matchLoop_end (.inl rfl)⟩
    | cons v vs =>
      exact .inr (.inr ⟨fun es h => (by cases h), fun h => (by cases h),
        stops_differ slash_ne_zero.symm⟩)
  | cons k ks ih =>
    obtain ⟨hk1, hks⟩ := List.forall_mem_cons.mp hk
    cases vs with
    | nil =>
      exact fun n m _ => .inr (.inr ⟨fun es h => (by cases h), fun h => (by cases h),
        stops_differ slash_ne_zero⟩)
    | cons v vs =>
      obtain ⟨hv1, hvs⟩ := List.forall_mem_cons.mp hv
      by_cases hstar : IsStar k
      · obtain ⟨name, rfl⟩ := List.head?_eq_some_iff.mp hstar
        exact follows_star (fun c hc => hk1 c (List.mem_cons_of_mem _ hc)) hks hv
      · by_cases hparam : IsParam k
        · exact follows_param hparam hk1 hv1 (ih hks hvs)
        · exact follows_literal hparam hstar hk1 hv1 (ih hks hvs)

/-! ## one entry of the table -/

/-- the pattern matches the part of the path before the first `'?'` and captures `es` -/
def Matches (pattern : Bytes) (req : HttpRequest) (es : List (Bytes × Bytes)) : Prop :=
  (matchPath req).head? = some slash ∧
    SegMatch (segments slash (cstr pattern)) (segments slash (matchPath req)) es

/-- a pattern starts with `'/'` and has a "*name" at most at its end -/
def Routable (pattern : Bytes) : Prop :=
  pattern.head? = some slash ∧ StarLast (segments slash (cstr pattern))

theorem zero_notMem_matchPath (req : HttpRequest) : 0 ∉ matchPath req := by
  intro h
  have h' := List.mem_takeWhile_imp h
  cases h'

theorem segText_segments {s : Bytes} (hs : s.head? = some slash) (h0 : 0 ∉ s) :
    ∀ k ∈ segments slash s, SegText k := by
  intro k hk c hc
  refine inSegment_iff.mpr ⟨?_, ?_⟩
  · rintro rfl
    exact h0 (mem_of_mem_segments hs hk hc)
  · rintro rfl
    exact sep_notMem_segments hk hc

theorem head?_cstr {s : Bytes} (h : s.head? = some slash) : (cstr s).head? = some slash := by
  obtain ⟨t, rfl⟩ := List.head?_eq_some_iff.mp h
  rfl

/-- a string is its first bytes and its segments -/
structure Splits (s lead : Bytes) (ks : List Bytes) : Prop where
  eq : s = lead ++ joinSegs slash ks
  text : ∀ k ∈ lead :: ks, SegText k

theorem Splits.unique {s lead lead' : Bytes} {ks ks' : List Bytes} (h : Splits s lead ks)
    (h' : Splits s lead' ks') : lead = lead' ∧ ks = ks' := by
  have hsep : inSegment slash = false := rfl
  have heq := h.eq.symm.trans h'.eq
  have hlead := congrArg (List.takeWhile inSegment) heq
  have hrest := congrArg (List.dropWhile inSegment) heq
  obtain ⟨hl, hk⟩ := List.forall_mem_cons.mp h.text
  obtain ⟨hl', hk'⟩ := List.forall_mem_cons.mp h'.text
  rw [takeWhile_joinSegs hl hsep, takeWhile_joinSegs hl' hsep] at hlead
  rw [dropWhile_joinSegs hl hsep, dropWhile_joinSegs hl' hsep] at hrest
  refine ⟨hlead, ?_⟩
  have hno : ∀ {ks : List Bytes}, (∀ k ∈ ks, SegText k) → ∀ k ∈ ks, slash ∉ k :=
    fun hk k hmem hs => (inSegment_iff.mp (hk k hmem _ hs)).2 rfl
  cases ks with
  | nil =>
    cases ks' with
    | nil => rfl
    | cons k' ks' => cases hrest
  | cons k ks =>
    cases ks' with
    | nil => cases hrest
    | cons k' ks' =>
      have hsegs := congrArg (segments slash) hrest
      rw [segments_joinSegs (List.cons_ne_nil _ _) (hno hk),
        segments_joinSegs (List.cons_ne_nil _ _) (hno hk')] at hsegs
      exact hsegs

/-- every string without NUL is cut so -/
theorem exists_splits {s : Bytes} (h0 : 0 ∉ s) : ∃ lead ks, Splits s lead ks := by
  have hsplit : s.takeWhile inSegment ++ s.dropWhile inSegment = s := List.takeWhile_append_dropWhile
  have hlead : SegText (s.takeWhile inSegment) := fun c hc => List.mem_takeWhile_imp hc
  cases hrest : s.dropWhile inSegment with
  | nil =>
    rw [hrest] at hsplit
    exact ⟨_, [], hsplit.symm, List.forall_mem_singleton.mpr hlead⟩
  | cons c rest =>
    have hmem : ∀ d ∈ c :: rest, d ∈ s := fun d hd => (List.dropWhile_suffix _).mem (hrest ▸ hd)
    have hc : inSegment c = false := by
      have h := List.head?_dropWhile_not inSegment s
      rw [hrest] at h
      exact h
    have hslash : c = slash := by
      by_contra hne
      have hin := inSegment_iff.mpr ⟨fun h => h0 (h ▸ hmem c List.mem_cons_self), hne⟩
      rw [hc] at hin
      cases hin
    subst hslash
    have h0' : 0 ∉ slash :: rest := fun h => h0 (hmem 0 h)
    refine ⟨_, segments slash (slash :: rest), ?_, List.forall_mem_cons.mpr ⟨hlead, ?_⟩⟩
    · rw [joinSegs_segments rfl, ← hrest, hsplit]
    · exact segText_segments rfl h0'

/-- any pattern matches the path of a request, and `es` is captured -/
def Takes (pattern : Bytes) (req : HttpRequest) (es : List (Bytes × Bytes)) : Prop :=
  ∃ lead ks vs, Splits (cstr pattern) lead ks ∧ Splits (matchPath req) lead vs ∧ SegMatch ks vs es

/-- the path of a request leads to a "*name" in the middle of the pattern -/
def Hits (pattern : Bytes) (req : HttpRequest) : Prop :=
  ∃ lead ks vs, Splits (cstr pattern) lead ks ∧ Splits (matchPath req) lead vs ∧ Reaches ks vs

theorem Takes.unique {pattern : Bytes} {req : HttpRequest} {es es' : List (Bytes × Bytes)}
    (h : Takes pattern req es) (h' : Takes pattern req es') : es = es' := by
  obtain ⟨lead, ks, vs, hk, hv, hm⟩ := h
  obtain ⟨lead', ks', vs', hk', hv', hm'⟩ := h'
  obtain ⟨rfl, rfl⟩ := hk.unique hk'
  obtain ⟨-, rfl⟩ := hv.unique hv'
  exact hm.unique hm'

theorem Hits.not_takes {pattern : Bytes} {req : HttpRequest} (h : Hits pattern req)
    (es : List (Bytes × Bytes)) : ¬ Takes pattern req es := by
  rintro ⟨lead', ks', vs', hk', hv', hm⟩
  obtain ⟨lead, ks, vs, hk, hv, hr⟩ := h
  obtain ⟨rfl, rfl⟩ := hk.unique hk'
  obtain ⟨-, rfl⟩ := hv.unique hv'
  exact hr.not_match es hm

/-- **The walk over a pattern and the path of a request**, for every pattern. -/
theorem walk_pattern (pattern : Bytes) (req : HttpRequest) :
    (∃ es, Takes pattern req es ∧
        matchLoop (pattern.length + 1) (cstr pattern) (matchPath req) .empty =
          .ok ([], [], es.foldl (fun m e => m.set e.1 e.2) .empty)) ∨
      (Hits pattern req ∧ matchLoop (pattern.length + 1) (cstr pattern) (matchPath req) .empty =
          .error .routerMatch) ∨
      (∀ es, ¬ Takes pattern req es) ∧ ¬ Hits pattern req ∧
        Stops (matchLoop (pattern.length + 1) (cstr pattern) (matchPath req) .empty) := by
  obtain ⟨lead, ks, hk⟩ := exists_splits (zero_notMem_cstr pattern)
  obtain ⟨lead', vs, hv⟩ := exists_splits (zero_notMem_matchPath req)
  obtain ⟨hlead, hks⟩ := List.forall_mem_cons.mp hk.text
  obtain ⟨hlead', hvs⟩ := List.forall_mem_cons.mp hv.text
  have hlen : (lead ++ joinSegs slash ks).length ≤ pattern.length := by
    rw [← hk.eq]
    exact (cstr_isPrefix pattern).length_le
  rw [List.length_append] at hlen
  rw [hk.eq, hv.eq]
  by_cases hne : lead = lead'
  · subst hne
    obtain ⟨i, hi⟩ : ∃ i, pattern.length + 1 = lead.length + i :=
      ⟨pattern.length + 1 - lead.length, by omega⟩
    rw [hi, matchLoop_same hlead]
    rcases matchLoop_segs hks hvs i .empty (by omega) with
      ⟨es, hm, heq⟩ | ⟨hr, heq⟩ | ⟨hno, hnot, hstops⟩
    · exact .inl ⟨es, ⟨lead, ks, vs, hk, hv, hm⟩, heq⟩
    · exact .inr (.inl ⟨⟨lead, ks, vs, hk, hv, hr⟩, heq⟩)
    · refine .inr (.inr ⟨?_, ?_, hstops⟩)
      · rintro es ⟨lead1, ks1, vs1, hk1, hv1, hm⟩
        obtain ⟨-, rfl⟩ := hk.unique hk1
        obtain ⟨-, rfl⟩ := hv.unique hv1
        exact hno es hm
      · rintro ⟨lead1, ks1, vs1, hk1, hv1, hr⟩
        obtain ⟨-, rfl⟩ := hk.unique hk1
        obtain ⟨-, rfl⟩ := hv.unique hv1
        exact hnot hr
  · have hdiffer : ∀ {lead1 ks1 vs1}, Splits (cstr pattern) lead1 ks1 →
        ¬ Splits (matchPath req) lead1 vs1 := by
      intro lead1 ks1 vs1 hk1 hv1
      exact hne ((hk.unique hk1).1.trans (hv.unique hv1).1.symm)
    refine .inr (.inr ⟨?_, ?_, stops_segment hlead hlead' hne _ ks vs _⟩)
    · rintro es ⟨lead1, ks1, vs1, hk1, hv1, -⟩
      exact hdiffer hk1 hv1
    · rintro ⟨lead1, ks1, vs1, hk1, hv1, -⟩
      exact hdiffer hk1 hv1

/-- what starts with `'/'` is its segments -/
theorem splits_segments {s : Bytes} (h : s.head? = some slash) (h0 : 0 ∉ s) :
    Splits s [] (segments slash s) := by
  refine ⟨(joinSegs_segments h).symm, List.forall_mem_cons.mpr ⟨?_, segText_segments h h0⟩⟩
  exact fun c hc => absurd hc List.not_mem_nil

theorem takes_iff_matches {pattern : Bytes} (h : pattern.head? = some slash) {req : HttpRequest}
    {es : List (Bytes × Bytes)} : Takes pattern req es ↔ Matches pattern req es := by
  have hpattern := splits_segments (head?_cstr h) (zero_notMem_cstr pattern)
  constructor
  · rintro ⟨lead, ks, vs, hk, hv, hm⟩
    obtain ⟨rfl, rfl⟩ := hpattern.unique hk
    have hpath : (matchPath req).head? = some slash := by
      rw [hv.eq, List.nil_append]
      cases vs with
      | cons v vs => rfl
      | nil =>
        -- a pattern has a segment, and nothing matches it
        have hnil : segments slash (cstr pattern) ≠ [] := List.splitOn_ne_nil _ _
        generalize segments slash (cstr pattern) = ks at hm hnil
        cases hm
        exact absurd rfl hnil
    obtain ⟨-, rfl⟩ := (splits_segments hpath (zero_notMem_matchPath req)).unique hv
    exact ⟨hpath, hm⟩
  · rintro ⟨hpath, hm⟩
    exact ⟨_, _, _, hpattern, splits_segments hpath (zero_notMem_matchPath req), hm⟩

/-- a pattern with its "*name" at the end -/
theorem Routable.not_hits {pattern : Bytes} (h : Routable pattern) (req : HttpRequest) :
    ¬ Hits pattern req := by
  rintro ⟨lead, ks, vs, hk, -, hr⟩
  obtain ⟨-, rfl⟩ := (splits_segments (head?_cstr h.1) (zero_notMem_cstr pattern)).unique hk
  exact h.2.not_reaches hr

/-- the request with the captures `es` in `path_matches` -/
def capture (req : HttpRequest) (es : List (Bytes × Bytes)) : HttpRequest :=
  { req with
    pathMatches := (es.foldl (fun m e => m.set e.1 e.2) SMap.empty).entries.foldl
      (fun m e => m.set e.1 e.2) req.pathMatches }

theorem mem_capture {req : HttpRequest} {es : List (Bytes × Bytes)} {b : Bytes × Bytes}
    (h : b ∈ (capture req es).pathMatches.entries) : b ∈ es ∨ b ∈ req.pathMatches.entries := by
  rcases SMap.mem_foldl_set h with h | h
  · exact .inl ((SMap.mem_foldl_set h).resolve_right List.not_mem_nil)
  · exact .inr h

/-- what one entry of the table makes of a request: nothing, the end of the process, or a handler
with the captures -/
def answer (req : HttpRequest) (e : Bytes × List HttpMethodHandler) :
    Option (Except Fatal (HandleFuc × HttpRequest)) :=
  match matchLoop (e.1.length + 1) (cstr e.1) (matchPath req) .empty with
  | .error f => some (.error f)
  | .ok (kp, vp, mtch) =>
    if at' vp 0 = 0 ∧ at' kp 0 = 0 then
      (e.2.find? fun h => h.method == req.method).map fun h =>
        .ok (h.handler, { req with
          pathMatches := mtch.entries.foldl (fun m e => m.set e.1 e.2) req.pathMatches })
    else none

/-- the walk over the table takes the first answer -/
theorem matchEntries_eq (req : HttpRequest) (es : List (Bytes × List HttpMethodHandler)) :
    matchEntries req es = (es.findSome? (answer req)).getD (.ok (none, req)) := by
  induction es with
  | nil => rfl
  | cons e es ih =>
    obtain ⟨pattern, handlers⟩ := e
    rw [matchEntries, List.findSome?_cons, answer]
    cases matchLoop (pattern.length + 1) (cstr pattern) (matchPath req) .empty with
    | error f => rfl
    | ok w =>
      obtain ⟨kp, vp, mtch⟩ := w
      show (if at' vp 0 = 0 ∧ at' kp 0 = 0 then _ else _) = _
      by_cases hend : at' vp 0 = 0 ∧ at' kp 0 = 0
      · rw [if_pos hend]
        simp only [if_pos hend]
        cases handlers.find? fun h => h.method == req.method with
        | none => exact ih
        | some h => rfl
      · rw [if_neg hend, ih]
        simp only [if_neg hend]

/-- whatever the table, a handler that is selected has been registered -/
theorem match'_registered {r : Router} {req req' : HttpRequest}
    {func : HttpRequest → HttpResponse → HttpResponse}
    (h : r.match' req = .ok (some func, req')) :
    ∃ e ∈ r.entries, ∃ m ∈ e.2, m.handler = some func := by
  change matchEntries req r.entries = _ at h
  rw [matchEntries_eq] at h
  cases hfirst : r.entries.findSome? (answer req) with
  | none =>
    rw [hfirst] at h
    cases h
  | some o =>
    rw [hfirst] at h
    obtain rfl : o = _ := h
    obtain ⟨e, he, hans⟩ := List.exists_of_findSome?_eq_some hfirst
    unfold answer at hans
    split at hans
    · cases hans
    · split at hans
      · obtain ⟨m, hfind, heq⟩ := Option.map_eq_some_iff.mp hans
        exact ⟨e, he, m, List.mem_of_find?_eq_some hfind,
          congrArg Prod.fst (Except.ok.inj heq)⟩
      · cases hans

/-- **What one entry answers**: its handler with the captures where its pattern matches, the end of
the process where the path leads to a "*name" in the middle of it. -/
theorem answer_eq_some {e : Bytes × List HttpMethodHandler} {req : HttpRequest}
    {o : Except Fatal (HandleFuc × HttpRequest)} :
    answer req e = some o ↔
      (∃ es m, Takes e.1 req es ∧ e.2.find? (fun h => h.method == req.method) = some m ∧
        o = .ok (m.handler, capture req es)) ∨
      Hits e.1 req ∧ o = .error .routerMatch := by
  rw [answer]
  rcases walk_pattern e.1 req with ⟨es, hm, heq⟩ | ⟨hr, heq⟩ | ⟨hno, hnot, kp, vp, m, heq, hleft⟩
  · rw [heq]
    show (if at' [] 0 = 0 ∧ at' [] 0 = 0 then _ else _) = _ ↔ _
    rw [if_pos ⟨rfl, rfl⟩, Option.map_eq_some_iff]
    constructor
    · intro ⟨m, hfind, ho⟩
      exact .inl ⟨es, m, hm, hfind, ho.symm⟩
    · rintro (⟨es', m, hm', hfind, ho⟩ | ⟨hr, -⟩)
      · rw [hm'.unique hm] at ho
        exact ⟨m, hfind, ho.symm⟩
      · exact absurd hm (hr.not_takes es)
  · rw [heq]
    constructor
    · intro ho
      exact .inr ⟨hr, (Option.some.inj ho).symm⟩
    · rintro (⟨es, m, hm, -⟩ | ⟨-, ho⟩)
      · exact absurd hm (hr.not_takes es)
      · rw [ho]
  · rw [heq]
    show (if at' vp 0 = 0 ∧ at' kp 0 = 0 then _ else _) = _ ↔ _
    rw [if_neg hleft]
    refine ⟨fun h => (by cases h), ?_⟩
    rintro (⟨es, m, hm, -⟩ | ⟨hr, -⟩)
    · exact absurd hm (hno es)
    · exact absurd hr hnot

theorem answer_iff {e : Bytes × List HttpMethodHandler} (h : Routable e.1) {req : HttpRequest}
    {o : Except Fatal (HandleFuc × HttpRequest)} :
    answer req e = some o ↔ ∃ es m, Matches e.1 req es ∧
      e.2.find? (fun h => h.method == req.method) = some m ∧
      o = .ok (m.handler, capture req es) := by
  rw [answer_eq_some, or_iff_left fun hr => h.not_hits req hr.1]
  simp only [takes_iff_matches h.1]

/-! ## the table -/

/-- the calls of `route` on a new router, each with its pattern, method and handler -/
def routeAll (routes : List (Bytes × HttpMethodHandler)) : Except Fatal Router :=
  routes.foldlM (fun r e => r.route e.1 e.2.method e.2.handler) ⟨[]⟩

/-- the handler is in the table under the path -/
def Registered (entries : List (Bytes × List HttpMethodHandler)) (path : Bytes)
    (h : HttpMethodHandler) : Prop := ∃ hs, (path, hs) ∈ entries ∧ h ∈ hs

theorem registered_cons {e : Bytes × List HttpMethodHandler}
    {es : List (Bytes × List HttpMethodHandler)} {path : Bytes} {h : HttpMethodHandler} :
    Registered (e :: es) path h ↔ e.1 = path ∧ h ∈ e.2 ∨ Registered es path h := by
  constructor
  · rintro ⟨hs, hmem, hh⟩
    rcases List.mem_cons.mp hmem with rfl | hmem
    · exact .inl ⟨rfl, hh⟩
    · exact .inr ⟨hs, hmem, hh⟩
  · rintro (⟨rfl, hh⟩ | ⟨hs, hmem, hh⟩)
    · exact ⟨e.2, List.mem_cons_self, hh⟩
    · exact ⟨hs, List.mem_cons_of_mem _ hmem, hh⟩

theorem handlersOf_cons (path : Bytes) (e : Bytes × List HttpMethodHandler)
    (es : List (Bytes × List HttpMethodHandler)) :
    handlersOf path (e :: es) = if e.1 = path then e.2 else handlersOf path es := by
  by_cases h : e.1 = path
  · rw [if_pos h, handlersOf, List.find?_cons_of_pos (by exact beq_iff_eq.mpr h)]
  · rw [if_neg h, handlersOf, List.find?_cons_of_neg (by exact fun hb => h (beq_iff_eq.mp hb))]
    rfl

theorem registered_handlersOf {path : Bytes} {es : List (Bytes × List HttpMethodHandler)}
    {h : HttpMethodHandler} (hh : h ∈ handlersOf path es) : Registered es path h := by
  induction es with
  | nil => cases hh
  | cons e es ih =>
    rw [handlersOf_cons] at hh
    split at hh
    · rename_i heq
      exact registered_cons.mpr (.inl ⟨heq, hh⟩)
    · exact registered_cons.mpr (.inr (ih hh))

/-- a call of `route` adds one handler and keeps the others -/
theorem registered_setEntry {path path' : Bytes} {es : List (Bytes × List HttpMethodHandler)}
    {h h' : HttpMethodHandler} :
    Registered (setEntry path (handlersOf path es ++ [h]) es) path' h' ↔
      Registered es path' h' ∨ path' = path ∧ h' = h := by
  induction es with
  | nil =>
    show Registered [(path, [h])] path' h' ↔ _
    rw [registered_cons, List.mem_singleton]
    constructor
    · rintro (⟨hp, hh⟩ | ⟨_, hmem, _⟩)
      · exact .inr ⟨hp.symm, hh⟩
      · cases hmem
    · rintro (⟨_, hmem, _⟩ | ⟨hp, hh⟩)
      · cases hmem
      · exact .inl ⟨hp.symm, hh⟩
  | cons e es ih =>
    rw [handlersOf_cons, setEntry]
    by_cases he : e.1 = path
    · rw [if_pos he, if_pos he, registered_cons, registered_cons, List.mem_append,
        List.mem_singleton, he]
      constructor
      · rintro (⟨hp, hh | hh⟩ | hr)
        · exact .inl (.inl ⟨hp, hh⟩)
        · exact .inr ⟨hp.symm, hh⟩
        · exact .inl (.inr hr)
      · rintro ((⟨hp, hh⟩ | hr) | ⟨hp, hh⟩)
        · exact .inl ⟨hp, .inl hh⟩
        · exact .inr hr
        · exact .inl ⟨hp.symm, .inr hh⟩
    · rw [if_neg he, if_neg he, registered_cons, registered_cons, ih, or_assoc]

theorem mem_setEntry {path : Bytes} {hs : List HttpMethodHandler} {e : Bytes × List HttpMethodHandler}
    {es : List (Bytes × List HttpMethodHandler)} (h : e ∈ setEntry path hs es) :
    e = (path, hs) ∨ e ∈ es := by
  induction es with
  | nil => exact .inl (List.mem_singleton.mp h)
  | cons e' es ih =>
    rw [setEntry] at h
    split at h
    · exact (List.mem_cons.mp h).imp_right (List.mem_cons_of_mem _)
    · rcases List.mem_cons.mp h with rfl | h
      · exact .inr List.mem_cons_self
      · exact (ih h).imp_right (List.mem_cons_of_mem _)

/-- the table holds the handlers of the calls `routes`, and no path without a handler -/
structure Tabled (entries : List (Bytes × List HttpMethodHandler))
    (routes : List (Bytes × HttpMethodHandler)) : Prop where
  registered : ∀ path h, Registered entries path h ↔ (path, h) ∈ routes
  handled : ∀ e ∈ entries, e.2 ≠ []

theorem Tabled.perm {es es' : List (Bytes × List HttpMethodHandler)}
    {routes : List (Bytes × HttpMethodHandler)} (h : Tabled es routes) (hp : es'.Perm es) :
    Tabled es' routes := by
  refine ⟨?_, fun e he => h.handled e (hp.mem_iff.mp he)⟩
  intro path m
  rw [← h.registered]
  exact exists_congr fun hs => and_congr_left fun _ => hp.mem_iff

theorem Tabled.routable {es : List (Bytes × List HttpMethodHandler)}
    {routes : List (Bytes × HttpMethodHandler)} (h : Tabled es routes)
    (hp : ∀ e ∈ routes, Routable e.1) : ∀ e ∈ es, Routable e.1 := by
  intro e he
  obtain ⟨m, hm⟩ := List.exists_mem_of_ne_nil _ (h.handled e he)
  exact hp _ ((h.registered e.1 m).mp ⟨e.2, he, hm⟩)

/-- one handler more -/
theorem Tabled.setEntry {es : List (Bytes × List HttpMethodHandler)}
    {done : List (Bytes × HttpMethodHandler)} (h : Tabled es done) (e : Bytes × HttpMethodHandler) :
    Tabled (setEntry e.1 (handlersOf e.1 es ++ [e.2]) es) (done ++ [e]) := by
  refine ⟨fun path m => ?_, fun d hd => ?_⟩
  · rw [registered_setEntry, h.registered, List.mem_append, List.mem_singleton, Prod.ext_iff]
  · rcases mem_setEntry hd with rfl | hd
    · exact fun hnil => (List.append_ne_nil_of_right_ne_nil _ (List.cons_ne_nil _ _)) hnil
    · exact h.handled d hd

/-- a call of `route` with a new pair of pattern and method -/
theorem Tabled.route {r : Router} {done : List (Bytes × HttpMethodHandler)}
    (h : Tabled r.entries done) {e : Bytes × HttpMethodHandler}
    (hnew : ∀ d ∈ done, ¬ (d.1 = e.1 ∧ d.2.method = e.2.method)) :
    ∃ r', r.route e.1 e.2.method e.2.handler = .ok r' ∧ Tabled r'.entries (done ++ [e]) := by
  have hany : (handlersOf e.1 r.entries).any (fun h => h.method == e.2.method) = false := by
    rw [List.any_eq_false]
    intro m hm heq
    exact hnew _ ((h.registered e.1 m).mp (registered_handlersOf hm)) ⟨rfl, beq_iff_eq.mp heq⟩
  refine ⟨⟨Router.setEntry e.1 (handlersOf e.1 r.entries ++ [e.2]) r.entries⟩, ?_, h.setEntry e⟩
  rw [Router.route]
  simp only [hany]
  rfl

/-- a call of `route` that returns -/
theorem Tabled.of_route {r r' : Router} {done : List (Bytes × HttpMethodHandler)}
    (h : Tabled r.entries done) {e : Bytes × HttpMethodHandler}
    (hr : r.route e.1 e.2.method e.2.handler = .ok r') : Tabled r'.entries (done ++ [e]) := by
  unfold Router.route at hr
  dsimp only at hr
  split at hr
  · cases hr
  · rw [← Except.ok.inj hr]
    exact h.setEntry e

/-- calls of `route` with patterns and methods that are all different fill the table -/
theorem foldlM_route {routes done : List (Bytes × HttpMethodHandler)} {r : Router}
    (h : Tabled r.entries done)
    (hd : ((done ++ routes).map fun e => (e.1, e.2.method)).Nodup) :
    ∃ r', routes.foldlM (fun (r : Router) e => r.route e.1 e.2.method e.2.handler) r = .ok r' ∧
      Tabled r'.entries (done ++ routes) := by
  induction routes generalizing done r with
  | nil =>
    rw [List.append_nil]
    exact ⟨r, rfl, h⟩
  | cons e routes ih =>
    have hnew : ∀ d ∈ done, ¬ (d.1 = e.1 ∧ d.2.method = e.2.method) := by
      intro d hdone hsame
      rw [List.map_append, List.nodup_append] at hd
      exact hd.2.2 _ (List.mem_map.mpr ⟨d, hdone, rfl⟩) _
        (List.mem_map.mpr ⟨e, List.mem_cons_self, rfl⟩) (Prod.ext hsame.1 hsame.2)
    obtain ⟨r', hroute, htable⟩ := h.route hnew
    rw [List.append_cons] at hd ⊢
    obtain ⟨r'', hall, htable⟩ := ih htable hd
    refine ⟨r'', ?_, htable⟩
    rw [List.foldlM_cons, hroute]
    exact hall

theorem tabled_nil : Tabled (⟨[]⟩ : Router).entries [] :=
  ⟨fun _ _ => ⟨fun ⟨_, h, _⟩ => (by cases h), fun h => (by cases h)⟩, fun _ h => (by cases h)⟩

theorem routeAll_ok {routes : List (Bytes × HttpMethodHandler)}
    (hd : (routes.map fun e => (e.1, e.2.method)).Nodup) :
    ∃ r, routeAll routes = .ok r ∧ Tabled r.entries routes := foldlM_route tabled_nil hd

/-! ## calls of `route` that all return -/

theorem keys_setEntry (path : Bytes) (hs : List HttpMethodHandler)
    (es : List (Bytes × List HttpMethodHandler)) :
    (setEntry path hs es).map Prod.fst =
      if path ∈ es.map Prod.fst then es.map Prod.fst else es.map Prod.fst ++ [path] := by
  induction es with
  | nil => rfl
  | cons e es ih =>
    rw [setEntry]
    by_cases he : e.1 = path
    · rw [if_pos he, List.map_cons, List.map_cons, he, if_pos List.mem_cons_self]
    · rw [if_neg he, List.map_cons, List.map_cons, ih]
      by_cases hmem : path ∈ es.map Prod.fst
      · rw [if_pos hmem, if_pos (List.mem_cons_of_mem _ hmem)]
      · have hnot : path ∉ e.1 :: es.map Prod.fst := by
          intro h
          rcases List.mem_cons.mp h with h | h
          · exact he h.symm
          · exact hmem h
        rw [if_neg hmem, if_neg hnot, List.cons_append]

/-- in a table without a second entry for a path the handlers of a path are all found -/
theorem mem_handlersOf {path : Bytes} {es : List (Bytes × List HttpMethodHandler)}
    {h : HttpMethodHandler} (hd : (es.map Prod.fst).Nodup) (hr : Registered es path h) :
    h ∈ handlersOf path es := by
  induction es with
  | nil =>
    obtain ⟨hs, hmem, -⟩ := hr
    cases hmem
  | cons e es ih =>
    obtain ⟨hnot, hd⟩ := List.nodup_cons.mp hd
    rw [handlersOf_cons]
    rcases registered_cons.mp hr with ⟨he, hh⟩ | hr
    · rw [if_pos he]
      exact hh
    · by_cases he : e.1 = path
      · obtain ⟨hs, hmem, -⟩ := hr
        exact absurd (List.mem_map.mpr ⟨_, hmem, he.symm⟩) hnot
      · rw [if_neg he]
        exact ih hd hr

/-- what calls of `route` that have returned leave -/
structure Filled (r : Router) (done : List (Bytes × HttpMethodHandler)) : Prop where
  tabled : Tabled r.entries done
  keys : (r.entries.map Prod.fst).Nodup
  routes : (done.map fun e => (e.1, e.2.method)).Nodup

theorem Filled.route {r r' : Router} {done : List (Bytes × HttpMethodHandler)} (h : Filled r done)
    {e : Bytes × HttpMethodHandler} (hr : r.route e.1 e.2.method e.2.handler = .ok r') :
    Filled r' (done ++ [e]) := by
  refine ⟨h.tabled.of_route hr, ?_, ?_⟩
  · unfold Router.route at hr
    dsimp only at hr
    split at hr
    · cases hr
    · rw [← Except.ok.inj hr]
      show ((Router.setEntry e.1 _ r.entries).map Prod.fst).Nodup
      rw [keys_setEntry]
      split
      · exact h.keys
      · rename_i hnot
        refine List.nodup_append.mpr ⟨h.keys, List.nodup_singleton _, fun a ha b hb hab => ?_⟩
        rw [List.mem_singleton.mp hb] at hab
        exact hnot (hab ▸ ha)
  · rw [List.map_append, List.map_cons, List.map_nil]
    refine List.nodup_append.mpr ⟨h.routes, List.nodup_singleton _, fun a ha b hb hab => ?_⟩
    rw [List.mem_singleton.mp hb] at hab
    obtain ⟨d, hd, rfl⟩ := List.mem_map.mp ha
    obtain ⟨hpath, hmethod⟩ := Prod.mk.inj hab
    have hmem : d.2 ∈ handlersOf e.1 r.entries :=
      mem_handlersOf h.keys (hpath ▸ (h.tabled.registered d.1 d.2).mpr hd)
    have hany : (handlersOf e.1 r.entries).any (fun h => h.method == e.2.method) = true :=
      List.any_eq_true.mpr ⟨d.2, hmem, beq_iff_eq.mpr hmethod⟩
    rw [Router.route] at hr
    simp only [hany, if_true] at hr
    cases hr

theorem Filled.foldlM {routes done : List (Bytes × HttpMethodHandler)} {r r' : Router}
    (h : Filled r done)
    (hr : routes.foldlM (fun (r : Router) e => r.route e.1 e.2.method e.2.handler) r = .ok r') :
    Filled r' (done ++ routes) := by
  induction routes generalizing done r with
  | nil =>
    rw [List.append_nil, ← Except.ok.inj hr]
    exact h
  | cons e routes ih =>
    rw [List.foldlM_cons] at hr
    obtain ⟨r1, h1, hrest⟩ := bind_ok hr
    rw [List.append_cons]
    exact ih (h.route h1) hrest

theorem filled_of_routeAll {routes : List (Bytes × HttpMethodHandler)} {r : Router}
    (h : routeAll routes = .ok r) : Filled r routes := by
  have hnew : Filled ⟨[]⟩ [] := ⟨tabled_nil, List.nodup_nil, List.nodup_nil⟩
  exact hnew.foldlM h

theorem find_method {hs : List HttpMethodHandler} {req : HttpRequest} {m : HttpMethodHandler}
    (h : hs.find? (fun h => h.method == req.method) = some m) : m ∈ hs ∧ m.method = req.method :=
  ⟨List.mem_of_find?_eq_some h, by simpa using List.find?_some h⟩

theorem exists_find_method {hs : List HttpMethodHandler} {req : HttpRequest}
    {m : HttpMethodHandler} (hm : m ∈ hs) (h : m.method = req.method) :
    ∃ m', hs.find? (fun h => h.method == req.method) = some m' := by
  apply Option.isSome_iff_exists.mp
  rw [List.find?_isSome]
  exact ⟨m, hm, beq_iff_eq.mpr h⟩

/-- a route of the table answers a request of its method with its own handler -/
theorem find_route {entries : List (Bytes × List HttpMethodHandler)}
    {routes : List (Bytes × HttpMethodHandler)} (ht : Tabled entries routes)
    (hd : (routes.map fun e => (e.1, e.2.method)).Nodup) {req : HttpRequest}
    {e : Bytes × HttpMethodHandler} (he : e ∈ routes) (hm : e.2.method = req.method) :
    ∃ hs, (e.1, hs) ∈ entries ∧ hs.find? (fun h => h.method == req.method) = some e.2 := by
  obtain ⟨hs, hmem, hin⟩ := (ht.registered e.1 e.2).mpr he
  obtain ⟨m, hfind⟩ := exists_find_method hin hm
  obtain ⟨hin', hm'⟩ := find_method hfind
  have he' : (e.1, m) ∈ routes := (ht.registered e.1 m).mp ⟨hs, hmem, hin'⟩
  have hsame : (e.1, m) = e :=
    List.inj_on_of_nodup_map hd he' he (Prod.ext rfl (hm'.trans hm.symm))
  rw [← hsame]
  exact ⟨hs, hmem, hfind⟩

/-- **Routing selects exactly the matching routes**, whatever the order of the table. -/
theorem match_exact {routes : List (Bytes × HttpMethodHandler)}
    (hd : (routes.map fun e => (e.1, e.2.method)).Nodup)
    (hh : ∀ e ∈ routes, e.2.handler.isSome) (hp : ∀ e ∈ routes, Routable e.1) :
    ∃ r, routeAll routes = .ok r ∧ ∀ r' : Router, r'.entries.Perm r.entries → ∀ req,
      ∃ func req', r'.match' req = .ok (func, req') ∧
        (func.isSome ↔ ∃ e ∈ routes, e.2.method = req.method ∧ ∃ es, Matches e.1 req es) ∧
        (func = none → req' = req) ∧
        (func.isSome → ∃ e ∈ routes, e.2.handler = func ∧ e.2.method = req.method ∧
          ∃ es, Matches e.1 req es ∧ req' = capture req es ∧
            ∀ b ∈ req'.pathMatches.entries, b ∈ es ∨ b ∈ req.pathMatches.entries) := by
  obtain ⟨r, hr, htable⟩ := routeAll_ok hd
  refine ⟨r, hr, ?_⟩
  intro r' hperm req
  have ht := htable.perm hperm
  have hrout := ht.routable hp
  show ∃ func req', matchEntries req r'.entries = .ok (func, req') ∧ _
  rw [matchEntries_eq]
  cases hfirst : r'.entries.findSome? (answer req) with
  | none =>
    refine ⟨none, req, rfl, ⟨fun h => (by cases h), ?_⟩, fun _ => rfl, fun h => (by cases h)⟩
    rintro ⟨e, he, hm, es, hmatch⟩
    obtain ⟨hs, hmem, hfind⟩ := find_route ht hd he hm
    have hans := (answer_iff (hrout _ hmem)).mpr ⟨es, _, hmatch, hfind, rfl⟩
    rw [List.findSome?_eq_none_iff.mp hfirst _ hmem] at hans
    cases hans
  | some o =>
    obtain ⟨e, he, hans⟩ := List.exists_of_findSome?_eq_some hfirst
    obtain ⟨es, m, hmatch, hfind, rfl⟩ := (answer_iff (hrout e he)).mp hans
    obtain ⟨hin, hm⟩ := find_method hfind
    have hroute := (ht.registered e.1 m).mp ⟨e.2, he, hin⟩
    have hsome := hh _ hroute
    refine ⟨m.handler, capture req es, rfl, ⟨fun _ => ⟨_, hroute, hm, es, hmatch⟩, fun _ => hsome⟩, ?_,
      fun _ => ⟨_, hroute, rfl, hm, es, hmatch, rfl, fun _ => mem_capture⟩⟩
    intro hnone
    rw [show m.handler = none from hnone] at hsome
    cases hsome

/-- a handler that leaves the response alone -/
def idle : HandleFuc := some fun _ resp => resp

/-- "/a/:x" and "/a/b" with the method GET -/
def overlapping : List (Bytes × HttpMethodHandler) :=
  [(asc "/a/:x", ⟨.get, idle⟩), (asc "/a/b", ⟨.get, idle⟩)]

/-- GET /a/b -/
def getAB : HttpRequest := { HttpRequest.new .get with path := asc "/a/b" }

theorem segments_ab : segments slash (asc "/a/b") = [asc "a", asc "b"] := by
  rw [show asc "/a/b" = joinSegs slash [asc "a", asc "b"] from rfl]
  exact segments_joinSegs (List.cons_ne_nil _ _) (by decide)

theorem segments_aX : segments slash (asc "/a/:x") = [asc "a", asc ":x"] := by
  rw [show asc "/a/:x" = joinSegs slash [asc "a", asc ":x"] from rfl]
  exact segments_joinSegs (List.cons_ne_nil _ _) (by decide)

theorem routable_overlapping : ∀ e ∈ overlapping, Routable e.1 := by
  intro e he
  have hcstr : ∀ s : Bytes, 0 ∉ s → segments slash (cstr s) = segments slash s :=
    fun s h => by rw [cstr_of_notMem h]
  have hlast : ∀ k ∈ [asc "a"], ¬ IsStar k := by
    intro k hk
    rw [List.mem_singleton.mp hk]
    decide
  rcases List.mem_pair.mp he with rfl | rfl
  · refine ⟨rfl, ?_⟩
    rw [hcstr _ (by decide), segments_aX]
    exact hlast
  · refine ⟨rfl, ?_⟩
    rw [hcstr _ (by decide), segments_ab]
    exact hlast

theorem matches_aX : Matches (asc "/a/:x") getAB [(asc ":x", asc "b")] := by
  refine ⟨rfl, ?_⟩
  rw [cstr_of_notMem (by decide), segments_aX, show matchPath getAB = asc "/a/b" from rfl,
    segments_ab]
  exact .literal (by decide) (by decide) (.param (.inl rfl) .done)

/-- GET /a/b finds a handler -/
theorem match_exact_overlapping : ∃ r func req', routeAll overlapping = .ok r ∧
    r.match' getAB = .ok (func, req') ∧ func.isSome := by
  have hd : (overlapping.map fun e => (e.1, e.2.method)).Nodup := by decide
  obtain ⟨r, hr, hall⟩ := match_exact hd (by decide) routable_overlapping
  obtain ⟨func, req', heq, hsome, -, -⟩ := hall r (.refl _) getAB
  exact ⟨r, func, req', hr, heq, hsome.mpr ⟨_, List.mem_cons_self, rfl, _, matches_aX⟩⟩

/-! ## the order of the table -/

/-- the routes of the request's method that match its path have one handler and capture the same,
and there are none where the path leads to a "*name" in the middle of some pattern -/
structure Unanimous (routes : List (Bytes × HttpMethodHandler)) (req : HttpRequest) : Prop where
  alike : ∀ e ∈ routes, ∀ e' ∈ routes, e.2.method = req.method → e'.2.method = req.method →
    ∀ es es', Takes e.1 req es → Takes e'.1 req es' →
      e.2.handler = e'.2.handler ∧ capture req es = capture req es'
  alone : (∃ e ∈ routes, Hits e.1 req) →
    ∀ e ∈ routes, e.2.method = req.method → ∀ es, ¬ Takes e.1 req es

/-- all entries of a table answer alike exactly when its routes are unanimous -/
theorem agree_routes {entries : List (Bytes × List HttpMethodHandler)}
    {routes : List (Bytes × HttpMethodHandler)} (ht : Tabled entries routes)
    (hd : (routes.map fun e => (e.1, e.2.method)).Nodup) (req : HttpRequest) :
    Search.Agree (answer req) entries ↔ Unanimous routes req := by
  constructor
  · intro h
    have htakes : ∀ e ∈ routes, e.2.method = req.method → ∀ es, Takes e.1 req es →
        ∃ d ∈ entries, answer req d = some (.ok (e.2.handler, capture req es)) := by
      intro e he hm es hes
      obtain ⟨hs, hmem, hfind⟩ := find_route ht hd he hm
      exact ⟨_, hmem, answer_eq_some.mpr (.inl ⟨es, _, hes, hfind, rfl⟩)⟩
    constructor
    · intro e he e' he' hm hm' es es' hes hes'
      obtain ⟨d, hdm, hans⟩ := htakes e he hm es hes
      obtain ⟨d', hdm', hans'⟩ := htakes e' he' hm' es' hes'
      exact Prod.ext_iff.mp (Except.ok.inj (h d hdm d' hdm' _ _ hans hans'))
    · rintro ⟨e', he', hr⟩ e he hm es hes
      obtain ⟨d, hdm, hans⟩ := htakes e he hm es hes
      obtain ⟨hs, hmem, -⟩ := (ht.registered e'.1 e'.2).mpr he'
      have hans' : answer req (e'.1, hs) = some (.error .routerMatch) :=
        answer_eq_some.mpr (.inr ⟨hr, rfl⟩)
      cases h _ hdm _ hmem _ _ hans hans'
  · intro h d hdm d' hdm' o o' ho ho'
    have hroute : ∀ d ∈ entries, ∀ es m, Takes d.1 req es →
        d.2.find? (fun h => h.method == req.method) = some m →
        (d.1, m) ∈ routes ∧ m.method = req.method := by
      intro d hdm es m hes hfind
      obtain ⟨hin, hm⟩ := find_method hfind
      exact ⟨(ht.registered d.1 m).mp ⟨d.2, hdm, hin⟩, hm⟩
    have hhits : ∀ d ∈ entries, Hits d.1 req → ∃ e ∈ routes, Hits e.1 req := by
      intro d hdm hr
      obtain ⟨m, hm⟩ := List.exists_mem_of_ne_nil _ (ht.handled d hdm)
      exact ⟨_, (ht.registered d.1 m).mp ⟨d.2, hdm, hm⟩, hr⟩
    rcases answer_eq_some.mp ho with ⟨es, m, hes, hfind, rfl⟩ | ⟨hr, rfl⟩
    · obtain ⟨he, hm⟩ := hroute d hdm es m hes hfind
      rcases answer_eq_some.mp ho' with ⟨es', m', hes', hfind', rfl⟩ | ⟨hr', rfl⟩
      · obtain ⟨he', hm'⟩ := hroute d' hdm' es' m' hes' hfind'
        obtain ⟨hhandler, hcapture⟩ := h.alike _ he _ he' hm hm' es es' hes hes'
        exact congrArg Except.ok (Prod.ext hhandler hcapture)
      · exact absurd hes (h.alone (hhits d' hdm' hr') _ he hm es)
    · rcases answer_eq_some.mp ho' with ⟨es', m', hes', hfind', rfl⟩ | ⟨hr', rfl⟩
      · obtain ⟨he', hm'⟩ := hroute d' hdm' es' m' hes' hfind'
        exact absurd hes' (h.alone (hhits d hdm hr) _ he' hm' es')
      · rfl

/-- **All orders of the table answer a request alike exactly when the routes are unanimous.** -/
theorem match_order_iff {routes : List (Bytes × HttpMethodHandler)} {r : Router}
    (hr : routeAll routes = .ok r) (req : HttpRequest) :
    (∀ r₁ r₂ : Router, r₁.entries.Perm r.entries → r₂.entries.Perm r.entries →
        r₁.match' req = r₂.match' req) ↔
      Unanimous routes req := by
  have hfilled := filled_of_routeAll hr
  rw [← agree_routes hfilled.tabled hfilled.routes, ← Search.getD_findSome?_order_iff (.ok (none, req))]
  constructor
  · intro h l₁ l₂ h₁ h₂
    rw [← matchEntries_eq, ← matchEntries_eq]
    exact h ⟨l₁⟩ ⟨l₂⟩ h₁ h₂
  · intro h r₁ r₂ h₁ h₂
    show matchEntries req r₁.entries = matchEntries req r₂.entries
    rw [matchEntries_eq, matchEntries_eq]
    exact h r₁.entries r₂.entries h₁ h₂

theorem matches_ab : Matches (asc "/a/b") getAB [] := by
  refine ⟨rfl, ?_⟩
  rw [cstr_of_notMem (by decide), segments_ab, show matchPath getAB = asc "/a/b" from rfl,
    segments_ab]
  exact .literal (by decide) (by decide) (.literal (by decide) (by decide) .done)

/-- GET /a/b is answered in two ways by the two routes, and in one by the first of them alone -/
theorem match_order_iff_overlapping : ∃ r r', routeAll overlapping = .ok r ∧
    routeAll [(asc "/a/:x", ⟨.get, idle⟩)] = .ok r' ∧
    (¬ ∀ r₁ r₂ : Router, r₁.entries.Perm r.entries → r₂.entries.Perm r.entries →
      r₁.match' getAB = r₂.match' getAB) ∧
    ∀ r₁ r₂ : Router, r₁.entries.Perm r'.entries → r₂.entries.Perm r'.entries →
      r₁.match' getAB = r₂.match' getAB := by
  obtain ⟨r, hr⟩ : ∃ r, routeAll overlapping = .ok r := ⟨_, rfl⟩
  obtain ⟨r', hr'⟩ : ∃ r, routeAll [(asc "/a/:x", ⟨.get, idle⟩)] = .ok r := ⟨_, rfl⟩
  refine ⟨r, r', hr, hr', fun hall => ?_, (match_order_iff hr' getAB).mpr ⟨?_, ?_⟩⟩
  · have hun := (match_order_iff hr getAB).mp hall
    have h := (hun.alike _ List.mem_cons_self _ (List.mem_cons_of_mem _ List.mem_cons_self) rfl rfl
      _ _ ((takes_iff_matches rfl).mpr matches_aX) ((takes_iff_matches rfl).mpr matches_ab)).2
    exact absurd (congrArg (fun q : HttpRequest => q.pathMatches.entries) h) (by decide)
  · intro e he e' he' _ _ es es' hes hes'
    obtain rfl := List.mem_singleton.mp he
    obtain rfl := List.mem_singleton.mp he'
    exact ⟨rfl, congrArg (capture getAB) (hes.unique hes')⟩
  · rintro ⟨e, he, hhits⟩
    obtain rfl := List.mem_singleton.mp he
    exact absurd hhits ((routable_overlapping _ List.mem_cons_self).not_hits getAB)

/-- GET /a/b captures `":x"` in one order and nothing in the other -/
theorem match_order_overlapping : ¬ ∀ r₁ r₂ : Router, r₁.entries.Perm r₂.entries →
    ∀ req, r₁.match' req = r₂.match' req := by
  intro hall
  have h := hall ⟨[(asc "/a/:x", [⟨.get, idle⟩]), (asc "/a/b", [⟨.get, idle⟩])]⟩
    ⟨[(asc "/a/b", [⟨.get, idle⟩]), (asc "/a/:x", [⟨.get, idle⟩])]⟩ (.swap _ _ _) getAB
  have hcaptured := congrArg (fun x : Except Fatal (HandleFuc × HttpRequest) =>
    x.toOption.map fun y => y.2.pathMatches.entries) h
  exact absurd hcaptured (by decide)

end Router

end Feipu
