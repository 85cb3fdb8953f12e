import Feipu.Lib.CStr

/-!
# C strings in memory that ends

The functions of `CStr` once more, now reading byte by byte: the memory from the pointer on is the
list, and `none` is a read past its end.  Where the NUL of the string lies in the memory, each gives
what it gives in `CStr` (`scan_eq`, `strpbrk_eq`, `strncaseeq_eq`, `atol_eq`).

`scanInt` is a loop that counts in an `int`; `none` is also its overflow (`scanInt_eq`), and `incr`
is one more.
-/

namespace CStr

/-! ## a string and its NUL -/

theorem eq_cstr_append {t : Bytes} (h : (0 : UInt8) ∈ t) : ∃ r, t = cstr t ++ 0 :: r := by
  induction t with
  | nil => exact absurd h List.not_mem_nil
  | cons c t ih =>
    by_cases hc : c = 0
    · subst hc
      exact ⟨t, rfl⟩
    · obtain ⟨r, hr⟩ := ih ((List.mem_cons.mp h).resolve_left fun e => hc e.symm)
      have hcons : cstr (c :: t) = c :: cstr t := by simp [cstr, hc]
      refine ⟨r, ?_⟩
      rw [hcons, List.cons_append, ← hr]

/-- a pointer moved inside its string still has the NUL before it -/
theorem zero_mem_drop {t : Bytes} (h : (0 : UInt8) ∈ t) {k : Nat} (hk : k ≤ (cstr t).length) :
    (0 : UInt8) ∈ t.drop k := by
  obtain ⟨r, hr⟩ := eq_cstr_append h
  rw [hr, List.drop_append_of_le_length hk]
  exact List.mem_append_right _ List.mem_cons_self

theorem length_cstr_lt {t : Bytes} (h : (0 : UInt8) ∈ t) : (cstr t).length < t.length := by
  obtain ⟨r, hr⟩ := eq_cstr_append h
  have hlen := congrArg List.length hr
  rw [List.length_append, List.length_cons] at hlen
  omega

/-- a byte of the string, or its NUL -/
theorem getElem_of_le_cstr {t : Bytes} (h : (0 : UInt8) ∈ t) {k : Nat} (hk : k ≤ (cstr t).length) :
    t[k]? = some (at' t k) := by
  have hlt := length_cstr_lt h
  rw [at_of_lt (by omega)]
  exact List.getElem?_eq_getElem (by omega)

theorem at_zero_iff_length {t : Bytes} {k : Nat} (hk : k ≤ (cstr t).length) :
    at' t k = 0 ↔ (cstr t).length ≤ k := by
  have hz := at_zero_iff (t.drop k)
  rw [at_drop, cstr_drop hk, List.drop_eq_nil_iff] at hz
  exact hz

theorem takeWhile_le_cstr {p : UInt8 → Bool} (hp : p 0 = false) (t : Bytes) :
    (t.takeWhile p).length ≤ (cstr t).length := by
  rw [takeWhile_cstr hp]
  exact List.IsPrefix.length_le (List.takeWhile_prefix p)

/-- a scan from inside the string ends inside it -/
theorem add_takeWhile_le_cstr {p : UInt8 → Bool} (hp : p 0 = false) {t : Bytes} {k : Nat}
    (hk : k ≤ (cstr t).length) : k + ((t.drop k).takeWhile p).length ≤ (cstr t).length := by
  have h := takeWhile_le_cstr hp (t.drop k)
  rw [cstr_drop hk, List.length_drop] at h
  omega

theorem takeWhile_eq_take (p : UInt8 → Bool) (t : Bytes) :
    t.takeWhile p = t.take (t.takeWhile p).length :=
  List.prefix_iff_eq_take.mp (List.takeWhile_prefix p)

/-- a prefix all of whose bytes satisfy `p` -/
theorem le_takeWhile {p : UInt8 → Bool} {t : Bytes} {k : Nat} (hk : k ≤ t.length)
    (h : ∀ c ∈ t.take k, p c = true) : k ≤ (t.takeWhile p).length := by
  rw [← List.take_append_drop k t, List.takeWhile_append_of_pos h, List.length_append,
    List.length_take, Nat.min_eq_left hk]
  exact Nat.le_add_right _ _

/-- one byte more of it -/
theorem succ_le_takeWhile {p : UInt8 → Bool} {t : Bytes} {k : Nat} (hlen : k < t.length)
    (hk : k ≤ (t.takeWhile p).length) (hp : p (at' t k) = true) :
    k + 1 ≤ (t.takeWhile p).length := by
  refine le_takeWhile hlen ?_
  rw [List.take_add_one, List.getElem?_eq_getElem hlen, Option.toList_some]
  intro c hc
  rcases List.mem_append.mp hc with hc | hc
  · rw [← Nat.min_eq_left hk, ← List.take_take, ← takeWhile_eq_take] at hc
    exact List.mem_takeWhile_imp (List.mem_of_mem_take hc)
  · obtain rfl := List.mem_singleton.mp hc
    rw [at_of_lt hlen] at hp
    exact hp

/-! ## scans -/

namespace Bounded

/-- how many bytes from here on satisfy `p` -/
def scan (p : UInt8 → Bool) : Bytes → Option Nat
  | [] => none
  | c :: t => if p c then (scan p t).map (· + 1) else some 0

theorem scan_eq {p : UInt8 → Bool} (hp : p 0 = false) {t : Bytes} (h : (0 : UInt8) ∈ t) :
    scan p t = some (t.takeWhile p).length := by
  induction t with
  | nil => exact absurd h List.not_mem_nil
  | cons c t ih =>
    rw [scan, List.takeWhile_cons]
    by_cases hc : p c = true
    · have hne : (0 : UInt8) ≠ c := by
        intro e
        rw [← e, hp] at hc
        cases hc
      rw [if_pos hc, if_pos hc, ih ((List.mem_cons.mp h).resolve_left hne)]
      rfl
    · rw [if_neg hc, if_neg hc]
      rfl

/-- `while (p (*(text + index))) index++` with an `int index`; the memory is that from `text + i`
on -/
def scanInt (p : UInt8 → Bool) : Bytes → Nat → Option Nat
  | [], _ => none
  | c :: t, i => if p c then (if i + 1 < 2 ^ 31 then scanInt p t (i + 1) else none) else some i

theorem scanInt_eq {p : UInt8 → Bool} (hp : p 0 = false) {t : Bytes} (h : (0 : UInt8) ∈ t) {i : Nat}
    (hi : i < 2 ^ 31) : scanInt p t i =
      if i + (t.takeWhile p).length < 2 ^ 31 then some (i + (t.takeWhile p).length) else none := by
  induction t generalizing i with
  | nil => exact absurd h List.not_mem_nil
  | cons c t ih =>
    rw [scanInt, List.takeWhile_cons]
    by_cases hc : p c = true
    · have hne : (0 : UInt8) ≠ c := by
        intro e
        rw [← e, hp] at hc
        cases hc
      rw [if_pos hc, if_pos hc, List.length_cons]
      have hsum : i + ((t.takeWhile p).length + 1) = i + 1 + (t.takeWhile p).length := by omega
      rw [hsum]
      by_cases hnext : i + 1 < 2 ^ 31
      · rw [if_pos hnext, ih ((List.mem_cons.mp h).resolve_left hne) hnext]
      · rw [if_neg hnext, if_neg (by omega)]
    · rw [if_neg hc, if_neg hc]
      exact (if_pos hi).symm

/-- the loop from `text + k` on, and the byte it stops at -/
theorem scanInt_bind {β : Type} {p : UInt8 → Bool} (hp : p 0 = false) {t : Bytes}
    (h : (0 : UInt8) ∈ t) {k : Nat} (hk : k ≤ (cstr t).length) (hint : k < 2 ^ 31)
    (f : Nat → UInt8 → Option β) :
    ((scanInt p (t.drop k) k).bind fun i => t[i]?.bind (f i)) =
      if k + ((t.drop k).takeWhile p).length < 2 ^ 31 then
        f (k + ((t.drop k).takeWhile p).length) (at' t (k + ((t.drop k).takeWhile p).length))
      else none := by
  rw [scanInt_eq hp (zero_mem_drop h hk) hint]
  split
  · rw [Option.bind_some, getElem_of_le_cstr h (add_takeWhile_le_cstr hp hk), Option.bind_some]
  · rfl

/-- `i + 1` for an `int i` -/
def incr (i : Nat) : Option Nat := if i + 1 < 2 ^ 31 then some (i + 1) else none

theorem incr_bind {β : Type} (i : Nat) (f : Nat → Option β) :
    (incr i).bind f = if i + 1 < 2 ^ 31 then f (i + 1) else none := by
  rw [incr]
  split
  · rfl
  · rfl

def strlen (t : Bytes) : Option Nat := scan (· != 0) t

def strspn (t accept : Bytes) : Option Nat := scan (fun c => c != 0 && accept.contains c) t

def strcspn (t reject : Bytes) : Option Nat := scan (fun c => c != 0 && !reject.contains c) t

def strpbrk (t accept : Bytes) : Option (Option Nat) := do
  let n ← scan (fun c => c != 0 && !accept.contains c) t
  let c ← t[n]?
  return if c = 0 then none else some n

theorem strlen_eq {t : Bytes} (h : (0 : UInt8) ∈ t) : strlen t = some (cstr t).length :=
  scan_eq rfl h

theorem takeWhile_and (p : UInt8 → Bool) (t : Bytes) :
    t.takeWhile (fun c => c != 0 && p c) = (cstr t).takeWhile p := by
  rw [cstr, List.takeWhile_takeWhile]
  congr 1
  funext c
  rw [Bool.and_comm, Bool.decide_and, Bool.decide_eq_true, Bool.decide_eq_true]

theorem strspn_eq {t : Bytes} (h : (0 : UInt8) ∈ t) (accept : Bytes) :
    strspn t accept = some (CStr.strspn t accept) := by
  rw [strspn, scan_eq rfl h, takeWhile_and]
  rfl

theorem strcspn_eq {t : Bytes} (h : (0 : UInt8) ∈ t) (reject : Bytes) :
    strcspn t reject = some (CStr.strcspn t reject) := by
  rw [strcspn, scan_eq rfl h, takeWhile_and]
  rfl

theorem findIdx_eq (p : UInt8 → Bool) (l : Bytes) : l.findIdx? p =
    if (l.takeWhile fun c => !p c).length < l.length then
      some (l.takeWhile fun c => !p c).length
    else none := by
  induction l with
  | nil => rfl
  | cons c l ih =>
    rw [List.findIdx?_cons, List.takeWhile_cons]
    cases hc : p c with
    | true => rfl
    | false =>
      rw [if_neg Bool.false_ne_true, if_pos Bool.not_false, ih, List.length_cons, List.length_cons]
      split
      · rw [if_pos (by omega)]
        rfl
      · rw [if_neg (by omega)]
        rfl

theorem strpbrk_eq {t : Bytes} (h : (0 : UInt8) ∈ t) (accept : Bytes) :
    strpbrk t accept = some (CStr.strpbrk t accept) := by
  have hle : ((cstr t).takeWhile fun c => !accept.contains c).length ≤ (cstr t).length :=
    List.IsPrefix.length_le (List.takeWhile_prefix _)
  have hzero := at_zero_iff_length hle
  rw [strpbrk, scan_eq rfl h, takeWhile_and, Option.bind_eq_bind, Option.bind_some,
    getElem_of_le_cstr h hle, Option.bind_eq_bind, Option.bind_some, CStr.strpbrk, findIdx_eq]
  by_cases hend : (cstr t).length ≤ ((cstr t).takeWhile fun c => !accept.contains c).length
  · rw [if_pos (hzero.mpr hend), if_neg (by omega)]
    rfl
  · rw [if_neg (mt hzero.mp hend), if_pos (by omega)]
    rfl

/-! ## strncasecmp and atol -/

/-- `strncasecmp (s, u, n) == 0`; `u` is a literal -/
def strncaseeq : Bytes → Bytes → Nat → Option Bool
  | _, _, 0 => some true
  | [], _, _ + 1 => none
  | c :: s, u, n + 1 =>
    if tolower c ≠ tolower (at' u 0) then some false
    else if c = 0 then some true
    else strncaseeq s (u.drop 1) n

theorem tolower_eq_zero {c : UInt8} (h : tolower c = 0) : c = 0 := by
  unfold tolower at h
  split at h
  · rename_i hc
    -- the sum does not wrap
    have hsum := congrArg UInt8.toNat h
    have h1 := UInt8.le_iff_toNat_le.mp hc.1
    have h2 := UInt8.le_iff_toNat_le.mp hc.2
    rw [UInt8.toNat_add] at hsum
    have e65 : (65 : UInt8).toNat = 65 := rfl
    have e90 : (90 : UInt8).toNat = 90 := rfl
    have e32 : (32 : UInt8).toNat = 32 := rfl
    have e0 : (0 : UInt8).toNat = 0 := rfl
    omega
  · exact h

theorem cstr_cons {c : UInt8} (hc : c ≠ 0) (t : Bytes) : cstr (c :: t) = c :: cstr t := by
  simp [cstr, hc]

theorem strncaseeq_eq {s : Bytes} (h : (0 : UInt8) ∈ s) (u : Bytes) (n : Nat) :
    strncaseeq s u n = some (CStr.strncaseeq s u n) := by
  induction n generalizing s u with
  | zero =>
    rw [strncaseeq, CStr.strncaseeq, List.take_zero, List.take_zero]
    rfl
  | succ n ih =>
    cases s with
    | nil => exact absurd h List.not_mem_nil
    | cons c s =>
      rw [strncaseeq]
      -- the string `u` ends here, or goes on with `d`
      cases hu : cstr u with
      | nil =>
        have hd : at' u 0 = 0 := (at_zero_iff u).mpr hu
        rw [hd, CStr.strncaseeq, hu]
        by_cases hc : c = 0
        · subst hc
          rfl
        · have hne : tolower c ≠ tolower 0 := fun e => hc (tolower_eq_zero e)
          rw [if_pos hne, cstr_cons hc]
          rfl
      | cons d u' =>
        obtain ⟨r, hr⟩ := cstr_isPrefix u
        rw [hu] at hr
        obtain rfl : u = d :: (u' ++ r) := hr.symm
        have hd : d ≠ 0 := by
          intro e
          subst e
          cases hu
        have hu' : cstr (u' ++ r) = u' := by
          rw [cstr_cons hd] at hu
          exact (List.cons.inj hu).2
        show (if tolower c ≠ tolower d then some false else if c = 0 then some true
          else strncaseeq s (u' ++ r) n) = _
        by_cases hcd : tolower c = tolower d
        · have hc : c ≠ 0 := by
            intro e
            rw [e] at hcd
            exact hd (tolower_eq_zero hcd.symm)
          rw [if_neg (not_not_intro hcd), if_neg hc,
            ih ((List.mem_cons.mp h).resolve_left fun e => hc e.symm)]
          rw [CStr.strncaseeq, CStr.strncaseeq, cstr_cons hc, cstr_cons hd, List.take_succ_cons,
            List.take_succ_cons, List.map_cons, List.map_cons, hcd]
          congr 1
          exact (List.cons_beq_cons.trans (by rw [beq_self_eq_true, Bool.true_and])).symm
        · rw [if_pos hcd, CStr.strncaseeq, cstr_cons hd, List.take_succ_cons, List.map_cons]
          by_cases hc : c = 0
          · subst hc
            rfl
          · rw [cstr_cons hc, List.take_succ_cons, List.map_cons, List.cons_beq_cons,
              beq_eq_false_iff_ne.mpr hcd, Bool.false_and]

/-- the digits behind the sign -/
def number (neg : Bool) (t : Bytes) : Option Int := do
  let k ← scan isdigit t
  let v : Int := digitsVal (t.take k)
  return max (-2 ^ 63) (min (2 ^ 63 - 1) (if neg then -v else v))

def atol (t : Bytes) : Option Int := do
  let i ← scan isspace t
  match t.drop i with
  | [] => none
  | c :: u =>
    if c = 45 then number true u else if c = 43 then number false u else number false (c :: u)

theorem number_eq {t : Bytes} (h : (0 : UInt8) ∈ t) (neg : Bool) :
    number neg t = some (max (-2 ^ 63) (min (2 ^ 63 - 1)
      (if neg then -(digitsVal ((cstr t).takeWhile isdigit) : Int)
        else digitsVal ((cstr t).takeWhile isdigit)))) := by
  have hw : t.takeWhile isdigit = (cstr t).takeWhile isdigit := takeWhile_cstr rfl t
  rw [number, scan_eq rfl h, Option.bind_eq_bind, Option.bind_some, ← takeWhile_eq_take, hw]
  rfl

theorem atol_eq {t : Bytes} (h : (0 : UInt8) ∈ t) : atol t = some (CStr.atol t) := by
  have hle := takeWhile_le_cstr (p := isspace) rfl t
  have hdrop : cstr (t.drop (t.takeWhile isspace).length) = (cstr t).dropWhile isspace := by
    rw [cstr_drop hle, takeWhile_cstr (p := isspace) rfl t, drop_length_takeWhile]
  have hmem := zero_mem_drop h hle
  rw [atol, scan_eq rfl h, Option.bind_eq_bind, Option.bind_some, CStr.atol, ← hdrop]
  generalize t.drop (t.takeWhile isspace).length = u at hmem
  cases u with
  | nil => exact absurd hmem List.not_mem_nil
  | cons c u =>
    dsimp only
    by_cases hc : c = 0
    · subst hc
      exact number_eq hmem false
    · have hu := (List.mem_cons.mp hmem).resolve_left fun e => hc e.symm
      rw [cstr_cons hc, sign]
      by_cases hminus : c = 45
      · rw [if_pos hminus, if_pos hminus]
        exact number_eq hu true
      · rw [if_neg hminus, if_neg hminus]
        by_cases hplus : c = 43
        · rw [if_pos hplus, if_pos hplus]
          exact number_eq hu false
        · rw [if_neg hplus, if_neg hplus, number_eq hmem, cstr_cons hc]

end Bounded

end CStr
