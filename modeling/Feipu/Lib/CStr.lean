import Mathlib.Data.List.TakeWhile
import Mathlib.Data.List.Lex
import Mathlib.Algebra.Order.Ring.Int

/-!
# C strings over bytes

A pointer into memory is the list of bytes from there on; reading past the end of the list reads
as the terminating NUL.  `cstr t` is the C string at `t`, and the functions of `<string.h>`,
`<strings.h>` and `<stdlib.h>` below are stated on it:

* `strspn`, `strcspn`, `strpbrk`   the length of a prefix, the offset of a byte;
* `strncaseeq`                     `strncasecmp (s, t, n) == 0`;
* `atol`                           the longest decimal prefix, saturated to 64 bits.

`cstr_drop` moves a pointer inside its string.
-/

/-- the bytes of a buffer or of a `std::string` -/
abbrev Bytes := List UInt8

namespace CStr

/-- the bytes of an ASCII literal -/
def asc (s : String) : Bytes := s.toList.map fun c => UInt8.ofNat c.toNat

/-- the C string that starts at `t` -/
def cstr (t : Bytes) : Bytes := t.takeWhile (· != 0)

/-- the byte `*(t + i)` -/
def at' (t : Bytes) (i : Nat) : UInt8 := t.getD i 0

def strspn (t accept : Bytes) : Nat := ((cstr t).takeWhile (accept.contains ·)).length
def strcspn (t reject : Bytes) : Nat := ((cstr t).takeWhile (!reject.contains ·)).length
def strpbrk (t accept : Bytes) : Option Nat := (cstr t).findIdx? (accept.contains ·)

def tolower (c : UInt8) : UInt8 := if 65 ≤ c ∧ c ≤ 90 then c + 32 else c

/-- `strncasecmp (s, t, n) == 0` -/
def strncaseeq (s t : Bytes) (n : Nat) : Bool :=
  ((cstr s).take n).map tolower == ((cstr t).take n).map tolower

def isspace (c : UInt8) : Bool := c == 32 || (9 ≤ c && c ≤ 13)
def isdigit (c : UInt8) : Bool := 48 ≤ c && c ≤ 57

/-- the number a string of decimal digits denotes -/
def digitsVal (ds : Bytes) : Nat := ds.foldl (fun n d => 10 * n + (d.toNat - 48)) 0

/-- the optional sign of a number: is it negative, and what follows it -/
def sign : Bytes → Bool × Bytes
  | [] => (false, [])
  | c :: t => if c = 45 then (true, t) else if c = 43 then (false, t) else (false, c :: t)

def atol (t : Bytes) : Int :=
  let (neg, ds) := sign ((cstr t).dropWhile isspace)
  let v : Int := digitsVal (ds.takeWhile isdigit)
  max (-2 ^ 63) (min (2 ^ 63 - 1) (if neg then -v else v))

/-- the conversion of a `long` to a `size_t` -/
def toSizeT (x : Int) : Nat := (x % 2 ^ 64).toNat

/-! ## bytes -/

theorem at_of_lt {t : Bytes} {i : Nat} (h : i < t.length) : at' t i = t[i] := by
  rw [at', List.getD_eq_getElem?_getD, List.getElem?_eq_getElem h, Option.getD_some]

theorem at_append_left {t : Bytes} {i : Nat} (h : i < t.length) (u : Bytes) :
    at' (t ++ u) i = at' t i := by
  rw [at', at', List.getD_eq_getElem?_getD, List.getD_eq_getElem?_getD, List.getElem?_append_left h]

theorem at_append_right (t u : Bytes) (i : Nat) : at' (t ++ u) (t.length + i) = at' u i := by
  rw [at', at', List.getD_eq_getElem?_getD, List.getD_eq_getElem?_getD,
    List.getElem?_append_right (Nat.le_add_right _ _), Nat.add_sub_cancel_left]

theorem at_drop (t : Bytes) (k i : Nat) : at' (t.drop k) i = at' t (k + i) := by
  rw [at', at', List.getD_eq_getElem?_getD, List.getD_eq_getElem?_getD, List.getElem?_drop]

/-! ## the string at a pointer -/

theorem cstr_nil : cstr [] = [] := rfl

theorem zero_notMem_cstr (t : Bytes) : (0 : UInt8) ∉ cstr t := by
  intro h
  have h' := List.mem_takeWhile_imp h
  simp at h'

theorem cstr_of_notMem {t : Bytes} (h : (0 : UInt8) ∉ t) : cstr t = t := by
  rw [cstr, List.takeWhile_eq_self_iff]
  intro c hc
  have hne : c ≠ 0 := fun e => h (e ▸ hc)
  simp [hne]

@[simp] theorem cstr_cstr (t : Bytes) : cstr (cstr t) = cstr t :=
  cstr_of_notMem (zero_notMem_cstr t)

theorem cstr_append_zero (l r : Bytes) : cstr (l ++ 0 :: r) = cstr l := by
  induction l with
  | nil => rfl
  | cons c l ih =>
    have ih' : List.takeWhile (fun x : UInt8 => x != 0) (l ++ 0 :: r) = cstr l := ih
    by_cases h : c = 0
    · subst h; rfl
    · simp [cstr, h]
      exact ih'

theorem cstr_isPrefix (t : Bytes) : cstr t <+: t := List.takeWhile_prefix _

/-- a pointer moved inside its string (or onto the NUL) -/
theorem cstr_drop {t : Bytes} {k : Nat} (hk : k ≤ (cstr t).length) :
    cstr (t.drop k) = (cstr t).drop k := by
  induction t generalizing k with
  | nil => simp [cstr_nil]
  | cons c t ih =>
    cases k with
    | zero => rfl
    | succ k =>
      by_cases h : c = 0
      · subst h; simp [cstr] at hk
      · have e : cstr (c :: t) = c :: cstr t := by simp [cstr, h]
        rw [e] at hk ⊢
        rw [List.drop_succ_cons, List.drop_succ_cons]
        exact ih (by simpa using hk)

theorem take_of_le_cstr {t : Bytes} {k : Nat} (hk : k ≤ (cstr t).length) :
    t.take k = (cstr t).take k := by
  obtain ⟨r, hr⟩ := cstr_isPrefix t
  conv_lhs => rw [← hr]
  rw [List.take_append_of_le_length hk]

theorem at_zero_iff (t : Bytes) : at' t 0 = 0 ↔ cstr t = [] := by
  cases t with
  | nil => simp [at', cstr]
  | cons c t => by_cases h : c = 0 <;> simp [at', cstr, h]

theorem strspn_le (t a : Bytes) : strspn t a ≤ (cstr t).length :=
  List.IsPrefix.length_le ( List.takeWhile_prefix _)

theorem strpbrk_lt {t a : Bytes} {k : Nat} (h : strpbrk t a = some k) : k < (cstr t).length :=
  (List.findIdx?_eq_some_iff_findIdx_eq.mp h).1

@[simp] theorem strspn_cstr (t a : Bytes) : strspn (cstr t) a = strspn t a := by
  simp [strspn]
@[simp] theorem strcspn_cstr (t a : Bytes) : strcspn (cstr t) a = strcspn t a := by
  simp [strcspn]
@[simp] theorem strpbrk_cstr (t a : Bytes) : strpbrk (cstr t) a = strpbrk t a := by
  simp [strpbrk]
@[simp] theorem strncaseeq_cstr (s t : Bytes) (n : Nat) :
    strncaseeq (cstr s) t n = strncaseeq s t n := by
  simp [strncaseeq]
@[simp] theorem atol_cstr (t : Bytes) : atol (cstr t) = atol t := by
  simp [atol]

/-! ## pointers with the same string behind them -/

theorem at_zero_congr {t u : Bytes} (h : cstr t = cstr u) : at' t 0 = 0 ↔ at' u 0 = 0 := by
  rw [at_zero_iff, at_zero_iff, h]

theorem cstr_drop_congr {t u : Bytes} (h : cstr t = cstr u) {k : Nat}
    (hk : k ≤ (cstr t).length) : cstr (t.drop k) = cstr (u.drop k) := by
  rw [cstr_drop hk, cstr_drop (h ▸ hk), h]

theorem takeWhile_cstr {p : UInt8 → Bool} (h0 : p 0 = false) (t : Bytes) :
    t.takeWhile p = (cstr t).takeWhile p := by
  have e : (fun c => decide (p c = true ∧ (c != 0) = true)) = p := by
    funext c
    by_cases hc : c = 0
    · subst hc; simp [h0]
    · simp [hc]
  rw [cstr, List.takeWhile_takeWhile, e]

theorem strspn_congr {t u : Bytes} (h : cstr t = cstr u) (a : Bytes) : strspn t a = strspn u a := by
  rw [← strspn_cstr t, h, strspn_cstr]

theorem strcspn_congr {t u : Bytes} (h : cstr t = cstr u) (a : Bytes) :
    strcspn t a = strcspn u a := by
  rw [← strcspn_cstr t, h, strcspn_cstr]

theorem strpbrk_congr {t u : Bytes} (h : cstr t = cstr u) (a : Bytes) :
    strpbrk t a = strpbrk u a := by
  rw [← strpbrk_cstr t, h, strpbrk_cstr]

theorem strncaseeq_congr {t u : Bytes} (h : cstr t = cstr u) (a : Bytes) (n : Nat) :
    strncaseeq t a n = strncaseeq u a n := by
  rw [← strncaseeq_cstr t, h, strncaseeq_cstr]

theorem atol_congr {t u : Bytes} (h : cstr t = cstr u) : atol t = atol u := by
  rw [← atol_cstr t, h, atol_cstr]

theorem length_of_strncaseeq {t a : Bytes} {n : Nat} (h : strncaseeq t a n = true)
    (ha : n ≤ (cstr a).length) : n ≤ (cstr t).length := by
  have e := congrArg List.length (eq_of_beq h)
  simp only [List.length_map, List.length_take] at e
  omega

theorem drop_length_takeWhile (p : UInt8 → Bool) (l : Bytes) :
    l.drop (l.takeWhile p).length = l.dropWhile p := by
  induction l with
  | nil => rfl
  | cons c l ih => by_cases h : p c <;> simp [h, ih]

/-- `text += strspn (text, accept)` -/
theorem drop_strspn (t a : Bytes) :
    (cstr t).drop (strspn t a) = (cstr t).dropWhile (a.contains ·) :=
  drop_length_takeWhile _ _

end CStr

/-- bytes compare as `unsigned char`, so `std::string` compares lexicographically -/
instance byteLinearOrder : LinearOrder UInt8 where
  le_refl := UInt8.le_refl
  le_trans _ _ _ := UInt8.le_trans
  le_antisymm _ _ := UInt8.le_antisymm
  le_total := UInt8.le_total
  lt_iff_le_not_ge a b := by
    rw [UInt8.lt_iff_toNat_lt, UInt8.le_iff_toNat_le, UInt8.le_iff_toNat_le]
    omega
  toDecidableLE := inferInstance
  toDecidableLT := inferInstance
  toDecidableEq := inferInstance
  min_def a b := by rfl
  max_def a b := by rfl
