import Mathlib.Logic.Function.Basic
import Feipu.Http.HttpMsg
import Feipu.Lib.Refine

/-!
# `InetAddress` (base/src/InetAddress.cpp, base/src/FeiSocketops.cpp)

A socket address, as the integers its fields hold on a little-endian machine, and the two ways to
build one and to print one.

* `roundTrips_iff`  an address built from a string and a port prints as them, and is the one built
                    from the port alone, exactly for the ports whose two bytes are equal:
                    `fromHostPort` stores the port without `hostToNetwork16`.
-/

namespace Feipu.Net
open CStr

/-! ## FeiSocketops -/

def afInet : BitVec 16 := 2
def afInet6 : BitVec 16 := 10
def inaddrAny : BitVec 32 := 0
def inetAddrstrlen : Nat := 16

structure SockaddrIn where
  sinFamily : BitVec 16 := 0
  sinPort : BitVec 16 := 0
  sinAddr : BitVec 32 := 0
  sinZero : BitVec 64 := 0
deriving DecidableEq

/-- the byte at offset `i` of an integer in memory -/
def octet (x i : Nat) : Nat := x / 256 ^ i % 256

def hostToNetwork32 (x : BitVec 32) : BitVec 32 :=
  .ofNat 32 (octet x.toNat 3 + 256 * (octet x.toNat 2 + 256 * (octet x.toNat 1 +
    256 * octet x.toNat 0)))

/-- `htons`: the two bytes change places -/
def hostToNetwork16 (x : BitVec 16) : BitVec 16 :=
  .ofNat 16 (octet x.toNat 1 + 256 * octet x.toNat 0)

/-- `ntohs` -/
def networkToHost16 (x : BitVec 16) : BitVec 16 :=
  .ofNat 16 (octet x.toNat 1 + 256 * octet x.toNat 0)

/-- the numbers between the dots; `cur` is the one being read.  No number is above 255, and none
has a digit after a leading zero. -/
def dotted (cur : Option Nat) : Bytes → Option (List Nat)
  | [] => cur.map fun n => [n]
  | c :: t =>
    if isdigit c then
      let n := 10 * cur.getD 0 + (c.toNat - 48)
      if cur = some 0 ∨ 255 < n then none else dotted (some n) t
    else if c = 46 then cur.bind fun n => (dotted none t).map (n :: ·)
    else none

/-- `inet_pton (AF_INET, ..)`: the `in_addr`, in memory the four numbers in order -/
def inetPton (t : Bytes) : Option (BitVec 32) :=
  match dotted none t with
  | some [a, b, c, d] => some (.ofNat 32 (a + 256 * (b + 256 * (c + 256 * d))))
  | _ => none

/-- `inet_ntop (AF_INET, ..)` into a buffer that is large enough -/
def inetNtop (x : BitVec 32) : Bytes :=
  decimal (octet x.toNat 0) ++ asc "." ++ decimal (octet x.toNat 1) ++ asc "." ++
    decimal (octet x.toNat 2) ++ asc "." ++ decimal (octet x.toNat 3)

/-- `none` is the `LOG_FATAL` -/
def fromHostPort (ip : Bytes) (port : BitVec 16) (addr : SockaddrIn) : Option SockaddrIn :=
  (inetPton (cstr ip)).map fun a =>
    { addr with sinFamily := afInet, sinPort := port, sinAddr := a }

/-- the C string in `buf` afterwards; `none` is a failed assertion, or a read past a `sockaddr_in`
that says it is a `sockaddr_in6` -/
def toIp (buf : Bytes) (size : Nat) (addr : SockaddrIn) : Option Bytes :=
  if addr.sinFamily = afInet then
    if inetAddrstrlen ≤ size then some (inetNtop addr.sinAddr) else none
  else if addr.sinFamily = afInet6 then none
  else some buf

/-- `snprintf` writes what fits before the NUL -/
def toIpPort (buf : Bytes) (size : Nat) (addr : SockaddrIn) : Option Bytes :=
  (toIp buf size addr).bind fun buf =>
    let port := networkToHost16 addr.sinPort
    if buf.length < size then
      some (buf ++ (asc ":" ++ decimal port.toNat).take (size - buf.length - 1))
    else none

/-! ## InetAddress -/

/-- `addr_` may be null -/
structure InetAddress where
  addr : Option SockaddrIn
deriving DecidableEq

/-- an argument of type `int16_t` -/
def toInt16 (x : Int) : Int := Int.bmod x (2 ^ 16)

namespace InetAddress

/-- `InetAddress (int16_t)`; `hostToNetwork16` takes the argument as a `uint16_t` -/
def ofPort (port : Int) : InetAddress where
  addr := some {
    sinFamily := afInet
    sinPort := hostToNetwork16 (.ofInt 16 (toInt16 port))
    sinAddr := hostToNetwork32 inaddrAny }

/-- `InetAddress (const string &, uint16_t)` -/
def ofIpPort (ip : Bytes) (port : Int) : Option InetAddress :=
  (fromHostPort ip (.ofInt 16 port) {}).map fun a => ⟨some a⟩

/-- `is_valid` -/
def isValid (x : InetAddress) : Bool := x.addr.isSome

/-- `none` is the dereferenced null pointer -/
def getRawSockAddr (x : InetAddress) : Option SockaddrIn := x.addr

def toIpPort (x : InetAddress) : Option Bytes := x.addr.bind (Net.toIpPort [] 64)

end InetAddress

/-- an address whose `getRawSockAddr` can be called -/
abbrev ValidAddress := {x : InetAddress // x.isValid = true}

def ValidAddress.ofPort (port : Int) : ValidAddress := ⟨.ofPort port, rfl⟩

/-! ## copies -/

/-- what makes the object `dst` from the object `src` -/
inductive CopyOp where
  /-- `InetAddress dst (src)` -/
  | copy (dst src : Nat)
  /-- `dst = src` -/
  | assign (dst src : Nat)
  /-- `InetAddress dst (src.getRawSockAddr ())` -/
  | raw (dst src : Nat)

/-- the objects, by their addresses -/
abbrev Objects := Nat → InetAddress

/-- `operator=`, called on the object `dst` -/
def InetAddress.assign (m : Objects) (dst src : Nat) : Objects :=
  if dst = src then m
  else
    let m := if (m dst).addr = none then Function.update m dst ⟨some {}⟩ else m
    match (m src).addr with
    | none => Function.update m dst ⟨none⟩
    | some a => Function.update m dst ⟨some a⟩

def CopyOp.exec (m : Objects) : CopyOp → Option Objects
  | .copy dst src => some (Function.update m dst
      (match (m src).addr with
      | some a => ⟨some a⟩
      | none => ⟨none⟩))
  | .assign dst src => some (InetAddress.assign m dst src)
  | .raw dst src => (m src).getRawSockAddr.map fun a => Function.update m dst ⟨some a⟩

/-- the object before the operation that `k` has its value from -/
def CopyOp.source (k : Nat) : CopyOp → Nat
  | .copy dst src | .assign dst src | .raw dst src => if k = dst then src else k

/-- the same for a sequence of operations -/
def origin (k : Nat) : List CopyOp → Nat
  | [] => k
  | op :: ops => op.source (origin k ops)

theorem update_source (m : Objects) (dst src k : Nat) :
    Function.update m dst (m src) k = m (if k = dst then src else k) := by
  by_cases h : k = dst
  · rw [if_pos h, h, Function.update_self]
  · rw [if_neg h, Function.update_of_ne h]

theorem assign_eq (m : Objects) (dst src : Nat) :
    InetAddress.assign m dst src = Function.update m dst (m src) := by
  unfold InetAddress.assign
  by_cases h : dst = src
  · rw [if_pos h, h, Function.update_eq_self]
  · rw [if_neg h]
    dsimp only
    have hsrc : (if (m dst).addr = none then Function.update m dst ⟨some {}⟩ else m) src =
        m src := by
      split
      · exact Function.update_of_ne (fun he => h he.symm) _ _
      · rfl
    rw [hsrc]
    have hdst : ∀ v, Function.update (if (m dst).addr = none then Function.update m dst ⟨some {}⟩
        else m) dst v = Function.update m dst v := by
      intro v
      split
      · exact Function.update_idem _ _ _
      · rfl
    cases hs : m src with
    | mk a => cases a <;> exact hdst _

/-- **One operation** gives the object the value of the one it is made from. -/
theorem exec_source {m m' : Objects} {op : CopyOp} (h : op.exec m = some m') (k : Nat) :
    m' k = m (op.source k) := by
  cases op with
  | copy dst src =>
    rw [← Option.some.inj h, CopyOp.source, ← update_source m dst src k]
    congr 2
    cases hs : m src with
    | mk a => cases a <;> rfl
  | assign dst src =>
    rw [← Option.some.inj h, CopyOp.source, ← update_source m dst src k, assign_eq]
  | raw dst src =>
    obtain ⟨a, ha, rfl⟩ := Option.map_eq_some_iff.mp h
    rw [CopyOp.source, ← update_source m dst src k]
    congr 2
    cases hs : m src with
    | mk b =>
      rw [hs] at ha
      rw [show b = some a from ha]

theorem run_origin {m m' : Objects} {ops : List CopyOp}
    (h : Refine.run CopyOp.exec m ops = some m') (k : Nat) : m' k = m (origin k ops) := by
  induction ops generalizing m with
  | nil =>
    rw [Option.some.inj h]
    rfl
  | cons op ops ih =>
    rw [Refine.run_cons] at h
    obtain ⟨m1, hm1, hrun⟩ := Option.bind_eq_some_iff.mp h
    rw [ih hrun]
    exact exec_source hm1 _

/-! ## the byte order of the port -/

theorem octet_lt (x i : Nat) : octet x i < 256 := Nat.mod_lt _ (by omega)

theorem decimal_length {n k : Nat} (hk : 0 < k) (h : n < 10 ^ k) : (decimal n).length ≤ k := by
  rw [decimal, List.length_map, Nat.length_toDigits_le_iff (by omega) hk]
  exact h

theorem inetNtop_length (x : BitVec 32) : (inetNtop x).length ≤ 15 := by
  have h : ∀ i, (decimal (octet x.toNat i)).length ≤ 3 := by
    intro i
    have := octet_lt x.toNat i
    exact decimal_length (by omega) (by omega)
  have h0 := h 0
  have h1 := h 1
  have h2 := h 2
  have h3 := h 3
  have hdot : (asc ".").length = 1 := rfl
  simp only [inetNtop, List.length_append]
  omega

/-- the 64 bytes of the buffer are enough -/
theorem toIpPort_eq {a : SockaddrIn} (h : a.sinFamily = afInet) :
    toIpPort [] 64 a = some (inetNtop a.sinAddr ++ asc ":" ++
      decimal (networkToHost16 a.sinPort).toNat) := by
  have hip := inetNtop_length a.sinAddr
  have hport : (decimal (networkToHost16 a.sinPort).toNat).length ≤ 5 := by
    apply decimal_length (by omega)
    have := (networkToHost16 a.sinPort).isLt
    omega
  have hcolon : (asc ":").length = 1 := rfl
  rw [toIpPort, toIp, if_pos h, if_pos (by decide), Option.bind_some]
  dsimp only
  rw [if_pos (by omega), List.take_of_length_le, List.append_assoc]
  rw [List.length_append]
  omega

theorem port_toNat {port : Nat} (h : port < 65536) :
    (BitVec.ofInt 16 (port : Int)).toNat = port := by
  rw [BitVec.ofInt_natCast, BitVec.toNat_ofNat, Nat.mod_eq_of_lt h]

/-- the way through `int16_t` loses nothing -/
theorem ofInt_toInt16 (x : Int) : BitVec.ofInt 16 (toInt16 x) = BitVec.ofInt 16 x := by
  apply BitVec.eq_of_toInt_eq
  rw [BitVec.toInt_ofInt, BitVec.toInt_ofInt, toInt16, Int.bmod_bmod]

/-- the two bytes of the port are equal -/
def Palindrome (port : Nat) : Prop := port / 256 = port % 256

theorem networkToHost16_eq {port : Nat} (h : port < 65536) :
    (networkToHost16 (.ofInt 16 port)).toNat = port ↔ Palindrome port := by
  rw [networkToHost16, BitVec.toNat_ofNat, port_toNat h, octet, octet, Nat.pow_one, Nat.pow_zero,
    Nat.div_one, Palindrome]
  have hhigh : port / 256 % 256 = port / 256 := Nat.mod_eq_of_lt (by omega)
  rw [hhigh, Nat.mod_eq_of_lt (by omega)]
  omega

theorem hostToNetwork16_eq {port : Nat} (h : port < 65536) :
    hostToNetwork16 (.ofInt 16 port) = .ofInt 16 port ↔ Palindrome port := by
  rw [← networkToHost16_eq h]
  constructor
  · intro he
    show (hostToNetwork16 (.ofInt 16 port)).toNat = port
    rw [he, port_toNat h]
  · intro he
    apply BitVec.eq_of_toNat_eq
    rw [port_toNat h]
    exact he

/-! ## the round trips -/

/-- the address prints as the string and the port it was built from, and so does whatever was
copied from it -/
def Prints (ip : Bytes) (port : Nat) : Prop :=
  ∃ x, InetAddress.ofIpPort ip port = some x ∧
    ∀ m ops m', Refine.run CopyOp.exec m ops = some m' → ∀ k, m (origin k ops) = x →
      (m' k).toIpPort = some (ip ++ asc ":" ++ decimal port)

/-- the two constructors agree, and so do copies of the two objects -/
def Agrees (port : Nat) : Prop :=
  ∃ x, InetAddress.ofIpPort (asc "0.0.0.0") port = some x ∧
    ∀ m ops m', Refine.run CopyOp.exec m ops = some m' → ∀ k k', m (origin k ops) = x →
      m (origin k' ops) = .ofPort port → (m' k).getRawSockAddr = (m' k').getRawSockAddr

theorem prints_iff {ip : Bytes} {a : BitVec 32} (hip : inetPton (cstr ip) = some a)
    (hback : inetNtop a = ip) {port : Nat} (hport : port < 65536) :
    Prints ip port ↔ Palindrome port := by
  rw [← networkToHost16_eq hport]
  let x : InetAddress := ⟨some { sinFamily := afInet, sinPort := .ofInt 16 port, sinAddr := a }⟩
  have hx : InetAddress.ofIpPort ip port = some x := by
    rw [InetAddress.ofIpPort, fromHostPort, hip]
    rfl
  have hprint : x.toIpPort = some (ip ++ asc ":" ++
      decimal (networkToHost16 (.ofInt 16 port)).toNat) := by
    show toIpPort [] 64 { sinFamily := afInet, sinPort := .ofInt 16 port, sinAddr := a } = _
    rw [toIpPort_eq rfl, hback]
  constructor
  · rintro ⟨y, hy, hall⟩
    obtain rfl := Option.some.inj (hx.symm.trans hy)
    have h := hall (fun _ => x) [] (fun _ => x) rfl 0 rfl
    rw [hprint] at h
    exact decimal_inj (List.append_cancel_left (Option.some.inj h))
  · intro h
    refine ⟨x, hx, ?_⟩
    intro m ops m' hrun k hk
    rw [run_origin hrun, hk, hprint, h]

theorem agrees_iff_palindrome {port : Nat} (hport : port < 65536) :
    Agrees port ↔ Palindrome port := by
  rw [← hostToNetwork16_eq hport]
  let x : InetAddress := ⟨some { sinFamily := afInet, sinPort := .ofInt 16 port }⟩
  have hx : InetAddress.ofIpPort (asc "0.0.0.0") port = some x := rfl
  have hany : InetAddress.ofPort port =
      ⟨some { sinFamily := afInet, sinPort := hostToNetwork16 (.ofInt 16 port) }⟩ := by
    rw [InetAddress.ofPort, ofInt_toInt16]
    rfl
  constructor
  · rintro ⟨y, hy, hall⟩
    obtain rfl := Option.some.inj (hx.symm.trans hy)
    let m : Objects := fun k => if k = 0 then x else .ofPort port
    have h : x.addr = (InetAddress.ofPort port).addr := hall m [] m rfl 0 1 rfl rfl
    rw [hany] at h
    exact (congrArg SockaddrIn.sinPort (Option.some.inj h)).symm
  · intro h
    refine ⟨x, hx, ?_⟩
    intro m ops m' hrun k k' hk hk'
    rw [run_origin hrun, run_origin hrun, hk, hk', hany, h]

/-- **Addresses round-trip** exactly for the ports that read the same in both byte orders. -/
theorem roundTrips_iff (ip : Bytes) (a : BitVec 32) (hip : inetPton (cstr ip) = some a)
    (hback : inetNtop a = ip) (port : Nat) (hport : port < 65536) :
    Prints ip port ∧ Agrees port ↔ Palindrome port := by
  rw [prints_iff hip hback hport, agrees_iff_palindrome hport, and_self]

/-- port 257 -/
theorem roundTrips_localhost : Prints (asc "127.0.0.1") 257 ∧ Agrees 257 :=
  (roundTrips_iff (asc "127.0.0.1") 0x0100007f (by decide) (by decide) 257 (by decide)).mpr rfl

/-- port 8888 prints as 47138 -/
theorem no_roundTrip : ¬ ∀ ip a port, inetPton (cstr ip) = some a → inetNtop a = ip →
    port < 65536 → Prints ip port ∧ Agrees port := by
  intro hall
  have hip : inetPton (cstr (asc "127.0.0.1")) = some 0x0100007f := by decide
  have hback : inetNtop 0x0100007f = asc "127.0.0.1" := by decide
  have hport : (8888 : Nat) < 65536 := by decide
  have hpal := (prints_iff hip hback hport).mp (hall _ _ 8888 hip hback hport).1
  exact absurd hpal (by unfold Palindrome; decide)

end Feipu.Net
