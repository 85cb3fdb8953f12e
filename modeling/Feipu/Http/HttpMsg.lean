import Feipu.Lib.CStr
import Feipu.Lib.SortedMap

/-!
# Messages (http/HttpDef.cpp, http/HttpMsg.cpp)

`HttpMsg` is what requests and responses share.  The setters return `none` where the source
returns `false` and leaves the message alone.
-/

namespace Feipu
open CStr

/-! ## HttpDef -/

inductive HttpMethod where
  | head | get | delete | put | post | patch
  | unexpectMethod
deriving DecidableEq

/-- `HTTP_METHOD_MAP` -/
def httpMethodMap : List (HttpMethod × Bytes) :=
  [(.head, asc "HEAD"), (.get, asc "GET"), (.delete, asc "DELETE"), (.put, asc "PUT"),
    (.post, asc "POST"), (.patch, asc "PATCH")]

/-- `http_method_enum`: a chain of `strcmp`s -/
def httpMethodEnum (str : Bytes) : HttpMethod :=
  match httpMethodMap.find? (fun e => e.2 == cstr str) with
  | some e => e.1
  | none => .unexpectMethod

def httpMethodStr (method : HttpMethod) : Bytes :=
  match httpMethodMap.find? (fun e => e.1 == method) with
  | some e => e.2
  | none => asc "<unexpect>"

/-- the value of the enumeration; a response that was never given one holds any `int` -/
abbrev HttpStatus := Int

/-- `HTTP_STATUS_NOT_IMPLEMENTED` -/
def statusNotImplemented : HttpStatus := 501

/-- `HTTP_STATUS_MAP` -/
def httpStatusMap : List (HttpStatus × Bytes) :=
  [(100, asc "Continue"), (101, asc "Switching Protocols"), (102, asc "Processing"),
    (200, asc "OK"), (201, asc "Created"), (202, asc "Accepted"),
    (203, asc "Non-Authoritative Information"), (204, asc "No Content"),
    (205, asc "Reset Content"), (206, asc "Partial Content"), (207, asc "Multi-Status"),
    (208, asc "Already Reported"), (226, asc "IM Used"), (300, asc "Multiple Choices"),
    (301, asc "Moved Permanently"), (302, asc "Found"), (303, asc "See Other"),
    (304, asc "Not Modified"), (305, asc "Use Proxy"), (307, asc "Temporary Redirect"),
    (308, asc "Permanent Redirect"), (400, asc "Bad Request"), (401, asc "Unauthorized"),
    (402, asc "Payment Required"), (403, asc "Forbidden"), (404, asc "Not Found"),
    (405, asc "Method Not Allowed"), (406, asc "Not Acceptable"),
    (407, asc "Proxy Authentication Required"), (408, asc "Request Timeout"),
    (409, asc "Conflict"), (410, asc "Gone"), (411, asc "Length Required"),
    (412, asc "Precondition Failed"), (413, asc "Payload Too Large"), (414, asc "URI Too Long"),
    (415, asc "Unsupported Media Type"), (416, asc "Range Not Satisfiable"),
    (417, asc "Expectation Failed"), (421, asc "Misdirected Request"),
    (422, asc "Unprocessable Entity"), (423, asc "Locked"), (424, asc "Failed Dependency"),
    (426, asc "Upgrade Required"), (428, asc "Precondition Required"),
    (429, asc "Too Many Requests"), (431, asc "Request Header Fields Too Large"),
    (451, asc "Unavailable For Legal Reasons"), (500, asc "Internal Server Error"),
    (501, asc "Not Implemented"), (502, asc "Bad Gateway"), (503, asc "Service Unavailable"),
    (504, asc "Gateway Timeout"), (505, asc "HTTP Version Not Supported"),
    (506, asc "Variant Also Negotiates"), (507, asc "Insufficient Storage"),
    (508, asc "Loop Detected"), (510, asc "Not Extended"),
    (511, asc "Network Authentication Required")]

def httpStatusStr (status : HttpStatus) : Bytes :=
  match httpStatusMap.find? (fun e => e.1 == status) with
  | some e => e.2
  | none => asc "<unexpect>"

/-- `std::to_string`, and `%d` of a non-negative number -/
def decimal (n : Nat) : Bytes := (Nat.toDigits 10 n).map fun c => UInt8.ofNat c.toNat

/-- `%d` -/
def decimalInt (x : Int) : Bytes :=
  if x < 0 then asc "-" ++ decimal x.natAbs else decimal x.natAbs

/-- a digit is a character from `'0'` to `'9'`, and one byte -/
theorem digit_range {n : Nat} {c : Char} (h : c ∈ Nat.toDigits 10 n) :
    48 ≤ c.toNat ∧ c.toNat ≤ 57 ∧ (UInt8.ofNat c.toNat).toNat = c.toNat := by
  have hd := Nat.isDigit_of_mem_toDigits (by omega) (by omega) h
  rw [Char.isDigit, Bool.and_eq_true, decide_eq_true_eq, decide_eq_true_eq] at hd
  have h1 : 48 ≤ c.toNat := hd.1
  have h2 : c.toNat ≤ 57 := hd.2
  refine ⟨h1, h2, ?_⟩
  rw [UInt8.toNat_ofNat']
  omega

theorem isdigit_decimal {n : Nat} {x : UInt8} (h : x ∈ decimal n) : isdigit x = true := by
  obtain ⟨c, hc, rfl⟩ := List.mem_map.mp h
  obtain ⟨h1, h2, h3⟩ := digit_range hc
  rw [isdigit, Bool.and_eq_true, decide_eq_true_eq, decide_eq_true_eq, UInt8.le_iff_toNat_le,
    UInt8.le_iff_toNat_le, h3]
  exact ⟨h1, h2⟩

theorem decimal_ne_nil (n : Nat) : decimal n ≠ [] := by
  intro h
  exact Nat.toDigits_ne_nil (List.map_eq_nil_iff.mp h)

theorem digitsVal_decimal (n : Nat) : digitsVal (decimal n) = n := by
  have hfold : ∀ (l : List Char) (m : Nat), (∀ c ∈ l, (UInt8.ofNat c.toNat).toNat = c.toNat) →
      (l.map fun c => UInt8.ofNat c.toNat).foldl (fun n d => 10 * n + (d.toNat - 48)) m =
        Nat.ofDigitChars 10 l m := by
    intro l
    induction l with
    | nil => exact fun m _ => rfl
    | cons c l ih =>
      intro m h
      rw [Nat.ofDigitChars_cons, List.map_cons, List.foldl_cons, h c List.mem_cons_self]
      exact ih _ fun d hd => h d (List.mem_cons_of_mem _ hd)
  rw [digitsVal, decimal, hfold _ 0 fun c hc => (digit_range hc).2.2, Nat.ofDigitChars_ten_toDigits]

theorem decimal_inj {n n' : Nat} (h : decimal n = decimal n') : n = n' := by
  rw [← digitsVal_decimal n, h, digitsVal_decimal]

/-- `INT_MAX` -/
def intMax : Nat := 2147483647

/-- `std::string::max_size ()` -/
def maxSize : Nat := 9223372036854775807

/-- `string_format` with the text that is to be printed: `snprintf` counts it, with its NUL, in an
`int`; `none` is the exception -/
def stringFormat (text : Bytes) : Option Bytes := if text.length < intMax then some text else none

/-! ## HttpMsg -/

structure HttpMsg where
  headers : SMap Bytes Bytes := .empty
  version : Bytes := []
  contentData : Bytes := []
  contentLenth : Nat := 0

structure HttpRequest extends HttpMsg where
  path : Bytes := []
  pathMatches : SMap Bytes Bytes := .empty
  method : HttpMethod

structure HttpResponse extends HttpMsg where
  statusCode : HttpStatus

/-- `new HttpRequest`: `m` is what the memory of `method` held -/
def HttpRequest.new (m : HttpMethod) : HttpRequest where
  method := m

/-- `new HttpResponse`: `c` is what the memory of `status_code` held -/
def HttpResponse.new (c : HttpStatus) : HttpResponse where
  statusCode := c

def HttpRequest.setVersion (r : HttpRequest) (versionStr : Bytes) : Option HttpRequest :=
  if versionStr = asc "HTTP/1.1" then some { r with version := versionStr } else none

def HttpRequest.setMethod (r : HttpRequest) (methodStr : Bytes) : Option HttpRequest :=
  let m := httpMethodEnum methodStr
  if m = .unexpectMethod then none else some { r with method := m }

def HttpRequest.setUrl (r : HttpRequest) (urlStr : Bytes) : Option HttpRequest :=
  if urlStr = [] then none else some { r with path := urlStr }

def HttpMsg.setContent (r : HttpMsg) (inData : Bytes) : HttpMsg :=
  { r with
    contentData := r.contentData ++ inData
    headers := r.headers.set (asc "Content-length") (decimal inData.length) }

def crlf : Bytes := [13, 10]

def HttpMsg.dumpHeaders (r : HttpMsg) : Bytes :=
  r.headers.entries.flatMap fun h => h.1 ++ asc ": " ++ h.2 ++ crlf

def HttpMsg.dump (r : HttpMsg) (isDumpHeaders isDumpBody : Bool) : Bytes :=
  (if isDumpHeaders then r.dumpHeaders else []) ++ crlf ++ (if isDumpBody then r.contentData else [])

def HttpRequest.dump (r : HttpRequest) (isDumpHeaders isDumpBody : Bool) : Option Bytes := do
  let line ← stringFormat (httpMethodStr r.method ++ asc " " ++ cstr r.path ++ asc " HTTP/1.1" ++ crlf)
  return line ++ r.toHttpMsg.dump isDumpHeaders isDumpBody

def HttpResponse.dump (r : HttpResponse) (isDumpHeaders isDumpBody : Bool) : Bytes :=
  asc "HTTP/1.1 " ++ decimalInt r.statusCode ++ asc " " ++ httpStatusStr r.statusCode ++ crlf ++
    r.toHttpMsg.dump isDumpHeaders isDumpBody

end Feipu
