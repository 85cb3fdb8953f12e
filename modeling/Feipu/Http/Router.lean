import Feipu.Base.Logging
import Feipu.Http.HttpMsg

/-!
# `Router` (http/Router.cpp)

The table `entries` is listed in the order in which the `unordered_map` enumerates it.  The two
cursors of `match` are the rest of the pattern (`kp`) and the rest of the path (`vp`); every round
of the loop moves `kp` on, so its length bounds the number of rounds.
-/

namespace Feipu
open CStr

/-- `std::function`; `none` is the empty function -/
abbrev HandleFuc := Option (HttpRequest → HttpResponse → HttpResponse)

structure HttpMethodHandler where
  method : HttpMethod
  handler : HandleFuc

structure Router where
  entries : List (Bytes × List HttpMethodHandler)

/-- `'/'` -/
def slash : UInt8 := 47

/-- neither the end of the string nor a `'/'` -/
def inSegment (c : UInt8) : Bool := c != 0 && c != slash

namespace Router

/-- the handlers under a path; none where the table has no such path -/
def handlersOf (path : Bytes) (entries : List (Bytes × List HttpMethodHandler)) :
    List HttpMethodHandler :=
  match entries.find? (fun e => e.1 == path) with
  | some e => e.2
  | none => []

/-- `entries_[path] = handlers` -/
def setEntry (path : Bytes) (handlers : List HttpMethodHandler) :
    List (Bytes × List HttpMethodHandler) → List (Bytes × List HttpMethodHandler)
  | [] => [(path, handlers)]
  | e :: rest => if e.1 = path then (path, handlers) :: rest else e :: setEntry path handlers rest

def route (r : Router) (path : Bytes) (methodRoute : HttpMethod) (handler : HandleFuc) :
    Except Fatal Router :=
  let handlers := handlersOf path r.entries
  if handlers.any (fun h => h.method == methodRoute) then .error .routerRoute
  else .ok ⟨setEntry path (handlers ++ [⟨methodRoute, handler⟩]) r.entries⟩

/-- the loop `while (*kp && *vp)` for one entry -/
def matchLoop : Nat → Bytes → Bytes → SMap Bytes Bytes →
    Except Fatal (Bytes × Bytes × SMap Bytes Bytes)
  | 0, kp, vp, mtch => .ok (kp, vp, mtch)
  | k + 1, kp, vp, mtch =>
    if at' kp 0 = 0 ∨ at' vp 0 = 0 then .ok (kp, vp, mtch)
    else if at' kp 0 ≠ at' vp 0 then .ok (kp, vp, mtch)
    else if at' kp 0 = slash ∧ at' kp 1 = 42 then
      -- "*name": all that remains of the path
      let ks := kp.drop 2
      let vs := vp.drop 1
      let kp' := ks.dropWhile inSegment
      if at' kp' 0 = slash ∧ at' kp' 1 ≠ 0 then .error .routerMatch
      else matchLoop k kp' (vs.dropWhile (· != 0))
        (mtch.set (ks.takeWhile inSegment) (cstr vs))
    else if at' kp 0 = slash ∧ (at' kp 1 = 58 ∨ at' kp 1 = 123) then
      -- ":name" or "{name}": one segment; `*(ks - 1)` is the '/' itself
      let ks := kp.drop 1
      let vs := vp.drop 1
      let key := ks.takeWhile inSegment
      let klen := if at' kp 0 = 123 ∧ at' ks (key.length - 1) = 125 then key.length - 1 else key.length
      matchLoop k (ks.dropWhile inSegment) (vs.dropWhile inSegment)
        (mtch.set (ks.take klen) (vs.takeWhile inSegment))
    else matchLoop k (kp.drop 1) (vp.drop 1) mtch

/-- the part of the path before the first `'?'` -/
def matchPath (req : HttpRequest) : Bytes := req.path.takeWhile fun c => c != 0 && c != 63

/-- the walk over the entries -/
def matchEntries (req : HttpRequest) :
    List (Bytes × List HttpMethodHandler) → Except Fatal (HandleFuc × HttpRequest)
  | [] => .ok (none, req)
  | (pattern, handlers) :: rest => do
    let (kp, vp, mtch) ← matchLoop (pattern.length + 1) (cstr pattern) (matchPath req) .empty
    if at' vp 0 = 0 ∧ at' kp 0 = 0 then
      match handlers.find? (fun h => h.method == req.method) with
      | some h =>
        let pathMatches := mtch.entries.foldl (fun m e => m.set e.1 e.2) req.pathMatches
        return (h.handler, { req with pathMatches })
      | none => matchEntries req rest
    else matchEntries req rest

/-- `Router::match` -/
def match' (r : Router) (req : HttpRequest) : Except Fatal (HandleFuc × HttpRequest) :=
  matchEntries req r.entries

def deal (r : Router) (req : HttpRequest) (resp : HttpResponse) :
    Except Fatal (HttpRequest × HttpResponse) := do
  match ← r.match' req with
  | (some func, req) => return (req, func req resp)
  | (none, req) => return (req, { resp with statusCode := statusNotImplemented })

end Router

end Feipu
