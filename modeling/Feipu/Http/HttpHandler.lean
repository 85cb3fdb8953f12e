import Feipu.Base.Buffer
import Feipu.Http.Router

/-!
# `HttpHandler` (http/HttpHandler.cpp)

The parser of one connection: the functions of the source on a `Buffer`, before anything is proved
about them.  The text of a line is the memory from `peek ()` on, read as a C string; `none` is a
failed `assert` of the buffer.
-/

namespace Feipu
open CStr

inductive ParseStatus where
  | parseNext | parseError | parseRecv | parseEnd
deriving DecidableEq

inductive RequestState where
  | requestline | header | content
deriving DecidableEq

inductive LineStatus where
  | lineOk | lineBad | lineOpen
deriving DecidableEq

structure HttpHandler where
  router : Option Router := none
  checkState : RequestState := .requestline
  lineState : LineStatus := .lineOpen
  lineIndex : Nat := 0
  req : HttpRequest
  respon : HttpResponse

/-- `HttpHandler::HttpHandler`, with what the memory of the two new messages held -/
def HttpHandler.fresh (m : HttpMethod) (c : HttpStatus) : HttpHandler where
  req := .new m
  respon := .new c

/-- `HttpHandler::init` -/
def HttpHandler.init (h : HttpHandler) (router : Option Router) : HttpHandler := { h with router }

/-! ## lines -/

/-- the loop of `parse_line` from `i` on, `k` bytes before the end of what is readable -/
def parseLineLoop (b : Buffer) : Nat → Nat → Option (LineStatus × Nat × Buffer)
  | 0, i => some (.lineOpen, i, b)
  | k + 1, i =>
    let tmp := at' b.peek i
    if tmp = 13 then
      if i + 1 = b.getReadableBytes then some (.lineOpen, i, b)
      else if at' b.peek (i + 1) = 10 then
        (b.replaceCRCF i).map fun b' => (.lineOk, i + 2, b')
      else some (.lineBad, i, b)
    else if tmp = 10 then
      if i > 0 ∧ at' b.peek (i - 1) = 13 then
        (b.replaceCRCF (i - 1)).map fun b' => (.lineOk, i + 1, b')
      else some (.lineBad, i, b)
    else parseLineLoop b k (i + 1)

def parseLine (lineIndex : Nat) (b : Buffer) : Option (LineStatus × Nat × Buffer) :=
  parseLineLoop b (b.getReadableBytes - lineIndex) lineIndex

/-! ## what a line says -/

/-- neither the end of the string nor a blank -/
def inWord (c : UInt8) : Bool := c != 0 && c != 32

/-- `parse_request_line`: the method and the path are stored as soon as they are read.  The `int`s of
the source have no bound here; `parseRequestLineIn` has them checked. -/
def parseRequestLine (text : Bytes) (req : HttpRequest) : ParseStatus × HttpRequest :=
  let method := text.takeWhile inWord
  let text := text.drop method.length
  if at' text 0 = 0 then (.parseError, req)
  else match req.setMethod method with
  | none => (.parseError, req)
  | some req =>
    let text := text.drop 1
    let url := text.takeWhile inWord
    let text := text.drop url.length
    if at' text 0 = 0 then (.parseError, req)
    else match req.setUrl url with
    | none => (.parseError, req)
    | some req =>
      match req.setVersion (cstr (text.drop 1)) with
      | none => (.parseError, req)
      | some req => (.parseNext, req)

/-- `" \t"` -/
def blanks : Bytes := [32, 9]

/-- `"Content-length:"` -/
def contentLengthKey : Bytes := asc "Content-length:"

def parseHeaders (text : Bytes) (req : HttpRequest) : ParseStatus × HttpRequest :=
  if at' text 0 = 0 then (if req.contentLenth ≠ 0 then .parseNext else .parseEnd, req)
  else if strncaseeq text contentLengthKey 15 then
    let text := text.drop 15
    let text := text.drop (strspn text blanks)
    (.parseRecv,
      { req with
        headers := req.headers.set (asc "Content-length") (cstr text)
        contentLenth := toSizeT (atol text) })
  else
    let text := text.drop (strspn text blanks)
    if strcspn text (asc " \t:") = 0 then (.parseError, req)
    else match strpbrk text (asc ":") with
    | none => (.parseError, req)
    | some colon =>
      let key := text.take colon
      let text := text.drop (colon + 1)
      let text := text.drop (strspn text blanks)
      (.parseRecv, { req with headers := req.headers.set key (cstr text) })

def parseContent (data : Bytes) (len : Nat) (req : HttpRequest) : ParseStatus × HttpRequest :=
  if len ≥ req.contentLenth then
    (.parseEnd, { req with contentData := req.contentData ++ data.take req.contentLenth })
  else (.parseRecv, req)

/-! ## the state machine -/

/-- what one round of `while (true)` leads to: a status to return, or another round -/
inductive Round where
  | ret (status : ParseStatus) (h : HttpHandler) (b : Buffer)
  | again (h : HttpHandler) (b : Buffer)

namespace HttpHandler

/-- the `switch` on `check_state_`, after `LINE_OK` -/
def dispatch (h : HttpHandler) (b : Buffer) : Option Round :=
  match h.checkState with
  | .requestline => do
    let (status, req) := parseRequestLine b.peek h.req
    let b ← b.retrieve h.lineIndex
    let h := { h with req, lineIndex := 0 }
    if status = .parseError ∨ status = .parseEnd then return .ret status h b
    return .again { h with checkState := .header } b
  | .header => do
    let (status, req) := parseHeaders b.peek h.req
    let b ← b.retrieve h.lineIndex
    let h := { h with req, lineIndex := 0 }
    if status = .parseRecv then return .again h b
    if status = .parseNext then return .again { h with checkState := .content } b
    return .ret status h b
  | .content => do
    let readableN := b.getReadableBytes
    let (status, req) := parseContent b.peek readableN h.req
    let h := { h with req }
    if status = .parseRecv then return .ret .parseRecv h b
    let b ← if status = .parseEnd then b.retrieve readableN else some b
    if status = .parseError ∨ status = .parseEnd then return .ret status h b
    return .again h b

/-- one round of the loop of `parse_http` -/
def round (h : HttpHandler) (b : Buffer) : Option Round :=
  if h.checkState = .content then { h with lineState := .lineOk }.dispatch b
  else do
    let (lineState, lineIndex, b) ← parseLine h.lineIndex b
    let h := { h with lineState, lineIndex }
    match lineState with
    | .lineBad => return .ret .parseError h b
    | .lineOpen => return .ret .parseRecv h b
    | .lineOk => h.dispatch b

/-- at most `k` rounds; past the loop stands `return PARSE_RECV` -/
def rounds : Nat → HttpHandler → Buffer → Option (ParseStatus × HttpHandler × Buffer)
  | 0, h, b => some (.parseRecv, h, b)
  | k + 1, h, b =>
    match h.round b with
    | none => none
    | some (.ret status h b) => some (status, h, b)
    | some (.again h b) => rounds k h b

/-- `parse_http`: every round that goes on takes a line out of the buffer, so the bound on the
rounds is never met -/
def parseHttp (h : HttpHandler) (b : Buffer) : Option (ParseStatus × HttpHandler × Buffer) :=
  rounds (b.getReadableBytes + 1) h b

end HttpHandler

end Feipu
