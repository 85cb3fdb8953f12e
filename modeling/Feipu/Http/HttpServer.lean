import Feipu.Base.TcpConnection
import Feipu.Http.HttpHandler

/-!
# `HttpServer` (http/HttpServer.cpp)

One connection of the server: its socket and the `HttpHandler` that `on_connect` has put into its
context.  `Visit` records what a read event does; the server sets no `write_cb_`.
-/

namespace Feipu

structure HttpConn where
  sock : Sock
  handler : HttpHandler

/-- what a read event does: the status `parse_http` returned (if it was called and returned),
whether `handle_http` and `Router::deal` were called, and the connection afterwards -/
structure Visit where
  status : Option ParseStatus := none
  handled : Bool := false
  dealt : Bool := false
  after : Except Fatal HttpConn

namespace HttpConn

/-- `on_connect`; `m` and `c` are what the memory of the new messages held -/
def onConnect (router : Option Router) (m : HttpMethod) (c : HttpStatus) : HttpConn where
  sock := .established false
  handler := (HttpHandler.fresh m c).init router

def shutdown (c : HttpConn) : Except Fatal HttpConn :=
  c.sock.shutdown.map fun sock => { c with sock }

/-- `HttpHandler::handle_http`: was `Router::deal` called, and the connection afterwards -/
def handleHttp (c : HttpConn) (n : Int) : Bool × Except Fatal HttpConn :=
  match c.handler.router with
  | none => (false, .ok c)
  | some router =>
    (true, do
      let (req, respon) ← router.deal c.handler.req c.handler.respon
      let sock ← c.sock.send (respon.dump true true) n
      return { sock, handler := { c.handler with req, respon } })

/-- the end of `on_recv` -/
def finish (c : HttpConn) (status : ParseStatus) (n : Int) : Visit where
  status := some status
  handled := true
  dealt := (c.handleHttp n).1
  after := (c.handleHttp n).2 >>= shutdown

/-- the connection with what `parse_http` leaves -/
def parsed (c : HttpConn) (handler : HttpHandler) (inBuffer : Buffer) : HttpConn where
  sock := { c.sock with conn := { c.sock.conn with inBuffer } }
  handler := handler

/-- what `on_recv` does with the status: the branch of `PARSE_ERROR` does not return -/
def decided (c : HttpConn) (status : ParseStatus) (n : Int) : Visit :=
  match status with
  | .parseError =>
    match c.shutdown with
    | .error f => { status := some .parseError, after := .error f }
    | .ok c => c.finish .parseError n
  | .parseRecv => { status := some .parseRecv, after := .ok c }
  | .parseNext => { status := some .parseNext, after := .error .onRecv }
  | .parseEnd => c.finish .parseEnd n

def onRecv (c : HttpConn) (n : Int) : Visit :=
  match c.handler.parseHttp c.sock.conn.inBuffer with
  | none => { after := .error .assertion }
  | some (status, handler, inBuffer) => (c.parsed handler inBuffer).decided status n

/-- `TcpConnection::NetIntoBuffer` when `readv` has delivered `chunk`; nothing is the end of the
stream, and `on_connect` does nothing for a connection that is no longer connected -/
def netIntoBuffer (c : HttpConn) (chunk : Bytes) (n : Int) : Visit :=
  if chunk = [] then { after := c.sock.handleClose.map fun sock => { c with sock } }
  else match c.sock.conn.inBuffer.readFd chunk with
  | none => { after := .error .undefined }
  | some inBuffer => (c.parsed c.handler inBuffer).onRecv n

/-! ## runs -/

/-- `n` is the answer of the `write` that the event makes, if it makes one -/
inductive Act where
  | read (chunk : Bytes) (n : Int)
  | writable (n : Int)

def exec (c : HttpConn) : Act → Except Fatal HttpConn
  | .read chunk n => (c.netIntoBuffer chunk n).after
  | .writable n => (c.sock.bufferIntoNet n).map fun sock => { c with sock }

inductive Step : Except Fatal HttpConn → Act → Except Fatal HttpConn → Prop where
  | mk (c : HttpConn) (a : Act) : Step (.ok c) a (c.exec a)

end HttpConn

end Feipu
