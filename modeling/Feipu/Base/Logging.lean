import Mathlib.Logic.Basic

/-!
# Ways for the process to end (base/src/Logging.cpp)

`Logger::~Logger` calls `abort ()` for a message of level `FATAL`.  A function that can end the
process returns `Except Fatal`.
-/

namespace Feipu

inductive Fatal where
  /-- "TcpConnection::shutInloop() should be call when the data is not writing." -/
  | shutInLoop
  /-- "TcpConnection: write error." -/
  | bufferIntoNet
  /-- "Try to disconnect multipy times." -/
  | handleClose
  /-- `EventLoop::assertInLoopThread` -/
  | loopThread
  /-- "Parse http : INNER ERROR" -/
  | onRecv
  /-- "Router: path and method cannot be dumplicate at same time." -/
  | routerRoute
  /-- "Route: `*` usage error." -/
  | routerMatch
  /-- a failed `assert` -/
  | assertion
  /-- a copy outside its arrays -/
  | undefined
deriving DecidableEq

/-- a computation whose `none` is a failed assertion -/
def asserted {α : Type} : Option α → Except Fatal α
  | some a => .ok a
  | none => .error .assertion

/-- what holds unless the process has ended -/
def Alive {α : Type} (P : α → Prop) (x : Except Fatal α) : Prop := ∀ a, x = .ok a → P a

theorem alive_ok {α : Type} {P : α → Prop} {a : α} (h : P a) : Alive P (.ok a) := by
  intro b hb
  rw [← Except.ok.inj hb]
  exact h

theorem bind_ok {α β : Type} {x : Except Fatal α} {f : α → Except Fatal β} {b : β}
    (h : x >>= f = .ok b) : ∃ a, x = .ok a ∧ f a = .ok b := by
  cases x with
  | error e => cases h
  | ok a => exact ⟨a, rfl, h⟩

theorem asserted_ok {p : Bool} {u : Unit}
    (h : asserted (if p then some () else none) = .ok u) : p = true := by
  cases p with
  | true => rfl
  | false => cases h

end Feipu
