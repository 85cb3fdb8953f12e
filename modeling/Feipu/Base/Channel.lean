import Mathlib.Logic.Basic

/-!
# `Channel` (base/src/Channel.cpp, base/include/Channel.h)

What a channel asks the poller for.  The two flags and the event word say the same thing, and the
type says so (`events_eq`).  The calls of `update_channel` are made by whoever owns the channel.
-/

namespace Feipu

def pollIn : BitVec 16 := 0x1
def pollPri : BitVec 16 := 0x2
def pollOut : BitVec 16 := 0x4
def pollHup : BitVec 16 := 0x10
def pollRdhup : BitVec 16 := 0x2000

def noneEvent : BitVec 16 := 0
def readEvent : BitVec 16 := pollIn ||| pollPri
def writeEvent : BitVec 16 := pollOut

/-- the event word that goes with the two flags -/
def eventMask (reading writing : Bool) : BitVec 16 :=
  (if reading then readEvent else noneEvent) ||| (if writing then writeEvent else noneEvent)

structure Channel where
  events : BitVec 16
  isReading : Bool
  isWriting : Bool
  events_eq : events = eventMask isReading isWriting
deriving DecidableEq

namespace Channel

def new : Channel where
  events := noneEvent
  isReading := false
  isWriting := false
  events_eq := by decide

def disableAll (_ : Channel) : Channel where
  events := noneEvent
  isReading := false
  isWriting := false
  events_eq := by decide

def isNoneEvent (c : Channel) : Bool := c.events == noneEvent

def enableRead (c : Channel) : Channel where
  events := c.events ||| readEvent
  isReading := true
  isWriting := c.isWriting
  events_eq := by
    rw [c.events_eq]
    cases c.isReading <;> cases c.isWriting <;> decide

def disableRead (c : Channel) : Channel where
  events := c.events &&& ~~~readEvent
  isReading := false
  isWriting := c.isWriting
  events_eq := by
    rw [c.events_eq]
    cases c.isReading <;> cases c.isWriting <;> decide

def enableWrite (c : Channel) : Channel where
  events := c.events ||| writeEvent
  isReading := c.isReading
  isWriting := true
  events_eq := by
    rw [c.events_eq]
    cases c.isReading <;> cases c.isWriting <;> decide

def disableWrite (c : Channel) : Channel where
  events := c.events &&& ~~~writeEvent
  isReading := c.isReading
  isWriting := false
  events_eq := by
    rw [c.events_eq]
    cases c.isReading <;> cases c.isWriting <;> decide

/-- a channel without interest is neither reading nor writing -/
theorem isNoneEvent_iff (c : Channel) :
    c.isNoneEvent = true ↔ c.isReading = false ∧ c.isWriting = false := by
  rw [isNoneEvent, c.events_eq]
  cases c.isReading <;> cases c.isWriting <;> decide

end Channel

/-- the callbacks of a channel -/
inductive EventCall where
  | close | read | write
deriving DecidableEq

/-- `Channel::handleEvent`: the callbacks it calls, in order -/
def handleEvent (revents : BitVec 16) : List EventCall :=
  (if revents &&& pollHup ≠ 0 ∧ revents &&& pollIn = 0 then [.close] else []) ++
  (if revents &&& (pollIn ||| pollPri ||| pollRdhup) ≠ 0 then [.read] else []) ++
  (if revents &&& pollOut ≠ 0 then [.write] else [])

end Feipu
