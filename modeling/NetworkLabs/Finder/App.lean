import Mathlib.Data.String.Basic
import NetworkLabs.OrderedMap
import NetworkLabs.Transition

/-! The multicast finder: its datagrams, its table of programs and its main loop. -/
namespace NetworkLabs.Finder

open Transition

/-- `"Alive"`. -/
def pingMessage : List UInt8 := [65, 108, 105, 118, 101]

/-- `"Leave"`. -/
def exitMessage : List UInt8 := [76, 101, 97, 118, 101]

/-- In seconds. -/
def timeout : Int := 5

/-- The age from which on an entry of the table is cleared. -/
def expiry : Int := 300 * 1000

inductive Thrown
  | concurrentModification
deriving DecidableEq

/-- The fields of the program, and the buffer of its packet. -/
structure App where
  knownPrograms : OrderedMap String Int
  buf : List UInt8
  timeoutReached : Bool

/-- What a datagram leaves in a buffer of five bytes. -/
def received (buf payload : List UInt8) : List UInt8 :=
  payload.take 5 ++ buf.drop (min payload.length 5)

namespace App

/-- The `switch` on the message, `none` when it is neither. -/
def record (s : App) (address : String) (time : Int) : Option (OrderedMap String Int) :=
  if s.buf = pingMessage then some (s.knownPrograms.put address time)
  else if s.buf = exitMessage then some (s.knownPrograms.remove address)
  else none

/-- The first entry, in the order of the keys, that the lambda removes. -/
def expired (known : OrderedMap String Int) (currTime : Int) : Option (String × Int) :=
  known.entries.find? fun e => ¬ currTime - e.2 < expiry

/-- The lines printed. `forEach` throws when it finds that the lambda removed something. -/
def parseRecvPacket (s : App) (address : String) (time currTime : Int) :
    Except Thrown (App × List String) :=
  match s.record address time with
  | none => .ok (s, ["wtf"])
  | some known =>
    match expired known currTime with
    | some _ => .error .concurrentModification
    | none => .ok ({ s with knownPrograms := known },
        "List of active programs" :: (if known.entries = [] then ["No copies detected"] else []) ++
          known.entries.map Prod.fst)

/-- At the start of `work` a timeout counts as reached. -/
def initial : App := ⟨.empty, List.replicate 5 0, true⟩

end App

/-- What a call of `receive` comes to: a datagram after some time, or a timeout. -/
inductive Reception
  | datagram (wait : Int) (address : String) (payload : List UInt8)
  | timedOut

/-- How long the call takes. -/
def Reception.wait : Reception → Int
  | .datagram wait _ _ => wait
  | .timedOut => timeout * 1000

/-- A datagram comes before the timeout. -/
def Reception.InTime (r : Reception) : Prop := 0 ≤ r.wait ∧ r.wait ≤ timeout * 1000

/-- The main loop with the time, and the times at which `pingMessage` was sent. -/
structure Work where
  app : App
  now : Int
  sent : List Int

namespace Work

/-- The first half of an iteration. -/
def announce (s : Work) : Work :=
  if s.app.timeoutReached then
    { s with app := { s.app with timeoutReached := false }, sent := s.sent ++ [s.now] }
  else s

/-- An iteration of the loop. -/
def iterate (s : Work) (r : Reception) : Except Thrown Work :=
  let s := s.announce
  let now := s.now + r.wait
  match r with
  | .timedOut => .ok { s with app := { s.app with timeoutReached := true }, now := now }
  | .datagram _ address payload =>
    ({ s.app with buf := received s.app.buf payload } : App).parseRecvPacket address now now |>.map
      fun r => { s with app := r.1, now := now }

def lts : LTS Work Reception := ⟨fun s r t => r.InTime ∧ s.iterate r = .ok t⟩

def start (now : Int) : Work := ⟨.initial, now, []⟩

end Work

end NetworkLabs.Finder
