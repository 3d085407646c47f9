import PortExpander.Engine.Client
import PortExpander.Engine.Worker
import PortExpander.Registry

/-!
# Sessions

A session makes an extender on a board and plays steps one after the other. Operations that fall into the middle of others
are played to a depth that is computed from the steps; beyond it a session is `stalled`.
-/

namespace PortExpander

/-- What a call comes to when it is not refused. -/
def Call.answer (nest : Nest) : Call → Attempt Reply
  | setup pin attrs => do Client.setup pin attrs; return .done
  | write pin high => do Client.write pin high; return .done
  | read pin => return .bit (← Client.read nest pin)
  | flush => do Client.flush nest; return .done
  | attach pin handler => do Client.attach pin handler; return .done
  | detach pin => do Client.detach pin; return .done
  | interrupt line => do Client.interrupt line; return .done
  | set pin high => do Client.set nest pin high; return .done
  | get pin high => return .bit (← Client.get nest pin high)
  | setMany targets => do Client.setMany nest targets; return .done

namespace Session

open Sim

/-- What an attempt comes to; a refusal is an answer, too. -/
def answering (m : Attempt Reply) : Sim Reply := do
  match ← m.run with
  | .ok r => return r
  | .error e => return .error e

/-- Runs the worker with an agenda of its own. A fault ends the run, and only the run. -/
def runWorker (nest : Nest) (ticks : List (List Op)) : Sim Reply := do
  let outer := (← board).agenda
  modifyBoard ({ · with agenda := some (.new ticks) })
  let result ← outcome (Engine.work nest)
  modifyBoard ({ · with agenda := outer })
  match result with
  | .ok () => return .returned
  | .error f => return .fault f

/-- Plays one operation. -/
def perform (nest : Nest) : Op → Sim Reply
  | .call c => answering (c.answer nest)
  | .update => return .pass (← Engine.update nest)
  | .shutdown => return .bit (← Engine.shutdown nest)
  | .run ticks => runWorker nest ticks
  | .info => return .info (← extender).info
  | .indexOf pin => return .index pin
  | .change c => do
    modifyBoard (·.change c)
    return .done
  | .peek place => return .content ((← board).peek place)
  | .hook after ops => do
    modifyBoard (·.hook after ops)
    return .done
  | .handler argument ops => do
    modifyBoard (·.script argument ops)
    return .done
  | .panic => throw .handlerPanic

/-- Plays operations in order. -/
def playAll (play : Op → Sim Reply) : List Op → Sim Unit
  | [] => return
  | op :: ops => do
    note (.opBegan op)
    let r ← play op
    note (.opEnded op r)
    playAll play ops

/-- Plays operations in the middle of something. Their waits are not those of the worker that may be running. -/
def playInside (play : Op → Sim Reply) (ops : List Op) : Sim Unit := do
  let agenda := (← board).agenda
  modifyBoard ({ · with agenda := none })
  playAll play ops
  modifyBoard ({ · with agenda })

/-- Plays operations that may lie within one another to a depth. -/
def nestAt : Nat → Nest
  | _, [] => return
  | 0, _ :: _ => throw .stalled
  | depth + 1, op :: ops => playInside (perform (nestAt depth)) (op :: ops)

end Session

/-- Plays one step. -/
def Step.perform (nest : Nest) : Step → Sim Reply
  | claim pin => Session.answering do
    Client.claim pin
    return .done
  | free pin => do
    Client.free pin
    return .done
  | op o => Session.perform nest o

/-- What a session shows of a step. -/
structure Report where
  reply : Reply
  events : List Event
  errors : Nat
  claimed : Nat

/-- Plays one step to its end; a fault is the step's reply. -/
def State.step (s : State) (nest : Nest) (step : Step) : Reply × State :=
  let (result, s) := step.perform nest (s.noting (.stepBegan step))
  let reply := match result with
    | .ok r => r
    | .error f => .fault f
  (reply, { s with board := { s.board with agenda := none } }.noting (.stepEnded step reply))

/-- Plays steps in order. -/
def State.play (nest : Nest) : List Step → State → List Report × State
  | [], s => ([], s)
  | step :: steps, s =>
    let (reply, after) := s.step nest step
    let events := (after.history.take (after.history.length - s.history.length)).reverse
    let report : Report := { reply, events, errors := after.extender.backoff.count, claimed := after.extender.claims.count }
    let (reports, last) := State.play nest steps after
    (report :: reports, last)

/-- How the extender of a session is made. -/
inductive Origin where
  | generic (family : Family) (deviceId : Byte) (wired : Bool)
  | queued (wired : Nat → Bool)
  | driver (name : String) (bus : Bool) (config : Config)

/-- Makes the extender of a session. -/
def Origin.create : Origin → Creation × List LogRecord
  | generic family deviceId wired => (.ofExcept (Extender.generic family deviceId wired), [])
  | queued wired => (.created (.queued wired), [])
  | driver name bus config => Registry.defaults.create name bus config

/-- An extender that is to be made, the board for it, and what is to be played. -/
structure Session where
  origin : Origin
  board : Board
  steps : List Step

namespace Session

/-- The depth to which the operations of a session are played. The operations of a hook or a handler fall into a pass, in
which no other pass can be made, so a chain of operations leads through the operations of the steps at most twice. -/
def depth (s : Session) : Nat := 2 * (s.steps.map Step.height).foldl max 0 + 2

/-- Plays a session: what comes of making the extender, what that logs, and the reports of all steps. -/
def play (s : Session) : Creation × List LogRecord × List Report :=
  let (creation, log) := s.origin.create
  match creation with
  | .created e =>
    let start : State := { extender := e, board := s.board, history := [] }
    (creation, log, (start.play (nestAt s.depth) s.steps).1)
  | _ => (creation, log, [])

end Session

end PortExpander
