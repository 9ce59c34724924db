import ChromeLight.Ipc
import ChromeLight.Lib.Duplex

/-!
# The browser and a child

The browser process (`spawn` of `crates/process` and `browser.rs` of the application) and a child process it spawns (`main.rs` and
`child.rs`), with the operating system between them. The bootstrap server and the two byte channels of `ipc_channel` are a transport
that is a parameter (`Duplex.Transport`); the browser is its server. A state of either process is the call its code is in, and a step
is what the call comes to: its effect, a time-out, or a failure of the operating system or of the transport (`Outcome`). A call of the
transport may also not come back. The steps of the two interleave in any order.

The child runs this program (`ChildStep`), or is any process at all (`AnyChildStep`): it calls the transport as it likes, or does to
it whatever else can be done, and exits whenever it likes.
-/

namespace ChromeLight

namespace Process

open Ipc Duplex

/-- How a process has ended. -/
inductive ExitStatus where
  | exited (code : Int)
  | signaled
deriving DecidableEq, Repr

/-- The process has ended with code zero. -/
def ExitStatus.success : ExitStatus → Bool
  | exited code => code = 0
  | signaled => false

/-- The child's process: it stays a zombie from its end until its parent waits for it. -/
inductive OsProcess where
  | unspawned
  | running
  | zombie (status : ExitStatus)
  | reaped (status : ExitStatus)
deriving DecidableEq, Repr

/-- A running process is ended by a signal. -/
def OsProcess.kill : OsProcess → OsProcess
  | running => zombie .signaled
  | process => process

/-- How a call comes out. -/
inductive Outcome where
  | success
  | timedOut
  | failed
deriving DecidableEq, Repr

/-- What the browser cannot do with a child. -/
inductive ProcessError (π : Type) where
  | spawn (error : IoError)
  | ipc (error : IpcError π)
  | child (error : IoError)
deriving DecidableEq, Repr

/-- What the browser's `run` fails with. -/
inductive RunError (π : Type) where
  /-- `current_exe` -/
  | executable (error : IoError)
  | process (error : ProcessError π)
  | ipc (error : IpcError π)
  /-- `expected Pong(1)` -/
  | unexpectedPong (got : ToBrowser)
  | simulatedFailure
  /-- `renderer exited with` -/
  | rendererExited (status : ExitStatus)
deriving DecidableEq, Repr

/-- Why there is no sandbox. -/
inductive SandboxError where
  | notImplemented
deriving DecidableEq, Repr

/-- The policies a child may start with. -/
inductive SandboxPolicy where
  | notImplemented
  | devNoSandbox
deriving DecidableEq, Repr

/-- No policy makes a sandbox yet; one goes on without. -/
def SandboxPolicy.apply : SandboxPolicy → Except SandboxError Unit
  | notImplemented => .error .notImplemented
  | devNoSandbox => .ok ()

/-- What the two processes are started with. -/
structure Config (π : Type) where
  /-- What the browser spawns the child as; `--type=` brings it to the child (`ProcessType.fromStr_asStr`). -/
  processType : ProcessType
  pid : UInt32
  noSandbox : Bool
  debugAssertions : Bool
  browserFailAfterHandshake : Bool
  toBrowser : Postcard π ToBrowser
  toChild : Postcard π ToChild

namespace Config

variable {π : Type} (cfg : Config π)

/-- Only a debug build may go on without a sandbox. -/
def choosePolicy : SandboxPolicy :=
  if cfg.debugAssertions && cfg.noSandbox then .devNoSandbox else .notImplemented

/-- What the browser knows of the child it spawned. -/
def ctx : ReceiverCtx := { expectedProcessType := cfg.processType, expectedPid := some cfg.pid }

/-- What a child of `child.rs` says of itself. -/
def hello : Hello := { protocolVersion := protocolVersion, processType := cfg.processType, pid := cfg.pid }

end Config

/-! ## States -/

/-- The call the browser is in. -/
inductive BrowserState (π : Type) where
  /-- `current_exe` and `BootstrapServer::new` -/
  | bootstrapping
  /-- `Command::spawn` -/
  | spawning
  /-- `accept_with_timeout` -/
  | accepting
  /-- `recv_timeout` in `browser_side` -/
  | awaitingHello
  /-- `send` in `browser_side`, with what it returns after it -/
  | acking (accepted : Bool) (result : Except (IpcError π) Hello)
  /-- `send` of the ping: `spawn` has returned -/
  | pinging (hello : Hello)
  /-- `recv_timeout` of the pong -/
  | awaitingPong (hello : Hello)
  /-- `send` of the shutdown -/
  | shuttingDown (hello : Hello)
  /-- `renderer.wait` -/
  | waiting (hello : Hello)
  /-- `try_wait` in the `drop` of the child's handle, with what `run` returns after it -/
  | dropping (hello : Hello) (result : Except (RunError π) Unit)
  /-- `child.kill` in `kill_and_reap` -/
  | killing (result : Except (RunError π) Unit)
  /-- `child.wait` in `kill_and_reap` -/
  | reaping (result : Except (RunError π) Unit)
  | returned (result : Except (RunError π) Unit)

/-- What ends a child's service. -/
inductive ChildError (π : Type) where
  | ipc (error : IpcError π)
  | duplicateHelloAck
deriving DecidableEq, Repr

/-- How the child's `main` ends. -/
inductive ChildResult (π : Type) where
  /-- `telemetry::init` failed in `main`. -/
  | telemetryFailed
  | sandboxUnavailable
  | served (result : Except (ChildError π) Unit)

/-- The exit code of the child's `main`. -/
def ChildResult.exitCode {π : Type} : ChildResult π → Int
  | telemetryFailed => 1
  | sandboxUnavailable => 78
  | served (.ok ()) => 0
  | served (.error _) => 1

/-- The call the child is in. -/
inductive ChildState (π : Type) where
  /-- `telemetry::init` -/
  | initializing
  /-- `Sandbox::apply` -/
  | starting
  /-- `connect_child` -/
  | connecting
  /-- `send` in `child_side` -/
  | greeting
  /-- `recv` in `child_side` -/
  | awaitingAck
  /-- `recv` in `serve` -/
  | serving
  /-- `send` of the pong -/
  | answering (nonce : UInt64)
  | exited (result : ChildResult π)

/-- The process of a child in that state. -/
def ChildState.process {π : Type} : ChildState π → OsProcess
  | exited result => .zombie (.exited result.exitCode)
  | _ => .running

/-- The two processes, with what is between them. -/
structure World (σ π : Type) where
  browser : BrowserState π
  child : ChildState π
  process : OsProcess
  transport : σ
  /-- What the child has sent by calls of the transport, and what the browser has received. -/
  toBrowser : Log (List UInt8)
  /-- What the browser has sent, and what the child has received by calls of the transport. -/
  toChild : Log (List UInt8)
  /-- An attempt to kill the child, or to wait for it, has failed. -/
  osFailed : Bool

namespace World

variable {σ π : Type}

/-- Before the browser has done anything. -/
def start (T : Transport σ (List UInt8) String) : World σ π where
  browser := .bootstrapping
  child := .initializing
  process := .unspawned
  transport := T.start
  toBrowser := .empty
  toChild := .empty
  osFailed := false

/-- The child's code goes on to another call, or exits. -/
def childAt (w : World σ π) (child : ChildState π) : World σ π := { w with child, process := child.process }

end World

/-! ## The browser's steps -/

variable {σ π : Type}

/-- What an endpoint's `send` comes to: the bytes that were sent, or the error of the codec or of the channel. -/
inductive Sends {α : Type} (T : Transport σ (List UInt8) String) (P : Postcard π α) (side : Side) (message : α) (s : σ) :
    Except (IpcError π) (List UInt8) → σ → Prop where
  | codec {e : CodecError π} (he : encode P message = .error e) : Sends T P side message s (.error (.codec e)) s
  | channel {bytes : List UInt8} {text : String} {t : σ} (he : encode P message = .ok bytes)
      (hT : T.send side bytes s (.error text) t) : Sends T P side message s (.error (.channel text)) t
  | sent {bytes : List UInt8} {t : σ} (he : encode P message = .ok bytes) (hT : T.send side bytes s (.ok ()) t) :
      Sends T P side message s (.ok bytes) t

section

variable (T : Transport σ (List UInt8) String) (cfg : Config π)

/-- `spawn` kills and reaps the child, and `run` returns the error. -/
def BrowserState.spawnFailed (e : IpcError π) : BrowserState π := .killing (.error (.process (.ipc e)))

/-- The browser after the first message of the child. -/
def afterHello : Except (CodecError π) ToBrowser → BrowserState π
  | .error e => .spawnFailed (.codec e)
  | .ok message =>
    let (accepted, result) := browserSide cfg.ctx message
    .acking accepted result

/-- The browser after the acknowledgement is sent. -/
def afterAck : Except (IpcError π) Hello → BrowserState π
  | .ok hello => .pinging hello
  | .error e => .spawnFailed e

/-- The browser after the answer to its ping. -/
def afterPong (hello : Hello) : Except (CodecError π) ToBrowser → BrowserState π
  | .error e => .dropping hello (.error (.ipc (.codec e)))
  | .ok message =>
    if message = .pong 1 then
      if cfg.browserFailAfterHandshake then .dropping hello (.error .simulatedFailure) else .shuttingDown hello
    else .dropping hello (.error (.unexpectedPong message))

/-- The child did not connect in time. -/
def acceptTimeout : IoError := ⟨.timedOut, "child did not connect to bootstrap server in time"⟩

/-- The child did not answer in time. -/
def recvTimeout : IoError := ⟨.timedOut, "child did not answer in time"⟩

/-- The steps of `spawn` and `browser.rs`. -/
inductive BrowserStep : Outcome → World σ π → World σ π → Prop where
  | bootstraps {w : World σ π} (h : w.browser = .bootstrapping) : BrowserStep .success w { w with browser := .spawning }
  | executableFails {w : World σ π} (e : IoError) (h : w.browser = .bootstrapping) :
      BrowserStep .failed w { w with browser := .returned (.error (.executable e)) }
  | bootstrapFails {w : World σ π} (e : IoError) (h : w.browser = .bootstrapping) :
      BrowserStep .failed w { w with browser := .returned (.error (.process (.ipc (.transport e)))) }
  | spawns {w : World σ π} (h : w.browser = .spawning) :
      BrowserStep .success w { w with browser := .accepting, process := .running }
  | spawnFails {w : World σ π} (e : IoError) (h : w.browser = .spawning) :
      BrowserStep .failed w { w with browser := .returned (.error (.process (.spawn e))) }
  | accepts {w : World σ π} {t : σ} (h : w.browser = .accepting) (hT : T.accept w.transport (.ok ()) t) :
      BrowserStep .success w { w with browser := .awaitingHello, transport := t }
  | acceptTimesOut {w : World σ π} (h : w.browser = .accepting) :
      BrowserStep .timedOut w { w with browser := .spawnFailed (.transport acceptTimeout) }
  /-- The helper thread does not start. -/
  | acceptThreadFails {w : World σ π} (e : IoError) (h : w.browser = .accepting) :
      BrowserStep .failed w { w with browser := .spawnFailed (.transport e) }
  /-- The helper thread panics, as it may on a message it cannot deserialize. -/
  | acceptThreadDies {w : World σ π} (h : w.browser = .accepting) :
      BrowserStep .failed w { w with browser := .spawnFailed (.channel "bootstrap accept thread died") }
  | acceptFails {w : World σ π} {text : String} {t : σ} (h : w.browser = .accepting) (hT : T.accept w.transport (.error text) t) :
      BrowserStep .failed w { w with browser := .spawnFailed (.channel text), transport := t }
  | receivesHello {w : World σ π} {bytes : List UInt8} {t : σ} (h : w.browser = .awaitingHello)
      (hT : T.receive .server w.transport (.ok bytes) t) :
      BrowserStep .success w { w with
        browser := afterHello cfg (decode cfg.toBrowser bytes)
        transport := t
        toBrowser := w.toBrowser.receive bytes }
  | helloTimesOut {w : World σ π} (h : w.browser = .awaitingHello) (hT : T.empty .server w.transport) :
      BrowserStep .timedOut w { w with browser := .spawnFailed (.transport recvTimeout) }
  | helloFails {w : World σ π} {text : String} {t : σ} (h : w.browser = .awaitingHello)
      (hT : T.receive .server w.transport (.error text) t) :
      BrowserStep .failed w { w with browser := .spawnFailed (.channel text), transport := t }
  | acks {w : World σ π} {accepted : Bool} {result : Except (IpcError π) Hello} {bytes : List UInt8} {t : σ}
      (h : w.browser = .acking accepted result) (hT : Sends T cfg.toChild .server (.helloAck accepted) w.transport (.ok bytes) t) :
      BrowserStep .success w { w with browser := afterAck result, transport := t, toChild := w.toChild.send bytes }
  | ackFails {w : World σ π} {accepted : Bool} {result : Except (IpcError π) Hello} {e : IpcError π} {t : σ}
      (h : w.browser = .acking accepted result) (hT : Sends T cfg.toChild .server (.helloAck accepted) w.transport (.error e) t) :
      BrowserStep .failed w { w with browser := .spawnFailed e, transport := t }
  | pings {w : World σ π} {hello : Hello} {bytes : List UInt8} {t : σ} (h : w.browser = .pinging hello)
      (hT : Sends T cfg.toChild .server (.ping 1) w.transport (.ok bytes) t) :
      BrowserStep .success w { w with browser := .awaitingPong hello, transport := t, toChild := w.toChild.send bytes }
  | pingFails {w : World σ π} {hello : Hello} {e : IpcError π} {t : σ} (h : w.browser = .pinging hello)
      (hT : Sends T cfg.toChild .server (.ping 1) w.transport (.error e) t) :
      BrowserStep .failed w { w with browser := .dropping hello (.error (.ipc e)), transport := t }
  | receivesPong {w : World σ π} {hello : Hello} {bytes : List UInt8} {t : σ} (h : w.browser = .awaitingPong hello)
      (hT : T.receive .server w.transport (.ok bytes) t) :
      BrowserStep .success w { w with
        browser := afterPong cfg hello (decode cfg.toBrowser bytes)
        transport := t
        toBrowser := w.toBrowser.receive bytes }
  | pongTimesOut {w : World σ π} {hello : Hello} (h : w.browser = .awaitingPong hello) (hT : T.empty .server w.transport) :
      BrowserStep .timedOut w { w with browser := .dropping hello (.error (.ipc (.transport recvTimeout))) }
  | pongFails {w : World σ π} {hello : Hello} {text : String} {t : σ} (h : w.browser = .awaitingPong hello)
      (hT : T.receive .server w.transport (.error text) t) :
      BrowserStep .failed w { w with browser := .dropping hello (.error (.ipc (.channel text))), transport := t }
  | shutsDown {w : World σ π} {hello : Hello} {bytes : List UInt8} {t : σ} (h : w.browser = .shuttingDown hello)
      (hT : Sends T cfg.toChild .server .shutdown w.transport (.ok bytes) t) :
      BrowserStep .success w { w with browser := .waiting hello, transport := t, toChild := w.toChild.send bytes }
  | shutdownFails {w : World σ π} {hello : Hello} {e : IpcError π} {t : σ} (h : w.browser = .shuttingDown hello)
      (hT : Sends T cfg.toChild .server .shutdown w.transport (.error e) t) :
      BrowserStep .failed w { w with browser := .dropping hello (.error (.ipc e)), transport := t }
  | waits {w : World σ π} {hello : Hello} {status : ExitStatus} (h : w.browser = .waiting hello)
      (hz : w.process = .zombie status) :
      BrowserStep .success w { w with
        browser := .dropping hello (if status.success then .ok () else .error (.rendererExited status))
        process := .reaped status }
  | waitFails {w : World σ π} {hello : Hello} (e : IoError) (h : w.browser = .waiting hello) :
      BrowserStep .failed w { w with browser := .dropping hello (.error (.process (.child e))), osFailed := true }
  | tryWaitReaps {w : World σ π} {hello : Hello} {result : Except (RunError π) Unit} {status : ExitStatus}
      (h : w.browser = .dropping hello result) (hz : w.process = .zombie status) :
      BrowserStep .success w { w with browser := .returned result, process := .reaped status }
  | tryWaitReaped {w : World σ π} {hello : Hello} {result : Except (RunError π) Unit} {status : ExitStatus}
      (h : w.browser = .dropping hello result) (hr : w.process = .reaped status) :
      BrowserStep .success w { w with browser := .returned result }
  | tryWaitRunning {w : World σ π} {hello : Hello} {result : Except (RunError π) Unit}
      (h : w.browser = .dropping hello result) (hr : w.process = .running) :
      BrowserStep .success w { w with browser := .killing result }
  | tryWaitFails {w : World σ π} {hello : Hello} {result : Except (RunError π) Unit}
      (h : w.browser = .dropping hello result) :
      BrowserStep .failed w { w with browser := .returned result, osFailed := true }
  | kills {w : World σ π} {result : Except (RunError π) Unit} (h : w.browser = .killing result) :
      BrowserStep .success w { w with browser := .reaping result, process := w.process.kill }
  | killFails {w : World σ π} {result : Except (RunError π) Unit} (h : w.browser = .killing result) :
      BrowserStep .failed w { w with browser := .reaping result, osFailed := true }
  | reaps {w : World σ π} {result : Except (RunError π) Unit} {status : ExitStatus} (h : w.browser = .reaping result)
      (hz : w.process = .zombie status) :
      BrowserStep .success w { w with browser := .returned result, process := .reaped status }
  | reapFails {w : World σ π} {result : Except (RunError π) Unit} (h : w.browser = .reaping result) :
      BrowserStep .failed w { w with browser := .returned result, osFailed := true }

/-! ## The child's steps -/

/-- The child after the answer to its hello. -/
def afterHelloAck : Except (CodecError π) ToChild → ChildState π
  | .error e => .exited (.served (.error (.ipc (.codec e))))
  | .ok message =>
    match childSide message with
    | .ok () => .serving
    | .error e => .exited (.served (.error (.ipc e)))

/-- The child after a message in its loop. -/
def afterRequest : Except (CodecError π) ToChild → ChildState π
  | .error e => .exited (.served (.error (.ipc (.codec e))))
  | .ok (.ping nonce) => .answering nonce
  | .ok .shutdown => .exited (.served (.ok ()))
  | .ok (.helloAck _) => .exited (.served (.error .duplicateHelloAck))

/-- The child's code fails with an error of its transport. -/
def ChildState.failed (e : IpcError π) : ChildState π := .exited (.served (.error (.ipc e)))

/-- The steps of `main.rs` and `child.rs`, for a role other than the browser's. -/
inductive ChildStep : Outcome → World σ π → World σ π → Prop where
  | initializes {w : World σ π} (hr : w.process = .running) (h : w.child = .initializing) :
      ChildStep .success w (w.childAt .starting)
  | initializingFails {w : World σ π} (hr : w.process = .running) (h : w.child = .initializing) :
      ChildStep .failed w (w.childAt (.exited .telemetryFailed))
  | applies {w : World σ π} (hr : w.process = .running) (h : w.child = .starting) (ht : cfg.processType ≠ .browser)
      (ha : cfg.choosePolicy.apply = .ok ()) :
      ChildStep .success w (w.childAt .connecting)
  | refuses {w : World σ π} {e : SandboxError} (hr : w.process = .running) (h : w.child = .starting)
      (ht : cfg.processType ≠ .browser) (ha : cfg.choosePolicy.apply = .error e) :
      ChildStep .success w (w.childAt (.exited .sandboxUnavailable))
  | connects {w : World σ π} {t : σ} (hr : w.process = .running) (h : w.child = .connecting)
      (hT : T.connect w.transport (.ok ()) t) :
      ChildStep .success w { w.childAt .greeting with transport := t }
  | connectFails {w : World σ π} {text : String} {t : σ} (hr : w.process = .running) (h : w.child = .connecting)
      (hT : T.connect w.transport (.error text) t) :
      ChildStep .failed w { w.childAt (.failed (.channel text)) with transport := t }
  | greets {w : World σ π} {bytes : List UInt8} {t : σ} (hr : w.process = .running) (h : w.child = .greeting)
      (hT : Sends T cfg.toBrowser .client (.hello cfg.hello) w.transport (.ok bytes) t) :
      ChildStep .success w { w.childAt .awaitingAck with transport := t, toBrowser := w.toBrowser.send bytes }
  | greetFails {w : World σ π} {e : IpcError π} {t : σ} (hr : w.process = .running) (h : w.child = .greeting)
      (hT : Sends T cfg.toBrowser .client (.hello cfg.hello) w.transport (.error e) t) :
      ChildStep .failed w { w.childAt (.failed e) with transport := t }
  | receivesAck {w : World σ π} {bytes : List UInt8} {t : σ} (hr : w.process = .running) (h : w.child = .awaitingAck)
      (hT : T.receive .client w.transport (.ok bytes) t) :
      ChildStep .success w { w.childAt (afterHelloAck (decode cfg.toChild bytes)) with
        transport := t
        toChild := w.toChild.receive bytes }
  | ackFails {w : World σ π} {text : String} {t : σ} (hr : w.process = .running) (h : w.child = .awaitingAck)
      (hT : T.receive .client w.transport (.error text) t) :
      ChildStep .failed w { w.childAt (.failed (.channel text)) with transport := t }
  | receives {w : World σ π} {bytes : List UInt8} {t : σ} (hr : w.process = .running) (h : w.child = .serving)
      (hT : T.receive .client w.transport (.ok bytes) t) :
      ChildStep .success w { w.childAt (afterRequest (decode cfg.toChild bytes)) with
        transport := t
        toChild := w.toChild.receive bytes }
  | receiveFails {w : World σ π} {text : String} {t : σ} (hr : w.process = .running) (h : w.child = .serving)
      (hT : T.receive .client w.transport (.error text) t) :
      ChildStep .failed w { w.childAt (.failed (.channel text)) with transport := t }
  | answers {w : World σ π} {nonce : UInt64} {bytes : List UInt8} {t : σ} (hr : w.process = .running)
      (h : w.child = .answering nonce) (hT : Sends T cfg.toBrowser .client (.pong nonce) w.transport (.ok bytes) t) :
      ChildStep .success w { w.childAt .serving with transport := t, toBrowser := w.toBrowser.send bytes }
  | answerFails {w : World σ π} {nonce : UInt64} {e : IpcError π} {t : σ} (hr : w.process = .running)
      (h : w.child = .answering nonce) (hT : Sends T cfg.toBrowser .client (.pong nonce) w.transport (.error e) t) :
      ChildStep .failed w { w.childAt (.failed e) with transport := t }

end

section

variable (T : Transport σ (List UInt8) String)

/-- The steps of any process: of its own state nothing is known. -/
inductive AnyChildStep : World σ π → World σ π → Prop where
  | thinks {w : World σ π} (child : ChildState π) (hr : w.process = .running) : AnyChildStep w { w with child }
  | connects {w : World σ π} {r : Except String Unit} {t : σ} (child : ChildState π) (hr : w.process = .running)
      (hT : T.connect w.transport r t) : AnyChildStep w { w with child, transport := t }
  | sends {w : World σ π} {bytes : List UInt8} {t : σ} (child : ChildState π) (hr : w.process = .running)
      (hT : T.send .client bytes w.transport (.ok ()) t) :
      AnyChildStep w { w with child, transport := t, toBrowser := w.toBrowser.send bytes }
  | sendFails {w : World σ π} {bytes : List UInt8} {text : String} {t : σ} (child : ChildState π) (hr : w.process = .running)
      (hT : T.send .client bytes w.transport (.error text) t) : AnyChildStep w { w with child, transport := t }
  | receives {w : World σ π} {bytes : List UInt8} {t : σ} (child : ChildState π) (hr : w.process = .running)
      (hT : T.receive .client w.transport (.ok bytes) t) :
      AnyChildStep w { w with child, transport := t, toChild := w.toChild.receive bytes }
  | receiveFails {w : World σ π} {text : String} {t : σ} (child : ChildState π) (hr : w.process = .running)
      (hT : T.receive .client w.transport (.error text) t) : AnyChildStep w { w with child, transport := t }
  /-- Also what it has left behind when it has ended. -/
  | interferes {w : World σ π} {t : σ} (hT : T.interfere w.transport t) : AnyChildStep w { w with transport := t }
  | exits {w : World σ π} (child : ChildState π) (status : ExitStatus) (hr : w.process = .running) :
      AnyChildStep w { w with child, process := .zombie status }

variable (cfg : Config π)

/-- The browser with a child that runs this program. -/
def Step (o : Outcome) (w w' : World σ π) : Prop :=
  BrowserStep T cfg o w w' ∨ ChildStep T cfg o w w'

/-- The browser with any child. -/
def AnyStep (w w' : World σ π) : Prop :=
  (∃ o, BrowserStep T cfg o w w') ∨ AnyChildStep T w w'

end

end Process

end ChromeLight
