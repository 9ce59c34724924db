import Mathlib.Data.List.Basic

/-!
# Messages between processes

`crates/ipc`: the messages of the browser and of a child, what their receiver checks of them, and the codec over `postcard`,
whose serializer is a parameter (`Postcard`). A time-out or a failure of the transport is what the environment answers to a
call, with its text.
-/

namespace ChromeLight

/-- The roles of processes. -/
inductive ProcessType where
  | browser
  | renderer
  | network
  | gpu
  | utility
deriving DecidableEq, Repr

namespace ProcessType

/-- The role as it stands in an argument. -/
def asStr : ProcessType → String
  | browser => "browser"
  | renderer => "renderer"
  | network => "network"
  | gpu => "gpu"
  | utility => "utility"

/-- The role of a `--type=` value, an error with the value where it names none. -/
def fromStr (s : String) : Except String ProcessType :=
  match s with
  | "browser" => .ok browser
  | "renderer" => .ok renderer
  | "network" => .ok network
  | "gpu" => .ok gpu
  | "utility" => .ok utility
  | other => .error other

/-- A role is read back from its argument. -/
@[simp] theorem fromStr_asStr (t : ProcessType) : fromStr t.asStr = .ok t := by
  cases t <;> rfl

end ProcessType

namespace Ipc

/-- The version both processes must speak. -/
def protocolVersion : UInt32 := 1

/-- The first message of a child. -/
structure Hello where
  protocolVersion : UInt32
  processType : ProcessType
  pid : UInt32
deriving DecidableEq, Repr

/-- What a child says. -/
inductive ToBrowser where
  | hello (hello : Hello)
  | pong (nonce : UInt64)
deriving DecidableEq, Repr

/-- What the browser says. -/
inductive ToChild where
  | helloAck (accepted : Bool)
  | ping (nonce : UInt64)
  | shutdown
deriving DecidableEq, Repr

/-! ## Validation -/

/-- What the receiver knows independently of a message. -/
structure ReceiverCtx where
  expectedProcessType : ProcessType
  expectedPid : Option UInt32
deriving DecidableEq, Repr

/-- What a hello may get wrong. -/
inductive IpcViolation where
  | versionMismatch (got expected : UInt32)
  | processTypeMismatch (claimed expected : ProcessType)
  | pidMismatch (claimed expected : UInt32)
deriving DecidableEq, Repr

/-- Whether the hello is of the child that was spawned. -/
def Hello.validate (hello : Hello) (ctx : ReceiverCtx) : Except IpcViolation Unit :=
  if hello.protocolVersion ≠ Ipc.protocolVersion then
    .error (.versionMismatch hello.protocolVersion Ipc.protocolVersion)
  else if hello.processType ≠ ctx.expectedProcessType then
    .error (.processTypeMismatch hello.processType ctx.expectedProcessType)
  else
    match ctx.expectedPid with
    | some expected => if hello.pid ≠ expected then .error (.pidMismatch hello.pid expected) else .ok ()
    | none => .ok ()

/-- A hello passes when it claims no other version, role or pid than what the receiver knows. -/
theorem Hello.validate_eq_ok_iff {hello : Hello} {ctx : ReceiverCtx} : hello.validate ctx = .ok () ↔
    hello.protocolVersion = Ipc.protocolVersion ∧ hello.processType = ctx.expectedProcessType ∧
      ∀ pid ∈ ctx.expectedPid, hello.pid = pid := by
  unfold validate
  by_cases hversion : hello.protocolVersion = Ipc.protocolVersion
  · by_cases htype : hello.processType = ctx.expectedProcessType
    · cases hpid : ctx.expectedPid with
      | none => simp [hversion, htype]
      | some pid => by_cases h : hello.pid = pid <;> simp [hversion, htype, h]
    · simp [hversion, htype]
  · simp [hversion]

/-! ## The codec -/

/-- The largest message that is encoded or decoded. -/
def maxMessageBytes : Nat := 16 * 1024 * 1024

/-- The serializer for a type of messages, with its errors. -/
structure Postcard (π α : Type) where
  toAllocvec : α → Except π (List UInt8)
  /-- A value at the start of the bytes, and the bytes after it. -/
  takeFromBytes : List UInt8 → Except π (α × List UInt8)

/-- Why a message cannot be written, or read. -/
inductive CodecError (π : Type) where
  | tooLarge (size max : Nat)
  | postcard (error : π)
  | trailing (count : Nat)
deriving DecidableEq, Repr

section

variable {π α : Type} (P : Postcard π α)

/-- Write a message, unless it is too long. -/
def encode (value : α) : Except (CodecError π) (List UInt8) :=
  match P.toAllocvec value with
  | .error e => .error (.postcard e)
  | .ok bytes => if maxMessageBytes < bytes.length then .error (.tooLarge bytes.length maxMessageBytes) else .ok bytes

/-- Exactly one message from the bytes. -/
def decode (bytes : List UInt8) : Except (CodecError π) α :=
  if maxMessageBytes < bytes.length then .error (.tooLarge bytes.length maxMessageBytes)
  else
    match P.takeFromBytes bytes with
    | .error e => .error (.postcard e)
    | .ok (value, rest) => if rest.isEmpty then .ok value else .error (.trailing rest.length)

end

/-- What the protocol relies on in the serializer: a message is not too large, and what is read back from the bytes of a message
and others after it is the message, with the others left. -/
structure Postcard.Lawful {π α : Type} (P : Postcard π α) : Prop where
  serializes : ∀ value, ∃ bytes, P.toAllocvec value = .ok bytes ∧ bytes.length ≤ maxMessageBytes
  readsBack : ∀ value bytes rest, P.toAllocvec value = .ok bytes → P.takeFromBytes (bytes ++ rest) = .ok (value, rest)

namespace Postcard.Lawful

variable {π α : Type} {P : Postcard π α} (law : P.Lawful)
include law

/-- Every message can be written. -/
theorem exists_encode (value : α) : ∃ bytes, encode P value = .ok bytes := by
  obtain ⟨bytes, hbytes, hlen⟩ := law.serializes value
  exact ⟨bytes, by simp only [encode, hbytes, if_neg (Nat.not_lt.2 hlen)]⟩

/-- A message is read back from its bytes. -/
theorem decode_encode {value : α} {bytes : List UInt8} (h : encode P value = .ok bytes) : decode P bytes = .ok value := by
  unfold encode at h
  split at h
  · cases h
  · rename_i bytes' hbytes
    split at h
    · cases h
    · rename_i hlen
      obtain rfl := Except.ok.inj h
      have hread := law.readsBack value bytes' [] hbytes
      rw [List.append_nil] at hread
      simp only [decode, if_neg hlen, hread, List.isEmpty_nil, if_true]

end Postcard.Lawful

/-! ## Errors -/

/-- The kinds of errors that are told apart. -/
inductive IoErrorKind where
  | timedOut
  | other
deriving DecidableEq, Repr

/-- An error of the operating system. -/
structure IoError where
  kind : IoErrorKind
  message : String
deriving DecidableEq, Repr

/-- What can go wrong between the two processes. -/
inductive IpcError (π : Type) where
  | transport (error : IoError)
  | channel (message : String)
  | codec (error : CodecError π)
  | violation (violation : IpcViolation)
  | unexpectedMessage (expected : String)
  | rejected
deriving DecidableEq, Repr

/-- The browser side of the handshake, from the first message on: whether the child is accepted, and what the browser side
returns once that is sent. -/
def browserSide {π : Type} (ctx : ReceiverCtx) : ToBrowser → Bool × Except (IpcError π) Hello
  | .hello hello =>
    match hello.validate ctx with
    | .error violation => (false, .error (.violation violation))
    | .ok () => (true, .ok hello)
  | .pong _ => (false, .error (.unexpectedMessage "expected Hello"))

/-- The child side of the handshake, from the answer on. -/
def childSide {π : Type} : ToChild → Except (IpcError π) Unit
  | .helloAck true => .ok ()
  | .helloAck false => .error .rejected
  | .ping _ | .shutdown => .error (.unexpectedMessage "expected HelloAck")

end Ipc

end ChromeLight
