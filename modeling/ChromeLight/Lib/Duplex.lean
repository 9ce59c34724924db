import Mathlib.Data.List.Basic
import Mathlib.Logic.Function.Basic

/-!
# Duplex transports

A transport carries messages both ways between a server and the client that connects to it. What a call of it comes to is a relation
between the states before and after: the call may come back in one of several ways, or not at all. Some transports can be read as a
connection and two first-in, first-out queues (`Transport.Faithful`); then what a side has received is what the other side has sent,
up to what is in flight (`Log.Carried`). Some come back with success where there is nothing to wait for (`Transport.Prompt`). Two
queues are a transport of both kinds (`queues`).
-/

namespace Duplex

/-- The two sides of a transport. -/
inductive Side where
  | server
  | client
deriving DecidableEq, Repr

namespace Side

/-- The side across. -/
def other : Side → Side
  | server => client
  | client => server

/-- No side is across from itself. -/
@[simp] theorem other_ne (side : Side) : side.other ≠ side := by
  cases side <;> exact nofun

/-- No side is the one across from it. -/
theorem ne_other (side : Side) : side ≠ side.other := side.other_ne.symm

end Side

variable {σ β ε : Type*}

/-- What the calls of a transport come to: `β` are its messages, and `ε` its errors. -/
structure Transport (σ β ε : Type*) where
  start : σ
  connect : σ → Except ε Unit → σ → Prop
  accept : σ → Except ε Unit → σ → Prop
  send : Side → β → σ → Except ε Unit → σ → Prop
  receive : Side → σ → Except ε β → σ → Prop
  /-- A side that looks for a message without waiting for one finds none. -/
  empty : Side → σ → Prop
  /-- What a client may do to it that does not keep to these calls. -/
  interfere : σ → σ → Prop

namespace Transport

/-- The transport is a connection and two queues, of which `pending` is the one of the messages to a side. A call that fails carries
nothing. -/
structure Faithful (T : Transport σ β ε) (pending : Side → σ → List β) (connected : σ → Prop) : Prop where
  start : (∀ i, pending i T.start = []) ∧ ¬connected T.start
  connect : ∀ {s r t}, T.connect s r t → (∀ i, pending i t = pending i s) ∧ (r = .ok () → connected t)
  accept : ∀ {s r t}, T.accept s r t → (∀ i, pending i t = pending i s) ∧ (r = .ok () → connected s) ∧ (connected t ↔ connected s)
  sends : ∀ {side b s t}, T.send side b s (.ok ()) t →
    pending side.other t = pending side.other s ++ [b] ∧ pending side t = pending side s
  sendFails : ∀ {side b s e t}, T.send side b s (.error e) t → ∀ i, pending i t = pending i s
  receives : ∀ {side b s t}, T.receive side s (.ok b) t →
    pending side s = b :: pending side t ∧ pending side.other t = pending side.other s
  receiveFails : ∀ {side s e t}, T.receive side s (.error e) t → ∀ i, pending i t = pending i s
  send_connected : ∀ {side b s r t}, T.send side b s r t → connected s → connected t
  receive_connected : ∀ {side s r t}, T.receive side s r t → connected s → connected t

/-- No call of the transport need fail or wait: connecting where no client has, accepting a client that has connected, and over a
connection sending a message where it fits behind those in flight and receiving one that is there. -/
structure Prompt (T : Transport σ β ε) (pending : Side → σ → List β) (connected : σ → Prop) (Fits : List β → β → Prop) : Prop where
  connect : ∀ s, ¬connected s → ∃ t, T.connect s (.ok ()) t
  accept : ∀ s, connected s → ∃ t, T.accept s (.ok ()) t
  send : ∀ side b s, connected s → Fits (pending side.other s) b → ∃ t, T.send side b s (.ok ()) t
  receive : ∀ side s, connected s → pending side s ≠ [] → ∃ b t, T.receive side s (.ok b) t

end Transport

/-! ## What was said -/

/-- The messages that were sent one way, and those that were received. -/
structure Log (β : Type*) where
  sent : List β
  received : List β
deriving DecidableEq

namespace Log

/-- Nothing has been sent or received. -/
def empty : Log β := ⟨[], []⟩

/-- A message is sent. -/
def send (log : Log β) (b : β) : Log β := { log with sent := log.sent ++ [b] }

/-- A message is received. -/
def receive (log : Log β) (b : β) : Log β := { log with received := log.received ++ [b] }

variable {log : Log β} {b : β} {pending : List β}

@[simp] theorem sent_empty : (empty : Log β).sent = [] := rfl

@[simp] theorem received_empty : (empty : Log β).received = [] := rfl

@[simp] theorem sent_send : (log.send b).sent = log.sent ++ [b] := rfl

@[simp] theorem received_send : (log.send b).received = log.received := rfl

@[simp] theorem sent_receive : (log.receive b).sent = log.sent := rfl

@[simp] theorem received_receive : (log.receive b).received = log.received ++ [b] := rfl

/-- Nothing is lost, doubled or overtaken: what was sent is what was received, then what is in flight. -/
def Carried (log : Log β) (pending : List β) : Prop := log.sent = log.received ++ pending

/-- At first nothing is in flight. -/
theorem carried_empty : (empty : Log β).Carried [] := rfl

/-- What is sent is in flight, after everything else. -/
theorem Carried.send (h : log.Carried pending) (b : β) : (log.send b).Carried (pending ++ [b]) := by
  unfold Carried
  rw [sent_send, received_send, h, List.append_assoc]

/-- The first message in flight is the one that is received. -/
theorem Carried.receive (h : log.Carried (b :: pending)) : (log.receive b).Carried pending := by
  unfold Carried
  rw [sent_receive, received_receive, h, List.append_assoc, List.singleton_append]

/-- Every message that was sent is received or in flight. -/
theorem Carried.length_eq (h : log.Carried pending) : log.sent.length = log.received.length + pending.length := by
  rw [h, List.length_append]

end Log

/-! ## Two queues -/

/-- A connection and the messages in flight to each side. -/
structure Queues (β : Type*) where
  pending : Side → List β
  connected : Bool

/-- The transport that is two queues. A call may fail, which changes nothing. -/
def queues : Transport (Queues β) β ε where
  start := ⟨fun _ => [], false⟩
  connect s r t := r = .ok () ∧ t = { s with connected := true } ∨ (∃ e, r = .error e) ∧ t = s
  accept s r t := (r = .ok () ∧ s.connected = true ∨ ∃ e, r = .error e) ∧ t = s
  send side b s r t :=
    r = .ok () ∧ t = { s with pending := Function.update s.pending side.other (s.pending side.other ++ [b]) } ∨
      (∃ e, r = .error e) ∧ t = s
  receive side s r t :=
    (∃ b rest, r = .ok b ∧ s.pending side = b :: rest ∧ t = { s with pending := Function.update s.pending side rest }) ∨
      (∃ e, r = .error e) ∧ t = s
  empty side s := s.pending side = []
  interfere _ _ := True

/-- Two queues lose nothing, make nothing up and keep the order. -/
theorem faithful_queues : (queues : Transport (Queues β) β ε).Faithful (fun i s => s.pending i) (fun s => s.connected = true) where
  start := ⟨fun _ => rfl, Bool.false_ne_true⟩
  connect := by
    rintro s r t (⟨rfl, rfl⟩ | ⟨⟨e, rfl⟩, rfl⟩)
    · exact ⟨fun _ => rfl, fun _ => rfl⟩
    · exact ⟨fun _ => rfl, nofun⟩
  accept := by
    rintro s r t ⟨⟨rfl, h⟩ | ⟨e, rfl⟩, rfl⟩
    · exact ⟨fun _ => rfl, fun _ => h, .rfl⟩
    · exact ⟨fun _ => rfl, nofun, .rfl⟩
  sends := by
    rintro side b s t (⟨-, rfl⟩ | ⟨⟨e, he⟩, -⟩)
    · exact ⟨Function.update_self .., Function.update_of_ne side.ne_other ..⟩
    · cases he
  sendFails := by
    rintro side b s e t (⟨he, -⟩ | ⟨-, rfl⟩) i
    · cases he
    · rfl
  receives := by
    rintro side b s t (⟨b', rest, he, hpending, rfl⟩ | ⟨⟨e, he⟩, -⟩)
    · obtain rfl := Except.ok.inj he
      refine ⟨?_, Function.update_of_ne side.other_ne ..⟩
      dsimp only
      rw [Function.update_self, hpending]
    · cases he
  receiveFails := by
    rintro side s e t (⟨b, rest, he, -⟩ | ⟨-, rfl⟩) i
    · cases he
    · rfl
  send_connected := by
    rintro side b s r t (⟨-, rfl⟩ | ⟨-, rfl⟩) h
    · exact h
    · exact h
  receive_connected := by
    rintro side s r t (⟨-, -, -, -, rfl⟩ | ⟨-, rfl⟩) h
    · exact h
    · exact h

/-- A call of two queues always comes back, unless there is nothing to receive yet. -/
theorem prompt_queues (Fits : List β → β → Prop) :
    (queues : Transport (Queues β) β ε).Prompt (fun i s => s.pending i) (fun s => s.connected = true) Fits where
  connect s _ := ⟨_, .inl ⟨rfl, rfl⟩⟩
  accept s h := ⟨_, .inl ⟨rfl, h⟩, rfl⟩
  send side b s _ _ := ⟨_, .inl ⟨rfl, rfl⟩⟩
  receive side s _ h := by
    obtain ⟨b, rest, hpending⟩ := List.exists_cons_of_ne_nil h
    exact ⟨b, _, .inl ⟨b, rest, rfl, hpending, rfl⟩⟩

end Duplex
