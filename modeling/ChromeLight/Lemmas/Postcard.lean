import ChromeLight.Ipc
import ChromeLight.Lib.Wire

/-!
# A serializer of the messages

The wire format of the messages: numbers in groups of seven bits, a structure as its fields in order, an enumeration as the
number of the variant and its fields after it. It is a serializer the protocol can rely on (`Postcard.lawful_ofFormat`).
-/

namespace ChromeLight

namespace Ipc

open Wire Wire.Format

/-- The codec of a format. -/
def Postcard.ofFormat {α : Type} (f : Format α) : Postcard ReadError α where
  toAllocvec value := .ok (f.write value)
  takeFromBytes := f.read

/-- The codec of a format whose values all fit into a message is lawful. -/
theorem Postcard.lawful_ofFormat {α : Type} (f : Format α) (h : f.size ≤ maxMessageBytes) : (Postcard.ofFormat f).Lawful where
  serializes value := ⟨_, rfl, Nat.le_trans (f.length_write_le value) h⟩
  readsBack := by
    rintro value _ rest ⟨⟩
    exact f.read_write value rest

/-- The position of a role in its enumeration. -/
def processTypeNumber : ProcessType → Nat
  | .browser => 0
  | .renderer => 1
  | .network => 2
  | .gpu => 3
  | .utility => 4

/-- A role is written as its position. -/
def processTypeFormat : Format ProcessType :=
  variant processTypeNumber (by intro t; cases t <;> decide) (fun n => [.browser, .renderer, .network, .gpu, .utility][n]?)
    (by intro t; cases t <;> rfl)

/-- A hello is its three fields, one after another. -/
def helloFormat : Format Hello :=
  (pair uint32 (pair processTypeFormat uint32)).refine
    (fun hello => (hello.protocolVersion, hello.processType, hello.pid)) (fun p => some ⟨p.1, p.2.1, p.2.2⟩) (fun _ => rfl)

/-- Which message to the browser, or to a child. -/
def tagFormat (k : Nat) (hk : k ≤ 128 ^ 5) : Format (Fin k) :=
  variant Fin.val (fun i => Nat.lt_of_lt_of_le i.isLt hk) (fun n => if h : n < k then some ⟨n, h⟩ else none)
    (fun i => dif_pos i.isLt)

/-- What each message to the browser carries. -/
def ToBrowser.Payload : Fin 2 → Type
  | 0 => Hello
  | 1 => UInt64

/-- How that is written. -/
def ToBrowser.payloadFormat : ∀ i, Format (Payload i)
  | 0 => helloFormat
  | 1 => uint64

/-- A message to the browser: which one it is, and what it carries. -/
def toBrowserFormat : Format ToBrowser :=
  (dependent (tagFormat 2 (by decide)) ToBrowser.payloadFormat 15 (by decide)).refine
    (fun
      | .hello hello => ⟨0, hello⟩
      | .pong nonce => ⟨1, nonce⟩)
    (fun
      | ⟨0, hello⟩ => some (.hello hello)
      | ⟨1, nonce⟩ => some (.pong nonce))
    (by intro message; cases message <;> rfl)

/-- What each message to the child carries. -/
def ToChild.Payload : Fin 3 → Type
  | 0 => Bool
  | 1 => UInt64
  | 2 => Unit

/-- How that is written. -/
def ToChild.payloadFormat : ∀ i, Format (Payload i)
  | 0 => bool
  | 1 => uint64
  | 2 => unit

/-- A message to the child: which one it is, and what it carries. -/
def toChildFormat : Format ToChild :=
  (dependent (tagFormat 3 (by decide)) ToChild.payloadFormat 10 (by decide)).refine
    (fun
      | .helloAck accepted => ⟨0, accepted⟩
      | .ping nonce => ⟨1, nonce⟩
      | .shutdown => ⟨2, ()⟩)
    (fun
      | ⟨0, accepted⟩ => some (.helloAck accepted)
      | ⟨1, nonce⟩ => some (.ping nonce)
      | ⟨2, _⟩ => some .shutdown)
    (by intro message; cases message <;> rfl)

/-- The codec of the messages to the browser is lawful. -/
theorem lawful_toBrowser : (Postcard.ofFormat toBrowserFormat).Lawful := Postcard.lawful_ofFormat _ (by decide)

/-- The codec of the messages to the child is lawful. -/
theorem lawful_toChild : (Postcard.ofFormat toChildFormat).Lawful := Postcard.lawful_ofFormat _ (by decide)

end Ipc

end ChromeLight
