import ChromeLight.Theorems.AnyChild

/-!
# The browser and its child

The browser with a child that runs this program, over a transport that is a connection and two first-in, first-out queues, and a
serializer that reads back what it writes. However the steps of the two interleave and whatever fails, neither finds fault with the
other, and they agree on how far they are (`handshake_agrees`). Where nothing fails and nothing times out they cannot block each other
and both succeed (`handshake_completes`). A child that no sandbox holds says nothing (`unsandboxed_never_speaks`).
-/

namespace ChromeLight

namespace Process

open Ipc Duplex Machine

variable {σ π : Type} {T : Transport σ (List UInt8) String} {pending : Side → σ → List (List UInt8)} {connected : σ → Prop}
  {cfg : Config π} {w w' : World σ π} {said : List ToChild} {replies : List ToBrowser} {heard : Nat}

/-- What a child of this program says. -/
def Config.answers (cfg : Config π) : List ToBrowser := [.hello cfg.hello, .pong 1]

/-- The error is not about what the other side said. -/
def TransportError : IpcError π → Prop
  | .transport _ | .channel _ => True
  | .codec _ | .violation _ | .unexpectedMessage _ | .rejected => False

/-- The error is not about what the child said. -/
def SystemError : RunError π → Prop
  | .process (.ipc e) | .ipc e => TransportError e
  | .executable _ | .process (.spawn _) | .process (.child _) | .simulatedFailure | .rendererExited _ => True
  | .unexpectedPong _ => False

/-! ## What the transport carries -/

/-- Each side has received what the other has sent, up to what is in flight. -/
structure Carries (pending : Side → σ → List (List UInt8)) (w : World σ π) : Prop where
  toChild : w.toChild.Carried (pending .client w.transport)
  toBrowser : w.toBrowser.Carried (pending .server w.transport)

section

variable {α : Type} {P : Postcard π α} {side : Side} {message : α} {s t : σ}

/-- A send that fails leaves nothing in flight. -/
theorem Sends.pending_of_error (F : T.Faithful pending connected) {e : IpcError π} (h : Sends T P side message s (.error e) t) :
    ∀ i, pending i t = pending i s := by
  cases h with
  | codec => exact fun _ => rfl
  | channel _ hT => exact F.sendFails hT

/-- A send puts its bytes behind what is in flight to the other side. -/
theorem Sends.pending_of_ok (F : T.Faithful pending connected) {bytes : List UInt8} (h : Sends T P side message s (.ok bytes) t) :
    pending side.other t = pending side.other s ++ [bytes] ∧ pending side t = pending side s := by
  cases h with
  | sent _ hT => exact F.sends hT

/-- A send leaves the connection as it is. -/
theorem Sends.keeps_connected (F : T.Faithful pending connected) {r : Except (IpcError π) (List UInt8)} (h : Sends T P side message s r t)
    (hs : connected s) : connected t := by
  cases h with
  | codec => exact hs
  | channel _ hT | sent _ hT => exact F.send_connected hT hs

/-- Where the codec is lawful, a send fails for the transport only. -/
theorem Sends.transportError (law : P.Lawful) {e : IpcError π} (h : Sends T P side message s (.error e) t) : TransportError e := by
  cases h with
  | codec he =>
    obtain ⟨bytes, hb⟩ := law.exists_encode message
    rw [he] at hb
    cases hb
  | channel => trivial

end

namespace Carries

/-- A call that carries nothing. -/
theorem same (hw : Carries pending w) {t : σ} (h : ∀ i, pending i t = pending i w.transport) :
    w.toChild.Carried (pending .client t) ∧ w.toBrowser.Carried (pending .server t) := by
  rw [h, h]
  exact ⟨hw.toChild, hw.toBrowser⟩

/-- The browser sends. -/
theorem browserSends (hw : Carries pending w) {t : σ} {bytes : List UInt8}
    (h : pending .client t = pending .client w.transport ++ [bytes] ∧ pending .server t = pending .server w.transport) :
    (w.toChild.send bytes).Carried (pending .client t) ∧ w.toBrowser.Carried (pending .server t) := by
  rw [h.1, h.2]
  exact ⟨hw.toChild.send bytes, hw.toBrowser⟩

/-- The child sends. -/
theorem childSends (hw : Carries pending w) {t : σ} {bytes : List UInt8}
    (h : pending .server t = pending .server w.transport ++ [bytes] ∧ pending .client t = pending .client w.transport) :
    w.toChild.Carried (pending .client t) ∧ (w.toBrowser.send bytes).Carried (pending .server t) := by
  rw [h.1, h.2]
  exact ⟨hw.toChild, hw.toBrowser.send bytes⟩

/-- The browser receives what the child sent first. -/
theorem browserReceives (hw : Carries pending w) {t : σ} {bytes : List UInt8}
    (h : pending .server w.transport = bytes :: pending .server t ∧ pending .client t = pending .client w.transport) :
    w.toChild.Carried (pending .client t) ∧ (w.toBrowser.receive bytes).Carried (pending .server t) := by
  have hbrowser := hw.toBrowser
  rw [h.1] at hbrowser
  rw [h.2]
  exact ⟨hw.toChild, hbrowser.receive⟩

/-- The child receives what the browser sent first. -/
theorem childReceives (hw : Carries pending w) {t : σ} {bytes : List UInt8}
    (h : pending .client w.transport = bytes :: pending .client t ∧ pending .server t = pending .server w.transport) :
    (w.toChild.receive bytes).Carried (pending .client t) ∧ w.toBrowser.Carried (pending .server t) := by
  have hchild := hw.toChild
  rw [h.1] at hchild
  rw [h.2]
  exact ⟨hchild.receive, hw.toBrowser⟩

/-- The browser's steps lose nothing that is in flight. -/
theorem browserStep {o : Outcome} (F : T.Faithful pending connected) (hw : Carries pending w) (h : BrowserStep T cfg o w w') :
    Carries pending w' := by
  cases h with
  | accepts _ hT | acceptFails _ hT =>
    obtain ⟨hchild, hbrowser⟩ := hw.same (F.accept hT).1
    exact ⟨hchild, hbrowser⟩
  | receivesHello _ hT | receivesPong _ hT =>
    obtain ⟨hchild, hbrowser⟩ := hw.browserReceives (F.receives hT)
    exact ⟨hchild, hbrowser⟩
  | helloFails _ hT | pongFails _ hT =>
    obtain ⟨hchild, hbrowser⟩ := hw.same (F.receiveFails hT)
    exact ⟨hchild, hbrowser⟩
  | acks _ hT | pings _ hT | shutsDown _ hT =>
    obtain ⟨hchild, hbrowser⟩ := hw.browserSends (hT.pending_of_ok F)
    exact ⟨hchild, hbrowser⟩
  | ackFails _ hT | pingFails _ hT | shutdownFails _ hT =>
    obtain ⟨hchild, hbrowser⟩ := hw.same (hT.pending_of_error F)
    exact ⟨hchild, hbrowser⟩
  | _ => exact ⟨hw.toChild, hw.toBrowser⟩

/-- The child's steps lose nothing that is in flight. -/
theorem childStep {o : Outcome} (F : T.Faithful pending connected) (hw : Carries pending w) (h : ChildStep T cfg o w w') :
    Carries pending w' := by
  cases h with
  | connects _ _ hT | connectFails _ _ hT =>
    obtain ⟨hchild, hbrowser⟩ := hw.same (F.connect hT).1
    exact ⟨hchild, hbrowser⟩
  | greets _ _ hT | answers _ _ hT =>
    obtain ⟨hchild, hbrowser⟩ := hw.childSends (hT.pending_of_ok F)
    exact ⟨hchild, hbrowser⟩
  | greetFails _ _ hT | answerFails _ _ hT =>
    obtain ⟨hchild, hbrowser⟩ := hw.same (hT.pending_of_error F)
    exact ⟨hchild, hbrowser⟩
  | receivesAck _ _ hT | receives _ _ hT =>
    obtain ⟨hchild, hbrowser⟩ := hw.childReceives (F.receives hT)
    exact ⟨hchild, hbrowser⟩
  | ackFails _ _ hT | receiveFails _ _ hT =>
    obtain ⟨hchild, hbrowser⟩ := hw.same (F.receiveFails hT)
    exact ⟨hchild, hbrowser⟩
  | _ => exact ⟨hw.toChild, hw.toBrowser⟩

/-- At first nothing is in flight. -/
theorem start (F : T.Faithful pending connected) : Carries pending (World.start T : World σ π) := by
  refine ⟨?_, ?_⟩
  · show Log.empty.Carried (pending .client T.start)
    rw [F.start.1]
    exact Log.carried_empty
  · show Log.empty.Carried (pending .server T.start)
    rw [F.start.1]
    exact Log.carried_empty

/-- No step loses anything. -/
theorem step {o : Outcome} (F : T.Faithful pending connected) (hw : Carries pending w) (h : Step T cfg o w w') :
    Carries pending w' :=
  h.elim (hw.browserStep F) (hw.childStep F)

end Carries

/-! ## What each side has said and heard -/

/-- With what `run` returns. -/
def Returns (said : List ToChild) (heard : Nat) : Except (RunError π) Unit → Prop
  | .ok () => said = script ∧ heard = 2
  | .error e => SystemError e

/-- What the browser has said and heard, call by call. -/
def BrowserAt (cfg : Config π) (said : List ToChild) (heard : Nat) : BrowserState π → Prop
  | .bootstrapping | .spawning | .accepting | .awaitingHello => said = [] ∧ heard = 0
  | .acking accepted result => said = [] ∧ heard = 1 ∧ accepted = true ∧ result = .ok cfg.hello
  | .pinging hello => said = [.helloAck true] ∧ heard = 1 ∧ hello = cfg.hello
  | .awaitingPong hello => said = [.helloAck true, .ping 1] ∧ heard = 1 ∧ hello = cfg.hello
  | .shuttingDown hello => said = [.helloAck true, .ping 1] ∧ heard = 2 ∧ hello = cfg.hello
  | .waiting hello => said = script ∧ heard = 2 ∧ hello = cfg.hello
  | .dropping hello result => hello = cfg.hello ∧ Returns said heard result
  | .killing result | .reaping result | .returned result => Returns said heard result

/-- What the child has replied and heard, call by call. -/
def ChildAt (cfg : Config π) (replies : List ToBrowser) (heard : Nat) : ChildState π → Prop
  | .initializing | .starting | .connecting | .greeting | .exited .telemetryFailed | .exited .sandboxUnavailable =>
    replies = [] ∧ heard = 0
  | .awaitingAck => replies = [.hello cfg.hello] ∧ heard = 0
  | .serving => replies = [.hello cfg.hello] ∧ heard = 1 ∨ replies = cfg.answers ∧ heard = 2
  | .answering nonce => replies = [.hello cfg.hello] ∧ heard = 2 ∧ nonce = 1
  | .exited (.served (.ok ())) => replies = cfg.answers ∧ heard = 3
  | .exited (.served (.error e)) => ∃ e', e = .ipc e' ∧ TransportError e'

/-- What the two have said, with the call each is in. -/
structure Exchange (cfg : Config π) (said : List ToChild) (replies : List ToBrowser) (w : World σ π) : Prop where
  told : Encodes cfg.toChild said w.toChild.sent
  replied : Encodes cfg.toBrowser replies w.toBrowser.sent
  said_prefix : said <+: script
  replies_prefix : replies <+: cfg.answers
  browser : BrowserAt cfg said w.toBrowser.received.length w.browser
  child : ChildAt cfg replies w.toChild.received.length w.child

section

variable {α : Type} {P : Postcard π α} {messages all : List α} {log : Log (List UInt8)} {bytes : List UInt8}
  {rest queue : List (List UInt8)}

/-- What is in flight first is the message after those received. -/
theorem Encodes.decode_pending (law : P.Lawful) (h : Encodes P messages log.sent) (hall : messages <+: all)
    (hlog : log.Carried (bytes :: rest)) : ∃ message, all[log.received.length]? = some message ∧ decode P bytes = .ok message := by
  have hlt : log.received.length < log.sent.length := by
    rw [hlog.length_eq, List.length_cons]
    omega
  have hsent : log.sent[log.received.length] = bytes := by
    have hlog : log.sent = log.received ++ bytes :: rest := hlog
    simp only [hlog, List.getElem_append_right (Nat.le_refl _), Nat.sub_self, List.getElem_cons_zero]
  have hlt' : log.received.length < messages.length := by rwa [h.length_eq]
  have henc := (List.forall₂_iff_get.1 h).2 _ hlt' hlt
  rw [List.get_eq_getElem, List.get_eq_getElem, hsent] at henc
  exact ⟨_, List.prefix_iff_getElem?.1 hall _ hlt', law.decode_encode henc⟩

/-- In flight is what was sent and not received. -/
theorem Encodes.length_pending (h : Encodes P messages log.sent) (hlog : log.Carried queue) :
    log.received.length + queue.length = messages.length := by
  rw [h.length_eq, hlog.length_eq]

/-- All that was sent is received. -/
theorem Encodes.received_of_length (h : Encodes P messages log.sent) (hlog : log.Carried queue)
    (hlen : log.received.length = messages.length) : Encodes P messages log.received := by
  have hqueue : queue = [] := by
    have := h.length_pending hlog
    exact List.eq_nil_of_length_eq_zero (by omega)
  have hlog : log.sent = log.received ++ queue := hlog
  rwa [hlog, hqueue, List.append_nil] at h

end

/-! ## What each side receives -/

section

variable (F : T.Faithful pending connected) (lawChild : cfg.toChild.Lawful) (lawBrowser : cfg.toBrowser.Lawful)
  (hw : Carries pending w) (hx : Exchange cfg said replies w) {bytes : List UInt8} {t : σ}

include F hw in
/-- What the browser receives next is what the child sent next. -/
theorem Carries.browser_heard (hT : T.receive .server w.transport (.ok bytes) t) :
    w.toBrowser.Carried (bytes :: pending .server t) := by
  have hbrowser := hw.toBrowser
  rwa [(F.receives hT).1] at hbrowser

include F hw in
/-- What the child receives next is what the browser sent next. -/
theorem Carries.child_heard (hT : T.receive .client w.transport (.ok bytes) t) :
    w.toChild.Carried (bytes :: pending .client t) := by
  have hchild := hw.toChild
  rwa [(F.receives hT).1] at hchild

include F lawBrowser hw hx in
/-- The first message is the hello. -/
theorem Exchange.decode_hello (h : w.browser = .awaitingHello) (hT : T.receive .server w.transport (.ok bytes) t) :
    w.toBrowser.received.length = 0 ∧ decode cfg.toBrowser bytes = .ok (.hello cfg.hello) := by
  obtain ⟨message, hm, hdecode⟩ := hx.replied.decode_pending lawBrowser hx.replies_prefix (hw.browser_heard F hT)
  have hb := hx.browser
  rw [h] at hb
  rw [hb.2] at hm
  obtain rfl := Option.some.inj hm
  exact ⟨hb.2, hdecode⟩

include F lawBrowser hw hx in
/-- The second message is the pong. -/
theorem Exchange.decode_pong {hello : Hello} (h : w.browser = .awaitingPong hello)
    (hT : T.receive .server w.transport (.ok bytes) t) :
    w.toBrowser.received.length = 1 ∧ decode cfg.toBrowser bytes = .ok (.pong 1) := by
  obtain ⟨message, hm, hdecode⟩ := hx.replied.decode_pending lawBrowser hx.replies_prefix (hw.browser_heard F hT)
  have hb := hx.browser
  rw [h] at hb
  rw [hb.2.1] at hm
  obtain rfl := Option.some.inj hm
  exact ⟨hb.2.1, hdecode⟩

include F lawChild hw hx in
/-- The child's first message is the accepting acknowledgement. -/
theorem Exchange.decode_ack (h : w.child = .awaitingAck) (hT : T.receive .client w.transport (.ok bytes) t) :
    w.toChild.received.length = 0 ∧ decode cfg.toChild bytes = .ok (.helloAck true) := by
  obtain ⟨message, hm, hdecode⟩ := hx.told.decode_pending lawChild hx.said_prefix (hw.child_heard F hT)
  have hc := hx.child
  rw [h] at hc
  rw [hc.2] at hm
  obtain rfl := Option.some.inj hm
  exact ⟨hc.2, hdecode⟩

include F lawChild hw hx in
/-- A child that serves has answered as many messages as it has received. -/
theorem Exchange.decode_request (h : w.child = .serving) (hT : T.receive .client w.transport (.ok bytes) t) :
    (replies = [.hello cfg.hello] ∧ w.toChild.received.length = 1 ∧ decode cfg.toChild bytes = .ok (.ping 1)) ∨
      replies = cfg.answers ∧ w.toChild.received.length = 2 ∧ decode cfg.toChild bytes = .ok .shutdown := by
  obtain ⟨message, hm, hdecode⟩ := hx.told.decode_pending lawChild hx.said_prefix (hw.child_heard F hT)
  have hc := hx.child
  rw [h] at hc
  rcases hc with ⟨ha, hj⟩ | ⟨ha, hj⟩
  · rw [hj] at hm
    obtain rfl := Option.some.inj hm
    exact .inl ⟨ha, hj, hdecode⟩
  · rw [hj] at hm
    obtain rfl := Option.some.inj hm
    exact .inr ⟨ha, hj, hdecode⟩

end

/-! ## The steps -/

/-- The browser's steps keep to the exchange. -/
theorem Exchange.browserStep {o : Outcome} (F : T.Faithful pending connected) (lawChild : cfg.toChild.Lawful)
    (lawBrowser : cfg.toBrowser.Lawful) (hw : Carries pending w) (hx : Exchange cfg said replies w) (h : BrowserStep T cfg o w w') :
    ∃ said', Exchange cfg said' replies w' := by
  have hb := hx.browser
  cases h with
  | bootstraps h | spawns h | accepts h =>
    rw [h] at hb
    exact ⟨said, { hx with browser := hb }⟩
  | executableFails e h | bootstrapFails e h | spawnFails e h | acceptThreadFails e h =>
    exact ⟨said, { hx with browser := trivial }⟩
  | acceptTimesOut h | acceptThreadDies h | acceptFails h | helloTimesOut h | helloFails h =>
    exact ⟨said, { hx with browser := trivial }⟩
  | receivesHello h hT =>
    obtain ⟨hheard, hdecode⟩ := hx.decode_hello F lawBrowser hw h hT
    rw [h] at hb
    refine ⟨said, { hx with browser := ?_ }⟩
    simp only [hdecode, afterHello, browserSide_hello, Log.received_receive, List.length_append, hheard]
    exact ⟨hb.1, rfl, rfl, rfl⟩
  | acks h hT =>
    rw [h] at hb
    obtain ⟨rfl, hheard, rfl, rfl⟩ := hb
    exact ⟨[.helloAck true], { hx with
      told := hx.told.send hT.encode_eq
      said_prefix := by decide
      browser := ⟨rfl, hheard, rfl⟩ }⟩
  | ackFails h hT => exact ⟨said, { hx with browser := hT.transportError lawChild }⟩
  | pings h hT =>
    rw [h] at hb
    obtain ⟨rfl, hheard, rfl⟩ := hb
    exact ⟨_, { hx with
      told := hx.told.send hT.encode_eq
      said_prefix := by decide
      browser := ⟨rfl, hheard, rfl⟩ }⟩
  | pingFails h hT | shutdownFails h hT =>
    rw [h] at hb
    exact ⟨said, { hx with browser := ⟨hb.2.2, hT.transportError lawChild⟩ }⟩
  | receivesPong h hT =>
    obtain ⟨hheard, hdecode⟩ := hx.decode_pong F lawBrowser hw h hT
    rw [h] at hb
    refine ⟨said, { hx with browser := ?_ }⟩
    simp only [hdecode, afterPong, if_true, Log.received_receive, List.length_append, hheard]
    split_ifs
    · exact ⟨hb.2.2, trivial⟩
    · exact ⟨hb.1, rfl, hb.2.2⟩
  | pongTimesOut h | pongFails h =>
    rw [h] at hb
    exact ⟨said, { hx with browser := ⟨hb.2.2, trivial⟩ }⟩
  | shutsDown h hT =>
    rw [h] at hb
    obtain ⟨rfl, hheard, rfl⟩ := hb
    exact ⟨_, { hx with
      told := hx.told.send hT.encode_eq
      said_prefix := by decide
      browser := ⟨rfl, hheard, rfl⟩ }⟩
  | waits h hz =>
    rw [h] at hb
    refine ⟨said, { hx with browser := ⟨hb.2.2, ?_⟩ }⟩
    split_ifs
    · exact ⟨hb.1, hb.2.1⟩
    · trivial
  | waitFails e h =>
    rw [h] at hb
    exact ⟨said, { hx with browser := ⟨hb.2.2, trivial⟩ }⟩
  | tryWaitReaps h | tryWaitReaped h | tryWaitRunning h | tryWaitFails h =>
    rw [h] at hb
    exact ⟨said, { hx with browser := hb.2 }⟩
  | kills h | killFails h | reaps h | reapFails h =>
    rw [h] at hb
    exact ⟨said, { hx with browser := hb }⟩

/-- The child's steps keep to the exchange. -/
theorem Exchange.childStep {o : Outcome} (F : T.Faithful pending connected) (lawChild : cfg.toChild.Lawful)
    (lawBrowser : cfg.toBrowser.Lawful) (hw : Carries pending w) (hx : Exchange cfg said replies w) (h : ChildStep T cfg o w w') :
    ∃ replies', Exchange cfg said replies' w' := by
  have hc := hx.child
  have fails : ∀ {e : IpcError π}, TransportError e → ChildAt cfg replies w.toChild.received.length (.failed e) := by
    intro e he
    exact ⟨e, rfl, he⟩
  cases h with
  | initializes hr h | initializingFails hr h | applies hr h | refuses hr h | connects hr h =>
    rw [h] at hc
    exact ⟨replies, { hx with child := hc }⟩
  | connectFails hr h | ackFails hr h | receiveFails hr h => exact ⟨replies, { hx with child := fails trivial }⟩
  | greets hr h hT =>
    rw [h] at hc
    obtain ⟨rfl, hheard⟩ := hc
    exact ⟨_, { hx with
      replied := hx.replied.send hT.encode_eq
      replies_prefix := ⟨[.pong 1], rfl⟩
      child := ⟨rfl, hheard⟩ }⟩
  | greetFails hr h hT | answerFails hr h hT =>
    exact ⟨replies, { hx with child := fails (hT.transportError lawBrowser) }⟩
  | receivesAck hr h hT =>
    obtain ⟨hheard, hdecode⟩ := hx.decode_ack F lawChild hw h hT
    rw [h] at hc
    refine ⟨replies, { hx with child := ?_ }⟩
    simp only [World.childAt, hdecode, afterHelloAck, childSide, Log.received_receive, List.length_append, hheard]
    exact .inl ⟨hc.1, rfl⟩
  | receives hr h hT =>
    refine ⟨replies, { hx with child := ?_ }⟩
    rcases hx.decode_request F lawChild hw h hT with ⟨ha, hheard, hdecode⟩ | ⟨ha, hheard, hdecode⟩
    · simp only [World.childAt, hdecode, afterRequest, Log.received_receive, List.length_append, hheard]
      exact ⟨ha, rfl, rfl⟩
    · simp only [World.childAt, hdecode, afterRequest, Log.received_receive, List.length_append, hheard]
      exact ⟨ha, rfl⟩
  | answers hr h hT =>
    rw [h] at hc
    obtain ⟨rfl, hheard, rfl⟩ := hc
    exact ⟨_, { hx with
      replied := hx.replied.send hT.encode_eq
      replies_prefix := ⟨[], rfl⟩
      child := .inr ⟨rfl, hheard⟩ }⟩

/-- The exchange begins with nothing said. -/
theorem Exchange.start (cfg : Config π) : Exchange cfg [] [] (World.start T : World σ π) :=
  ⟨.nil, .nil, List.nil_prefix, List.nil_prefix, ⟨rfl, rfl⟩, rfl, rfl⟩

/-- Every step keeps to the exchange. -/
theorem Exchange.step {o : Outcome} (F : T.Faithful pending connected) (lawChild : cfg.toChild.Lawful)
    (lawBrowser : cfg.toBrowser.Lawful) (hw : Carries pending w) (hx : Exchange cfg said replies w) (h : Step T cfg o w w') :
    ∃ said' replies', Exchange cfg said' replies' w' := by
  rcases h with h | h
  · obtain ⟨said', hx'⟩ := hx.browserStep F lawChild lawBrowser hw h
    exact ⟨said', replies, hx'⟩
  · obtain ⟨replies', hx'⟩ := hx.childStep F lawChild lawBrowser hw h
    exact ⟨said, replies', hx'⟩

/-- Over a faithful transport the two keep to the exchange. -/
theorem exists_exchange (F : T.Faithful pending connected) (lawChild : cfg.toChild.Lawful) (lawBrowser : cfg.toBrowser.Lawful)
    (h : Reachable (· = World.start T) (fun w w' => ∃ o, Step T cfg o w w') w) :
    Carries pending w ∧ ∃ said replies, Exchange cfg said replies w := by
  refine h.invariant (I := fun w => Carries pending w ∧ ∃ said replies, Exchange cfg said replies w) ?_ ?_
  · rintro _ rfl
    exact ⟨.start F, [], [], .start cfg⟩
  · rintro w w' ⟨hw, said, replies, hx⟩ ⟨o, h⟩
    exact ⟨hw.step F h, hx.step F lawChild lawBrowser hw h⟩

/-! ## Agreement -/

/-- A process that has exited is a child that has. -/
def ExitsAs (w : World σ π) : Prop :=
  ∀ code, w.process = .zombie (.exited code) ∨ w.process = .reaped (.exited code) →
    ∃ result, w.child = .exited result ∧ result.exitCode = code

/-- The browser's steps do not change how the child exits. -/
theorem ExitsAs.browserStep {o : Outcome} (hw : ExitsAs w) (h : BrowserStep T cfg o w w') : ExitsAs w' := by
  cases h with
  | spawns h => exact nofun
  | waits h hz | tryWaitReaps h hz | reaps h hz =>
    rintro code (hcode | hcode)
    · cases hcode
    · obtain rfl := OsProcess.reaped.inj hcode
      exact hw code (.inl hz)
  | kills h =>
    intro code hcode
    refine hw code ?_
    dsimp only at hcode
    unfold OsProcess.kill at hcode
    split at hcode
    · rcases hcode with hcode | hcode <;> cases hcode
    · exact hcode
  | _ => exact hw

/-- A process that is in the state of its code exits as its code does. -/
theorem ExitsAs.of_process (h : w.process = w.child.process) : ExitsAs w := by
  intro code hcode
  rw [h] at hcode
  cases hc : w.child with
  | exited result =>
    rw [hc] at hcode
    rcases hcode with hcode | hcode
    · exact ⟨result, rfl, ExitStatus.exited.inj (OsProcess.zombie.inj hcode)⟩
    · cases hcode
  | _ =>
    rw [hc] at hcode
    rcases hcode with hcode | hcode <;> cases hcode

/-- The child's steps make it exit as its code does. -/
theorem ExitsAs.childStep {o : Outcome} (h : ChildStep T cfg o w w') : ExitsAs w' := by
  cases h <;> exact .of_process rfl

/-- A child exits as its code does, unless it is killed. -/
theorem exitsAs_of_reachable (h : Reachable (· = World.start T) (fun w w' => ∃ o, Step T cfg o w w') w) : ExitsAs w := by
  refine h.invariant (I := ExitsAs) ?_ ?_
  · rintro _ rfl
    exact nofun
  · rintro w w' hw ⟨o, h | h⟩
    · exact hw.browserStep h
    · exact ExitsAs.childStep h

/-- The child's code is in its loop, or has left it with success. -/
def ChildState.Accepted : ChildState π → Prop
  | .serving | .answering _ | .exited (.served (.ok ())) => True
  | _ => False

/-- What the two agree on. -/
structure Agreement (cfg : Config π) (pending : Side → σ → List (List UInt8)) (w : World σ π) : Prop where
  told : ∃ said, Encodes cfg.toChild said w.toChild.sent ∧ said <+: script
  replied : ∃ replies, Encodes cfg.toBrowser replies w.toBrowser.sent ∧ replies <+: cfg.answers
  handle : ∀ hello ∈ w.browser.hello?, hello = cfg.hello
  /-- A child that serves was accepted. -/
  accepted : w.child.Accepted → ∃ bytes ∈ w.toChild.received.head?, encode cfg.toChild (.helloAck true) = .ok bytes
  /-- What fails is never what the other side said. -/
  browser : ∀ e, w.browser = .returned (.error e) → SystemError e
  child : ∀ e, w.child = .exited (.served (.error e)) → ∃ e', e = .ipc e' ∧ TransportError e'
  /-- A browser that succeeds has a child that has, and both have received all that was said. -/
  succeeds : w.browser = .returned (.ok ()) →
    w.child = .exited (.served (.ok ())) ∧ pending .client w.transport = [] ∧ pending .server w.transport = []

/-- A handle is of the hello that was expected. -/
theorem BrowserAt.handle {browser : BrowserState π} (h : BrowserAt cfg said heard browser) :
    ∀ hello ∈ browser.hello?, hello = cfg.hello := by
  intro hello hmem
  cases browser with
  | pinging | awaitingPong | shuttingDown | waiting =>
    obtain rfl := Option.some.inj hmem
    exact h.2.2
  | dropping =>
    obtain rfl := Option.some.inj hmem
    exact h.1
  | _ => cases hmem

/-- A child that was accepted has heard so. -/
theorem ChildAt.heard_pos {child : ChildState π} (h : ChildAt cfg replies heard child) (ha : child.Accepted) : 0 < heard := by
  cases child with
  | serving =>
    rcases h with ⟨-, rfl⟩ | ⟨-, rfl⟩ <;> decide
  | answering nonce => exact h.2.1 ▸ Nat.zero_lt_two
  | exited result =>
    match result, h, ha with
    | .served (.ok ()), h, _ => exact h.2 ▸ Nat.zero_lt_succ 2
  | _ => cases ha

/-- The first message a child receives is that it is accepted. -/
theorem Exchange.head?_received (hw : Carries pending w) (hx : Exchange cfg said replies w) (h : 0 < w.toChild.received.length) :
    ∃ bytes ∈ w.toChild.received.head?, encode cfg.toChild (.helloAck true) = .ok bytes := by
  have htold := hx.told
  have hsent : w.toChild.sent = w.toChild.received ++ pending .client w.transport := hw.toChild
  rw [hsent] at htold
  cases hr : w.toChild.received with
  | nil =>
    rw [hr] at h
    cases h
  | cons bytes rest =>
    rw [hr] at htold
    obtain ⟨message, messages, he, -, hsaid⟩ := List.forall₂_cons_right_iff.1 htold
    have hprefix := hx.said_prefix
    rw [hsaid] at hprefix
    obtain rfl := (List.cons_prefix_cons.1 hprefix).1
    exact ⟨bytes, rfl, he⟩

/-- Success is the exit code zero. -/
theorem ExitStatus.eq_exited_of_success {status : ExitStatus} (h : status.success = true) : status = .exited 0 := by
  cases status with
  | exited code => exact congrArg ExitStatus.exited (of_decide_eq_true h)
  | signaled => cases h

/-- A child whose code is zero has served until it was shut down. -/
theorem ChildResult.eq_served_of_exitCode {result : ChildResult π} (h : result.exitCode = 0) : result = .served (.ok ()) := by
  match result, h with
  | .served (.ok ()), _ => rfl

/-- Neither side finds fault with the other, and they agree on how far they are, whatever fails and whenever. -/
theorem handshake_agrees (cfg : Config π) (F : T.Faithful pending connected) (lawChild : cfg.toChild.Lawful)
    (lawBrowser : cfg.toBrowser.Lawful) {w : World σ π}
    (h : Reachable (· = World.start T) (fun w w' => ∃ o, Step T cfg o w w') w) : Agreement cfg pending w := by
  obtain ⟨hw, said, replies, hx⟩ := exists_exchange F lawChild lawBrowser h
  have hb := hx.browser
  have hc := hx.child
  refine ⟨⟨said, hx.told, hx.said_prefix⟩, ⟨replies, hx.replied, hx.replies_prefix⟩, hb.handle, ?_, ?_, ?_, ?_⟩
  · intro ha
    exact hx.head?_received hw (hc.heard_pos ha)
  · intro e he
    rw [he] at hb
    exact hb
  · intro e he
    rw [he] at hc
    exact hc
  · intro hret
    have ho := owns_of_reachable (reachable_any h)
    unfold Owns at ho
    rw [hret] at hb ho
    obtain ⟨rfl, hheard⟩ := hb
    obtain ⟨status, hreaped, hsuccess⟩ := ho
    obtain ⟨result, hexit, hcode⟩ := exitsAs_of_reachable h 0 (.inr (ExitStatus.eq_exited_of_success hsuccess ▸ hreaped))
    obtain rfl := ChildResult.eq_served_of_exitCode hcode
    rw [hexit] at hc
    obtain ⟨rfl, hserved⟩ := hc
    have htold := hx.told.length_pending hw.toChild
    have hreplied := hx.replied.length_pending hw.toBrowser
    rw [hserved] at htold
    rw [hheard] at hreplied
    exact ⟨hexit, List.eq_nil_of_length_eq_zero (Nat.add_left_cancel htold),
      List.eq_nil_of_length_eq_zero (Nat.add_left_cancel hreplied)⟩

/-- The two agree on a renderer. -/
theorem handshake_agrees_renderer : ∃ w : World (Queues (List UInt8)) Wire.ReadError,
    w.browser.hello? = some rendererConfig.hello ∧ Agreement rendererConfig (fun i s => s.pending i) w := by
  obtain ⟨w, hw, hhello⟩ := exists_handle rendererConfig lawful_toChild lawful_toBrowser (by decide) (by decide)
  exact ⟨w, hhello, handshake_agrees rendererConfig faithful_queues lawful_toChild lawful_toBrowser hw⟩

/-! ## Completion -/

/-- The child's code has come past `connect_child`. -/
def ChildState.HasConnected : ChildState π → Prop
  | .initializing | .starting | .connecting | .exited .telemetryFailed | .exited .sandboxUnavailable => False
  | _ => True

/-- A message of the two, with fewer than three in flight before it. -/
def Config.Fits (cfg : Config π) (queue : List (List UInt8)) (bytes : List UInt8) : Prop :=
  queue.length < 3 ∧
    ((∃ message ∈ script, encode cfg.toChild message = .ok bytes) ∨ ∃ message ∈ cfg.answers, encode cfg.toBrowser message = .ok bytes)

/-- What holds of the child in each of the browser's calls while nothing fails. -/
def SmoothAt (child : ChildState π) (process : OsProcess) : BrowserState π → Prop
  | .bootstrapping | .spawning => process = .unspawned ∧ child = .initializing
  | .accepting => process = child.process
  | .awaitingHello | .acking _ _ | .pinging _ | .awaitingPong _ | .shuttingDown _ | .waiting _ =>
    process = child.process ∧ child.HasConnected
  | .dropping _ result | .returned result =>
    result = .ok () ∧ process = .reaped (.exited 0) ∧ child = .exited (.served (.ok ()))
  | .killing _ | .reaping _ => False

/-- Nothing has failed: each process is as far as the other one lets it be. -/
structure Smooth (connected : σ → Prop) (w : World σ π) : Prop where
  browser : SmoothAt w.child w.process w.browser
  linked : connected w.transport ↔ w.child.HasConnected
  child : ∀ result, w.child = .exited result → result = .served (.ok ())

/-- A child that has replied is connected. -/
theorem ChildAt.hasConnected {child : ChildState π} (h : ChildAt cfg replies heard child) (hreplies : 0 < replies.length) :
    child.HasConnected := by
  cases child with
  | initializing | starting | connecting =>
    rw [h.1] at hreplies
    cases hreplies
  | exited result =>
    cases result with
    | telemetryFailed | sandboxUnavailable =>
      rw [h.1] at hreplies
      cases hreplies
    | served => trivial
  | _ => trivial

/-- At first nothing has failed. -/
theorem Smooth.start (F : T.Faithful pending connected) : Smooth connected (World.start T : World σ π) :=
  ⟨⟨rfl, rfl⟩, ⟨F.start.2, False.elim⟩, nofun⟩

/-- What keeps a connection keeps the link to a child that has connected. -/
theorem Smooth.keeps (hs : Smooth connected w) (hc : w.child.HasConnected) {t : σ} (h : connected w.transport → connected t) :
    connected t ↔ w.child.HasConnected :=
  ⟨fun _ => hc, fun _ => h (hs.linked.2 hc)⟩

/-- A step of the browser that succeeds keeps everything in order. -/
theorem Smooth.browserStep (F : T.Faithful pending connected) (lawBrowser : cfg.toBrowser.Lawful)
    (hfail : cfg.browserFailAfterHandshake = false) (hw : Carries pending w) (hx : Exchange cfg said replies w)
    (hs : Smooth connected w) (h : BrowserStep T cfg .success w w') : Smooth connected w' := by
  have hb := hs.browser
  cases h with
  | bootstraps h =>
    rw [h] at hb
    exact { hs with browser := hb }
  | spawns h =>
    rw [h] at hb
    exact { hs with browser := hb.2 ▸ rfl }
  | accepts h hT =>
    rw [h] at hb
    obtain ⟨-, hconnected, hkeeps⟩ := F.accept hT
    exact { hs with
      browser := ⟨hb, hs.linked.1 (hconnected rfl)⟩
      linked := hkeeps.trans hs.linked }
  | receivesHello h hT =>
    obtain ⟨-, hdecode⟩ := hx.decode_hello F lawBrowser hw h hT
    rw [h] at hb
    refine { hs with browser := ?_, linked := hs.keeps hb.2 (F.receive_connected hT) }
    simp only [hdecode, afterHello, browserSide_hello]
    exact hb
  | acks h hT =>
    have hresult := hx.browser
    rw [h] at hb hresult
    obtain ⟨-, -, -, rfl⟩ := hresult
    exact { hs with browser := hb, linked := hs.keeps hb.2 (hT.keeps_connected F) }
  | pings h hT | shutsDown h hT =>
    rw [h] at hb
    exact { hs with browser := hb, linked := hs.keeps hb.2 (hT.keeps_connected F) }
  | receivesPong h hT =>
    obtain ⟨-, hdecode⟩ := hx.decode_pong F lawBrowser hw h hT
    rw [h] at hb
    refine { hs with browser := ?_, linked := hs.keeps hb.2 (F.receive_connected hT) }
    simp only [hdecode, afterPong, if_true, hfail]
    exact hb
  | waits h hz =>
    rw [h] at hb
    have hprocess := hb.1.symm.trans hz
    cases hc : w.child with
    | exited result =>
      obtain rfl := hs.child result hc
      rw [hc] at hprocess
      obtain rfl := OsProcess.zombie.inj hprocess
      refine ⟨⟨rfl, rfl, rfl⟩, hc ▸ hs.linked, ?_⟩
      rintro _ ⟨⟩
      rfl
    | _ =>
      rw [hc] at hprocess
      cases hprocess
  | tryWaitReaps h hz | tryWaitRunning h hz =>
    rw [h] at hb
    cases hb.2.1.symm.trans hz
  | tryWaitReaped h hr =>
    rw [h] at hb
    exact { hs with browser := hb }
  | kills h | reaps h =>
    rw [h] at hb
    exact hb.elim

/-- A child that goes on keeps everything in order. -/
theorem SmoothAt.childAt {child child' : ChildState π} {process : OsProcess} {browser : BrowserState π}
    (h : SmoothAt child process browser) (hr : process = .running) (hc : child.HasConnected → child'.HasConnected) :
    SmoothAt child' child'.process browser := by
  subst hr
  cases browser with
  | bootstrapping | spawning => cases h.1
  | accepting => exact rfl
  | dropping | returned => cases h.2.1
  | killing | reaping => exact h
  | _ => exact ⟨rfl, hc h.2⟩

/-- A step of the child that succeeds keeps everything in order. -/
theorem Smooth.childStep (F : T.Faithful pending connected) (lawChild : cfg.toChild.Lawful)
    (hpolicy : cfg.choosePolicy.apply = .ok ()) (hw : Carries pending w) (hx : Exchange cfg said replies w)
    (hs : Smooth connected w) (h : ChildStep T cfg .success w w') : Smooth connected w' := by
  have hb := hs.browser
  have hl := hs.linked
  cases h with
  | initializes hr h | applies hr h =>
    rw [h] at hb hl
    exact ⟨hb.childAt hr id, hl, nofun⟩
  | refuses hr h ht ha =>
    rw [hpolicy] at ha
    cases ha
  | connects hr h hT => exact ⟨hb.childAt hr (fun _ => trivial), iff_of_true ((F.connect hT).2 rfl) trivial, nofun⟩
  | greets hr h hT | answers hr h hT =>
    rw [h] at hl
    exact ⟨hb.childAt hr (fun _ => trivial), iff_of_true (hT.keeps_connected F (hl.2 trivial)) trivial, nofun⟩
  | receivesAck hr h hT =>
    obtain ⟨-, hdecode⟩ := hx.decode_ack F lawChild hw h hT
    rw [h] at hl
    have ht := F.receive_connected hT (hl.2 trivial)
    simp only [hdecode, afterHelloAck, childSide]
    exact ⟨hb.childAt hr (fun _ => trivial), iff_of_true ht trivial, nofun⟩
  | receives hr h hT =>
    rw [h] at hl
    have ht := F.receive_connected hT (hl.2 trivial)
    rcases hx.decode_request F lawChild hw h hT with ⟨-, -, hdecode⟩ | ⟨-, -, hdecode⟩
    · simp only [hdecode, afterRequest]
      exact ⟨hb.childAt hr (fun _ => trivial), iff_of_true ht trivial, nofun⟩
    · simp only [hdecode, afterRequest]
      refine ⟨hb.childAt hr (fun _ => trivial), iff_of_true ht trivial, ?_⟩
      rintro _ ⟨⟩
      rfl

section

variable (prompt : T.Prompt pending connected cfg.Fits) (lawChild : cfg.toChild.Lawful)
  (lawBrowser : cfg.toBrowser.Lawful) (htype : cfg.processType ≠ .browser) (hpolicy : cfg.choosePolicy.apply = .ok ())
  (hw : Carries pending w) (hx : Exchange cfg said replies w) (hs : Smooth connected w)

include prompt lawChild hw hx in
/-- A browser that has not said all of it can say what comes next. -/
theorem Exchange.browser_sends (hc : connected w.transport) (message : ToChild) (hm : message ∈ script) (hsaid : said.length < 3) :
    ∃ bytes t, Sends T cfg.toChild .server message w.transport (.ok bytes) t := by
  obtain ⟨bytes, he⟩ := lawChild.exists_encode message
  have htold := hx.told.length_pending hw.toChild
  have hfits : cfg.Fits (pending (Side.other .server) w.transport) bytes := by
    refine ⟨?_, .inl ⟨message, hm, he⟩⟩
    show (pending .client w.transport).length < 3
    omega
  obtain ⟨t, hT⟩ := prompt.send .server bytes w.transport hc hfits
  exact ⟨bytes, t, .sent he hT⟩

include prompt lawBrowser hw hx in
/-- A connected child can send its next message. -/
theorem Exchange.child_sends (hc : connected w.transport) {message : ToBrowser} (hm : message ∈ cfg.answers)
    (hreplies : replies.length < 3) : ∃ bytes t, Sends T cfg.toBrowser .client message w.transport (.ok bytes) t := by
  obtain ⟨bytes, he⟩ := lawBrowser.exists_encode message
  have hreplied := hx.replied.length_pending hw.toBrowser
  have hfits : cfg.Fits (pending (Side.other .client) w.transport) bytes := by
    refine ⟨?_, .inr ⟨message, hm, he⟩⟩
    show (pending .server w.transport).length < 3
    omega
  obtain ⟨t, hT⟩ := prompt.send .client bytes w.transport hc hfits
  exact ⟨bytes, t, .sent he hT⟩

include prompt lawBrowser htype hpolicy hw hx hs in
/-- A child that runs goes on, unless it waits for the browser. -/
theorem Exchange.childMoves (hr : w.process = .running) (hlive : ∀ result, w.child ≠ .exited result) :
    (∃ w', ChildStep T cfg .success w w') ∨ replies.length = 1 ∧ said.length ≤ 1 ∨ replies.length = 2 ∧ said.length = 2 := by
  have hc := hx.child
  have hl := hs.linked
  have htold := hx.told.length_pending hw.toChild
  cases h : w.child with
  | initializing => exact .inl ⟨_, .initializes hr h⟩
  | starting => exact .inl ⟨_, .applies hr h htype hpolicy⟩
  | connecting =>
    rw [h] at hl
    obtain ⟨t, hT⟩ := prompt.connect w.transport hl.1
    exact .inl ⟨_, .connects hr h hT⟩
  | greeting =>
    rw [h] at hc hl
    obtain ⟨rfl, -⟩ := hc
    obtain ⟨bytes, t, hT⟩ := hx.child_sends prompt lawBrowser hw (hl.2 trivial) List.mem_cons_self (Nat.zero_lt_succ 2)
    exact .inl ⟨_, .greets hr h hT⟩
  | answering nonce =>
    rw [h] at hc hl
    obtain ⟨rfl, -, rfl⟩ := hc
    have hpong : ToBrowser.pong 1 ∈ cfg.answers := List.mem_cons_of_mem _ List.mem_cons_self
    obtain ⟨bytes, t, hT⟩ := hx.child_sends prompt lawBrowser hw (hl.2 trivial) hpong (Nat.succ_lt_succ (Nat.zero_lt_succ 1))
    exact .inl ⟨_, .answers hr h hT⟩
  | awaitingAck =>
    rw [h] at hc hl
    obtain ⟨rfl, hheard⟩ := hc
    by_cases hp : pending .client w.transport = []
    · rw [hp, hheard] at htold
      exact .inr (.inl ⟨rfl, htold ▸ Nat.zero_le _⟩)
    · obtain ⟨bytes, t, hT⟩ := prompt.receive .client w.transport (hl.2 trivial) hp
      exact .inl ⟨_, .receivesAck hr h hT⟩
  | serving =>
    rw [h] at hc hl
    by_cases hp : pending .client w.transport = []
    · rw [hp] at htold
      rcases hc with ⟨rfl, hheard⟩ | ⟨rfl, hheard⟩
      · rw [hheard] at htold
        exact .inr (.inl ⟨rfl, htold ▸ Nat.le_refl _⟩)
      · rw [hheard] at htold
        exact .inr (.inr ⟨rfl, htold.symm⟩)
    · obtain ⟨bytes, t, hT⟩ := prompt.receive .client w.transport (hl.2 trivial) hp
      exact .inl ⟨_, .receives hr h hT⟩
  | exited result => exact absurd h (hlive result)

include prompt lawBrowser htype hpolicy hw hx hs in
/-- A child that has exited has answered twice. -/
theorem Exchange.childMoves_or_exited (hprocess : w.process = w.child.process) :
    (∃ w', ChildStep T cfg .success w w') ∨
      (replies.length = 1 ∧ said.length ≤ 1 ∨ replies.length = 2 ∧ said.length = 2) ∨
        w.process = .zombie (.exited 0) ∧ replies.length = 2 := by
  cases hc : w.child with
  | exited result =>
    obtain rfl := hs.child result hc
    have hchild := hx.child
    rw [hc] at hprocess hchild
    exact .inr (.inr ⟨hprocess, hchild.1 ▸ rfl⟩)
  | _ =>
    rw [hc] at hprocess
    rcases hx.childMoves prompt lawBrowser htype hpolicy hw hs hprocess (by simp [hc]) with hmoves | hwaits
    · exact .inl hmoves
    · exact .inr (.inl hwaits)

include prompt lawChild lawBrowser htype hpolicy hw hx hs in
/-- While nothing fails one of the two goes on, until `run` returns. -/
theorem Exchange.progress : w.browser = .returned (.ok ()) ∨ ∃ w', Step T cfg .success w w' := by
  have hbrowser := hx.browser
  have hb := hs.browser
  have hreplied := hx.replied.length_pending hw.toBrowser
  have child := hx.childMoves_or_exited prompt lawBrowser htype hpolicy hw hs
  cases h : w.browser with
  | bootstrapping => exact .inr ⟨_, .inl (.bootstraps h)⟩
  | spawning => exact .inr ⟨_, .inl (.spawns h)⟩
  | accepting =>
    rw [h] at hb hbrowser
    by_cases hc : connected w.transport
    · obtain ⟨t, hT⟩ := prompt.accept w.transport hc
      exact .inr ⟨_, .inl (.accepts h hT)⟩
    · have hsilent : ¬0 < replies.length := fun hreplies => hc (hs.linked.2 (hx.child.hasConnected hreplies))
      obtain ⟨w', hmoves⟩ | hwaits | hexited := child hb
      · exact .inr ⟨w', .inr hmoves⟩
      · omega
      · omega
  | awaitingHello =>
    rw [h] at hb hbrowser
    by_cases hp : pending .server w.transport = []
    · rw [hp, hbrowser.2, List.length_nil] at hreplied
      obtain ⟨w', hmoves⟩ | hwaits | hexited := child hb.1
      · exact .inr ⟨w', .inr hmoves⟩
      · omega
      · omega
    · obtain ⟨bytes, t, hT⟩ := prompt.receive .server w.transport (hs.linked.2 hb.2) hp
      exact .inr ⟨_, .inl (.receivesHello h hT)⟩
  | acking accepted result =>
    rw [h] at hb hbrowser
    obtain ⟨rfl, -, rfl, -⟩ := hbrowser
    obtain ⟨bytes, t, hT⟩ := hx.browser_sends prompt lawChild hw (hs.linked.2 hb.2) (.helloAck true) (by decide) (by decide)
    exact .inr ⟨_, .inl (.acks h hT)⟩
  | pinging hello =>
    rw [h] at hb hbrowser
    obtain ⟨rfl, -⟩ := hbrowser
    obtain ⟨bytes, t, hT⟩ := hx.browser_sends prompt lawChild hw (hs.linked.2 hb.2) (.ping 1) (by decide) (by decide)
    exact .inr ⟨_, .inl (.pings h hT)⟩
  | awaitingPong hello =>
    rw [h] at hb hbrowser
    by_cases hp : pending .server w.transport = []
    · rw [hp, hbrowser.2.1, List.length_nil] at hreplied
      have hsaid : said.length = 2 := hbrowser.1 ▸ rfl
      obtain ⟨w', hmoves⟩ | hwaits | hexited := child hb.1
      · exact .inr ⟨w', .inr hmoves⟩
      · omega
      · omega
    · obtain ⟨bytes, t, hT⟩ := prompt.receive .server w.transport (hs.linked.2 hb.2) hp
      exact .inr ⟨_, .inl (.receivesPong h hT)⟩
  | shuttingDown hello =>
    rw [h] at hb hbrowser
    obtain ⟨rfl, -⟩ := hbrowser
    obtain ⟨bytes, t, hT⟩ := hx.browser_sends prompt lawChild hw (hs.linked.2 hb.2) .shutdown (by decide) (by decide)
    exact .inr ⟨_, .inl (.shutsDown h hT)⟩
  | waiting hello =>
    rw [h] at hb hbrowser
    have hsaid : said.length = 3 := hbrowser.1 ▸ rfl
    rw [hbrowser.2.1] at hreplied
    obtain ⟨w', hmoves⟩ | hwaits | hexited := child hb.1
    · exact .inr ⟨w', .inr hmoves⟩
    · omega
    · exact .inr ⟨_, .inl (.waits h hexited.1)⟩
  | dropping hello result =>
    rw [h] at hb
    exact .inr ⟨_, .inl (.tryWaitReaped h hb.2.1)⟩
  | killing result | reaping result =>
    rw [h] at hb
    exact hb.elim
  | returned result =>
    rw [h] at hb
    exact .inl (hb.1 ▸ rfl)

end

/-- How many steps of a child lie ahead, apart from messages still to come. -/
def ChildState.rank : ChildState π → Nat
  | .initializing => 6
  | .starting => 5
  | .connecting => 4
  | .greeting => 3
  | .awaitingAck | .answering _ => 2
  | .serving => 1
  | .exited _ => 0

/-- The steps that are left: a message of the browser's is one for each. -/
def World.rank (w : World σ π) : Nat :=
  3 * w.browser.rank + 2 * (w.toChild.sent.length - w.toChild.received.length) + w.child.rank

/-- The browser's steps leave the child's code alone. -/
theorem BrowserStep.child_eq {o : Outcome} (h : BrowserStep T cfg o w w') : w'.child = w.child := by
  cases h <;> rfl

/-- In a step the browser sends at most one message. -/
theorem BrowserStep.sent_le {o : Outcome} (h : BrowserStep T cfg o w w') :
    w'.toChild.sent.length ≤ w.toChild.sent.length + 1 ∧ w'.toChild.received = w.toChild.received := by
  cases h with
  | acks | pings | shutsDown =>
    refine ⟨?_, rfl⟩
    rw [Log.sent_send, List.length_append]
    exact Nat.le_refl _
  | _ => exact ⟨Nat.le_succ _, rfl⟩

/-- After the acknowledgement one step is left. -/
theorem rank_afterHelloAck_le (o : Except (CodecError π) ToChild) : (afterHelloAck o).rank ≤ 1 := by
  unfold afterHelloAck
  split
  · exact Nat.zero_le _
  · split
    · exact Nat.le_refl _
    · exact Nat.zero_le _

/-- After a request two steps are left. -/
theorem rank_afterRequest_le (o : Except (CodecError π) ToChild) : (afterRequest o).rank ≤ 2 := by
  unfold afterRequest
  split <;> simp [ChildState.rank]

/-- A step of the child brings its end nearer. -/
theorem ChildStep.rank_lt {o : Outcome} (F : T.Faithful pending connected) (hw : Carries pending w) (h : ChildStep T cfg o w w') :
    2 * (w'.toChild.sent.length - w'.toChild.received.length) + w'.child.rank <
      2 * (w.toChild.sent.length - w.toChild.received.length) + w.child.rank := by
  cases h with
  | @receivesAck _ bytes t hr h hT =>
    have hbefore : w.child.rank = 2 := by rw [h]; rfl
    have hafter := rank_afterHelloAck_le (decode cfg.toChild bytes)
    have hlen := (hw.child_heard F hT).length_eq
    rw [List.length_cons] at hlen
    simp only [World.childAt, Log.sent_receive, Log.received_receive, List.length_append, List.length_singleton]
    omega
  | @receives _ bytes t hr h hT =>
    have hbefore : w.child.rank = 1 := by rw [h]; rfl
    have hafter := rank_afterRequest_le (decode cfg.toChild bytes)
    have hlen := (hw.child_heard F hT).length_eq
    rw [List.length_cons] at hlen
    simp only [World.childAt, Log.sent_receive, Log.received_receive, List.length_append, List.length_singleton]
    omega
  | _ => simp_all [World.childAt, ChildState.rank, ChildState.failed]

/-- Every step brings the end nearer. -/
theorem Step.rank_lt {o : Outcome} (F : T.Faithful pending connected) (hw : Carries pending w) (h : Step T cfg o w w') :
    w'.rank < w.rank := by
  unfold World.rank
  rcases h with h | h
  · have hrank := h.rank_lt
    obtain ⟨hsent, hreceived⟩ := h.sent_le
    rw [h.child_eq, hreceived]
    omega
  · have hbrowser : w'.browser = w.browser := by cases h <;> rfl
    have hrank := h.rank_lt F hw
    rw [hbrowser]
    omega

/-- The handshake, the ping and the shutdown are over, with success on both sides. -/
structure Completed (cfg : Config π) (w : World σ π) : Prop where
  browser : w.browser = .returned (.ok ())
  child : w.child = .exited (.served (.ok ()))
  process : w.process = .reaped (.exited 0)
  told : Encodes cfg.toChild script w.toChild.received
  replied : Encodes cfg.toBrowser cfg.answers w.toBrowser.received

/-- What holds while nothing fails. -/
structure OnCourse (cfg : Config π) (pending : Side → σ → List (List UInt8)) (connected : σ → Prop) (w : World σ π) : Prop where
  carries : Carries pending w
  exchange : ∃ said replies, Exchange cfg said replies w
  smooth : Smooth connected w

/-- The handshake begins on course. -/
theorem OnCourse.start (F : T.Faithful pending connected) : OnCourse cfg pending connected (World.start T : World σ π) :=
  ⟨.start F, ⟨[], [], .start cfg⟩, .start F⟩

/-- Steps that succeed stay on course. -/
theorem OnCourse.step (F : T.Faithful pending connected) (lawChild : cfg.toChild.Lawful) (lawBrowser : cfg.toBrowser.Lawful)
    (hpolicy : cfg.choosePolicy.apply = .ok ()) (hfail : cfg.browserFailAfterHandshake = false)
    (hc : OnCourse cfg pending connected w) (h : Step T cfg .success w w') : OnCourse cfg pending connected w' := by
  obtain ⟨hw, ⟨said, replies, hx⟩, hs⟩ := hc
  refine ⟨hw.step F h, hx.step F lawChild lawBrowser hw h, ?_⟩
  rcases h with h | h
  · exact hs.browserStep F lawBrowser hfail hw hx h
  · exact hs.childStep F lawChild hpolicy hw hx h

/-- Where every call succeeds, what ends is the completed handshake. -/
theorem completed_of_ends (F : T.Faithful pending connected) (prompt : T.Prompt pending connected cfg.Fits)
    (lawChild : cfg.toChild.Lawful) (lawBrowser : cfg.toBrowser.Lawful) (htype : cfg.processType ≠ .browser)
    (hpolicy : cfg.choosePolicy.apply = .ok ()) (hfail : cfg.browserFailAfterHandshake = false)
    (h : Ends (Step T cfg .success) (World.start T) w) : Completed cfg w := by
  have hrun : Reachable (· = World.start T) (Step T cfg .success) w := ⟨_, rfl, h.1⟩
  have hc : OnCourse cfg pending connected w := by
    refine hrun.invariant (I := OnCourse cfg pending connected) ?_ ?_
    · rintro _ rfl
      exact .start F
    · intro w w' hc hstep
      exact hc.step F lawChild lawBrowser hpolicy hfail hstep
  obtain ⟨hw, ⟨said, replies, hx⟩, hs⟩ := hc
  rcases hx.progress prompt lawChild lawBrowser htype hpolicy hw hs with hret | ⟨w', hstep⟩
  · have hbrowser := hx.browser
    have hb := hs.browser
    have hchild := hx.child
    rw [hret] at hbrowser hb
    obtain ⟨rfl, hheard⟩ := hbrowser
    obtain ⟨-, hreaped, hexit⟩ := hb
    rw [hexit] at hchild
    obtain ⟨rfl, hserved⟩ := hchild
    exact ⟨hret, hexit, hreaped, hx.told.received_of_length hw.toChild hserved, hx.replied.received_of_length hw.toBrowser hheard⟩
  · exact absurd hstep (h.2 w')

/-- Where nothing fails or times out, the two never wait for each other: every run ends with the success of both. And no run, whatever
fails, is longer than 42 steps. -/
theorem handshake_completes (cfg : Config π) (F : T.Faithful pending connected) (prompt : T.Prompt pending connected cfg.Fits)
    (lawChild : cfg.toChild.Lawful) (lawBrowser : cfg.toBrowser.Lawful) (htype : cfg.processType ≠ .browser)
    (hsandbox : (cfg.debugAssertions && cfg.noSandbox) = true) (hfail : cfg.browserFailAfterHandshake = false) :
    (∀ w, Ends (Step T cfg .success) (World.start T) w → Completed cfg w) ∧
      ∀ run : List (World σ π), (World.start T :: run).IsChain (fun w w' => ∃ o, Step T cfg o w w') → run.length ≤ 42 := by
  constructor
  · intro w hw
    exact completed_of_ends F prompt lawChild lawBrowser htype (choosePolicy_apply hsandbox) hfail hw
  · intro run hrun
    refine length_le (m := World.rank) (I := Carries pending) ?_ ?_ (.start F) hrun
    · rintro w w' hw ⟨o, h⟩
      exact hw.step F h
    · rintro w w' hw ⟨o, h⟩
      exact h.rank_lt F hw

/-- The handshake with a renderer can end. -/
theorem exists_ends_renderer :
    ∃ w, Ends (Step (queues (ε := String)) rendererConfig .success) (World.start (queues (ε := String))) w :=
  exists_ends (m := World.rank) (fun _ _ hw h => hw.step faithful_queues h) (fun _ _ hw h => h.rank_lt faithful_queues hw) _
    (.start faithful_queues)

/-- The handshake with a renderer completes, over two queues. -/
theorem handshake_completes_renderer :
    (∃ w, Ends (Step queues rendererConfig .success) (World.start queues) w ∧ Completed rendererConfig w) ∧
      ∀ run, (World.start queues :: run).IsChain (fun w w' => ∃ o, Step queues rendererConfig o w w') → run.length ≤ 42 := by
  obtain ⟨hends, hlen⟩ := handshake_completes rendererConfig faithful_queues (prompt_queues _) lawful_toChild lawful_toBrowser
    (by decide) (by decide) rfl
  obtain ⟨w, hw⟩ := exists_ends_renderer
  exact ⟨⟨w, hw, hends w hw⟩, hlen⟩

/-! ## Without a sandbox -/

/-- The browser still waits for the child, or has given it up. -/
def BrowserState.Unanswered : BrowserState π → Prop
  | .bootstrapping | .spawning | .accepting => True
  | .killing result | .reaping result | .returned result => ∃ e, result = .error e
  | _ => False

/-- The child has said nothing and was told nothing: it has not come to the sandbox, or has exited at it or before it. -/
structure Silent (connected : σ → Prop) (w : World σ π) : Prop where
  browser : w.browser.Unanswered
  child : w.child = .initializing ∨ w.child = .starting ∨ w.child = .exited .telemetryFailed ∨ w.child = .exited .sandboxUnavailable
  connected : ¬connected w.transport
  toBrowser : w.toBrowser.sent = []
  toChild : w.toChild.sent = []

/-- The browser's steps keep a child silent. -/
theorem Silent.browserStep {o : Outcome} (F : T.Faithful pending connected) (hw : Silent connected w)
    (h : BrowserStep T cfg o w w') : Silent connected w' := by
  have hb := hw.browser
  cases h with
  | accepts h hT => exact absurd ((F.accept hT).2.1 rfl) hw.connected
  | acceptFails h hT =>
    exact { hw with
      browser := ⟨_, rfl⟩
      connected := fun ht => hw.connected ((F.accept hT).2.2.1 ht) }
  | bootstraps | spawns => exact { hw with browser := trivial }
  | executableFails | bootstrapFails | spawnFails | acceptTimesOut | acceptThreadFails | acceptThreadDies =>
    exact { hw with browser := ⟨_, rfl⟩ }
  | kills h | killFails h | reaps h | reapFails h =>
    rw [h] at hb
    exact { hw with browser := hb }
  | receivesHello h | helloTimesOut h | helloFails h | acks h | ackFails h | pings h | pingFails h | receivesPong h
  | pongTimesOut h | pongFails h | shutsDown h | shutdownFails h | waits h | waitFails _ h | tryWaitReaps h | tryWaitReaped h
  | tryWaitRunning h | tryWaitFails h =>
    rw [h] at hb
    exact hb.elim

/-- A child that may not go without a sandbox stays silent. -/
theorem Silent.childStep {o : Outcome} (hsandbox : (cfg.debugAssertions && cfg.noSandbox) = false) (hw : Silent connected w)
    (h : ChildStep T cfg o w w') : Silent connected w' := by
  have hc := hw.child
  cases h with
  | initializes => exact { hw with child := .inr (.inl rfl) }
  | initializingFails => exact { hw with child := .inr (.inr (.inl rfl)) }
  | applies hr h ht ha =>
    unfold Config.choosePolicy at ha
    rw [hsandbox] at ha
    cases ha
  | refuses => exact { hw with child := .inr (.inr (.inr rfl)) }
  | connects hr h | connectFails hr h | greets hr h | greetFails hr h | receivesAck hr h | ackFails hr h | receives hr h
  | receiveFails hr h | answers hr h | answerFails hr h =>
    rw [h] at hc
    rcases hc with hc | hc | hc | hc <;> cases hc

/-- A child that is not let off its sandbox, which only a debug build does, ends before it connects: it says nothing, is told
nothing, and the browser gets no handle to it and does not succeed. -/
theorem unsandboxed_never_speaks (cfg : Config π) (F : T.Faithful pending connected)
    (hsandbox : (cfg.debugAssertions && cfg.noSandbox) = false) {w : World σ π}
    (h : Reachable (· = World.start T) (fun w w' => ∃ o, Step T cfg o w w') w) :
    Silent connected w ∧ w.browser.hello? = none ∧ w.browser ≠ .returned (.ok ()) := by
  have hw : Silent connected w := by
    refine h.invariant (I := Silent connected) ?_ ?_
    · rintro _ rfl
      exact ⟨trivial, .inl rfl, F.start.2, rfl, rfl⟩
    · rintro w w' hw ⟨o, h | h⟩
      · exact hw.browserStep F h
      · exact hw.childStep hsandbox h
  have hb := hw.browser
  refine ⟨hw, ?_, ?_⟩
  · cases hbrowser : w.browser with
    | pinging | awaitingPong | shuttingDown | waiting | dropping =>
      rw [hbrowser] at hb
      exact hb.elim
    | _ => rfl
  · intro hret
    rw [hret] at hb
    obtain ⟨e, he⟩ := hb
    cases he

/-- A child of a release build exits for want of a sandbox. -/
theorem unsandboxed_never_speaks_release : ∃ w : World (Queues (List UInt8)) Wire.ReadError,
    w.child = .exited .sandboxUnavailable ∧ Silent (fun s => s.connected = true) w ∧ w.browser.hello? = none ∧
      w.browser ≠ .returned (.ok ()) := by
  let cfg := { rendererConfig with debugAssertions := false }
  have h1 : Reachable (· = World.start queues) (fun w w' => ∃ o, Step queues cfg o w w') (World.start queues) := .start rfl
  have h2 := h1.trans (.single ⟨_, .inl (.bootstraps rfl)⟩)
  have h3 := h2.trans (.single ⟨_, .inl (.spawns rfl)⟩)
  have h4 := h3.trans (.single ⟨_, .inr (.initializes rfl rfl)⟩)
  have h5 := h4.trans (.single ⟨_, .inr (.refuses (e := .notImplemented) rfl rfl (by decide) rfl)⟩)
  exact ⟨_, rfl, unsandboxed_never_speaks cfg faithful_queues rfl h5⟩

end Process

end ChromeLight
