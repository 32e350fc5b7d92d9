/-
  `MqttClientManager`: connections and publications of one manager.

  The manager calls the asynchronous MQTT library, which answers with return codes at once and
  with events later: a connection has succeeded, a message has been sent or has failed. Every
  publication stores its handlers in the manager and not in the context of its message, so a
  message reports to the handlers of the latest publication (`own_handlers_iff`). No event sets
  `isConnectionSuccessFlag`, so `disconnect` never asks the library to disconnect and `connect`
  always asks it to connect (`lifecycle_iff`).
-/
import Mathlib.Data.List.Induction

namespace SmartWarehouse.Server

/-! ## The manager -/

def mqttAsyncSuccess : Int := 0

def exitSuccess : Int := 0

def exitFailure : Int := 1

/-- What a message carries through the library, besides the manager. -/
structure MessageContext where
  topicSent : String
  payload : String
  payloadSize : Nat
deriving DecidableEq, Repr

/-- A call of the library. -/
inductive Request where
  | create | setCallbacks | connect | disconnect | destroy
  | sendMessage (context : MessageContext)
deriving DecidableEq, Repr

/-- The flags, identifiers and send handlers (`none` is `NULL`) of a manager. -/
structure MqttClientManager (H : Type) where
  isClientCreatedFlag : Bool
  isConnectionSuccessFlag : Bool
  clientID : String
  brokerURI : String
  onSendMessageSuccessHandler : Option H
  onSendMessageFailureHandler : Option H
deriving DecidableEq, Repr

/-- The result of a method, the library calls it makes in order, and the manager afterwards. -/
structure Outcome (H : Type) where
  rc : Int
  requests : List Request
  manager : MqttClientManager H

/-- A call of `publish`, with the return code of `MQTTAsync_sendMessage`. -/
structure PublishCall (H : Type) where
  payload : String
  topic : String
  onSendSuccess : Option H
  onSendFailure : Option H
  rc : Int
deriving DecidableEq, Repr

inductive Completion where
  | success | failure
deriving DecidableEq, Repr

variable {H : Type}

def PublishCall.context (c : PublishCall H) : MessageContext :=
  ⟨c.topic, c.payload, c.payload.utf8ByteSize⟩

/-- The handler that the call passes for a completion. -/
def PublishCall.handler (c : PublishCall H) : Completion → Option H
  | .success => c.onSendSuccess
  | .failure => c.onSendFailure

namespace MqttClientManager

def initial : MqttClientManager H := ⟨false, false, "", "", none, none⟩

def create (m : MqttClientManager H) (clientID brokerURI : String) (rc : Int) : Outcome H :=
  if m.isClientCreatedFlag = false then
    if rc ≠ mqttAsyncSuccess then ⟨exitFailure, [.create], m⟩
    else ⟨rc, [.create],
      { m with clientID := clientID, brokerURI := brokerURI, isClientCreatedFlag := true }⟩
  else ⟨exitSuccess, [], m⟩

/-- The return codes of `MQTTAsync_setCallbacks` and `MQTTAsync_connect`. -/
def connect (m : MqttClientManager H) (rcCallbacks rcConnect : Int) : Outcome H :=
  if m.isClientCreatedFlag = false then ⟨exitFailure, [], m⟩
  else if m.isConnectionSuccessFlag = false then
    if rcCallbacks ≠ mqttAsyncSuccess then ⟨exitFailure, [.setCallbacks], m⟩
    else if rcConnect ≠ mqttAsyncSuccess then ⟨exitFailure, [.setCallbacks, .connect], m⟩
    else ⟨rcConnect, [.setCallbacks, .connect], m⟩
  else ⟨exitFailure, [], m⟩

def disconnect (m : MqttClientManager H) (rc : Int) : Outcome H :=
  if m.isConnectionSuccessFlag = true then
    ⟨rc, [.disconnect], { m with isConnectionSuccessFlag := false }⟩
  else ⟨exitSuccess, [], m⟩

def destroy (m : MqttClientManager H) : Outcome H :=
  if m.isClientCreatedFlag = true then ⟨1, [.destroy], { m with isClientCreatedFlag := false }⟩
  else ⟨1, [], m⟩

def publish (m : MqttClientManager H) (c : PublishCall H) : Outcome H :=
  ⟨c.rc, [.sendMessage c.context],
    { m with
      onSendMessageSuccessHandler := c.onSendSuccess
      onSendMessageFailureHandler := c.onSendFailure }⟩

/-- `onSendMessageSuccess` and `onSendMessageFailure`: the handler that the manager has now is
    called with the context of the message. -/
def onSendMessage (m : MqttClientManager H) (context : MessageContext) :
    Completion → Option (H × MessageContext)
  | .success => m.onSendMessageSuccessHandler.map fun handler => (handler, context)
  | .failure => m.onSendMessageFailureHandler.map fun handler => (handler, context)

end MqttClientManager

/-! ## Runs -/

/-- A call of a method with the return codes that it gets from the library, or an event of the
    library. `onConnectSuccess_internal` does nothing and is not even registered. -/
inductive MqttEvent (H : Type) where
  | create (clientID brokerURI : String) (rc : Int)
  | connect (rcCallbacks rcConnect : Int)
  | disconnect (rc : Int)
  | destroy
  | publish (call : PublishCall H)
  | connectSuccess
  | complete (token : Nat) (kind : Completion)

/-- A message that has completed: the call that published it and the handler invoked for it. -/
structure Report (H : Type) where
  call : PublishCall H
  kind : Completion
  invoked : Option (H × MessageContext)

/-- The manager and what is outside of it: the messages in flight by token with the calls they
    come from, the messages completed, and whether the client is connected, that is whether a
    connection has succeeded since a disconnect request was accepted. -/
structure MqttWorld (H : Type) where
  manager : MqttClientManager H
  tokens : Nat
  inFlight : List (Nat × PublishCall H)
  reports : List (Report H)
  connected : Bool

namespace MqttWorld

def initial : MqttWorld H := ⟨.initial, 0, [], [], false⟩

def step (w : MqttWorld H) : MqttEvent H → MqttWorld H
  | .create clientID brokerURI rc =>
    { w with manager := (w.manager.create clientID brokerURI rc).manager }
  | .connect rcCallbacks rcConnect =>
    { w with manager := (w.manager.connect rcCallbacks rcConnect).manager }
  | .disconnect rc =>
    let outcome := w.manager.disconnect rc
    { w with
      manager := outcome.manager
      connected :=
        w.connected && !(Request.disconnect ∈ outcome.requests && rc = mqttAsyncSuccess) }
  | .destroy => { w with manager := w.manager.destroy.manager }
  | .publish call =>
    -- a message that is not accepted is never reported
    { w with
      manager := (w.manager.publish call).manager
      tokens := w.tokens + 1
      inFlight := if call.rc = mqttAsyncSuccess then w.inFlight ++ [(w.tokens, call)]
        else w.inFlight }
  | .connectSuccess => { w with connected := true }
  | .complete token kind =>
    match w.inFlight.lookup token with
    | none => w
    | some call =>
      { w with
        inFlight := w.inFlight.filter fun p => p.1 ≠ token
        reports := w.reports ++ [⟨call, kind, w.manager.onSendMessage call.context kind⟩] }

end MqttWorld

def runMqtt (events : List (MqttEvent H)) : MqttWorld H := events.foldl MqttWorld.step .initial

theorem runMqtt_snoc (events : List (MqttEvent H)) (e : MqttEvent H) :
    runMqtt (events ++ [e]) = (runMqtt events).step e := by
  rw [runMqtt, List.foldl_append]
  rfl

/-! ## Publications -/

/-- The latest call of `publish`. -/
def latestCall (events : List (MqttEvent H)) : Option (PublishCall H) :=
  events.reverse.findSome? fun | .publish call => some call | _ => none

/-- Every message completed so far has invoked the handler passed to its own call, with its own
    context, or none if that was `NULL`. -/
def OwnHandlers (events : List (MqttEvent H)) : Prop :=
  ∀ r ∈ (runMqtt events).reports,
    r.invoked = (r.call.handler r.kind).map fun handler => (handler, r.call.context)

/-- The handler that a completion finds in the manager. -/
def MqttClientManager.sendHandler (m : MqttClientManager H) : Completion → Option H
  | .success => m.onSendMessageSuccessHandler
  | .failure => m.onSendMessageFailureHandler

theorem onSendMessage_eq (m : MqttClientManager H) (context : MessageContext) (kind : Completion) :
    m.onSendMessage context kind = (m.sendHandler kind).map fun handler => (handler, context) := by
  cases kind <;> rfl

theorem sendHandler_publish (m : MqttClientManager H) (call : PublishCall H) (kind : Completion) :
    (m.publish call).manager.sendHandler kind = call.handler kind := by
  cases kind <;> rfl

/-- The other methods keep the send handlers. -/
theorem sendHandler_of_handlers {m m' : MqttClientManager H}
    (hsuccess : m'.onSendMessageSuccessHandler = m.onSendMessageSuccessHandler)
    (hfailure : m'.onSendMessageFailureHandler = m.onSendMessageFailureHandler)
    (kind : Completion) : m'.sendHandler kind = m.sendHandler kind := by
  cases kind
  · exact hsuccess
  · exact hfailure

theorem latestCall_snoc (events : List (MqttEvent H)) (e : MqttEvent H) :
    latestCall (events ++ [e]) =
      match e with
      | .publish call => some call
      | _ => latestCall events := by
  unfold latestCall
  rw [List.reverse_append, List.reverse_singleton, List.singleton_append, List.findSome?_cons]
  cases e <;> rfl

theorem step_sendHandler (w : MqttWorld H) (e : MqttEvent H) (kind : Completion) :
    (w.step e).manager.sendHandler kind =
      match e with
      | .publish call => call.handler kind
      | _ => w.manager.sendHandler kind := by
  cases e with
  | create clientID brokerURI rc =>
    apply sendHandler_of_handlers <;>
      (simp only [MqttWorld.step, MqttClientManager.create]; split_ifs <;> rfl)
  | connect rcCallbacks rcConnect =>
    apply sendHandler_of_handlers <;>
      (simp only [MqttWorld.step, MqttClientManager.connect]; split_ifs <;> rfl)
  | disconnect rc =>
    apply sendHandler_of_handlers <;>
      (simp only [MqttWorld.step, MqttClientManager.disconnect]; split_ifs <;> rfl)
  | destroy =>
    apply sendHandler_of_handlers <;>
      (simp only [MqttWorld.step, MqttClientManager.destroy]; split_ifs <;> rfl)
  | publish call => exact sendHandler_publish w.manager call kind
  | connectSuccess => rfl
  | complete token kind' =>
    simp only [MqttWorld.step]
    split <;> rfl

/-- The manager has the handlers of the latest call. -/
theorem sendHandler_runMqtt (events : List (MqttEvent H)) (kind : Completion) :
    (runMqtt events).manager.sendHandler kind =
      (latestCall events).bind fun call => call.handler kind := by
  induction events using List.reverseRecOn with
  | nil => cases kind <;> rfl
  | append_singleton events e ih =>
    rw [runMqtt_snoc, step_sendHandler, latestCall_snoc]
    cases e <;> first | exact ih | rfl

theorem latestCall_of_inFlight {events : List (MqttEvent H)}
    (h : (runMqtt events).inFlight ≠ []) : (latestCall events).isSome := by
  induction events using List.reverseRecOn with
  | nil => exact absurd rfl h
  | append_singleton events e ih =>
    rw [runMqtt_snoc] at h
    rw [latestCall_snoc]
    cases e with
    | publish call => rfl
    | complete token kind =>
      refine ih fun hnil => h ?_
      simp only [MqttWorld.step, hnil, List.lookup_nil]
    | create clientID brokerURI rc => exact ih h
    | connect rcCallbacks rcConnect => exact ih h
    | disconnect rc => exact ih h
    | destroy => exact ih h
    | connectSuccess => exact ih h

/-- What an event adds to the reports: a completion of a message in flight one, anything else
    none. -/
theorem reports_step (w : MqttWorld H) (e : MqttEvent H) :
    (∃ token kind call, e = .complete token kind ∧ w.inFlight.lookup token = some call ∧
        (w.step e).reports =
          w.reports ++ [⟨call, kind, w.manager.onSendMessage call.context kind⟩]) ∨
      (∀ token kind, e = .complete token kind → w.inFlight.lookup token = none) ∧
        (w.step e).reports = w.reports := by
  cases e with
  | complete token kind =>
    cases hlookup : w.inFlight.lookup token with
    | none =>
      refine .inr ⟨?_, ?_⟩
      · intro token' kind' he
        obtain ⟨rfl, -⟩ := MqttEvent.complete.inj he
        exact hlookup
      · simp only [MqttWorld.step, hlookup]
    | some call =>
      refine .inl ⟨token, kind, call, rfl, hlookup, ?_⟩
      simp only [MqttWorld.step, hlookup]
  | create clientID brokerURI rc => exact .inr ⟨nofun, rfl⟩
  | connect rcCallbacks rcConnect => exact .inr ⟨nofun, rfl⟩
  | disconnect rc => exact .inr ⟨nofun, rfl⟩
  | destroy => exact .inr ⟨nofun, rfl⟩
  | publish call => exact .inr ⟨nofun, rfl⟩
  | connectSuccess => exact .inr ⟨nofun, rfl⟩

/-- The calls that a completion relates: the latest one passed the same handler as that of the
    message. -/
def AgreesWithLatest (events : List (MqttEvent H)) (e : MqttEvent H) : Prop :=
  ∀ token kind, e = .complete token kind → ∀ call latest,
    (runMqtt events).inFlight.lookup token = some call → latestCall events = some latest →
      latest.handler kind = call.handler kind

theorem ownHandlers_snoc (events : List (MqttEvent H)) (e : MqttEvent H) :
    OwnHandlers (events ++ [e]) ↔ OwnHandlers events ∧ AgreesWithLatest events e := by
  unfold OwnHandlers AgreesWithLatest
  rw [runMqtt_snoc]
  obtain ⟨token, kind, call, he, hlookup, hreports⟩ | ⟨hnone, hreports⟩ :=
    reports_step (runMqtt events) e
  · subst he
    have hne : (runMqtt events).inFlight ≠ [] := by
      intro hnil
      rw [hnil] at hlookup
      cases hlookup
    obtain ⟨latest, hlatest⟩ := Option.isSome_iff_exists.mp (latestCall_of_inFlight hne)
    have hinvoked : (runMqtt events).manager.onSendMessage call.context kind =
        (latest.handler kind).map fun handler => (handler, call.context) := by
      rw [onSendMessage_eq, sendHandler_runMqtt, hlatest, Option.bind_some]
    rw [hreports, List.forall_mem_append, List.forall_mem_singleton, hinvoked]
    apply and_congr_right
    intro _
    constructor
    · intro h token' kind' he call' latest' hlookup' hlatest'
      obtain ⟨rfl, rfl⟩ := MqttEvent.complete.inj he
      obtain rfl := Option.some.inj (hlookup.symm.trans hlookup')
      obtain rfl := Option.some.inj (hlatest.symm.trans hlatest')
      refine Option.map_injective ?_ h
      intro a b hab
      exact (Prod.mk.inj hab).1
    · intro h
      rw [h token kind rfl call latest hlookup hlatest]
  · rw [hreports]
    refine (and_iff_left ?_).symm
    intro token kind he call latest hlookup
    rw [hnone token kind he] at hlookup
    cases hlookup

/-- Every message reports to its own handlers exactly if at every completion the latest call has
    passed the same handler of that kind as the call of the message. -/
theorem own_handlers_iff (events : List (MqttEvent H)) :
    OwnHandlers events ↔ ∀ pre e, pre ++ [e] <+: events → AgreesWithLatest pre e := by
  induction events using List.reverseRecOn with
  | nil =>
    refine iff_of_true ?_ ?_
    · intro r hr
      cases hr
    · intro pre e h
      have hlength := h.length_le
      simp at hlength
  | append_singleton events e ih =>
    rw [ownHandlers_snoc, ih]
    constructor
    · intro ⟨hevents, hlast⟩ pre e' h
      obtain h | h := List.prefix_concat_iff.mp h
      · obtain ⟨hpre, he⟩ := List.append_inj' h rfl
        rw [hpre, List.singleton_inj.mp he]
        exact hlast
      · exact hevents pre e' h
    · intro h
      refine ⟨fun pre e' hpre => h pre e' (hpre.trans (List.prefix_append _ _)), ?_⟩
      exact h events e List.prefix_rfl

/-- Two messages with handlers of their own, confirmed after the second was published. -/
def twoInFlight : List (MqttEvent String) :=
  [.create "client" "broker" 0, .connect 0 0, .connectSuccess,
    .publish ⟨"1", "sensor", some "first", none, 0⟩,
    .publish ⟨"2", "sensor", some "second", none, 0⟩, .complete 0 .success]

/-- The first message invokes the handler of the second. -/
theorem first_message_invokes_second :
    (runMqtt twoInFlight).reports.map Report.invoked =
        [some ("second", ⟨"sensor", "1", 1⟩)] ∧
      ¬ OwnHandlers twoInFlight := by
  refine ⟨by decide, fun h => ?_⟩
  have hreport := h ⟨⟨"1", "sensor", some "first", none, 0⟩, .success,
    some ("second", ⟨"sensor", "1", 1⟩)⟩ List.mem_cons_self
  exact absurd hreport (by decide)

/-! ## Connections -/

/-- The flag for a successful connection is never set. -/
theorem isConnectionSuccessFlag_runMqtt (events : List (MqttEvent H)) :
    (runMqtt events).manager.isConnectionSuccessFlag = false := by
  induction events using List.reverseRecOn with
  | nil => rfl
  | append_singleton events e ih =>
    rw [runMqtt_snoc]
    cases e with
    | create clientID brokerURI rc =>
      simp only [MqttWorld.step, MqttClientManager.create]
      split_ifs <;> exact ih
    | connect rcCallbacks rcConnect =>
      simp only [MqttWorld.step, MqttClientManager.connect]
      split_ifs <;> exact ih
    | disconnect rc =>
      simp only [MqttWorld.step, MqttClientManager.disconnect]
      split_ifs
      · rfl
      · exact ih
    | destroy =>
      simp only [MqttWorld.step, MqttClientManager.destroy]
      split_ifs <;> exact ih
    | publish call => exact ih
    | connectSuccess => exact ih
    | complete token kind =>
      simp only [MqttWorld.step]
      split <;> exact ih

/-- So the library is never asked to disconnect, ... -/
theorem disconnect_runMqtt (events : List (MqttEvent H)) (rc : Int) :
    (runMqtt events).manager.disconnect rc = ⟨exitSuccess, [], (runMqtt events).manager⟩ := by
  unfold MqttClientManager.disconnect
  rw [isConnectionSuccessFlag_runMqtt, if_neg Bool.false_ne_true]

/-- ... the client stays connected from the first success on, ... -/
theorem connected_runMqtt (events : List (MqttEvent H)) :
    (runMqtt events).connected = true ↔ .connectSuccess ∈ events := by
  induction events using List.reverseRecOn with
  | nil => exact iff_of_false Bool.false_ne_true List.not_mem_nil
  | append_singleton events e ih =>
    rw [runMqtt_snoc, List.mem_append, ← ih, List.mem_singleton]
    cases e with
    | disconnect rc =>
      simp only [MqttWorld.step]
      rw [disconnect_runMqtt]
      simp
    | connectSuccess => simp [MqttWorld.step]
    | complete token kind =>
      simp only [MqttWorld.step]
      split <;> simp
    | create clientID brokerURI rc => simp [MqttWorld.step]
    | connect rcCallbacks rcConnect => simp [MqttWorld.step]
    | destroy => simp [MqttWorld.step]
    | publish call => simp [MqttWorld.step]

/-- ... and a created client is asked to connect whenever its callbacks can be set. -/
theorem connect_mem_requests (events : List (MqttEvent H)) (rcCallbacks rcConnect : Int) :
    Request.connect ∈ ((runMqtt events).manager.connect rcCallbacks rcConnect).requests ↔
      (runMqtt events).manager.isClientCreatedFlag = true ∧ rcCallbacks = mqttAsyncSuccess := by
  unfold MqttClientManager.connect
  rw [isConnectionSuccessFlag_runMqtt]
  by_cases hcreated : (runMqtt events).manager.isClientCreatedFlag = false
  · rw [if_pos hcreated]
    simp [hcreated]
  · rw [if_neg hcreated, if_pos rfl]
    rw [Bool.not_eq_false] at hcreated
    by_cases hrc : rcCallbacks = mqttAsyncSuccess
    · rw [if_neg (not_not.mpr hrc)]
      split_ifs <;> simp [hcreated, hrc]
    · rw [if_pos hrc]
      simp [hrc]

/-- A disconnect of a connected client asks the library to disconnect and one of a client that
    is not connected does not; a connect of a connected client does not ask it to connect. -/
def FollowsLifecycle (w : MqttWorld H) : MqttEvent H → Prop
  | .disconnect rc => Request.disconnect ∈ (w.manager.disconnect rc).requests ↔ w.connected = true
  | .connect rcCallbacks rcConnect =>
    w.connected = true →
      Request.connect ∉ (w.manager.connect rcCallbacks rcConnect).requests
  | _ => True

/-- No disconnect comes after the success of a connection; a connect does so only if the client
    is not created or its callbacks cannot be set. -/
def BeforeSuccess (pre : List (MqttEvent H)) : MqttEvent H → Prop
  | .disconnect _ => .connectSuccess ∉ pre
  | .connect rcCallbacks _ =>
    .connectSuccess ∈ pre →
      ¬ ((runMqtt pre).manager.isClientCreatedFlag = true ∧ rcCallbacks = mqttAsyncSuccess)
  | _ => True

theorem followsLifecycle_iff (pre : List (MqttEvent H)) (e : MqttEvent H) :
    FollowsLifecycle (runMqtt pre) e ↔ BeforeSuccess pre e := by
  cases e with
  | disconnect rc =>
    simp only [FollowsLifecycle, BeforeSuccess]
    rw [disconnect_runMqtt, connected_runMqtt]
    simp
  | connect rcCallbacks rcConnect =>
    simp only [FollowsLifecycle, BeforeSuccess]
    rw [connected_runMqtt, connect_mem_requests]
  | create clientID brokerURI rc => exact Iff.rfl
  | destroy => exact Iff.rfl
  | publish call => exact Iff.rfl
  | connectSuccess => exact Iff.rfl
  | complete token kind => exact Iff.rfl

/-- A run follows the lifecycle at every event exactly if it does not go on after the success of
    a connection. -/
theorem lifecycle_iff (events : List (MqttEvent H)) :
    (∀ pre e, pre ++ [e] <+: events → FollowsLifecycle (runMqtt pre) e) ↔
      ∀ pre e, pre ++ [e] <+: events → BeforeSuccess pre e := by
  apply forall_congr'
  intro pre
  apply forall_congr'
  intro e
  rw [followsLifecycle_iff]

/-- A client that has been created and has connected. -/
def connectedClient : List (MqttEvent String) :=
  [.create "client" "broker" 0, .connect 0 0, .connectSuccess]

/-- It is not disconnected, and it is connected again. -/
theorem connected_client_not_disconnected :
    ((runMqtt connectedClient).connected = true ∧
        ((runMqtt connectedClient).manager.disconnect 0).requests = [] ∧
        ((runMqtt connectedClient).manager.connect 0 0).requests = [.setCallbacks, .connect]) ∧
      ¬ FollowsLifecycle (runMqtt connectedClient) (.disconnect 0) ∧
      ¬ FollowsLifecycle (runMqtt connectedClient) (.connect 0 0) := by
  unfold FollowsLifecycle
  decide

end SmartWarehouse.Server
