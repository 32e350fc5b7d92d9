/-
  `create_dispatcher_client` and `create_monitoring_client`: the MQTT clients of the knowledge
  base.

  Each creates its client unless there is a handler fact for it, and succeeds whatever fails. The
  handler is asserted before the connection is tried and stays when that fails, so there is one
  attempt to connect for each client, in the first call that creates it
  (`connected_iff`). Later calls try again exactly if that attempt succeeded or there was none
  (`retried_iff`).
-/
import Mathlib.Data.List.Induction
import Mathlib.Logic.Function.Basic

namespace SmartWarehouse.Kbase

/-! ## The clients -/

inductive Client where
  | dispatcher | monitoring
deriving DecidableEq, Repr

/-- The first argument of `mqtt_create_client`. -/
def Client.name : Client → String
  | dispatcher => "client_dispatcher"
  | monitoring => "client_monitoring"

/-- `mqtt_broker/1`. -/
def mqttBroker : String := "tcp://localhost:1883"

/-- A call of the foreign library. The client of `mqtt_connect` is not among its arguments. -/
inductive LibraryCall (H : Type) where
  | useForeignLibrary
  | mqttCreateClient (client : Client) (name brokerURL : String)
  | mqttConnect (client : Client) (handler : H) (success : Bool)
deriving DecidableEq, Repr

/-- `mqtt_library_loaded/0`, and `mqtt_dispatcher_handler/1` and `mqtt_monitoring_handler/1`. -/
structure ClientFacts (H : Type) where
  mqttLibraryLoaded : Bool
  handlers : Client → List H

variable {H : Type}

def ClientFacts.initial : ClientFacts H := ⟨false, fun _ => []⟩

/-- `load_mqtt_library`, when `use_foreign_library` succeeds. -/
def loadMqttLibrary (facts : ClientFacts H) : ClientFacts H × List (LibraryCall H) :=
  if facts.mqttLibraryLoaded then (facts, [])
  else ({ facts with mqttLibraryLoaded := true }, [.useForeignLibrary])

/-- The predicate for one client. `created` is the handler that `mqtt_create_client` finds, if it
    succeeds, and `connected` whether `mqtt_connect` succeeds. -/
def createClient (client : Client) (created : Option H) (connected : Bool)
    (facts : ClientFacts H) : ClientFacts H × List (LibraryCall H) :=
  let (facts, calls) := loadMqttLibrary facts
  if (facts.handlers client).isEmpty then
    let calls := calls ++ [.mqttCreateClient client client.name mqttBroker]
    match created with
    | none => (facts, calls)
    | some handler =>
      -- the assertion is not undone when the connection fails
      ({ facts with handlers :=
          Function.update facts.handlers client (facts.handlers client ++ [handler]) },
        calls ++ [.mqttConnect client handler connected])
  else (facts, calls)

def createDispatcherClient (created : Option H) (connected : Bool) (facts : ClientFacts H) :
    ClientFacts H × List (LibraryCall H) := createClient .dispatcher created connected facts

def createMonitoringClient (created : Option H) (connected : Bool) (facts : ClientFacts H) :
    ClientFacts H × List (LibraryCall H) := createClient .monitoring created connected facts

/-! ## Runs -/

/-- A call of one of the predicates, and what the library does in it. -/
structure CreationCall (H : Type) where
  client : Client
  created : Option H
  connected : Bool
deriving DecidableEq, Repr

def CreationCall.run (c : CreationCall H) : ClientFacts H → ClientFacts H × List (LibraryCall H) :=
  match c.client with
  | .dispatcher => createDispatcherClient c.created c.connected
  | .monitoring => createMonitoringClient c.created c.connected

/-- The facts after the calls, and all calls of the library. -/
def runCalls (calls : List (CreationCall H)) : ClientFacts H × List (LibraryCall H) :=
  calls.foldl (fun s c => ((c.run s.1).1, s.2 ++ (c.run s.1).2)) (.initial, [])

theorem runCalls_append (calls : List (CreationCall H)) (c : CreationCall H) :
    runCalls (calls ++ [c]) =
      ((c.run (runCalls calls).1).1, (runCalls calls).2 ++ (c.run (runCalls calls).1).2) := by
  unfold runCalls
  rw [List.foldl_append]
  rfl

/-- What `mqtt_create_client` and `mqtt_connect` do in a call of the client. -/
def CreationCall.outcome (client : Client) (c : CreationCall H) : Option (H × Bool) :=
  if c.client = client then c.created.map fun handler => (handler, c.connected) else none

/-- The handler that is created first for the client, and whether it was connected then. -/
def firstCreated (client : Client) (calls : List (CreationCall H)) : Option (H × Bool) :=
  calls.findSome? (CreationCall.outcome client)

theorem firstCreated_append (client : Client) (calls : List (CreationCall H))
    (c : CreationCall H) :
    firstCreated client (calls ++ [c]) = (firstCreated client calls).or (c.outcome client) := by
  unfold firstCreated
  rw [List.findSome?_append]
  simp

theorem CreationCall.run_eq (c : CreationCall H) (facts : ClientFacts H) :
    c.run facts = createClient c.client c.created c.connected facts := by
  unfold run
  cases c.client <;> rfl

/-! ## One call -/

theorem loadMqttLibrary_handlers (facts : ClientFacts H) :
    (loadMqttLibrary facts).1.handlers = facts.handlers := by
  unfold loadMqttLibrary
  split <;> rfl

theorem mem_loadMqttLibrary {facts : ClientFacts H} {l : LibraryCall H}
    (h : l ∈ (loadMqttLibrary facts).2) : l = .useForeignLibrary := by
  unfold loadMqttLibrary at h
  split at h
  · cases h
  · exact List.mem_singleton.mp h

/-- What the call does when its client has no handler. -/
theorem CreationCall.run_of_empty {c : CreationCall H} {facts : ClientFacts H}
    (h : facts.handlers c.client = []) :
    (c.run facts).1.handlers = Function.update facts.handlers c.client c.created.toList ∧
      (c.run facts).2 = (loadMqttLibrary facts).2 ++
        .mqttCreateClient c.client c.client.name mqttBroker ::
          (c.created.map fun handler => .mqttConnect c.client handler c.connected).toList := by
  rw [c.run_eq, createClient]
  dsimp only
  rw [loadMqttLibrary_handlers, h, if_pos List.isEmpty_nil]
  cases c.created with
  | none =>
    refine ⟨?_, rfl⟩
    rw [loadMqttLibrary_handlers, Option.toList_none, ← h, Function.update_eq_self]
  | some handler => exact ⟨rfl, List.append_assoc ..⟩

theorem CreationCall.run_of_handler {c : CreationCall H} {facts : ClientFacts H}
    (h : facts.handlers c.client ≠ []) :
    (c.run facts).1.handlers = facts.handlers ∧ (c.run facts).2 = (loadMqttLibrary facts).2 := by
  rw [c.run_eq, createClient]
  dsimp only
  rw [if_neg (by simpa [loadMqttLibrary_handlers] using h)]
  exact ⟨loadMqttLibrary_handlers facts, rfl⟩

/-- The client gets a handler only if it has none. -/
theorem CreationCall.run_handlers (c : CreationCall H) (facts : ClientFacts H) (client : Client) :
    (c.run facts).1.handlers client =
      if facts.handlers client = [] then ((c.outcome client).map Prod.fst).toList
      else facts.handlers client := by
  by_cases hc : facts.handlers c.client = []
  · rw [(run_of_empty hc).1]
    by_cases hclient : c.client = client
    · subst hclient
      rw [Function.update_self, if_pos hc, outcome, if_pos rfl, Option.map_map]
      exact congrArg Option.toList Option.map_id'.symm
    · rw [Function.update_of_ne (Ne.symm hclient), outcome, if_neg hclient]
      split <;> rename_i hnone
      · exact hnone
      · rfl
  · rw [(run_of_handler hc).1]
    split <;> rename_i hnone
    · have hclient : c.client ≠ client := by
        rintro rfl
        exact hc hnone
      rw [hnone, outcome, if_neg hclient]
      rfl
    · rfl

/-- The call connects the client only if there is no handler for it. -/
theorem CreationCall.connects_iff {c : CreationCall H} {facts : ClientFacts H} {client : Client}
    {handler : H} {success : Bool} :
    .mqttConnect client handler success ∈ (c.run facts).2 ↔
      facts.handlers client = [] ∧ c.outcome client = some (handler, success) := by
  have hload : .mqttConnect client handler success ∉ (loadMqttLibrary facts).2 := fun h => by
    cases mem_loadMqttLibrary h
  by_cases hc : facts.handlers c.client = []
  · rw [(run_of_empty hc).2, List.mem_append, or_iff_right hload, outcome]
    by_cases hclient : c.client = client
    · subst hclient
      cases c.created <;> simp [hc, eq_comm]
    · cases c.created <;> simp [hclient, Ne.symm hclient]
  · rw [(run_of_handler hc).2, outcome]
    refine iff_of_false hload fun ⟨hnone, hout⟩ => ?_
    split at hout <;> rename_i hclient
    · rw [hclient] at hc
      exact hc hnone
    · cases hout

/-- A call whose client has no handler tries to create it, and then to connect it. -/
theorem CreationCall.creates_iff {c : CreationCall H} {facts : ClientFacts H} :
    .mqttCreateClient c.client c.client.name mqttBroker ∈ (c.run facts).2 ↔
      facts.handlers c.client = [] := by
  by_cases hc : facts.handlers c.client = []
  · rw [(run_of_empty hc).2]
    simp [hc]
  · rw [(run_of_handler hc).2]
    refine iff_of_false (fun h => ?_) hc
    cases mem_loadMqttLibrary h

/-! ## All calls -/

/-- The handler that is created first is the one that stays. -/
theorem handlers_eq (client : Client) (calls : List (CreationCall H)) :
    (runCalls calls).1.handlers client = ((firstCreated client calls).map Prod.fst).toList := by
  induction calls using List.reverseRecOn with
  | nil => rfl
  | append_singleton calls c ih =>
    rw [runCalls_append, firstCreated_append, c.run_handlers, ih]
    cases firstCreated client calls <;> rfl

theorem handlers_eq_nil {client : Client} {calls : List (CreationCall H)} :
    (runCalls calls).1.handlers client = [] ↔ firstCreated client calls = none := by
  rw [handlers_eq]
  cases firstCreated client calls <;> simp

/-- It is the only one that is ever connected. -/
theorem connected_iff {client : Client} {calls : List (CreationCall H)} {handler : H}
    {success : Bool} :
    .mqttConnect client handler success ∈ (runCalls calls).2 ↔
      firstCreated client calls = some (handler, success) := by
  induction calls using List.reverseRecOn with
  | nil => exact iff_of_false List.not_mem_nil nofun
  | append_singleton calls c ih =>
    rw [runCalls_append, firstCreated_append, List.mem_append, ih, CreationCall.connects_iff,
      handlers_eq_nil]
    cases firstCreated client calls <;> simp

theorem firstCreated_mono {client : Client} {pre calls : List (CreationCall H)}
    (hpre : pre <+: calls) {result : H × Bool} (h : firstCreated client pre = some result) :
    firstCreated client calls = some result := by
  obtain ⟨post, rfl⟩ := hpre
  unfold firstCreated at h ⊢
  rw [List.findSome?_append, h, Option.some_or]

/-! ## Retries -/

/-- After each call there is at most one handler for a client, and a handler only if it has been
    connected with success. A client that has not been connected with success is tried again by
    every further call, as `Tries` says of the call and what the library did in it. -/
structure Retried (Tries : CreationCall H → List (LibraryCall H) → Prop)
    (calls : List (CreationCall H)) : Prop where
  one : ∀ pre, pre <+: calls → ∀ client, ((runCalls pre).1.handlers client).length ≤ 1
  connected : ∀ pre, pre <+: calls → ∀ client, ∀ handler ∈ (runCalls pre).1.handlers client,
    .mqttConnect client handler true ∈ (runCalls pre).2
  again : ∀ pre c, pre ++ [c] <+: calls → c.client ∈ pre.map CreationCall.client →
    (∀ handler, .mqttConnect c.client handler true ∉ (runCalls pre).2) →
    Tries c (c.run (runCalls pre).1).2

/-- The call tries to create the client and, if that gives a handler, to connect it. -/
def TriesCreation (c : CreationCall H) (libraryCalls : List (LibraryCall H)) : Prop :=
  .mqttCreateClient c.client c.client.name mqttBroker ∈ libraryCalls ∧
    ∀ handler, c.created = some handler →
      ∃ success, .mqttConnect c.client handler success ∈ libraryCalls

/-- The call tries to connect the client. -/
def TriesConnect (c : CreationCall H) (libraryCalls : List (LibraryCall H)) : Prop :=
  ∃ handler success, .mqttConnect c.client handler success ∈ libraryCalls

/-- In the first call that creates a client the connection succeeds too. -/
def FirstConnects (calls : List (CreationCall H)) : Prop :=
  ∀ client handler success, firstCreated client calls = some (handler, success) → success = true

/-- Until a client is created, `mqtt_create_client` fails in its first call only. -/
def CreatesAgain (calls : List (CreationCall H)) : Prop :=
  ∀ pre c, pre ++ [c] <+: calls → c.client ∈ pre.map CreationCall.client →
    firstCreated c.client pre = none → c.created ≠ none

theorem one_handler (calls : List (CreationCall H)) (client : Client) :
    ((runCalls calls).1.handlers client).length ≤ 1 := by
  rw [handlers_eq]
  cases firstCreated client calls <;> simp

theorem FirstConnects.connected {calls : List (CreationCall H)} (h : FirstConnects calls)
    {pre : List (CreationCall H)} (hpre : pre <+: calls) {client : Client} {handler : H}
    (hhandler : handler ∈ (runCalls pre).1.handlers client) :
    .mqttConnect client handler true ∈ (runCalls pre).2 := by
  rw [handlers_eq, Option.mem_toList, Option.map_eq_some_iff] at hhandler
  obtain ⟨⟨handler', success⟩, hfirst, rfl⟩ := hhandler
  rw [connected_iff, hfirst, h client handler' success (firstCreated_mono hpre hfirst)]

/-- Without a connection there is no handler. -/
theorem FirstConnects.not_created {calls : List (CreationCall H)} (h : FirstConnects calls)
    {pre : List (CreationCall H)} (hpre : pre <+: calls) {client : Client}
    (hnone : ∀ handler, .mqttConnect client handler true ∉ (runCalls pre).2) :
    firstCreated client pre = .none := by
  rw [← handlers_eq_nil, List.eq_nil_iff_forall_not_mem]
  exact fun handler hhandler => hnone handler (h.connected hpre hhandler)

theorem FirstConnects.of_connected {calls : List (CreationCall H)}
    (h : ∀ client, ∀ handler ∈ (runCalls calls).1.handlers client,
      .mqttConnect client handler true ∈ (runCalls calls).2) : FirstConnects calls := by
  intro client handler success hfirst
  have hhandler : handler ∈ (runCalls calls).1.handlers client := by
    rw [handlers_eq, hfirst]
    exact List.mem_singleton_self handler
  have htrue := connected_iff.mp (h client handler hhandler)
  rw [hfirst] at htrue
  exact (Prod.mk.inj (Option.some.inj htrue)).2

theorem tries_creation {c : CreationCall H} {pre : List (CreationCall H)}
    (h : firstCreated c.client pre = none) : TriesCreation c (c.run (runCalls pre).1).2 := by
  have hempty := handlers_eq_nil.mpr h
  refine ⟨CreationCall.creates_iff.mpr hempty, fun handler hcreated => ⟨c.connected, ?_⟩⟩
  rw [CreationCall.connects_iff, CreationCall.outcome, if_pos rfl, hcreated]
  exact ⟨hempty, rfl⟩

theorem tries_connect_iff {c : CreationCall H} {pre : List (CreationCall H)}
    (h : firstCreated c.client pre = none) :
    TriesConnect c (c.run (runCalls pre).1).2 ↔ c.created ≠ none := by
  simp only [TriesConnect, CreationCall.connects_iff, handlers_eq_nil.mpr h, true_and,
    CreationCall.outcome, if_true]
  cases c.created <;> simp

/-- Failures of `mqtt_create_client` are tried again, those of `mqtt_connect` are not. -/
theorem retried_iff (calls : List (CreationCall H)) :
    (Retried TriesCreation calls ↔ FirstConnects calls) ∧
      (Retried TriesConnect calls ↔ FirstConnects calls ∧ CreatesAgain calls) := by
  have hone := fun (pre : List (CreationCall H)) (_ : pre <+: calls) => one_handler pre
  refine ⟨⟨fun h => .of_connected (h.connected calls (List.prefix_refl calls)), fun h => ?_⟩,
    ⟨fun h => ?_, fun ⟨h, hagain⟩ => ?_⟩⟩
  · refine ⟨hone, fun pre hpre _ _ => h.connected hpre, fun pre c hpre _ hnone => ?_⟩
    exact tries_creation (h.not_created ((List.prefix_append pre [c]).trans hpre) hnone)
  · have hfirst := FirstConnects.of_connected (h.connected calls (List.prefix_refl calls))
    refine ⟨hfirst, fun pre c hpre hfurther hnone => ?_⟩
    refine (tries_connect_iff hnone).mp (h.again pre c hpre hfurther fun handler hconnect => ?_)
    rw [connected_iff, hnone] at hconnect
    cases hconnect
  · refine ⟨hone, fun pre hpre _ _ => h.connected hpre, fun pre c hpre hfurther hnone => ?_⟩
    have hcreated := h.not_created ((List.prefix_append pre [c]).trans hpre) hnone
    exact (tries_connect_iff hcreated).mpr (hagain pre c hpre hfurther hcreated)

/-- The connection fails in the first call, and the second one calls the library no more. -/
theorem retried_broken :
    (runCalls [⟨.dispatcher, some 1, false⟩, ⟨.dispatcher, some 2, true⟩]).2 =
        (runCalls [(⟨.dispatcher, some 1, false⟩ : CreationCall Nat)]).2 ∧
      (runCalls [⟨.dispatcher, some 1, false⟩, ⟨.dispatcher, some 2, true⟩]).1.handlers
        .dispatcher = [1] ∧
      ¬ Retried TriesCreation [⟨.dispatcher, some 1, false⟩, ⟨.dispatcher, some 2, true⟩] ∧
      ¬ Retried TriesConnect [⟨.dispatcher, some 1, false⟩, ⟨.dispatcher, some 2, true⟩] := by
  have hconnect : .mqttConnect .dispatcher 1 true ∉
      (runCalls [⟨.dispatcher, some 1, false⟩, ⟨.dispatcher, some 2, true⟩]).2 := by decide
  refine ⟨by decide, by decide, fun h => ?_, fun h => ?_⟩
  · exact hconnect (h.connected _ (List.prefix_refl _) .dispatcher 1 (by decide))
  · exact hconnect (h.connected _ (List.prefix_refl _) .dispatcher 1 (by decide))

end SmartWarehouse.Kbase
