/-
  The memory of publications: the `MessageContext` that `MqttClientManager::publish` allocates
  and `onSendMessageSuccess` or `onSendMessageFailure` deletes.

  Contexts are numbered in the order of the calls that allocate them. In every run a completion
  finds its context allocated and deletes it, so none is used after it was deleted or deleted
  twice. `publish` does not delete the context of a message that the library does not accept:
  once nothing is in flight, the contexts left are exactly those (`contexts_accounted`).
-/
import SmartWarehouse.Server.MqttClient
import Mathlib.Data.List.Nodup

namespace SmartWarehouse.Server

variable {H : Type}

/-! ## Allocated contexts -/

/-- A run with the contexts that are allocated, and those that a completion has used or deleted
    when they were not. -/
structure ContextWorld (H : Type) where
  mqtt : MqttWorld H
  live : List Nat
  faults : List Nat

namespace ContextWorld

def initial : ContextWorld H := ⟨.initial, [], []⟩

def step (w : ContextWorld H) (e : MqttEvent H) : ContextWorld H where
  mqtt := w.mqtt.step e
  live :=
    match e with
    | .publish _ => w.live ++ [w.mqtt.tokens]
    | .complete token _ => if (w.mqtt.inFlight.lookup token).isSome then w.live.erase token
      else w.live
    | _ => w.live
  faults :=
    match e with
    | .complete token _ =>
      if (w.mqtt.inFlight.lookup token).isSome ∧ token ∉ w.live then w.faults ++ [token]
      else w.faults
    | _ => w.faults

end ContextWorld

def runContexts (events : List (MqttEvent H)) : ContextWorld H :=
  events.foldl ContextWorld.step .initial

/-- The calls of `publish`, in order. -/
def publishCalls (events : List (MqttEvent H)) : List (PublishCall H) :=
  events.filterMap fun | .publish call => some call | _ => none

/-- The message of the context was not accepted by the library. -/
def Refused (calls : List (PublishCall H)) (context : Nat) : Prop :=
  ∃ call, calls[context]? = some call ∧ call.rc ≠ mqttAsyncSuccess

/-! ## The invariant -/

/-- Every context in use belongs to a message in flight or to a refused one. -/
structure ContextWorld.Accounted (w : ContextWorld H) (calls : List (PublishCall H)) : Prop where
  tokens : w.mqtt.tokens = calls.length
  accepted : ∀ p ∈ w.mqtt.inFlight, ∃ call, calls[p.1]? = some call ∧ call.rc = mqttAsyncSuccess
  nodup : w.live.Nodup
  live : ∀ context, context ∈ w.live ↔
    context ∈ w.mqtt.inFlight.map Prod.fst ∨ Refused calls context
  faults : w.faults = []

theorem accounted_initial : (ContextWorld.initial : ContextWorld H).Accounted [] where
  tokens := rfl
  accepted _ h := absurd h List.not_mem_nil
  nodup := List.nodup_nil
  live context := by simp [ContextWorld.initial, MqttWorld.initial, Refused]
  faults := rfl

theorem getElem?_snoc_of_some {calls : List (PublishCall H)} {call c : PublishCall H}
    {context : Nat} (h : calls[context]? = some c) : (calls ++ [call])[context]? = some c := by
  have hlt := (List.getElem?_eq_some_iff.mp h).1
  rw [List.getElem?_append_left hlt, h]

theorem refused_snoc {calls : List (PublishCall H)} {call : PublishCall H} {context : Nat} :
    Refused (calls ++ [call]) context ↔
      Refused calls context ∨ (context = calls.length ∧ call.rc ≠ mqttAsyncSuccess) := by
  constructor
  · rintro ⟨c, hc, hrc⟩
    by_cases hlt : context < calls.length
    · rw [List.getElem?_append_left hlt] at hc
      exact .inl ⟨c, hc, hrc⟩
    · have hlength := (List.getElem?_eq_some_iff.mp hc).1
      rw [List.length_append, List.length_singleton] at hlength
      obtain rfl : context = calls.length := by omega
      rw [List.getElem?_concat_length] at hc
      obtain rfl := Option.some.inj hc
      exact .inr ⟨rfl, hrc⟩
  · rintro (⟨c, hc, hrc⟩ | ⟨rfl, hrc⟩)
    · exact ⟨c, getElem?_snoc_of_some hc, hrc⟩
    · exact ⟨call, List.getElem?_concat_length, hrc⟩

theorem ContextWorld.Accounted.lt_length {w : ContextWorld H} {calls : List (PublishCall H)}
    (h : w.Accounted calls) {context : Nat} (hlive : context ∈ w.live) :
    context < calls.length := by
  obtain hflight | ⟨call, hcall, -⟩ := (h.live context).mp hlive
  · obtain ⟨p, hp, rfl⟩ := List.mem_map.mp hflight
    obtain ⟨call, hcall, -⟩ := h.accepted p hp
    exact (List.getElem?_eq_some_iff.mp hcall).1
  · exact (List.getElem?_eq_some_iff.mp hcall).1

theorem ContextWorld.Accounted.publish {w : ContextWorld H} {calls : List (PublishCall H)}
    (h : w.Accounted calls) (call : PublishCall H) :
    (w.step (.publish call)).Accounted (calls ++ [call]) where
  tokens := by
    rw [List.length_append, ← h.tokens]
    rfl
  accepted := by
    intro p hp
    have hp' : p ∈ if call.rc = mqttAsyncSuccess then w.mqtt.inFlight ++ [(w.mqtt.tokens, call)]
        else w.mqtt.inFlight := hp
    have hold : p ∈ w.mqtt.inFlight →
        ∃ c, (calls ++ [call])[p.1]? = some c ∧ c.rc = mqttAsyncSuccess := by
      intro hmem
      obtain ⟨c, hc, hrc⟩ := h.accepted p hmem
      exact ⟨c, getElem?_snoc_of_some hc, hrc⟩
    split at hp'
    · rename_i hrc
      obtain hmem | hmem := List.mem_append.mp hp'
      · exact hold hmem
      · rw [List.mem_singleton.mp hmem, h.tokens]
        exact ⟨call, List.getElem?_concat_length, hrc⟩
    · exact hold hp'
  nodup := by
    have hnew : w.mqtt.tokens ∉ w.live := by
      intro hmem
      have hlt := h.lt_length hmem
      rw [h.tokens] at hlt
      exact Nat.lt_irrefl _ hlt
    exact List.nodup_append.mpr ⟨h.nodup, List.nodup_singleton _, fun a ha b hb hab =>
      hnew (by rw [← List.mem_singleton.mp hb, ← hab]; exact ha)⟩
  live := by
    intro context
    have hlive : context ∈ (w.step (.publish call)).live ↔
        context ∈ w.live ∨ context = calls.length := by
      rw [← h.tokens]
      exact List.mem_append.trans (or_congr Iff.rfl List.mem_singleton)
    have hflight : context ∈ (w.step (.publish call)).mqtt.inFlight.map Prod.fst ↔
        context ∈ w.mqtt.inFlight.map Prod.fst ∨
          (context = calls.length ∧ call.rc = mqttAsyncSuccess) := by
      rw [← h.tokens]
      show context ∈ (if call.rc = mqttAsyncSuccess then
        w.mqtt.inFlight ++ [(w.mqtt.tokens, call)] else w.mqtt.inFlight).map Prod.fst ↔ _
      split
      · rename_i hrc
        simp [hrc]
      · rename_i hrc
        simp [hrc]
    rw [hlive, hflight, h.live, refused_snoc]
    by_cases hrc : call.rc = mqttAsyncSuccess
    · simp only [hrc, ne_eq, not_true, and_true, and_false, or_false]
      exact or_right_comm
    · simp only [hrc, ne_eq, not_false_iff, and_true, and_false, or_false]
      exact or_assoc
  faults := h.faults

theorem mem_fst_of_lookup {l : List (Nat × PublishCall H)} {token : Nat} {call : PublishCall H}
    (h : l.lookup token = some call) : (token, call) ∈ l := by
  obtain ⟨before, after, rfl, -⟩ := List.lookup_eq_some_iff.mp h
  simp

/-- A completion of a message in flight finds its context, and deletes it. -/
theorem ContextWorld.Accounted.complete {w : ContextWorld H} {calls : List (PublishCall H)}
    (h : w.Accounted calls) (token : Nat) (kind : Completion) :
    (w.step (.complete token kind)).Accounted calls := by
  cases hlookup : w.mqtt.inFlight.lookup token with
  | none =>
    have hstep : w.step (.complete token kind) = w := by
      unfold ContextWorld.step MqttWorld.step
      simp [hlookup]
    rw [hstep]
    exact h
  | some call =>
    have hmem := mem_fst_of_lookup hlookup
    have hlive : token ∈ w.live := (h.live token).mpr (.inl (List.mem_map.mpr ⟨_, hmem, rfl⟩))
    have hnot : ¬ Refused calls token := by
      rintro ⟨c, hc, hrc⟩
      obtain ⟨c', hc', hrc'⟩ := h.accepted _ hmem
      rw [hc] at hc'
      exact hrc ((Option.some.inj hc') ▸ hrc')
    have hflight : (w.step (.complete token kind)).mqtt.inFlight =
        w.mqtt.inFlight.filter fun p => p.1 ≠ token := by
      simp [ContextWorld.step, MqttWorld.step, hlookup]
    have hlive' : (w.step (.complete token kind)).live = w.live.erase token := by
      simp [ContextWorld.step, hlookup]
    refine ⟨?_, ?_, ?_, ?_, ?_⟩
    · rw [← h.tokens]
      simp [ContextWorld.step, MqttWorld.step, hlookup]
    · rw [hflight]
      intro p hp
      exact h.accepted p (List.mem_filter.mp hp).1
    · rw [hlive']
      exact h.nodup.erase token
    · intro context
      rw [hlive', hflight, h.nodup.mem_erase_iff, h.live]
      constructor
      · rintro ⟨hne, hin | hrefused⟩
        · obtain ⟨p, hp, rfl⟩ := List.mem_map.mp hin
          exact .inl (List.mem_map.mpr ⟨p, List.mem_filter.mpr ⟨hp, by simpa using hne⟩, rfl⟩)
        · exact .inr hrefused
      · rintro (hin | hrefused)
        · obtain ⟨p, hp, rfl⟩ := List.mem_map.mp hin
          obtain ⟨hp, hne⟩ := List.mem_filter.mp hp
          exact ⟨by simpa using hne, .inl (List.mem_map.mpr ⟨p, hp, rfl⟩)⟩
        · refine ⟨?_, .inr hrefused⟩
          rintro rfl
          exact hnot hrefused
    · rw [← h.faults]
      simp [ContextWorld.step, hlookup, hlive]

/-- The events that neither publish nor complete keep the messages in flight. -/
theorem ContextWorld.Accounted.other {w : ContextWorld H} {calls : List (PublishCall H)}
    (h : w.Accounted calls) {e : MqttEvent H} (htokens : (w.mqtt.step e).tokens = w.mqtt.tokens)
    (hflight : (w.mqtt.step e).inFlight = w.mqtt.inFlight) (hlive : (w.step e).live = w.live)
    (hfaults : (w.step e).faults = w.faults) : (w.step e).Accounted calls where
  tokens := htokens.trans h.tokens
  accepted p hp := h.accepted p (hflight ▸ hp)
  nodup := by
    rw [hlive]
    exact h.nodup
  live context := by
    rw [hlive]
    show context ∈ w.live ↔ context ∈ (w.mqtt.step e).inFlight.map Prod.fst ∨ _
    rw [hflight]
    exact h.live context
  faults := hfaults.trans h.faults

theorem publishCalls_snoc (events : List (MqttEvent H)) (e : MqttEvent H) :
    publishCalls (events ++ [e]) = publishCalls events ++ publishCalls [e] :=
  List.filterMap_append

theorem accounted_run (events : List (MqttEvent H)) :
    (runContexts events).Accounted (publishCalls events) ∧
      (runContexts events).mqtt = runMqtt events := by
  induction events using List.reverseRecOn with
  | nil => exact ⟨accounted_initial, rfl⟩
  | append_singleton events e ih =>
    obtain ⟨h, hmqtt⟩ := ih
    rw [publishCalls_snoc, runMqtt_snoc, runContexts, List.foldl_append]
    refine ⟨?_, congrArg (fun w => w.step e) hmqtt⟩
    cases e with
    | publish call => exact h.publish call
    | complete token kind =>
      rw [show publishCalls [MqttEvent.complete token kind] = [] from rfl, List.append_nil]
      exact h.complete token kind
    | create clientID brokerURI rc => exact (List.append_nil _).symm ▸ h.other rfl rfl rfl rfl
    | connect rcCallbacks rcConnect => exact (List.append_nil _).symm ▸ h.other rfl rfl rfl rfl
    | disconnect rc => exact (List.append_nil _).symm ▸ h.other rfl rfl rfl rfl
    | destroy => exact (List.append_nil _).symm ▸ h.other rfl rfl rfl rfl
    | connectSuccess => exact (List.append_nil _).symm ▸ h.other rfl rfl rfl rfl

/-- In every run no context is used or deleted when it is not allocated, and the allocated ones
    are those of the messages in flight and those of the refused ones, each once; without
    messages in flight, the refused ones are what has leaked. -/
theorem contexts_accounted (events : List (MqttEvent H)) :
    (runContexts events).faults = [] ∧ (runContexts events).live.Nodup ∧
      (∀ context, context ∈ (runContexts events).live ↔
        context ∈ (runMqtt events).inFlight.map Prod.fst ∨
          Refused (publishCalls events) context) ∧
      ((runMqtt events).inFlight = [] → ∀ context, context ∈ (runContexts events).live ↔
        Refused (publishCalls events) context) := by
  obtain ⟨h, hmqtt⟩ := accounted_run events
  have hlive := h.live
  rw [hmqtt] at hlive
  refine ⟨h.faults, h.nodup, hlive, fun hnone context => ?_⟩
  rw [hlive, hnone]
  simp

end SmartWarehouse.Server
