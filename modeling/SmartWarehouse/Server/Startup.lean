/-
  Start-up: `main` of `serverApp.cpp` up to the threads of MQTT, with the thread that
  `start_mg_server` begins.

  `initializeHardwarePorts` runs while the web server may already handle POSTs. A POST stores
  fields only in the ports created so far, and a port write waits for the tenth POST. The writes
  of 0 come last, so at every moment of start-up the outputs are 0 as long as no POST asks for
  the manual mode (`startup_safe`). If the listener cannot be created, its thread ends and the
  first write waits for ever: start-up can still complete exactly if that has not happened
  (`startup_completes_iff`).
-/
import SmartWarehouse.Server.FormPosts
import Mathlib.Tactic.IntervalCases

namespace SmartWarehouse.Server

open SmartWarehouse.Lib

/-! ## The two threads -/

/-- The calls of `main` before the threads of MQTT start. -/
inductive SetupCall where
  | startMgServer
  | createDigitalInput (port : Port)
  | createDigitalOutput (port : Port)
  | writeDigitalU8 (port : Port) (data : BitVec 8)

def initializeHardwarePorts : List SetupCall :=
  [.createDigitalInput 0, .createDigitalInput 1, .createDigitalInput 2, .createDigitalInput 3,
    .createDigitalOutput 4, .createDigitalOutput 5, .writeDigitalU8 4 0, .writeDigitalU8 5 0]

def setupCalls : List SetupCall := .startMgServer :: initializeHardwarePorts

/-- The thread of `start_the_work`: not begun, before `mg_http_listen`, in its loop, or returned
    because there is no listener. -/
inductive Worker where
  | absent | starting | serving | failed
deriving DecidableEq, Repr

structure Boot where
  server : PortServer
  serverIsOn : Bool
  worker : Worker
  rest : List SetupCall

def Boot.initial : Boot := ⟨PortServer.start fun _ => .unspecified, false, .absent, setupCalls⟩

def Boot.startMgServer (b : Boot) : Boot :=
  if b.serverIsOn then b else { b with serverIsOn := true, worker := .starting }

/-- `ports_type[port] = type`. -/
def Boot.setType (b : Boot) (port : Port) (type : PortType) : Boot :=
  { b with server := { b.server with portsType := Function.update b.server.portsType port type } }

/-- No result: the call still waits. -/
def Boot.call (b : Boot) : SetupCall → Option Boot
  | .startMgServer => some b.startMgServer
  | .createDigitalInput port => some (b.setType port .input).startMgServer
  | .createDigitalOutput port => some (b.setType port .output).startMgServer
  | .writeDigitalU8 port data =>
    (b.server.simWriteDigitalU8 port data).map fun s => { b with server := s }

/-- A step of `main`, the end of `mg_http_listen`, or a POST that the loop handles. -/
inductive BootEvent where
  | main
  | listen (ok : Bool)
  | post (body : List Char) (buf : Port → ManualBuffer)

/-- No result: the event cannot happen now. -/
def Boot.step (b : Boot) : BootEvent → Option Boot
  | .main =>
    match b.rest with
    | [] => none
    | c :: rest => ({ b with rest := rest } : Boot).call c
  | .listen ok =>
    if b.worker = .starting then some { b with worker := if ok then .serving else .failed }
    else none
  | .post body buf =>
    if b.worker = .serving then some { b with server := b.server.post body buf } else none

def Boot.run (b : Boot) : List BootEvent → Option Boot
  | [] => some b
  | e :: es => (b.step e).bind fun b' => b'.run es

def BootEvent.isPost : BootEvent → Bool
  | .post _ _ => true
  | _ => false

/-- The number of POSTs of a run. -/
def bootPosts (events : List BootEvent) : Nat := events.countP BootEvent.isPost

/-- The types after `main` has created its ports. -/
def finalTypes : Port → PortType := fun p =>
  if p < 4 then .input else if p < 6 then .output else .unspecified

/-! ## One step -/

/-- The type that a call gives to a port that had the type `t`. -/
def SetupCall.typeOf (p : Port) (t : PortType) : SetupCall → PortType
  | .startMgServer => t
  | .createDigitalInput port => if p = port then .input else t
  | .createDigitalOutput port => if p = port then .output else t
  | .writeDigitalU8 _ _ => t

theorem startMgServer_server (b : Boot) : b.startMgServer.server = b.server := by
  unfold Boot.startMgServer
  split
  · rfl
  · rfl

theorem startMgServer_rest (b : Boot) : b.startMgServer.rest = b.rest := by
  unfold Boot.startMgServer
  split
  · rfl
  · rfl

theorem startMgServer_serverIsOn (b : Boot) : b.startMgServer.serverIsOn = true := by
  unfold Boot.startMgServer
  split
  · assumption
  · rfl

theorem startMgServer_worker (b : Boot) :
    b.startMgServer.worker = if b.serverIsOn then b.worker else .starting := by
  unfold Boot.startMgServer
  split
  · rfl
  · rfl

/-- A call that is no write. -/
structure Creates (b b' : Boot) (c : SetupCall) : Prop where
  no_write : ∀ port data, c ≠ .writeDigitalU8 port data
  mgPorts : b'.server.mgPorts = b.server.mgPorts
  serverIsOn : b'.serverIsOn = true
  worker : b'.worker = if b.serverIsOn then b.worker else .starting

/-- A write that has completed. -/
structure Writes (b b' : Boot) (port : Port) (data : BitVec 8) : Prop where
  not_waiting : ¬ b.server.Waiting
  mgPorts : b'.server.mgPorts =
    Function.update b.server.mgPorts port ((b.server.mgPorts port).print data)
  serverIsOn : b'.serverIsOn = b.serverIsOn
  worker : b'.worker = b.worker

/-- What a call of `main` does. -/
theorem call_cases {b b' : Boot} {c : SetupCall} (h : b.call c = some b') :
    b'.rest = b.rest ∧ b'.server.portsValuesAvailable = b.server.portsValuesAvailable ∧
    (∀ p, b'.server.portsType p = c.typeOf p (b.server.portsType p)) ∧
    ((∃ port data, c = .writeDigitalU8 port data ∧ Writes b b' port data) ∨ Creates b b' c) := by
  have hcreate : ∀ port type, b' = (b.setType port type).startMgServer →
      b'.rest = b.rest ∧ b'.server.portsValuesAvailable = b.server.portsValuesAvailable ∧
      (∀ p, b'.server.portsType p = if p = port then type else b.server.portsType p) ∧
      b'.server.mgPorts = b.server.mgPorts ∧ b'.serverIsOn = true ∧
      b'.worker = if b.serverIsOn then b.worker else .starting := by
    rintro port type rfl
    rw [startMgServer_rest, startMgServer_server, startMgServer_worker]
    exact ⟨rfl, rfl, fun p => Function.update_apply .., rfl, startMgServer_serverIsOn _, rfl⟩
  cases c with
  | startMgServer =>
    obtain rfl := Option.some.inj h
    rw [startMgServer_rest, startMgServer_server]
    refine ⟨rfl, rfl, fun _ => rfl, .inr ⟨fun _ _ => SetupCall.noConfusion, ?_, ?_, ?_⟩⟩
    · rw [startMgServer_server]
    · exact startMgServer_serverIsOn b
    · exact startMgServer_worker b
  | createDigitalInput port =>
    obtain ⟨hrest, hcount, htype, hrows, hon, hworker⟩ :=
      hcreate port .input (Option.some.inj h).symm
    exact ⟨hrest, hcount, htype, .inr ⟨fun _ _ => SetupCall.noConfusion, hrows, hon, hworker⟩⟩
  | createDigitalOutput port =>
    obtain ⟨hrest, hcount, htype, hrows, hon, hworker⟩ :=
      hcreate port .output (Option.some.inj h).symm
    exact ⟨hrest, hcount, htype, .inr ⟨fun _ _ => SetupCall.noConfusion, hrows, hon, hworker⟩⟩
  | writeDigitalU8 port data =>
    obtain ⟨s, hs, rfl⟩ := Option.map_eq_some_iff.mp h
    have hwaiting : ¬ b.server.Waiting := by
      intro hwait
      rw [PortServer.simWriteDigitalU8, if_pos hwait] at hs
      cases hs
    obtain rfl := simWriteDigitalU8_eq hs
    exact ⟨rfl, rfl, fun _ => rfl, .inl ⟨port, data, rfl, hwaiting, rfl, rfl, rfl⟩⟩

/-! ## The calls in order -/

/-- The types after the first `k` calls. -/
def typesAfter (k : Nat) (p : Port) : PortType :=
  (setupCalls.take k).foldl (SetupCall.typeOf p) .unspecified

theorem typesAfter_succ {k : Nat} {c : SetupCall} (h : setupCalls[k]? = some c) (p : Port) :
    typesAfter (k + 1) p = c.typeOf p (typesAfter k p) := by
  unfold typesAfter
  rw [List.take_add_one, h, List.foldl_append]
  rfl

theorem typesAfter_nine : typesAfter 9 = finalTypes := by
  funext p
  revert p
  decide

/-- A port is created once, after the server has been started, and written when it is an
    output. -/
theorem setupCalls_cases {k : Nat} {c : SetupCall} (h : setupCalls[k]? = some c) :
    k < 9 ∧ ((c = .startMgServer ∧ k = 0) ∨
      (0 < k ∧ k < 7 ∧ ∃ p, (c = .createDigitalInput p ∨ c = .createDigitalOutput p) ∧
        typesAfter k p = .unspecified) ∨
      (7 ≤ k ∧ ∃ p, c = .writeDigitalU8 p 0 ∧ typesAfter k p = .output)) := by
  have hk : k < 9 := (List.getElem?_eq_some_iff.mp h).1
  refine ⟨hk, ?_⟩
  interval_cases k
  · obtain rfl := Option.some.inj h
    exact .inl ⟨rfl, rfl⟩
  · obtain rfl := Option.some.inj h
    exact .inr (.inl ⟨by decide, by decide, 0, .inl rfl, by decide⟩)
  · obtain rfl := Option.some.inj h
    exact .inr (.inl ⟨by decide, by decide, 1, .inl rfl, by decide⟩)
  · obtain rfl := Option.some.inj h
    exact .inr (.inl ⟨by decide, by decide, 2, .inl rfl, by decide⟩)
  · obtain rfl := Option.some.inj h
    exact .inr (.inl ⟨by decide, by decide, 3, .inl rfl, by decide⟩)
  · obtain rfl := Option.some.inj h
    exact .inr (.inl ⟨by decide, by decide, 4, .inr rfl, by decide⟩)
  · obtain rfl := Option.some.inj h
    exact .inr (.inl ⟨by decide, by decide, 5, .inr rfl, by decide⟩)
  · obtain rfl := Option.some.inj h
    exact .inr (.inr ⟨by decide, 4, rfl, by decide⟩)
  · obtain rfl := Option.some.inj h
    exact .inr (.inr ⟨by decide, 5, rfl, by decide⟩)

/-! ## The invariant -/

/-- `main` has made `k` calls. -/
structure Boot.Good (b : Boot) (k : Nat) : Prop where
  rest : b.rest = setupCalls.drop k
  le : k ≤ 9
  types : ∀ p, b.server.portsType p = typesAfter k p
  on : b.serverIsOn = decide (0 < k)
  absent : b.worker = .absent ↔ k = 0
  idle : b.worker ≠ .serving → k ≤ 7 ∧ b.server.portsValuesAvailable = 0 ∧
    ∀ p, b.server.mgPorts p = .zero
  untouched : ∀ p, b.server.portsType p = .unspecified → b.server.mgPorts p = .zero

theorem good_initial : Boot.initial.Good 0 where
  rest := rfl
  le := by decide
  types _ := rfl
  on := rfl
  absent := ⟨fun _ => rfl, fun _ => rfl⟩
  idle _ := ⟨by decide, rfl, fun _ => rfl⟩
  untouched _ _ := rfl

theorem getElem?_of_drop {k : Nat} {c : SetupCall} {rest : List SetupCall}
    (h : setupCalls.drop k = c :: rest) :
    setupCalls[k]? = some c ∧ rest = setupCalls.drop (k + 1) := by
  constructor
  · have hhead := congrArg List.head? h
    rwa [List.head?_drop] at hhead
  · have htail := congrArg List.tail h
    rw [List.tail_drop] at htail
    exact htail.symm

theorem typeOf_create {c : SetupCall} {port : Port}
    (hc : c = .createDigitalInput port ∨ c = .createDigitalOutput port) {p : Port} (hp : p ≠ port)
    (t : PortType) : c.typeOf p t = t := by
  obtain rfl | rfl := hc
  · exact if_neg hp
  · exact if_neg hp

/-- A port that has no type after a call had none before it. -/
theorem typeOf_eq_unspecified {c : SetupCall} {p : Port} {t : PortType}
    (h : c.typeOf p t = .unspecified) : t = .unspecified := by
  cases c with
  | startMgServer => exact h
  | createDigitalInput port =>
    by_cases hp : p = port
    · have hinput : (if p = port then PortType.input else t) = .unspecified := h
      rw [if_pos hp] at hinput
      cases hinput
    · rwa [typeOf_create (.inl rfl) hp] at h
  | createDigitalOutput port =>
    by_cases hp : p = port
    · have houtput : (if p = port then PortType.output else t) = .unspecified := h
      rw [if_pos hp] at houtput
      cases houtput
    · rwa [typeOf_create (.inr rfl) hp] at h
  | writeDigitalU8 port data => exact h

/-- The writes come last, and write 0 to outputs. -/
theorem setup_write {k : Nat} {port : Port} {data : BitVec 8}
    (h : setupCalls[k]? = some (.writeDigitalU8 port data)) :
    7 ≤ k ∧ data = 0 ∧ typesAfter k port = .output := by
  obtain ⟨-, ⟨heq, -⟩ | ⟨-, -, p, heq | heq, -⟩ | ⟨hlate, p, heq, houtput⟩⟩ := setupCalls_cases h
  · cases heq
  · cases heq
  · cases heq
  · obtain ⟨rfl, rfl⟩ := SetupCall.writeDigitalU8.inj heq
    exact ⟨hlate, rfl, houtput⟩

/-- The other calls come first, and give a type to a port that has none. -/
theorem setup_create {k : Nat} {c : SetupCall} (h : setupCalls[k]? = some c)
    (hc : ∀ port data, c ≠ .writeDigitalU8 port data) :
    k < 7 ∧ ∀ p, c.typeOf p (typesAfter k p) ≠ .input → typesAfter k p ≠ .input := by
  obtain ⟨-, ⟨rfl, rfl⟩ | ⟨-, hearly, port, hport, hnew⟩ | ⟨-, p, heq, -⟩⟩ := setupCalls_cases h
  · exact ⟨by decide, fun p hp => hp⟩
  · refine ⟨hearly, fun p hp => ?_⟩
    by_cases heq : p = port
    · rw [heq, hnew]
      exact PortType.noConfusion
    · rwa [typeOf_create hport heq] at hp
  · exact absurd heq (hc p 0)

theorem Boot.Good.call {b b' : Boot} {k : Nat} {c : SetupCall} {rest : List SetupCall}
    (h : b.Good k) (hrest : b.rest = c :: rest)
    (hcall : ({ b with rest := rest } : Boot).call c = some b') : b'.Good (k + 1) := by
  have hdrop := h.rest
  rw [hrest] at hdrop
  obtain ⟨hget, hnext⟩ := getElem?_of_drop hdrop.symm
  have hk : k < 9 := (setupCalls_cases hget).1
  obtain ⟨hrest', hcount, htypes, hdo⟩ := call_cases hcall
  have hon : b.serverIsOn = true ↔ 0 < k := by
    rw [h.on, decide_eq_true_iff]
  have htypes' : ∀ p, b'.server.portsType p = typesAfter (k + 1) p := by
    intro p
    rw [htypes, typesAfter_succ hget]
    exact congrArg (c.typeOf p) (h.types p)
  obtain ⟨port, data, hwrite, hdone⟩ | hdone := hdo
  · obtain ⟨hlate, -, houtput⟩ := setup_write (hwrite ▸ hget)
    have hserving : b.worker = .serving := by
      by_contra hne
      have hzero := (h.idle hne).2.1
      have hwaiting : b.server.Waiting := by
        rw [PortServer.Waiting, hzero]
        decide
      exact hdone.not_waiting hwaiting
    have hworker : b'.worker = .serving := hdone.worker.trans hserving
    refine ⟨hrest'.trans hnext, hk, htypes', ?_, ?_, ?_, ?_⟩
    · have hb' : b'.serverIsOn = true := hdone.serverIsOn.trans (hon.mpr (by omega))
      rw [hb']
      simp
    · rw [hworker]
      exact ⟨Worker.noConfusion, fun h => by omega⟩
    · intro hne
      exact absurd hworker hne
    · intro p hp
      rw [htypes', typesAfter_succ hget] at hp
      have hp' := typeOf_eq_unspecified hp
      have hne : p ≠ port := by
        rintro rfl
        rw [houtput] at hp'
        cases hp'
      rw [hdone.mgPorts, Function.update_of_ne hne]
      exact h.untouched p ((h.types p).trans hp')
  · have hearly := (setup_create hget hdone.no_write).1
    have hworker : b'.worker = if b.serverIsOn then b.worker else .starting := hdone.worker
    refine ⟨hrest'.trans hnext, hk, htypes', ?_, ?_, ?_, ?_⟩
    · rw [hdone.serverIsOn]
      simp
    · rw [hworker]
      refine ⟨fun habsent => ?_, fun h => by omega⟩
      split at habsent
      · rename_i hstarted
        have hpos := hon.mp hstarted
        have hzero := h.absent.mp habsent
        omega
      · cases habsent
    · intro hne
      have hidle : b.worker ≠ .serving := by
        intro hserving
        have hpos : 0 < k := by
          apply Nat.pos_of_ne_zero
          intro hzero
          rw [h.absent.mpr hzero] at hserving
          cases hserving
        rw [hworker, if_pos (hon.mpr hpos)] at hne
        exact hne hserving
      obtain ⟨-, hzero, hrows⟩ := h.idle hidle
      refine ⟨hearly, hcount.trans hzero, fun p => ?_⟩
      rw [hdone.mgPorts]
      exact hrows p
    · intro p hp
      rw [htypes', typesAfter_succ hget] at hp
      have hp' := typeOf_eq_unspecified hp
      rw [hdone.mgPorts]
      exact h.untouched p ((h.types p).trans hp')

/-- The threads' other steps. -/
theorem Boot.Good.listen {b : Boot} {k : Nat} (h : b.Good k) (hstarting : b.worker = .starting)
    (ok : Bool) : ({ b with worker := if ok then .serving else .failed } : Boot).Good k := by
  have hk : k ≠ 0 := by
    intro hzero
    rw [h.absent.mpr hzero] at hstarting
    cases hstarting
  have hidle := h.idle (by rw [hstarting]; exact Worker.noConfusion)
  refine ⟨h.rest, h.le, h.types, h.on, ?_, fun _ => hidle, h.untouched⟩
  refine ⟨fun habsent => ?_, fun hzero => absurd hzero hk⟩
  cases ok with
  | false => cases habsent
  | true => cases habsent

theorem Boot.Good.post {b : Boot} {k : Nat} (h : b.Good k) (hserving : b.worker = .serving)
    (body : List Char) (buf : Port → ManualBuffer) :
    ({ b with server := b.server.post body buf } : Boot).Good k := by
  refine ⟨h.rest, h.le, h.types, h.on, h.absent, fun hne => absurd hserving hne, ?_⟩
  intro p hp
  have htype : b.server.portsType p = .unspecified := hp
  have hstores : Stores b.server.portsType body buf p = false := by
    unfold Stores
    rw [htype]
  show (b.server.post body buf).mgPorts p = .zero
  rw [mgPorts_post, hstores]
  exact h.untouched p htype

/-- What `n` POSTs have done to the count, and to the outputs if none asks for the manual mode:
    `main` has made a write only after the tenth. -/
structure Boot.Reached (b : Boot) (k n : Nat) : Prop where
  good : b.Good k
  count : b.server.portsValuesAvailable = BitVec.ofNat 32 n
  tenth : 8 ≤ k → 10 ≤ n

/-- Every port that is no input has the text of 0. -/
def Boot.OutputsZero (b : Boot) : Prop :=
  ∀ p, b.server.portsType p ≠ .input → (b.server.mgPorts p).text = numeral 0

theorem ten_le_of_not_waiting {s : PortServer} {n : Nat} (h : ¬ s.Waiting)
    (hcount : s.portsValuesAvailable = BitVec.ofNat 32 n) : 10 ≤ n := by
  rw [PortServer.Waiting, hcount, toInt_ofNat_lt_ten] at h
  have hmod := Nat.mod_le n (2 ^ 32)
  omega

theorem Boot.Reached.main {b b' : Boot} {k n : Nat} (h : b.Reached k n)
    (hstep : b.step .main = some b') :
    b'.Reached (k + 1) n ∧ (b.OutputsZero → b'.OutputsZero) := by
  unfold Boot.step at hstep
  cases hrest : b.rest with
  | nil =>
    rw [hrest] at hstep
    cases hstep
  | cons c rest =>
    rw [hrest] at hstep
    have hgood := h.good.call hrest hstep
    have hdrop := h.good.rest
    rw [hrest] at hdrop
    have hget := (getElem?_of_drop hdrop.symm).1
    obtain ⟨-, hcount, htypes, hdo⟩ := call_cases hstep
    obtain ⟨port, data, rfl, hdone⟩ | hdone := hdo
    · obtain ⟨-, rfl, -⟩ := setup_write hget
      refine ⟨⟨hgood, hcount.trans h.count, fun _ => ?_⟩, fun hzero p hp => ?_⟩
      · exact ten_le_of_not_waiting hdone.not_waiting h.count
      · rw [hdone.mgPorts]
        by_cases heq : p = port
        · rw [heq, Function.update_self]
          exact text_print _ 0
        · rw [htypes] at hp
          rw [Function.update_of_ne heq]
          exact hzero p hp
    · obtain ⟨hearly, hinput⟩ := setup_create hget hdone.no_write
      refine ⟨⟨hgood, hcount.trans h.count, fun h8 => by omega⟩, fun hzero p hp => ?_⟩
      have hold : b.server.portsType p ≠ .input := by
        rw [h.good.types]
        apply hinput
        rw [htypes] at hp
        have htype : b.server.portsType p = typesAfter k p := h.good.types p
        rw [← htype]
        exact hp
      rw [hdone.mgPorts]
      exact hzero p hold

theorem Boot.OutputsZero.post {b : Boot} (h : b.OutputsZero) {body : List Char}
    (hauto : Automatic body) (buf : Port → ManualBuffer) :
    ({ b with server := b.server.post body buf } : Boot).OutputsZero := by
  intro p hp
  have htype : b.server.portsType p ≠ .input := hp
  have hstores : Stores b.server.portsType body buf p = false := by
    unfold Stores
    cases ht : b.server.portsType p with
    | unspecified => rfl
    | input => exact absurd ht htype
    | output => exact isOnManual_of_automatic hauto (buf p)
  show ((b.server.post body buf).mgPorts p).text = numeral 0
  rw [mgPorts_post, hstores]
  exact h p htype

theorem Boot.Reached.post {b : Boot} {k n : Nat} (h : b.Reached k n)
    (hserving : b.worker = .serving) (body : List Char) (buf : Port → ManualBuffer) :
    ({ b with server := b.server.post body buf } : Boot).Reached k (n + 1) := by
  refine ⟨h.good.post hserving body buf, ?_, fun h8 => Nat.le_succ_of_le (h.tenth h8)⟩
  show b.server.portsValuesAvailable + 1 = BitVec.ofNat 32 (n + 1)
  rw [h.count, BitVec.ofNat_add]
  rfl

/-- No POST of the run asks for the manual mode. -/
def AllAutomatic (events : List BootEvent) : Prop :=
  ∀ body buf, .post body buf ∈ events → Automatic body

theorem Boot.Reached.step {b b' : Boot} {k n : Nat} {e : BootEvent} (h : b.Reached k n)
    (hstep : b.step e = some b') :
    (∃ k', b'.Reached k' (n + bootPosts [e])) ∧
      (AllAutomatic [e] → b.OutputsZero → b'.OutputsZero) := by
  cases e with
  | main =>
    obtain ⟨hreached, houtputs⟩ := h.main hstep
    exact ⟨⟨k + 1, hreached⟩, fun _ => houtputs⟩
  | listen ok =>
    unfold Boot.step at hstep
    dsimp only at hstep
    split at hstep
    · rename_i hstarting
      obtain rfl := Option.some.inj hstep
      exact ⟨⟨k, h.good.listen hstarting ok, h.count, h.tenth⟩, fun _ hzero => hzero⟩
    · cases hstep
  | post body buf =>
    unfold Boot.step at hstep
    dsimp only at hstep
    split at hstep
    · rename_i hserving
      obtain rfl := Option.some.inj hstep
      refine ⟨⟨k, h.post hserving body buf⟩, fun hauto hzero => ?_⟩
      exact hzero.post (hauto body buf List.mem_cons_self) buf
    · cases hstep

theorem Boot.Reached.run {b b' : Boot} {k n : Nat} {events : List BootEvent} (h : b.Reached k n)
    (hrun : b.run events = some b') :
    (∃ k', b'.Reached k' (n + bootPosts events)) ∧
      (AllAutomatic events → b.OutputsZero → b'.OutputsZero) := by
  induction events generalizing b k n with
  | nil =>
    obtain rfl := Option.some.inj hrun
    exact ⟨⟨k, h⟩, fun _ hzero => hzero⟩
  | cons e es ih =>
    obtain ⟨b₁, hstep, hrest⟩ := Option.bind_eq_some_iff.mp hrun
    obtain ⟨⟨k₁, h₁⟩, houtputs₁⟩ := h.step hstep
    obtain ⟨⟨k', h'⟩, houtputs'⟩ := ih h₁ hrest
    have hcount : bootPosts (e :: es) = bootPosts [e] + bootPosts es := by
      rw [← List.singleton_append, bootPosts, List.countP_append]
      rfl
    refine ⟨⟨k', ?_⟩, fun hauto hzero => houtputs' ?_ (houtputs₁ ?_ hzero)⟩
    · rw [hcount, ← Nat.add_assoc]
      exact h'
    · intro body buf hmem
      exact hauto body buf (List.mem_cons_of_mem _ hmem)
    · intro body buf hmem
      obtain rfl := List.mem_singleton.mp hmem
      exact hauto body buf List.mem_cons_self

theorem reached_initial : Boot.initial.Reached 0 0 where
  good := good_initial
  count := rfl
  tenth h := absurd h (by decide)

/-- At every moment of start-up: without a listener the writes are not made and no row has
    changed; a port that is not created keeps its row; after start-up the types are those of
    `initializeHardwarePorts` and ten POSTs have been handled; and the outputs are 0 unless a
    POST has asked for the manual mode. -/
theorem startup_safe {events : List BootEvent} {b : Boot}
    (hrun : Boot.initial.run events = some b) :
    (b.worker ≠ .serving → 2 ≤ b.rest.length ∧ ∀ p, b.server.mgPorts p = .zero) ∧
    (∀ p, b.server.portsType p = .unspecified → b.server.mgPorts p = .zero) ∧
    (b.rest = [] → b.server.portsType = finalTypes ∧ 10 ≤ bootPosts events) ∧
    (AllAutomatic events →
      ∀ p, b.server.portsType p ≠ .input → (b.server.mgPorts p).text = "0".toList) := by
  obtain ⟨⟨k, h⟩, houtputs⟩ := reached_initial.run hrun
  rw [Nat.zero_add] at h
  have hlength : b.rest.length = 9 - k := by
    rw [h.good.rest, List.length_drop]
    rfl
  refine ⟨fun hidle => ?_, h.good.untouched, fun hdone => ?_, fun hauto => ?_⟩
  · obtain ⟨hk, -, hrows⟩ := h.good.idle hidle
    exact ⟨by omega, hrows⟩
  · have hle := h.good.le
    rw [hdone, List.length_nil] at hlength
    obtain rfl : k = 9 := by omega
    refine ⟨?_, h.tenth (by decide)⟩
    rw [← typesAfter_nine]
    exact funext h.good.types
  · have hzero : numeral 0 = "0".toList := by decide
    rw [← hzero]
    exact houtputs hauto fun _ _ => text_zero

def plainPost : BootEvent := .post "P0=1".toList fun _ => ⟨List.replicate 20 nul, length_blank⟩

/-- The server is started, ten POSTs arrive after the ports are created, and `main` writes. -/
def plainStartup : List BootEvent :=
  [.main, .listen true] ++ List.replicate 6 .main ++ List.replicate 10 plainPost ++ [.main, .main]

theorem startup_safe_plain :
    ∃ b, Boot.initial.run plainStartup = some b ∧ b.server.portsType = finalTypes ∧
      (b.server.mgPorts 4).text = "0".toList ∧ (b.server.mgPorts 5).text = "0".toList := by
  have hrun : ((Boot.initial.run plainStartup).map fun b => b.rest.length) = some 0 := by rfl
  obtain ⟨b, hb, hlength⟩ := Option.map_eq_some_iff.mp hrun
  have hauto : AllAutomatic plainStartup := by
    intro body buf hmem
    have hbody : body = "P0=1".toList := by
      simp only [plainStartup, plainPost, List.mem_append, List.mem_cons, List.mem_replicate,
        List.not_mem_nil, or_false, reduceCtorEq, and_false, false_or, BootEvent.post.injEq] at hmem
      exact hmem.2.1
    have hfield : field "P0=1".toList "is_on_manual".toList = none := by decide
    unfold Automatic
    rw [hbody, hfield]
    trivial
  obtain ⟨-, -, hdone, houtputs⟩ := startup_safe hb
  have htypes := (hdone (List.length_eq_zero_iff.mp hlength)).1
  refine ⟨b, hb, htypes, houtputs hauto 4 ?_, houtputs hauto 5 ?_⟩
  · rw [htypes]
    decide
  · rw [htypes]
    decide

/-! ## When start-up completes -/

theorem bootRun_append (b : Boot) (events events' : List BootEvent) :
    b.run (events ++ events') = (b.run events).bind fun b' => b'.run events' := by
  induction events generalizing b with
  | nil => rfl
  | cons e es ih =>
    show (b.step e).bind (fun b' => b'.run (es ++ events')) =
      ((b.step e).bind fun b' => b'.run es).bind fun b' => b'.run events'
    cases b.step e with
    | none => rfl
    | some b' => exact ih b'

theorem exists_call {b : Boot} (h : ¬ b.server.Waiting) (c : SetupCall) :
    ∃ b', b.call c = some b' := by
  cases c with
  | startMgServer => exact ⟨_, rfl⟩
  | createDigitalInput port => exact ⟨_, rfl⟩
  | createDigitalOutput port => exact ⟨_, rfl⟩
  | writeDigitalU8 port data =>
    unfold Boot.call PortServer.simWriteDigitalU8
    dsimp only
    rw [if_neg h]
    exact ⟨_, rfl⟩

/-- Once no write waits, `main` makes the calls that are left. -/
theorem completes_of_ready {b : Boot} {k : Nat} (h : b.Good k) (hserving : b.worker = .serving)
    (hready : ¬ b.server.Waiting) : ∃ events b', b.run events = some b' ∧ b'.rest = [] := by
  induction hrest : b.rest generalizing b k with
  | nil => exact ⟨[], b, rfl, hrest⟩
  | cons c rest ih =>
    obtain ⟨b₁, hcall⟩ := exists_call (b := { b with rest := rest }) hready c
    obtain ⟨hrest₁, hcount, -, hdo⟩ := call_cases hcall
    have hpos : 0 < k := by
      apply Nat.pos_of_ne_zero
      intro hzero
      rw [h.absent.mpr hzero] at hserving
      cases hserving
    have hserving₁ : b₁.worker = .serving := by
      obtain ⟨port, data, -, hdone⟩ | hdone := hdo
      · exact hdone.worker.trans hserving
      · have hon : b.serverIsOn = true := by
          rw [h.on]
          exact decide_eq_true hpos
        have hworker : b₁.worker = if b.serverIsOn then b.worker else .starting := hdone.worker
        rw [hworker, if_pos hon, hserving]
    have hready₁ : ¬ b₁.server.Waiting := by
      rw [PortServer.Waiting, hcount]
      exact hready
    obtain ⟨events, b', hrun, hdone⟩ := ih (h.call hrest hcall) hserving₁ hready₁ hrest₁
    refine ⟨.main :: events, b', ?_, hdone⟩
    have hstep : b.step .main = some b₁ := by
      unfold Boot.step
      rw [hrest]
      exact hcall
    show (b.step .main).bind (fun b' => b'.run events) = some b'
    rw [hstep]
    exact hrun

/-- Any number of POSTs can be handled while the loop runs. -/
theorem exists_run_posts {b : Boot} {k : Nat} (h : b.Good k) (hserving : b.worker = .serving)
    (n : Nat) : ∃ b', b.run (List.replicate n plainPost) = some b' ∧ b'.Good k ∧
      b'.worker = .serving ∧
      b'.server.portsValuesAvailable = b.server.portsValuesAvailable + BitVec.ofNat 32 n := by
  induction n generalizing b with
  | zero => exact ⟨b, rfl, h, hserving, (BitVec.add_zero _).symm⟩
  | succ n ih =>
    have hpost := h.post hserving "P0=1".toList fun _ => ⟨List.replicate 20 nul, length_blank⟩
    obtain ⟨b', hrun, hgood, hserving', hcount⟩ := ih hpost hserving
    refine ⟨b', ?_, hgood, hserving', ?_⟩
    · rw [List.replicate_succ]
      show (b.step plainPost).bind (fun b' => b'.run (List.replicate n plainPost)) = some b'
      unfold plainPost Boot.step
      dsimp only
      rw [if_pos hserving]
      exact hrun
    · rw [hcount, BitVec.ofNat_add, BitVec.add_comm (BitVec.ofNat 32 n), ← BitVec.add_assoc]
      rfl

theorem completes_of_serving {b : Boot} {k : Nat} (h : b.Good k) (hserving : b.worker = .serving) :
    ∃ events b', b.run events = some b' ∧ b'.rest = [] := by
  obtain ⟨b₁, hrun₁, hgood₁, hserving₁, hcount⟩ :=
    exists_run_posts h hserving (10 - b.server.portsValuesAvailable).toNat
  have hready : ¬ b₁.server.Waiting := by
    have hten : b₁.server.portsValuesAvailable = 10 := by
      rw [hcount, BitVec.ofNat_toNat, BitVec.setWidth_eq, BitVec.add_comm]
      exact BitVec.sub_add_cancel _ _
    rw [PortServer.Waiting, hten]
    decide
  obtain ⟨events, b', hrun, hdone⟩ := completes_of_ready hgood₁ hserving₁ hready
  refine ⟨List.replicate (10 - b.server.portsValuesAvailable).toNat plainPost ++ events, b', ?_,
    hdone⟩
  rw [bootRun_append, hrun₁]
  exact hrun

/-- A thread that has returned stays so. -/
theorem failed_step {b b' : Boot} {k : Nat} {e : BootEvent} (h : b.Good k)
    (hfailed : b.worker = .failed) (hstep : b.step e = some b') : b'.worker = .failed := by
  cases e with
  | main =>
    unfold Boot.step at hstep
    cases hrest : b.rest with
    | nil =>
      rw [hrest] at hstep
      cases hstep
    | cons c rest =>
      rw [hrest] at hstep
      obtain ⟨-, -, -, ⟨port, data, -, hdone⟩ | hdone⟩ := call_cases hstep
      · exact hdone.worker.trans hfailed
      · have hpos : 0 < k := by
          apply Nat.pos_of_ne_zero
          intro hzero
          rw [h.absent.mpr hzero] at hfailed
          cases hfailed
        have hon : b.serverIsOn = true := by
          rw [h.on]
          exact decide_eq_true hpos
        have hworker : b'.worker = if b.serverIsOn then b.worker else .starting := hdone.worker
        rw [hworker, if_pos hon, hfailed]
  | listen ok =>
    unfold Boot.step at hstep
    dsimp only at hstep
    rw [hfailed, if_neg Worker.noConfusion] at hstep
    cases hstep
  | post body buf =>
    unfold Boot.step at hstep
    dsimp only at hstep
    rw [hfailed, if_neg Worker.noConfusion] at hstep
    cases hstep

theorem failed_run {b b' : Boot} {k n : Nat} {events : List BootEvent} (h : b.Reached k n)
    (hfailed : b.worker = .failed) (hrun : b.run events = some b') : b'.worker = .failed := by
  induction events generalizing b k n with
  | nil =>
    obtain rfl := Option.some.inj hrun
    exact hfailed
  | cons e es ih =>
    obtain ⟨b₁, hstep, hrest⟩ := Option.bind_eq_some_iff.mp hrun
    obtain ⟨⟨k₁, h₁⟩, -⟩ := h.step hstep
    exact ih h₁ (failed_step h.good hfailed hstep) hrest

theorem completes_of_starting {b : Boot} {k : Nat} (h : b.Good k)
    (hstarting : b.worker = .starting) : ∃ events b', b.run events = some b' ∧ b'.rest = [] := by
  obtain ⟨events, b', hrun, hdone⟩ := completes_of_serving (h.listen hstarting true) rfl
  refine ⟨.listen true :: events, b', ?_, hdone⟩
  show (b.step (.listen true)).bind (fun b' => b'.run events) = some b'
  unfold Boot.step
  dsimp only
  rw [if_pos hstarting]
  exact hrun

theorem completes_of_absent {b : Boot} {k : Nat} (h : b.Good k) (habsent : b.worker = .absent) :
    ∃ events b', b.run events = some b' ∧ b'.rest = [] := by
  obtain rfl := h.absent.mp habsent
  have hrest : b.rest = .startMgServer :: initializeHardwarePorts := h.rest
  have hon : b.serverIsOn = false := h.on
  have hgood := h.call hrest rfl
  have hstarting : ({ b with rest := initializeHardwarePorts } : Boot).startMgServer.worker =
      .starting := by
    rw [startMgServer_worker, if_neg (by rw [hon]; exact Bool.false_ne_true)]
  obtain ⟨events, b', hrun, hdone⟩ := completes_of_starting hgood hstarting
  refine ⟨.main :: events, b', ?_, hdone⟩
  show (b.step .main).bind (fun b' => b'.run events) = some b'
  unfold Boot.step
  dsimp only
  rw [hrest]
  exact hrun

/-- Without a listener `main` gets to the first write at most, which waits. -/
theorem Boot.Good.write_waits {b : Boot} {k : Nat} (h : b.Good k) (hidle : b.worker ≠ .serving) :
    2 ≤ b.rest.length ∧ (b.rest.length = 2 → b.step .main = none) := by
  obtain ⟨hk, hvalues, -⟩ := h.idle hidle
  have hlength : b.rest.length = 9 - k := by
    rw [h.rest, List.length_drop]
    rfl
  refine ⟨by omega, fun hwrites => ?_⟩
  obtain rfl : k = 7 := by omega
  have hwaiting : b.server.Waiting := by
    unfold PortServer.Waiting
    rw [hvalues]
    decide
  have hrest : b.rest = [.writeDigitalU8 4 0, .writeDigitalU8 5 0] := h.rest
  unfold Boot.step
  dsimp only
  rw [hrest]
  dsimp only [Boot.call, PortServer.simWriteDigitalU8]
  rw [if_pos hwaiting]
  rfl

/-- From every moment of start-up it can still be completed, exactly if creating the listener
    has not failed. After a failure the first write is never made: it waits. -/
theorem startup_completes_iff {events : List BootEvent} {b : Boot}
    (hrun : Boot.initial.run events = some b) :
    ((∃ events' b', b.run events' = some b' ∧ b'.rest = []) ↔ b.worker ≠ .failed) ∧
    (b.worker = .failed → ∀ events' b', b.run events' = some b' →
      2 ≤ b'.rest.length ∧ (b'.rest.length = 2 → b'.step .main = none)) := by
  obtain ⟨⟨k, h⟩, -⟩ := reached_initial.run hrun
  have hwaits : b.worker = .failed → ∀ events' b', b.run events' = some b' →
      2 ≤ b'.rest.length ∧ (b'.rest.length = 2 → b'.step .main = none) := by
    intro hfailed events' b' hrun'
    obtain ⟨⟨k', h'⟩, -⟩ := h.run hrun'
    have hfailed' := failed_run h hfailed hrun'
    exact h'.good.write_waits (by rw [hfailed']; exact Worker.noConfusion)
  refine ⟨⟨?_, fun hworker => ?_⟩, hwaits⟩
  · rintro ⟨events', b', hrun', hdone⟩ hfailed
    have hlength := (hwaits hfailed events' b' hrun').1
    rw [hdone, List.length_nil] at hlength
    omega
  · cases hcase : b.worker with
    | absent => exact completes_of_absent h.good hcase
    | starting => exact completes_of_starting h.good hcase
    | serving => exact completes_of_serving h.good hcase
    | failed => exact absurd hcase hworker

/-- With a failed listener the first port write waits for ever. -/
theorem startup_completes_iff_failed :
    ∃ b, Boot.initial.run [.main, .listen false, .main, .main] = some b ∧
      ¬ (∃ events' b', b.run events' = some b' ∧ b'.rest = []) ∧
        ∀ events' b', b.run events' = some b' → 2 ≤ b'.rest.length := by
  have hrun : ((Boot.initial.run [.main, .listen false, .main, .main]).map Boot.worker) =
      some .failed := by
    rfl
  obtain ⟨b, hb, hfailed⟩ := Option.map_eq_some_iff.mp hrun
  obtain ⟨hcompletes, hwaits⟩ := startup_completes_iff hb
  refine ⟨b, hb, fun hdone => hcompletes.mp hdone hfailed, fun events' b' hrun' => ?_⟩
  exact (hwaits hfailed events' b' hrun').1

end SmartWarehouse.Server
