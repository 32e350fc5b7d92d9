/-
  Delivery of commands: the dispatcher never stalls, and when it publishes exactly once.

  The oldest pending command always has a message that is not acknowledged (`InFlight`,
  `inFlight_step`), so once every message is acknowledged nothing is pending (`never_stalls`).
  Each assert, and each connection, that finds a command pending publishes that command again:
  published messages and commands waiting behind the oldest one add up to the asserted commands
  and these repetitions (`run_balance`). Hence a run that ends with nothing pending published
  every command once exactly if every assert found the queue empty (`published_once_iff`).
-/
import SmartWarehouse.Kbase.Dispatcher

namespace SmartWarehouse.Kbase

open SmartWarehouse.Server

/-! ## The oldest command is in flight -/

/-- A message for the oldest pending command is not acknowledged yet. -/
def Dispatcher.InFlight (d : Dispatcher) : Prop :=
  ∀ c ∈ d.queue.head?, payload c ∈ d.unacknowledged

theorem inFlight_send (d : Dispatcher) : d.sendPendingCommands.InFlight := by
  intro c hc
  rcases d with ⟨_ | ⟨fact, facts⟩, published, unacknowledged⟩
  · simp [Dispatcher.sendPendingCommands, Dispatcher.queue] at hc
  · obtain rfl : fact.command = c := by
      simpa [Dispatcher.sendPendingCommands, Dispatcher.queue] using hc
    simp [Dispatcher.sendPendingCommands]

theorem inFlight_step {d d' : Dispatcher} {e : Event} (h : d.InFlight)
    (hstep : d.step e = some d') : d'.InFlight := by
  obtain ⟨c, t, -, rfl⟩ | ⟨-, rfl⟩ | ⟨i, sent, -, hsent, rfl⟩ := step_cases hstep
  · exact inFlight_send _
  · exact inFlight_send _
  · obtain ⟨c, -, -, hd⟩ | ⟨hnone, hd⟩ := onPublishSuccess_cases
      { d with unacknowledged := d.unacknowledged.eraseIdx i } sent
    · rw [hd]
      exact inFlight_send _
    · -- a surplus acknowledgement is not one of the oldest command
      rw [hd]
      intro c hc
      have hmem : payload c ∈ d.unacknowledged := h c hc
      obtain ⟨j, hj⟩ := List.mem_iff_getElem?.mp hmem
      refine List.mem_eraseIdx_iff_getElem?.mpr ⟨j, ?_, hj⟩
      intro hji
      rw [hji, hsent] at hj
      have hcommand : commandOf sent = some c := by
        rw [Option.some.inj hj, commandOf_payload]
      exact hnone c hcommand (List.mem_of_mem_head? hc)

/-- What every step keeps, every run keeps. -/
theorem run_induction {P : Dispatcher → Prop}
    (hstep : ∀ d d' e, P d → d.step e = some d' → P d') {d d' : Dispatcher} {events : List Event}
    (h : P d) (hrun : d.run events = some d') : P d' := by
  induction events generalizing d with
  | nil =>
    obtain rfl := Option.some.inj hrun
    exact h
  | cons e es ih =>
    obtain ⟨d₁, hd₁, hrest⟩ := Option.bind_eq_some_iff.mp hrun
    exact ih (hstep d d₁ e h hd₁) hrest

/-- In every reachable state a message for the oldest pending command is unacknowledged; when
    all messages are acknowledged, nothing is pending. -/
theorem never_stalls {events : List Event} {d : Dispatcher}
    (hrun : Dispatcher.start.run events = some d) :
    (∀ fact facts, d.commands = fact :: facts → payload fact.command ∈ d.unacknowledged) ∧
      (d.unacknowledged = [] → d.commands = []) := by
  have hstart : Dispatcher.start.InFlight := by
    intro c hc
    cases hc
  have hd : d.InFlight := run_induction (fun _ _ _ => inFlight_step) hstart hrun
  have hhead : ∀ fact facts, d.commands = fact :: facts →
      payload fact.command ∈ d.unacknowledged := by
    intro fact facts hfacts
    apply hd
    simp [Dispatcher.queue, hfacts]
  refine ⟨hhead, fun hnone => ?_⟩
  cases hfacts : d.commands with
  | nil => rfl
  | cons fact facts =>
    have hmem := hhead fact facts hfacts
    rw [hnone] at hmem
    cases hmem

/-- Three asserts, then the callback of the first stop: the move is in flight. -/
theorem never_stalls_stopMove :
    payload ⟨"motor_x", 1⟩ ∈
      [payload ⟨"motor_x", 0⟩, payload ⟨"motor_x", 0⟩, payload ⟨"motor_x", 1⟩] := by
  have hrun : Dispatcher.start.run (stopMoveStop.take 4) =
      some ⟨[⟨⟨"motor_x", 1⟩, 1⟩, ⟨⟨"motor_x", 0⟩, 2⟩],
        [payload ⟨"motor_x", 0⟩, payload ⟨"motor_x", 0⟩, payload ⟨"motor_x", 0⟩,
          payload ⟨"motor_x", 1⟩],
        [payload ⟨"motor_x", 0⟩, payload ⟨"motor_x", 0⟩, payload ⟨"motor_x", 1⟩]⟩ := by
    simp [stopMoveStop, Dispatcher.run, Dispatcher.step, Dispatcher.start,
      Dispatcher.assertCommand, Dispatcher.sendPendingCommands,
      Dispatcher.clientDispatcherOnPublishSuccess, commandOf_payload, List.replicate]
  exact (never_stalls hrun).1 _ _ rfl

/-! ## How often a command is published -/

/-- An assert or a connection finds nothing pending. -/
def Dispatcher.Idle (d : Dispatcher) : Event → Prop
  | .publishSuccess _ => True
  | _ => d.commands = []

instance Dispatcher.decidableIdle (d : Dispatcher) (e : Event) : Decidable (d.Idle e) :=
  match e with
  | .publishSuccess _ => isTrue trivial
  | .assertCommand _ _ => inferInstanceAs (Decidable (d.commands = []))
  | .connectSuccess => inferInstanceAs (Decidable (d.commands = []))

/-- Every assert and every connection of the run finds nothing pending. -/
def OneAtATime (d : Dispatcher) : List Event → Prop
  | [] => True
  | e :: es => d.Idle e ∧ ∀ d', d.step e = some d' → OneAtATime d' es

/-- Published messages, and commands waiting behind the oldest one. -/
def Dispatcher.balance (d : Dispatcher) : Nat :=
  d.publishedCommands.length + (d.queue.length - 1)

/-- After a send the oldest command counts as published. -/
theorem balance_send (d : Dispatcher) :
    d.sendPendingCommands.balance = d.publishedCommands.length + d.queue.length := by
  unfold Dispatcher.balance
  rw [publishedCommands_send, queue_send, List.length_append, List.length_take]
  omega

theorem length_queue_eraseP {c : Command} {d : Dispatcher} (hc : c ∈ d.queue) :
    (d.commands.eraseP fun fact => fact.command = c).length = d.queue.length - 1 := by
  obtain ⟨fact, hfact, hcommand⟩ := List.mem_map.mp hc
  rw [List.length_eraseP_of_mem hfact (by simpa using hcommand), Dispatcher.queue,
    List.length_map]

/-- A send with the oldest command still pending publishes it again. -/
theorem published_add_queue (d : Dispatcher) :
    d.publishedCommands.length + d.queue.length =
      d.balance + if d.commands = [] then 0 else 1 := by
  have hidle : d.commands = [] ↔ d.queue.length = 0 := by
    simp [Dispatcher.queue]
  unfold Dispatcher.balance
  simp only [hidle]
  split <;> omega

/-- A step adds the command it asserts to the balance, and one more if it resends. -/
theorem step_balance {d d' : Dispatcher} {e : Event} (hstep : d.step e = some d') :
    d'.balance = d.balance + (asserted [e]).length + if d.Idle e then 0 else 1 := by
  obtain ⟨c, t, rfl, rfl⟩ | ⟨rfl, rfl⟩ | ⟨i, sent, rfl, hsent, rfl⟩ := step_cases hstep
  · have hqueue : (Dispatcher.queue { d with commands := d.commands ++ [⟨c, t⟩] }).length =
        d.queue.length + 1 := by simp [Dispatcher.queue]
    have hresend := published_add_queue d
    rw [balance_send, hqueue]
    show d.publishedCommands.length + _ = _ + 1 + if d.commands = [] then 0 else 1
    omega
  · rw [balance_send]
    exact published_add_queue d
  · show _ = d.balance + 0 + if True then 0 else 1
    rw [if_pos trivial]
    obtain ⟨c, -, hc, hd⟩ | ⟨-, hd⟩ := onPublishSuccess_cases
      { d with unacknowledged := d.unacknowledged.eraseIdx i } sent
    · have hlength := length_queue_eraseP (d := d) hc
      rw [hd, balance_send, Dispatcher.queue, List.length_map]
      show d.publishedCommands.length +
        (d.commands.eraseP fun fact => fact.command = c).length = _
      rw [hlength]
      rfl
    · rw [hd]
      rfl

/-- The steps of a run that publish a pending command again. -/
def resends (d : Dispatcher) : List Event → Nat
  | [] => 0
  | e :: es =>
    (if d.Idle e then 0 else 1) +
      match d.step e with
      | some d' => resends d' es
      | none => 0

theorem run_balance {d d' : Dispatcher} {events : List Event} (hrun : d.run events = some d') :
    d'.balance = d.balance + (asserted events).length + resends d events := by
  induction events generalizing d with
  | nil =>
    obtain rfl := Option.some.inj hrun
    rfl
  | cons e es ih =>
    obtain ⟨d₁, hstep, hrest⟩ := Option.bind_eq_some_iff.mp hrun
    have hone := step_balance hstep
    have hmany := ih hrest
    unfold resends
    rw [asserted_cons, List.length_append, hstep]
    dsimp only
    omega

theorem resends_eq_zero_iff {d d' : Dispatcher} {events : List Event}
    (hrun : d.run events = some d') : resends d events = 0 ↔ OneAtATime d events := by
  induction events generalizing d with
  | nil => exact ⟨fun _ => trivial, fun _ => rfl⟩
  | cons e es ih =>
    obtain ⟨d₁, hstep, hrest⟩ := Option.bind_eq_some_iff.mp hrun
    have hes := ih hrest
    unfold resends OneAtATime
    rw [hstep]
    simp only [Option.some.injEq, forall_eq', ← hes]
    by_cases hidle : d.Idle e
    · simp [hidle]
    · simp [hidle]

/-- An idle step publishes exactly the command it asserts, and leaves at most one pending. -/
theorem step_idle {d d' : Dispatcher} {e : Event} (hstep : d.step e = some d') (hidle : d.Idle e)
    (hqueue : d.queue.length ≤ 1) :
    d'.publishedCommands = d.publishedCommands ++ asserted [e] ∧ d'.queue.length ≤ 1 := by
  obtain ⟨c, t, rfl, rfl⟩ | ⟨rfl, rfl⟩ | ⟨i, sent, rfl, hsent, rfl⟩ := step_cases hstep
  · have hempty : d.commands = [] := hidle
    rw [publishedCommands_send, queue_send]
    simp [Dispatcher.queue, hempty, asserted, Dispatcher.publishedCommands]
  · have hempty : d.commands = [] := hidle
    rw [publishedCommands_send, queue_send]
    simp [Dispatcher.queue, hempty, asserted]
  · obtain ⟨c, -, hc, hd⟩ | ⟨-, hd⟩ := onPublishSuccess_cases
      { d with unacknowledged := d.unacknowledged.eraseIdx i } sent
    · have hlength := length_queue_eraseP (d := d) hc
      have hnil : (d.commands.eraseP fun fact => fact.command = c) = [] := by
        apply List.eq_nil_of_length_eq_zero
        omega
      rw [hd, publishedCommands_send, queue_send]
      simp only [hnil]
      simp [Dispatcher.queue, asserted, Dispatcher.publishedCommands]
    · rw [hd]
      refine ⟨?_, hqueue⟩
      simp [asserted, Dispatcher.publishedCommands]

theorem run_oneAtATime {d d' : Dispatcher} {events : List Event} (hrun : d.run events = some d')
    (hone : OneAtATime d events) (hqueue : d.queue.length ≤ 1) :
    d'.publishedCommands = d.publishedCommands ++ asserted events := by
  induction events generalizing d with
  | nil =>
    obtain rfl := Option.some.inj hrun
    simp [asserted]
  | cons e es ih =>
    obtain ⟨d₁, hstep, hrest⟩ := Option.bind_eq_some_iff.mp hrun
    obtain ⟨hpublished, hqueue₁⟩ := step_idle hstep hone.1 hqueue
    rw [ih hrest (hone.2 d₁ hstep) hqueue₁, hpublished, asserted_cons e es, List.append_assoc]

/-- A run that ends with nothing pending publishes every command as often as it is asserted
    exactly if no assert and no connection finds a command pending. -/
theorem published_once_iff {events : List Event} {d : Dispatcher}
    (hrun : Dispatcher.start.run events = some d) (hpending : d.commands = []) :
    (∀ c, d.publishedCommands.count c = (asserted events).count c) ↔
      OneAtATime Dispatcher.start events := by
  have hqueue : d.queue.length = 0 := by
    rw [Dispatcher.queue, hpending]
    rfl
  have hbalance : d.publishedCommands.length = (asserted events).length +
      resends Dispatcher.start events := by
    have h := run_balance hrun
    have hstart : Dispatcher.start.balance = 0 := rfl
    unfold Dispatcher.balance at h hstart
    omega
  constructor
  · intro hcount
    have hperm : d.publishedCommands.Perm (asserted events) := List.perm_iff_count.mpr hcount
    rw [← resends_eq_zero_iff hrun]
    have hlength := hperm.length_eq
    omega
  · intro hone c
    rw [run_oneAtATime hrun hone (by decide)]
    rfl

theorem published_once_moveStop :
    ∃ d, Dispatcher.start.run moveStop = some d ∧
      ∀ c, d.publishedCommands.count c = (asserted moveStop).count c := by
  refine ⟨_, run_moveStop, (published_once_iff run_moveStop rfl).mpr ?_⟩
  simp [moveStop, OneAtATime, Dispatcher.Idle, Dispatcher.step, Dispatcher.start,
    Dispatcher.assertCommand, Dispatcher.sendPendingCommands,
    Dispatcher.clientDispatcherOnPublishSuccess, commandOf_payload]

/-- A move and a stop, both asserted before the first of three callbacks. -/
def moveStopAtOnce : List Event :=
  [.assertCommand ⟨"motor_x", 1⟩ 0, .assertCommand ⟨"motor_x", 0⟩ 1] ++
    List.replicate 3 (.publishSuccess 0)

/-- The second assert publishes the move again. -/
theorem move_published_twice :
    ∃ d, Dispatcher.start.run moveStopAtOnce = some d ∧ d.commands = [] ∧ d.unacknowledged = [] ∧
      (asserted moveStopAtOnce).count ⟨"motor_x", 1⟩ = 1 ∧
      d.publishedCommands.count ⟨"motor_x", 1⟩ = 2 := by
  let stop := payload ⟨"motor_x", 0⟩
  let move := payload ⟨"motor_x", 1⟩
  refine ⟨⟨[], [move, move, stop], []⟩, ?_, rfl, rfl, by decide, ?_⟩
  · simp [stop, move, moveStopAtOnce, Dispatcher.run, Dispatcher.step, Dispatcher.start,
      Dispatcher.assertCommand, Dispatcher.sendPendingCommands,
      Dispatcher.clientDispatcherOnPublishSuccess, commandOf_payload, List.replicate]
  · simp [stop, move, Dispatcher.publishedCommands, commandOf_payload]

end SmartWarehouse.Kbase
