/-
  Connections on which files are sent: `http_cb` and `static_cb` of `mongoose.c` in turn.

  The answer with a file leaves the file behind for `static_cb`, which takes the place of `http_cb`
  until it is sent. What arrives meanwhile waits in the buffer until more arrives afterwards
  (`handled_in_order`). But all messages of a buffer are handled in one go, and there is room for
  one file: of the files of one go the last is sent, behind what is sent at once for all of them
  (`sent_run`). So on a connection that stays open nothing is lost exactly if all the others are
  empty (`nothing_lost_iff`), and with one file in each go, as its last answer, the client reads
  the answers in their order (`answers_in_order`). After a parse error `mg_mgr_poll` closes the
  connection in the same iteration, with the send buffer and the file. The bytes are those that
  `read_conn` gives to `http_cb`. Its limit on the buffer is left out, and so is the draining
  after an answer to `HEAD`, which ends the connection.
-/
import SmartWarehouse.Server.WebRoot

namespace SmartWarehouse.Server

open SmartWarehouse.Lib

/-! ## Connections -/

/-- A connection with the state of the handler. What has been put into the send buffer is `sent`;
    once the connection is closed, what the socket had not taken of it is gone. Of the answers
    there is one list for each go of `http_cb`. -/
structure Connection (σ : Type) where
  recv : List Char
  sent : List Char
  sending : Option (List Char)
  closed : Bool
  state : σ
  rounds : List (List Answer)

/-- Bytes arrive, or there is room in the send buffer. -/
inductive ConnectionEvent where
  | read (piece : List Char)
  | write (room : Nat)

section
variable {σ : Type} (handler : σ → HttpMsg → σ × Answer)

/-- The messages of a buffer are handled one after another. -/
def handleAll : σ → List HttpMsg → σ × List Answer
  | s, [] => (s, [])
  | s, m :: ms =>
    let (s, a) := handler s m
    let (s, answers) := handleAll s ms
    (s, a :: answers)

/-- The pieces go into the send buffer. A file takes the place of the one that is there. -/
def Connection.put (c : Connection σ) (a : Answer) : Connection σ :=
  { c with sent := c.sent ++ a.pieces.flatten, sending := a.file.or c.sending }

/-- `http_cb` for bytes that arrive, unless `static_cb` is in its place, and `static_cb` for room
    in the send buffer: it gives way when the file does not fill the room. -/
def Connection.step (fuel : Nat) (c : Connection σ) (e : ConnectionEvent) :
    Option (Connection σ) :=
  if c.closed then some c
  else
    match e, c.sending with
    | .read piece, some _ => some { c with recv := c.recv ++ piece }
    | .read piece, none =>
      (httpCbRead fuel (c.recv ++ piece)).map fun d =>
        let (state, answers) := handleAll handler c.state d.messages
        let put := answers.foldl Connection.put c
        -- a parse error: `close_conn` closes the file
        let sending := if d.closed then none else put.sending
        ⟨d.rest, put.sent, sending, d.closed, state, c.rounds ++ [answers]⟩
    | .write room, some file =>
      let left := if file.length < room then none else some (file.drop room)
      some { c with sent := c.sent ++ file.take room, sending := left }
    | .write _, none => some c

def Connection.run (fuel : Nat) : Connection σ → List ConnectionEvent → Option (Connection σ)
  | c, [] => some c
  | c, e :: events => (c.step handler fuel e).bind fun c => c.run fuel events

def Connection.start (s : σ) : Connection σ := ⟨[], [], none, false, s, []⟩

end

/-- What has been put into the send buffer, and what `static_cb` will put there. -/
def Connection.bytes {σ : Type} (c : Connection σ) : List Char := c.sent ++ c.sending.getD []

/-! ## The handler of the warehouse -/

/-- What the answers depend on besides the messages and the ports. -/
structure Site where
  fs : Fs
  rootDir : List Char
  listdir : HttpHead → List Char → Answer
  surroundings : HttpMsg → Surroundings

def Response.answer (site : Site) (hm : HttpHead) : Response → Answer
  | .none => .ofPieces []
  | .chunked head chunks => .ofPieces (head.toList :: chunks.map mgHttpPrintfChunk)
  | .serveDir _ => mgHttpServeDir site.fs site.rootDir hm (site.listdir hm)

/-- `ev_handler` with what is sent. -/
def Site.handler (site : Site) (s : PortServer) (m : HttpMsg) : PortServer × Answer :=
  let (s, response) := evHandler s m.toMessage (site.surroundings m)
  (s, response.answer site m.head)

/-! ## What is sent -/

/-- The files of the answers of one go. -/
def files (answers : List Answer) : List (List Char) := answers.filterMap Answer.file

/-- What is sent for one go. -/
def roundBytes (answers : List Answer) : List Char :=
  answers.flatMap (fun a => a.pieces.flatten) ++ (files answers).getLast?.getD []

variable {σ : Type} {handler : σ → HttpMsg → σ × Answer} {fuel : Nat}

theorem put_all (c : Connection σ) (answers : List Answer) :
    (answers.foldl Connection.put c).sent = c.sent ++ answers.flatMap (fun a => a.pieces.flatten) ∧
      (answers.foldl Connection.put c).sending = (files answers).getLast?.or c.sending := by
  induction answers generalizing c with
  | nil => simp [files]
  | cons a answers ih =>
    obtain ⟨hsent, hsending⟩ := ih (c.put a)
    rw [List.foldl_cons]
    refine ⟨?_, ?_⟩
    · rw [hsent, List.flatMap_cons]
      exact List.append_assoc _ _ _
    · rw [hsending]
      unfold files
      cases hfile : a.file with
      | none =>
        rw [List.filterMap_cons_none hfile]
        unfold Connection.put
        rw [hfile]
        rfl
      | some file =>
        rw [List.filterMap_cons_some hfile, List.getLast?_cons]
        unfold Connection.put
        rw [hfile]
        cases (answers.filterMap Answer.file).getLast? <;> rfl

/-- A connection that is open was open before, and each step keeps what is sent in step with the
    goes. -/
theorem sent_step {c c' : Connection σ} {e : ConnectionEvent}
    (hstep : c.step handler fuel e = some c')
    (h : c.closed = false → c.bytes = c.rounds.flatMap roundBytes) (hopen : c'.closed = false) :
    c'.bytes = c'.rounds.flatMap roundBytes := by
  unfold Connection.step at hstep
  split at hstep
  · rename_i hclosed
    rw [Option.some.inj hstep, hopen] at hclosed
    cases hclosed
  · rename_i hbefore
    replace h := h (by simpa using hbefore)
    unfold Connection.bytes at h ⊢
    split at hstep
    · rw [← Option.some.inj hstep]
      exact h
    · rename_i piece hnone
      obtain ⟨d, hd, rfl⟩ := Option.map_eq_some_iff.mp hstep
      rw [hnone, Option.getD_none, List.append_nil] at h
      obtain ⟨hsent, hsending⟩ := put_all c (handleAll handler c.state d.messages).2
      rw [hnone, Option.or_none] at hsending
      replace hopen : d.closed = false := hopen
      dsimp only
      rw [if_neg (by simp [hopen]), hsent, hsending, h, List.flatMap_append,
        List.flatMap_singleton]
      exact List.append_assoc _ _ _
    · rename_i room file hsome
      rw [hsome, Option.getD_some] at h
      rw [← Option.some.inj hstep]
      dsimp only
      rw [← h, List.append_assoc]
      split
      · rename_i hlt
        rw [List.take_of_length_le (Nat.le_of_lt hlt), Option.getD_none, List.append_nil]
      · rw [Option.getD_some, List.take_append_drop]
    · rw [← Option.some.inj hstep]
      exact h

/-- What is sent in a run that leaves the connection open: for each go what is sent at once, and
    its last file. -/
theorem sent_run {c c' : Connection σ} {events : List ConnectionEvent}
    (hrun : c.run handler fuel events = some c')
    (h : c.closed = false → c.bytes = c.rounds.flatMap roundBytes) (hopen : c'.closed = false) :
    c'.bytes = c'.rounds.flatMap roundBytes := by
  induction events generalizing c with
  | nil =>
    obtain rfl := Option.some.inj hrun
    exact h hopen
  | cons e events ih =>
    rw [Connection.run] at hrun
    obtain ⟨c₁, hstep, hrest⟩ := Option.bind_eq_some_iff.mp hrun
    exact ih hrest (sent_step hstep h)

theorem sent_from_start {s : σ} {c : Connection σ} {events : List ConnectionEvent}
    (hrun : (Connection.start s).run handler fuel events = some c) (hopen : c.closed = false) :
    c.bytes = c.rounds.flatMap roundBytes :=
  sent_run hrun (fun _ => rfl) hopen

/-! ## What is handled -/

/-- The bytes that arrive with an event. -/
def ConnectionEvent.piece : ConnectionEvent → List Char
  | .read piece => piece
  | .write _ => []

/-- What has arrived on the connection. -/
def arrived (events : List ConnectionEvent) : List Char := events.flatMap ConnectionEvent.piece

theorem handleAll_append (s : σ) (ms ms' : List HttpMsg) :
    handleAll handler s (ms ++ ms') =
      ((handleAll handler (handleAll handler s ms).1 ms').1,
        (handleAll handler s ms).2 ++ (handleAll handler (handleAll handler s ms).1 ms').2) := by
  induction ms generalizing s with
  | nil => rfl
  | cons m ms ih =>
    rw [List.cons_append, handleAll, handleAll]
    generalize handler s m = answered
    obtain ⟨s', a⟩ := answered
    dsimp only
    rw [ih]
    rfl

theorem run_concat (c : Connection σ) (events : List ConnectionEvent) (e : ConnectionEvent) :
    c.run handler fuel (events ++ [e]) =
      (c.run handler fuel events).bind fun c => c.step handler fuel e := by
  induction events generalizing c with
  | nil => simp [Connection.run]
  | cons e' events ih =>
    rw [List.cons_append, Connection.run, Connection.run, Option.bind_assoc]
    exact congrArg _ (funext ih)

/-- The messages of what is heard have been handled, and what is late waits. -/
structure HandledUpTo (handler : σ → HttpMsg → σ × Answer) (s : σ) (c : Connection σ)
    (heard late : List Char) (ms : List HttpMsg) (rest : List Char) : Prop where
  whole : Whole httpFrame heard ms rest c.closed
  recv : c.closed = false → c.recv = rest ++ late
  handled : handleAll handler s ms = (c.state, c.rounds.flatten)

/-- Bytes that arrive and wait. -/
theorem HandledUpTo.wait {s : σ} {c c' : Connection σ} {heard late rest piece : List Char}
    {ms : List HttpMsg} (h : HandledUpTo handler s c heard late ms rest)
    (hclosed : c'.closed = c.closed) (hstate : c'.state = c.state) (hrounds : c'.rounds = c.rounds)
    (hrecv : c.closed = false → c'.recv = c.recv ++ piece) :
    HandledUpTo handler s c' heard (late ++ piece) ms rest where
  whole := by
    rw [hclosed]
    exact h.whole
  recv := by
    intro hopen
    rw [hclosed] at hopen
    rw [hrecv hopen, h.recv hopen, List.append_assoc]
  handled := by
    rw [hstate, hrounds]
    exact h.handled

/-- Bytes that arrive while no file is being sent. -/
theorem HandledUpTo.read {s : σ} {c : Connection σ} {heard late rest piece : List Char}
    {ms : List HttpMsg} {d : Drained Char HttpMsg} (h : HandledUpTo handler s c heard late ms rest)
    (hopen : c.closed = false) (hplain : Plain (heard ++ (late ++ piece)))
    (hread : httpCbRead fuel (c.recv ++ piece) = some d) :
    Whole httpFrame (heard ++ (late ++ piece)) (ms ++ d.messages) d.rest d.closed := by
  have hcut := h.whole.1.append httpFrame_stable (late ++ piece)
  have hrest : Plain (rest ++ (late ++ piece)) := hplain.of_cut List.prefix_rfl hcut
  rw [h.recv hopen, List.append_assoc, httpCbRead_plain hrest] at hread
  obtain ⟨hcut', hends⟩ := drain_whole hread
  exact ⟨hcut.trans hcut', hends⟩

theorem handled_step {s : σ} {c c' : Connection σ} {e : ConnectionEvent}
    {heard late rest : List Char} {ms : List HttpMsg}
    (h : HandledUpTo handler s c heard late ms rest)
    (hplain : Plain (heard ++ (late ++ e.piece))) (hstep : c.step handler fuel e = some c') :
    ∃ heard' late' ms' rest', heard' ++ late' = heard ++ (late ++ e.piece) ∧
      HandledUpTo handler s c' heard' late' ms' rest' ∧
        (c.sending = none → c.closed = false → (∃ piece, e = .read piece) → late' = []) := by
  unfold Connection.step at hstep
  split at hstep
  · rename_i hclosed
    obtain rfl := Option.some.inj hstep
    have hnot : ¬ c.closed = false := by simp [hclosed]
    exact ⟨heard, late ++ e.piece, ms, rest, rfl,
      h.wait rfl rfl rfl fun hopen => absurd hopen hnot, fun _ hopen => absurd hopen hnot⟩
  · rename_i hopen
    split at hstep
    · rename_i piece file hsending
      obtain rfl := Option.some.inj hstep
      refine ⟨heard, late ++ piece, ms, rest, rfl, h.wait rfl rfl rfl fun _ => rfl, ?_⟩
      intro hnone
      rw [hnone] at hsending
      cases hsending
    · rename_i piece hnone
      obtain ⟨d, hread, rfl⟩ := Option.map_eq_some_iff.mp hstep
      have hwhole := h.read (by simpa using hopen) hplain hread
      refine ⟨heard ++ (late ++ piece), [], ms ++ d.messages, d.rest, List.append_nil _,
        ⟨hwhole, fun _ => (List.append_nil _).symm, ?_⟩, fun _ _ _ => rfl⟩
      rw [handleAll_append, h.handled]
      dsimp only
      rw [List.flatten_concat]
    · obtain rfl := Option.some.inj hstep
      refine ⟨heard, late ++ [], ms, rest, rfl,
        h.wait rfl rfl rfl fun _ => (List.append_nil _).symm, ?_⟩
      rintro - - ⟨piece, hread⟩
      cases hread
    · obtain rfl := Option.some.inj hstep
      refine ⟨heard, late ++ [], ms, rest, rfl,
        h.wait rfl rfl rfl fun _ => (List.append_nil _).symm, ?_⟩
      rintro - - ⟨piece, hread⟩
      cases hread

/-- At any time the messages at the front of what has arrived have been handled, in their order and
    each once, and what has not been looked at waits behind the rest. After a read that finds no
    file being sent it is everything that has been looked at. -/
theorem handled_in_order {s : σ} {c : Connection σ} {events : List ConnectionEvent}
    (hrun : (Connection.start s).run handler fuel events = some c)
    (hplain : Plain (arrived events)) :
    ∃ heard late ms rest, heard ++ late = arrived events ∧
      HandledUpTo handler s c heard late ms rest ∧
        ∀ before piece c₁, events = before ++ [.read piece] →
          (Connection.start s).run handler fuel before = some c₁ → c₁.sending = none →
            c₁.closed = false → late = [] := by
  induction events using List.reverseRecOn generalizing c with
  | nil =>
    obtain rfl := Option.some.inj hrun
    refine ⟨[], [], [], [], rfl, ⟨whole_nil httpFrame_stable, fun _ => rfl, rfl⟩, ?_⟩
    intro before piece c₁ hevents
    exact absurd hevents.symm (by simp)
  | append_singleton events e ih =>
    have harrived : arrived (events ++ [e]) = arrived events ++ e.piece := by
      unfold arrived
      rw [List.flatMap_append, List.flatMap_singleton]
    rw [run_concat] at hrun
    obtain ⟨c₀, hrun₀, hstep⟩ := Option.bind_eq_some_iff.mp hrun
    have hplain₀ : Plain (arrived events) :=
      hplain.of_cut (harrived ▸ List.prefix_append _ _) (.nil _)
    obtain ⟨heard, late, ms, rest, hparts, hhandled, -⟩ := ih hrun₀ hplain₀
    have hall : heard ++ (late ++ e.piece) = arrived (events ++ [e]) := by
      rw [harrived, ← hparts, List.append_assoc]
    obtain ⟨heard', late', ms', rest', hparts', hhandled', hidle⟩ :=
      handled_step hhandled (hall ▸ hplain) hstep
    refine ⟨heard', late', ms', rest', hparts'.trans hall, hhandled', ?_⟩
    intro before piece c₁ hevents hbefore hnone hopen
    obtain ⟨rfl, he⟩ := List.append_inj' hevents rfl
    obtain rfl := Option.some.inj (hrun₀.symm.trans hbefore)
    exact hidle hnone hopen ⟨piece, (List.cons.inj he).1⟩

/-- A site with one file, and a client whose request arrives in two pieces. -/
def besideSite : Site :=
  ⟨besideFs, "/www".toList, fun _ _ => .ofPieces [], fun _ => besideSurroundings⟩

def besideStart : Connection PortServer := Connection.start (PortServer.start fun _ => .input)

theorem handled_in_order_shortest : ∃ c heard late ms rest,
    besideStart.run besideSite.handler 3
        [.read ['G', ' '], .write 1, .read ['/', '\n', '\n']] = some c ∧
      heard ++ late = shortest ∧
        HandledUpTo besideSite.handler besideStart.state c heard late ms rest ∧ late = [] := by
  have hruns : (besideStart.run besideSite.handler 3
      [.read ['G', ' '], .write 1, .read ['/', '\n', '\n']]).isSome = true := by
    decide +kernel
  have hbefore : (besideStart.run besideSite.handler 3 [.read ['G', ' '], .write 1]).map
      (fun c => (c.sending, c.closed)) = some (none, false) := by
    decide +kernel
  obtain ⟨c, hrun⟩ := Option.isSome_iff_exists.mp hruns
  obtain ⟨c₁, hrun₁, hidle⟩ := Option.map_eq_some_iff.mp hbefore
  obtain ⟨heard, late, ms, rest, hparts, hhandled, hlate⟩ := handled_in_order hrun plain_shortest
  refine ⟨c, heard, late, ms, rest, hrun, hparts, hhandled, ?_⟩
  exact hlate [.read ['G', ' '], .write 1] _ c₁ rfl hrun₁ (congrArg Prod.fst hidle)
    (congrArg Prod.snd hidle)

/-! ## What is lost -/

/-- The files of one go that are not sent. -/
def lost (answers : List Answer) : List Char := (files answers).dropLast.flatten

theorem length_answers (answers : List Answer) : (answers.flatMap Answer.bytes).length =
    (answers.flatMap fun a => a.pieces.flatten).length + (files answers).flatten.length := by
  induction answers with
  | nil => rfl
  | cons a answers ih =>
    have hfiles : (files (a :: answers)).flatten.length =
        (a.file.getD []).length + (files answers).flatten.length := by
      unfold files
      cases hfile : a.file with
      | none => rw [List.filterMap_cons_none hfile, Option.getD_none, List.length_nil, Nat.zero_add]
      | some file => rw [List.filterMap_cons_some hfile, List.flatten_cons, List.length_append,
          Option.getD_some]
    rw [List.flatMap_cons, List.flatMap_cons, List.length_append, List.length_append, ih, hfiles,
      Answer.bytes, List.length_append]
    omega

theorem length_round (answers : List Answer) :
    (roundBytes answers).length + (lost answers).length =
      (answers.flatMap Answer.bytes).length := by
  rw [length_answers, roundBytes, lost, List.length_append]
  cases hlast : (files answers).getLast? with
  | none => simp [List.getLast?_eq_none_iff.mp hlast]
  | some file =>
    obtain ⟨before, hsplit⟩ := List.getLast?_eq_some_iff.mp hlast
    rw [hsplit, List.dropLast_concat, List.flatten_concat, List.length_append, Option.getD_some]
    omega

theorem length_rounds (rounds : List (List Answer)) :
    (rounds.flatMap roundBytes).length + (rounds.flatMap lost).length =
      (rounds.flatten.flatMap Answer.bytes).length := by
  induction rounds with
  | nil => rfl
  | cons answers rounds ih =>
    have hround := length_round answers
    rw [List.flatMap_cons, List.flatMap_cons, List.flatten_cons, List.flatMap_append,
      List.length_append, List.length_append, List.length_append]
    omega

/-- On a connection that is still open all bytes of all answers are sent exactly if of the files of
    each go only the last is not empty. -/
theorem nothing_lost_iff {s : σ} {c : Connection σ} {events : List ConnectionEvent}
    (hrun : (Connection.start s).run handler fuel events = some c) (hopen : c.closed = false) :
    c.bytes.length = (c.rounds.flatten.flatMap Answer.bytes).length ↔
      ∀ answers ∈ c.rounds, ∀ file ∈ (files answers).dropLast, file = [] := by
  have hlengths := length_rounds c.rounds
  have hlost : (c.rounds.flatMap lost).length = 0 ↔
      ∀ answers ∈ c.rounds, ∀ file ∈ (files answers).dropLast, file = [] := by
    rw [List.length_eq_zero_iff, List.flatMap_eq_nil_iff]
    simp only [lost, List.flatten_eq_nil_iff]
  rw [sent_from_start hrun hopen, ← hlost]
  omega

/-- A request for the file. -/
def keyRequest : List Char := "GET -old/key HTTP/1.1\r\nHost: a\r\n\r\n".toList

/-- What a client gets that sends two requests at once. -/
def pipelined : Option (Connection PortServer) :=
  besideStart.run besideSite.handler 3 [.read (keyRequest ++ keyRequest)]

theorem nothing_lost_iff_pipelined : ∃ c, pipelined = some c ∧
    c.bytes.length ≠ (c.rounds.flatten.flatMap Answer.bytes).length := by
  have hfiles : pipelined.map (fun c => (c.closed, c.rounds.map files)) =
      some (false, [["secret".toList, "secret".toList]]) := by
    decide +kernel
  obtain ⟨c, hrun, hend⟩ := Option.map_eq_some_iff.mp hfiles
  obtain ⟨hopen, hrounds⟩ := Prod.mk.inj hend
  refine ⟨c, hrun, fun heq => ?_⟩
  have hall := (nothing_lost_iff hrun hopen).mp heq
  obtain ⟨answers, ha, hsecrets⟩ : ∃ answers ∈ c.rounds,
      files answers = ["secret".toList, "secret".toList] := by
    apply List.mem_map.mp
    rw [hrounds]
    exact List.mem_cons_self
  have hempty := hall answers ha "secret".toList (by rw [hsecrets]; exact List.mem_cons_self)
  cases hempty

/-! ## Answers in order -/

theorem roundBytes_in_order {answers : List Answer}
    (h : ∀ a ∈ answers.dropLast, a.file.getD [] = []) :
    roundBytes answers = answers.flatMap Answer.bytes := by
  cases hlast : answers.getLast? with
  | none =>
    rw [List.getLast?_eq_none_iff.mp hlast]
    rfl
  | some last =>
    obtain ⟨before, rfl⟩ := List.getLast?_eq_some_iff.mp hlast
    rw [List.dropLast_concat] at h
    have hbytes : before.flatMap Answer.bytes = before.flatMap fun a => a.pieces.flatten := by
      apply List.flatMap_congr
      intro a ha
      rw [Answer.bytes, h a ha, List.append_nil]
    have hempty : (files before).getLast?.getD [] = [] := by
      cases hfile : (files before).getLast? with
      | none => rfl
      | some file =>
        obtain ⟨a, ha, hsome⟩ := List.mem_filterMap.mp (List.mem_of_mem_getLast? hfile)
        have hnil := h a ha
        rw [hsome] at hnil
        exact hnil
    have hfiles : (files (before ++ [last])).getLast?.getD [] = last.file.getD [] := by
      unfold files at hempty ⊢
      rw [List.filterMap_append]
      cases hfile : last.file with
      | none =>
        rw [List.filterMap_cons_none hfile, List.filterMap_nil, List.append_nil, hempty]
        rfl
      | some file => rw [List.filterMap_cons_some hfile, List.filterMap_nil, List.getLast?_concat]
    rw [roundBytes, hfiles, List.flatMap_append, List.flatMap_append, hbytes,
      List.flatMap_singleton, List.flatMap_singleton, Answer.bytes, List.append_assoc]

/-- If of the answers of each go only the last has a file, and each alone is one message, then the
    client of a connection that is still open reads these messages, in the order of the answers. -/
theorem answers_in_order {s : σ} {c : Connection σ} {events : List ConnectionEvent}
    (hrun : (Connection.start s).run handler fuel events = some c) (hopen : c.closed = false)
    (hlast : ∀ answers ∈ c.rounds, ∀ a ∈ answers.dropLast, a.file.getD [] = [])
    (hreads : ∀ a ∈ c.rounds.flatten, ∃ m, a.ReadAs m) :
    ∃ ms, Whole httpFrame c.bytes ms [] false ∧
      List.Forall₂ Answer.ReadAs c.rounds.flatten ms := by
  have hbytes : c.bytes = c.rounds.flatten.flatMap Answer.bytes := by
    have hflatten : c.rounds.flatten = c.rounds.flatMap id := List.flatMap_id.symm
    rw [sent_from_start hrun hopen, hflatten, List.flatMap_assoc]
    exact List.flatMap_congr fun answers ha => roundBytes_in_order (hlast answers ha)
  obtain ⟨ms, hcut, hms⟩ := answers_cut hreads
  rw [hbytes]
  exact ⟨ms, ⟨hcut, (whole_nil httpFrame_stable).2⟩, hms⟩

/-- What a client gets that waits for the first file before it asks for the second. -/
def patient : Option (Connection PortServer) :=
  besideStart.run besideSite.handler 3
    [.read keyRequest, .write 4, .write 100, .read keyRequest, .write 100]

theorem answers_in_order_patient : ∃ c ms, patient = some c ∧
    Whole httpFrame c.bytes ms [] false ∧ ms.length = 2 := by
  have hanswers : patient.map (fun c => (c.closed, c.rounds)) =
      some (false, [[mgHttpServeFile besideFs (getHello []) "/www-old/key".toList],
        [mgHttpServeFile besideFs (getHello []) "/www-old/key".toList]]) := by
    decide +kernel
  obtain ⟨c, hrun, hend⟩ := Option.map_eq_some_iff.mp hanswers
  obtain ⟨hopen, hrounds⟩ := Prod.mk.inj hend
  have hreads := @mgHttpServeFile_readAs besideFs (getHello []) "/www-old/key".toList
    "secret".toList ⟨false, 6, 0⟩ rfl rfl rfl rfl (by decide) rfl (by decide +kernel)
  obtain ⟨ms, hwhole, hms⟩ := answers_in_order hrun hopen
    (by rw [hrounds]; simp) (by rw [hrounds]; simpa using ⟨_, hreads⟩)
  refine ⟨c, ms, hrun, hwhole, ?_⟩
  rw [← hms.length_eq, hrounds]
  rfl

end SmartWarehouse.Server
