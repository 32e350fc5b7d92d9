/-
  Requests to the web server: `ev_handler` of `warehouseWebServer.cpp` for a whole HTTP message.

  The handler looks at the URI and then at the method. Only a POST of `/ajax_port_values` reaches
  the ports, so after any sequence of requests they are as after these POSTs alone
  (`state_filter`), and its response is read back as the texts that it leaves behind. A request
  with the URI of one of the two services and another method gets no response at all
  (`requests_answered`).
-/
import SmartWarehouse.Server.Chunks

namespace SmartWarehouse.Server

open SmartWarehouse.Lib

/-! ## The handler -/

/-- What the handler reads of `struct mg_http_message`; the variable `a` of the query is decoded
    and not used. -/
structure HttpMessage where
  uri : String
  method : String
  body : List Char

/-- What is sent: nothing, a head and chunks, or what `mg_http_serve_dir` makes of the
    message. -/
inductive Response where
  | none
  | chunked (head : String) (chunks : List (List Char))
  | serveDir (message : HttpMessage)

/-- What a call of the handler does not determine: the number that `/save` prints, and the buffers
    that are not initialized. -/
structure Surroundings where
  cpuUsage : List Char
  buf : Port → ManualBuffer

def saveHead : String := "HTTP/1.1 200 OK\r\nTransfer-Encoding: chunked\r\n\r\n"

def portsHead : String :=
  "HTTP/1.1 200 OK\r\n" ++ "Content-Type: application/json\r\n" ++
    "Transfer-Encoding: chunked\r\n\r\n"

/-- `"{ \"result\": %f }"`. -/
def saveChunk (cpuUsage : List Char) : List Char :=
  "\x7b \"result\": ".toList ++ cpuUsage ++ " \x7d".toList

def evHandler (s : PortServer) (hm : HttpMessage) (env : Surroundings) : PortServer × Response :=
  if hm.uri = "/save" then
    if hm.method = "GET" then (s, .chunked saveHead [saveChunk env.cpuUsage, []])
    else (s, .none)
  else if hm.uri = "/ajax_port_values" then
    if hm.method = "POST" then
      let s' := s.post hm.body env.buf
      (s', .chunked portsHead s'.reply)
    else (s, .none) -- what a GET did is commented out
  else (s, .serveDir hm)

/-- A handled message. -/
abbrev Handled := HttpMessage × Surroundings

/-- The server after a sequence of messages. -/
def stateAfter (s : PortServer) (messages : List Handled) : PortServer :=
  messages.foldl (fun s m => (evHandler s m.1 m.2).1) s

/-- A POST of port values. -/
def HttpMessage.postsPorts (hm : HttpMessage) : Bool :=
  hm.uri = "/ajax_port_values" && hm.method = "POST"

/-! ## What a message does -/

theorem evHandler_ports {hm : HttpMessage} (h : hm.postsPorts = true) (s : PortServer)
    (env : Surroundings) :
    evHandler s hm env =
      (s.post hm.body env.buf, .chunked portsHead (s.post hm.body env.buf).reply) := by
  have huri : hm.uri = "/ajax_port_values" ∧ hm.method = "POST" := by
    simpa [HttpMessage.postsPorts] using h
  have hsave : hm.uri ≠ "/save" := by
    rw [huri.1]
    decide
  unfold evHandler
  rw [if_neg hsave, if_pos huri.1, if_pos huri.2]

/-- Any other message leaves the ports alone. -/
theorem evHandler_other {hm : HttpMessage} (h : hm.postsPorts = false) (s : PortServer)
    (env : Surroundings) : (evHandler s hm env).1 = s := by
  unfold evHandler
  split
  · split
    · rfl
    · rfl
  · split
    · split
      · rename_i huri hmethod
        have hpost : hm.postsPorts = true := by
          simp [HttpMessage.postsPorts, huri, hmethod]
        rw [hpost] at h
        cases h
      · rfl
    · rfl

theorem state_filter (s : PortServer) (messages : List Handled) :
    stateAfter s messages = stateAfter s (messages.filter fun m => m.1.postsPorts) := by
  unfold stateAfter
  induction messages generalizing s with
  | nil => rfl
  | cons m ms ih =>
    cases hm : m.1.postsPorts with
    | true => rw [List.filter_cons, if_pos hm, List.foldl_cons, List.foldl_cons, ih]
    | false =>
      have hkeep : ¬ (m.1.postsPorts = true) := by
        rw [hm]
        exact Bool.false_ne_true
      rw [List.filter_cons, if_neg hkeep, List.foldl_cons, evHandler_other hm, ih]

/-- The messages that get no response. -/
def HttpMessage.Ignored (hm : HttpMessage) : Prop :=
  (hm.uri = "/save" ∧ hm.method ≠ "GET") ∨ (hm.uri = "/ajax_port_values" ∧ hm.method ≠ "POST")

theorem response_none_iff (s : PortServer) (hm : HttpMessage) (env : Surroundings) :
    (evHandler s hm env).2 = .none ↔ hm.Ignored := by
  unfold evHandler HttpMessage.Ignored
  by_cases hsave : hm.uri = "/save"
  · by_cases hget : hm.method = "GET"
    · simp [hsave, hget]
    · simp [hsave, hget]
  · by_cases hports : hm.uri = "/ajax_port_values"
    · by_cases hpost : hm.method = "POST"
      · simp [hports, hpost]
      · simp [hports, hpost]
    · simp [hsave, hports]

/-- The bytes behind the head of a response. -/
def Response.body : Response → List Char
  | .chunked _ chunks => chunks.flatMap mgHttpPrintfChunk
  | _ => []

/-- Whatever messages came before: the ports are those after the POSTs of port values alone; a
    message is answered unless it has the URI of a service and another method; and the response
    to a POST of port values, however its bytes arrive, is read as the texts after it. -/
theorem requests_answered (s : PortServer) (before : List Handled) (hm : HttpMessage)
    (env : Surroundings) :
    stateAfter s (before ++ [(hm, env)]) =
      stateAfter s ((before ++ [(hm, env)]).filter fun m => m.1.postsPorts) ∧
    ((evHandler (stateAfter s before) hm env).2 = .none ↔ hm.Ignored) ∧
    (hm.postsPorts = true →
      (∀ k < (evHandler (stateAfter s before) hm env).2.body.length,
        (walkchunks ((evHandler (stateAfter s before) hm env).2.body.take k)).body = none) ∧
      (walkchunks (evHandler (stateAfter s before) hm env).2.body).body =
        some (replyText fun i => ((stateAfter s (before ++ [(hm, env)])).mgPorts i).text)) := by
  refine ⟨state_filter s _, response_none_iff _ hm env, fun hpost => ?_⟩
  have hstate : stateAfter s (before ++ [(hm, env)]) =
      (stateAfter s before).post hm.body env.buf := by
    rw [stateAfter, List.foldl_append]
    exact congrArg Prod.fst (evHandler_ports hpost _ env)
  rw [evHandler_ports hpost, hstate]
  exact reply_read_back _

end SmartWarehouse.Server
