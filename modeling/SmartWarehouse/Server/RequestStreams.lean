/-
  Streams of requests: from the bytes of browsers to the ports.

  Requests that are sent one after another on a connection are passed on one by one, however their
  bytes arrive (`requests_arrive`). A connection that is lost within the body of a request passes
  this request on as well, cut short. When all bytes of all browsers have arrived there is one
  order of their requests, that of sending on each connection, and the texts of the ports are
  those of the forms in this order (`browsers_refine`). Bytes have arrived when `read_conn` has
  given them to `http_cb`: a buffer above its limit, which closes the connection, is left out.
-/
import SmartWarehouse.Server.HttpRequests
import SmartWarehouse.Server.Requests

namespace SmartWarehouse.Server

open SmartWarehouse.Lib

/-! ## Requests in a stream -/

namespace HttpRequest
variable (r : HttpRequest)

/-- The message that is passed on for a request. -/
def msg : HttpMsg := ⟨r.head, some r.body⟩

theorem httpFrame_wire (hlength : r.wire.length < 2 ^ 62) (rest : List Char) :
    httpFrame (r.wire ++ rest) = .message r.msg r.wire.length := by
  obtain ⟨hbody, hmessage⟩ := r.lengths_head hlength
  have hlen := r.len_head
  have hwire := r.length_wire
  have hparse : mgHttpParse (r.wire ++ rest) = .head r.head := by
    rw [wire, List.append_assoc]
    exact r.mgHttpParse_wireHead _
  have hbodyIn : r.head.bodyIn (r.wire ++ rest) = some r.body := by
    unfold HttpHead.bodyIn
    rw [if_pos (by omega), hmessage, List.take_left, hlen, wire, List.drop_left, hbody,
      List.take_length]
  rw [httpFrame_head hparse, hmessage, if_pos (by simp), hbodyIn]
  rfl

theorem httpFrame_part (hlength : r.wire.length < 2 ^ 62) {s : List Char} (hs : s <+: r.wire)
    (hlt : s.length < r.wire.length) : httpFrame s = .more := by
  have hparse := r.parse_part hs
  split at hparse
  · rw [httpFrame_head hparse, (r.lengths_head hlength).2, if_neg (by omega)]
  · unfold httpFrame
    rw [hparse]

end HttpRequest

/-- The bytes of requests one after another. -/
def wires (rs : List HttpRequest) : List Char := rs.flatMap HttpRequest.wire

theorem wires_cons (r : HttpRequest) (rs : List HttpRequest) :
    wires (r :: rs) = r.wire ++ wires rs := rfl

/-- The first bytes of some requests are a part of the first request, or all of it and the first
    bytes of the others. -/
theorem part_cases {r : HttpRequest} {rs : List HttpRequest} {s : List Char}
    (hs : s <+: wires (r :: rs)) :
    (s <+: r.wire ∧ s.length < r.wire.length) ∨ ∃ s', s = r.wire ++ s' ∧ s' <+: wires rs := by
  rw [wires_cons] at hs
  by_cases hlt : s.length < r.wire.length
  · exact .inl ⟨List.prefix_of_prefix_length_le hs (List.prefix_append _ _) (Nat.le_of_lt hlt), hlt⟩
  · obtain ⟨s', rfl⟩ : r.wire <+: s :=
      List.prefix_of_prefix_length_le (List.prefix_append _ _) hs (Nat.le_of_not_lt hlt)
    exact .inr ⟨s', rfl, (List.prefix_append_right_inj _).mp hs⟩

/-- What has arrived of the requests: some as a whole, and a part of the next. -/
structure Arrived (rs : List HttpRequest) (s : List Char) (done rest : List HttpRequest)
    (buffer : List Char) : Prop where
  requests : rs = done ++ rest
  bytes : s = wires done ++ buffer
  part : buffer <+: wires rest
  short : ∀ r ∈ rest.head?, buffer.length < r.wire.length

theorem Arrived.cons {rs done rest : List HttpRequest} {s buffer : List Char}
    (h : Arrived rs s done rest buffer) (r : HttpRequest) :
    Arrived (r :: rs) (r.wire ++ s) (r :: done) rest buffer where
  requests := by rw [h.requests, List.cons_append]
  bytes := by rw [h.bytes, wires_cons, List.append_assoc]
  part := h.part
  short := h.short

/-- All requests have arrived as a whole when all bytes have arrived. -/
theorem Arrived.all {rs done rest : List HttpRequest} {buffer : List Char}
    (h : Arrived rs (wires rs) done rest buffer) : done = rs := by
  obtain ⟨rfl, hbytes, -, hshort⟩ := h
  have hbuffer : wires rest = buffer := by
    rw [wires, List.flatMap_append] at hbytes
    exact List.append_cancel_left hbytes
  cases rest with
  | nil => rw [List.append_nil]
  | cons r rest =>
    have hlt := hshort r rfl
    rw [← hbuffer, wires_cons, List.length_append] at hlt
    omega

/-- The requests that have arrived as a whole are the messages. -/
theorem whole_wires {rs : List HttpRequest} (hlength : (wires rs).length < 2 ^ 62) {s : List Char}
    (hs : s <+: wires rs) :
    ∃ done rest buffer, Arrived rs s done rest buffer ∧
      Whole httpFrame s (done.map HttpRequest.msg) buffer false := by
  induction rs generalizing s with
  | nil =>
    obtain rfl := List.prefix_nil.mp hs
    exact ⟨[], [], [], ⟨rfl, rfl, List.prefix_rfl, nofun⟩, whole_nil httpFrame_stable⟩
  | cons r rs ih =>
    have hsum : r.wire.length + (wires rs).length < 2 ^ 62 := by
      rw [← List.length_append, ← wires_cons]
      exact hlength
    obtain ⟨hpart, hlt⟩ | ⟨s', rfl, hs'⟩ := part_cases hs
    · refine ⟨[], r :: rs, s, ⟨rfl, rfl, hs, ?_⟩, .nil s, ?_⟩
      · intro r' hr'
        obtain rfl := Option.some.inj hr'
        exact hlt
      · rw [r.httpFrame_part (by omega) hpart hlt]
        rfl
    · obtain ⟨done, rest, buffer, harrived, hcut, hends⟩ := ih (by omega) hs'
      refine ⟨r :: done, rest, buffer, harrived.cons r, .cons (r.httpFrame_wire (by omega) s') ?_,
        hends⟩
      rw [List.drop_left]
      exact hcut

/-- Every cut of the bytes ends between two requests. -/
theorem cut_wires {rs : List HttpRequest} (hlength : (wires rs).length < 2 ^ 62)
    {s rest : List Char} {ms : List HttpMsg} (hcut : Cut httpFrame s ms rest)
    (hs : s <+: wires rs) : ∃ done rs', rs = done ++ rs' ∧ rest <+: wires rs' := by
  induction hcut generalizing rs with
  | nil s => exact ⟨[], rs, rfl, hs⟩
  | @cons s rest m size ms hframe _ ih =>
    cases rs with
    | nil =>
      obtain rfl := List.prefix_nil.mp hs
      cases hframe
    | cons r rs =>
      have hsum : r.wire.length + (wires rs).length < 2 ^ 62 := by
        rw [← List.length_append, ← wires_cons]
        exact hlength
      obtain ⟨hpart, hlt⟩ | ⟨s', rfl, hs'⟩ := part_cases hs
      · rw [r.httpFrame_part (by omega) hpart hlt] at hframe
        cases hframe
      · rw [r.httpFrame_wire (by omega)] at hframe
        obtain ⟨-, rfl⟩ := Front.message.inj hframe
        rw [List.drop_left] at ih
        obtain ⟨done, rs', rfl, hrest⟩ := ih (by omega) hs'
        exact ⟨r :: done, rs', rfl, hrest⟩

theorem plain_wires {rs : List HttpRequest} (hlength : (wires rs).length < 2 ^ 62) {s : List Char}
    (hs : s <+: wires rs) : Plain s := by
  rintro rest hm ⟨ms, hcut, hparse⟩
  obtain ⟨done, rs', -, hrest⟩ := cut_wires hlength hcut hs
  cases rs' with
  | nil =>
    obtain rfl := List.prefix_nil.mp hrest
    cases hparse
  | cons r rs' =>
    have hhead : hm = r.head := by
      obtain ⟨hpart, -⟩ | ⟨s', rfl, -⟩ := part_cases hrest
      · rw [r.parse_part hpart] at hparse
        split at hparse
        · exact (Parsed.head.inj hparse).symm
        · cases hparse
      · rw [HttpRequest.wire, List.append_assoc, r.mgHttpParse_wireHead] at hparse
        exact (Parsed.head.inj hparse).symm
    rw [hhead]
    exact r.head_parts.2.2

/-! ## The handler's messages -/

/-- What the handler reads of a message. -/
def HttpMsg.toMessage (m : HttpMsg) : HttpMessage where
  uri := String.ofList m.head.uri
  method := String.ofList m.head.method
  body := m.body.getD []

/-- What the handler reads of a request. -/
def HttpRequest.message (r : HttpRequest) : HttpMessage where
  uri := String.ofList (r.uri.takeWhile (· ≠ '?'))
  method := String.ofList r.method
  body := r.body

theorem toMessage_msg (r : HttpRequest) : r.msg.toMessage = r.message := by
  obtain ⟨hmethod, huri, -⟩ := r.head_parts
  unfold HttpMsg.toMessage HttpRequest.message HttpRequest.msg
  dsimp only
  rw [hmethod, huri]
  rfl

/-- What the handler reads when the connection is closed after the first bytes of a request. -/
def HttpRequest.lost (r : HttpRequest) (received : Nat) : Option HttpMessage :=
  if r.wireHead.length ≤ received then
    some { r.message with body := r.body.take (received - r.wireHead.length) }
  else none

theorem httpCbClose_part {r : HttpRequest} {s : List Char} (hs : s <+: r.wire) :
    (httpCbClose s).map HttpMsg.toMessage = r.lost s.length := by
  have hparse := r.parse_part hs
  unfold httpCbClose HttpRequest.lost
  split at hparse
  · rename_i hle
    obtain ⟨hmethod, huri, -⟩ := r.head_parts
    have hbody : s.drop r.wireHead.length = r.body.take (s.length - r.wireHead.length) := by
      obtain ⟨t, ht⟩ := hs
      have htake : s = r.wire.take s.length := by
        rw [← ht, List.take_left]
      conv_lhs => rw [htake, List.drop_take, HttpRequest.wire, List.drop_left]
    rw [hparse, if_pos hle]
    dsimp only
    rw [r.len_head, hbody]
    unfold HttpMsg.toMessage HttpRequest.message
    dsimp only [Option.map]
    rw [hmethod, huri]
    rfl
  · rename_i hlt
    rw [hparse, if_neg hlt]
    rfl

section
variable {ι : Type} [DecidableEq ι]

/-- Requests are sent over connections and a part of the bytes has arrived, in any pieces. The
    loop of `http_cb` ends, and has passed on the requests that have arrived as a whole, each
    once and in order. A connection that is closed then passes on one more message if the head
    of the next request is there, with what there is of the body. -/
theorem requests_arrive {sent : ι → List HttpRequest} {arrivals : List (ι × List Char)}
    (hlength : ∀ i, (wires (sent i)).length < 2 ^ 62)
    (hsent : ∀ i, received arrivals i <+: wires (sent i)) :
    (∃ fuel h, httpServe fuel arrivals = some h) ∧
      ∀ fuel h, httpServe fuel arrivals = some h → ∀ i, (h.lines i).closed = false ∧
        ∃ done rest, Arrived (sent i) (received arrivals i) done rest (h.lines i).buffer ∧
          messagesOf h.log i = done.map HttpRequest.msg ∧
          (httpCbClose (h.lines i).buffer).map HttpMsg.toMessage =
            rest.head?.bind fun r => r.lost (h.lines i).buffer.length := by
  have hplain := fun i => plain_wires (hlength i) (hsent i)
  have hwhole := fun i => whole_wires (hlength i) (hsent i)
  simp only [httpServe_plain hplain]
  constructor
  · rw [Hub.run_isSome_iff httpFrame_stable]
    intro i
    obtain ⟨done, rest, buffer, -, h⟩ := hwhole i
    exact ⟨_, _, _, h⟩
  · intro fuel h hrun i
    obtain ⟨done, rest, buffer, harrived, hcut⟩ := hwhole i
    obtain ⟨rest', hcut', hbuffer⟩ :=
      (Hub.run_follows httpFrame_stable hrun i).whole httpFrame_stable
    obtain ⟨hms, rfl, hclosed⟩ := hcut.unique hcut'
    obtain rfl := hbuffer hclosed.symm
    refine ⟨hclosed.symm, done, rest, harrived, hms.symm, ?_⟩
    cases rest with
    | nil =>
      obtain hnil := List.prefix_nil.mp harrived.part
      rw [hnil]
      rfl
    | cons r rest =>
      have hshort := harrived.short r rfl
      obtain ⟨hpart, -⟩ | ⟨s', hs', -⟩ := part_cases harrived.part
      · exact httpCbClose_part hpart
      · rw [hs', List.length_append] at hshort
        omega

end

/-- X at its third position, and away from the last two. -/
def thirdPosition : List FormField :=
  [portField 0 "251".toList (bytes_of_all (by decide)),
    portField 1 "127".toList (bytes_of_all (by decide))]

def oneSent (_ : Unit) : List HttpRequest := [portsRequest thirdPosition]

theorem length_oneSent (i : Unit) : (wires (oneSent i)).length < 2 ^ 62 := by
  revert i
  decide

/-- A browser is gone one byte before the end of its request. -/
theorem requests_arrive_lost :
    ∃ fuel h, httpServe fuel [((), (portsRequest thirdPosition).wire.dropLast)] = some h ∧
      messagesOf h.log () = [] ∧
      (httpCbClose (h.lines ()).buffer).map (fun m => m.toMessage.body) =
        some "P0=251&P1=12".toList := by
  have hreceived : received [((), (portsRequest thirdPosition).wire.dropLast)] () =
      (portsRequest thirdPosition).wire.dropLast := List.append_nil _
  have hsent : ∀ i : Unit, received [((), (portsRequest thirdPosition).wire.dropLast)] i <+:
      wires (oneSent i) := by
    intro i
    rw [hreceived, oneSent, wires_cons]
    exact (List.dropLast_prefix _).trans (List.prefix_append _ _)
  obtain ⟨⟨fuel, h, hrun⟩, hall⟩ := requests_arrive length_oneSent hsent
  obtain ⟨-, done, rest, harrived, hms, hclose⟩ := hall fuel h hrun ()
  refine ⟨fuel, h, hrun, ?_⟩
  have hrequests := harrived.requests
  have hbytes := harrived.bytes
  rw [hreceived] at hbytes
  cases done with
  | nil =>
    obtain rfl : [portsRequest thirdPosition] = rest := hrequests
    refine ⟨hms, ?_⟩
    have hbody := congrArg (Option.map HttpMessage.body) hclose
    rw [Option.map_map] at hbody
    refine hbody.trans ?_
    rw [← show (portsRequest thirdPosition).wire.dropLast = (h.lines ()).buffer from hbytes]
    decide
  | cons r done =>
    obtain ⟨rfl, -⟩ := List.cons.inj hrequests
    have hlong := congrArg List.length hbytes
    rw [wires_cons, List.length_append, List.length_append, List.length_dropLast] at hlong
    have hpos : 0 < (portsRequest thirdPosition).wire.length := by decide
    omega

/-! ## Forms -/

/-- The texts of the ports after some forms have been posted. -/
def formTexts (portsType : Port → PortType) (texts : Port → List Char)
    (forms : List (List FormField)) : Port → List Char :=
  forms.foldl (fun texts form i =>
    if StoresForm portsType form i then formText form (portName i) 9 else texts i) texts

theorem portsType_evHandler (s : PortServer) (hm : HttpMessage) (env : Surroundings) :
    (evHandler s hm env).1.portsType = s.portsType := by
  cases h : hm.postsPorts with
  | true =>
    rw [evHandler_ports h]
    rfl
  | false => rw [evHandler_other h]

/-- The handler gets the messages of some requests, of which those for the ports carry forms. -/
theorem text_stateAfter {formOf : HttpRequest → List FormField} {handled : List Handled}
    {requests : List HttpRequest} (hmap : handled.map Prod.fst = requests.map HttpRequest.message)
    (hforms : ∀ r ∈ requests, r.message.postsPorts = true → r.body = formBody (formOf r))
    {s : PortServer} {texts : Port → List Char} (htexts : ∀ i, (s.mgPorts i).text = texts i)
    (i : Port) : ((stateAfter s handled).mgPorts i).text =
      formTexts s.portsType texts
        ((requests.filter fun r => r.message.postsPorts).map formOf) i := by
  induction requests generalizing handled s texts with
  | nil =>
    obtain rfl := List.map_eq_nil_iff.mp hmap
    exact htexts i
  | cons r requests ih =>
    obtain ⟨⟨hm, env⟩, handled, rfl, hfst, hrest⟩ := List.map_eq_cons_iff.mp hmap
    obtain rfl : hm = r.message := hfst
    have hnext := fun r hr => hforms r (List.mem_cons_of_mem _ hr)
    show ((stateAfter (evHandler s r.message env).1 handled).mgPorts i).text = _
    cases hposts : r.message.postsPorts with
    | false =>
      rw [evHandler_other hposts, List.filter_cons_of_neg (by simp [hposts])]
      exact ih hrest hnext htexts
    | true =>
      have hbody : r.message.body = formBody (formOf r) :=
        hforms r List.mem_cons_self hposts
      have htexts' : ∀ i, ((evHandler s r.message env).1.mgPorts i).text =
          if StoresForm s.portsType (formOf r) i then formText (formOf r) (portName i) 9
          else texts i := by
        intro i
        rw [evHandler_ports hposts, hbody, text_post_form, htexts]
      rw [List.filter_cons_of_pos (by simp [hposts]), ih hrest hnext htexts',
        portsType_evHandler]
      rfl

section
variable {ι : Type} [DecidableEq ι]

/-- Browsers send requests, of which those for the ports carry forms. When all bytes have arrived,
    in whatever pieces and however the connections are interleaved, there is one order of all
    requests, that of sending on each connection, so that the texts of the ports are those of
    the forms in this order. -/
theorem browsers_refine {sent : ι → List HttpRequest} {arrivals : List (ι × List Char)}
    {formOf : HttpRequest → List FormField}
    (hlength : ∀ i, (wires (sent i)).length < 2 ^ 62)
    (hsent : ∀ i, received arrivals i = wires (sent i))
    (hforms : ∀ i, ∀ r ∈ sent i, r.message.postsPorts = true → r.body = formBody (formOf r))
    (portsType : Port → PortType) :
    ∃ fuel h order, httpServe fuel arrivals = some h ∧ (∀ i, messagesOf order i = sent i) ∧
      h.log = order.map (fun e => (e.1, e.2.msg)) ∧
      ∀ handled : List Handled, handled.map Prod.fst = h.log.map (fun e => e.2.toMessage) →
        ∀ i, ((stateAfter (PortServer.start portsType) handled).mgPorts i).text =
          formTexts portsType (fun _ => "0".toList)
            (((order.map Prod.snd).filter fun r => r.message.postsPorts).map formOf) i := by
  obtain ⟨⟨fuel, h, hrun⟩, hall⟩ :=
    requests_arrive hlength fun i => (hsent i ▸ List.prefix_rfl : received arrivals i <+: _)
  have hdone : ∀ i, messagesOf h.log i = (sent i).map HttpRequest.msg := by
    intro i
    obtain ⟨-, done, rest, harrived, hms, -⟩ := hall fuel h hrun i
    rw [hsent] at harrived
    rw [hms, harrived.all]
  obtain ⟨order, hlog, horder⟩ := exists_order hdone
  refine ⟨fuel, h, order, hrun, horder, hlog, ?_⟩
  intro handled hhandled i
  have hzero : PortText.zero.text = "0".toList := by decide
  refine text_stateAfter ?_ ?_ (fun _ => hzero) i
  · rw [hhandled, hlog, List.map_map, List.map_map]
    exact List.map_congr_left fun e _ => toMessage_msg e.2
  · intro r hr hposts
    obtain ⟨e, hmem, rfl⟩ := List.mem_map.mp hr
    apply hforms e.1 e.2 _ hposts
    rw [← horder]
    exact mem_messagesOf.mp hmem

end

/-- A request in two pieces. -/
theorem browsers_refine_split :
    ∃ fuel h, httpServe fuel [((), (portsRequest thirdPosition).wire.take 50),
        ((), (portsRequest thirdPosition).wire.drop 50)] = some h ∧
      ∀ handled : List Handled, handled.map Prod.fst = h.log.map (fun e => e.2.toMessage) →
        ((stateAfter (PortServer.start fun _ => .input) handled).mgPorts 0).text =
          "251".toList := by
  have hsent : ∀ i : Unit, received [((), (portsRequest thirdPosition).wire.take 50),
      ((), (portsRequest thirdPosition).wire.drop 50)] i =
        wires (oneSent i) := by
    intro i
    rw [oneSent, wires_cons, ← List.take_append_drop 50 (portsRequest thirdPosition).wire]
    rfl
  have hforms : ∀ i : Unit, ∀ r ∈ oneSent i,
      r.message.postsPorts = true → r.body = formBody thirdPosition := by
    intro i r hr _
    rw [List.mem_singleton.mp hr]
    rfl
  obtain ⟨fuel, h, order, hrun, horder, hlog, htexts⟩ :=
    @browsers_refine Unit _ _ _ (fun _ => thirdPosition) length_oneSent hsent hforms fun _ => .input
  refine ⟨fuel, h, hrun, ?_⟩
  intro handled hhandled
  rw [htexts handled hhandled]
  have hall : order.map Prod.snd = [portsRequest thirdPosition] := by
    have hone := horder ()
    unfold messagesOf at hone
    rw [List.filter_eq_self.mpr (by simp)] at hone
    exact hone
  rw [hall]
  decide

end SmartWarehouse.Server
