import Dime.Server.Link
import Dime.Clients.Traffic
import Dime.Clients.Usable
import Dime.Clients.JavaScript.Overlapping

/-!
# Clients on their connections

The clients send the bytes of their requests, and read the bytes of the server. Whatever the
parts in which the kernel delivers these, a run of the event loops is a run of the network.
-/

namespace Dime

open Dialogue

variable {V W : Type} {jansson : Jansson Json}

/-! ## What the clients read -/

/-- `__recv` of the Python client, which waits for all bytes that it asks for. -/
def Python.received (parse : Bytes → Json) (arrived : Bytes) : Framing.Next Message :=
  if arrived.length < 12 then .more
  else if arrived.take 4 ≠ magic then .bad
  else
    let jsondataLen := BigEndian.decode ((arrived.drop 4).take 4)
    let bindataLen := BigEndian.decode ((arrived.drop 8).take 4)
    if arrived.length < 12 + (jsondataLen + bindataLen) then .more
    else
      let data := (arrived.drop 12).take (jsondataLen + bindataLen)
      .item ⟨parse (data.take jsondataLen), data.drop jsondataLen⟩
        (12 + (jsondataLen + bindataLen))

/-- `recvmsg` of the Matlab client. Its `if` is on an array, of which all elements have to hold,
and what is a `uint32` saturates. -/
def Matlab.received (parse : Bytes → Json) (arrived : Bytes) : Framing.Next Message :=
  if arrived.length < 12 then .more
  else if ((arrived.take 4).zip magic).all fun pair => pair.1 ≠ pair.2 then .bad
  else
    let jsonLen := BigEndian.decode ((arrived.drop 4).take 4)
    let bindataLen := BigEndian.decode ((arrived.drop 8).take 4)
    let msgLen := min (jsonLen + bindataLen) (2 ^ 32 - 1)
    if arrived.length < 12 + msgLen then .more
    else
      let msg := (arrived.drop 12).take msgLen
      .item ⟨parse (msg.take jsonLen), msg.drop (min (jsonLen + 1) (2 ^ 32 - 1) - 1)⟩ (12 + msgLen)

/-- The length of the header of a frame for a browser, and of its payload, once the header is
there. -/
def eventHeader (bytes : Bytes) : Option (Nat × Nat) :=
  let len := (bytes.getD 1 0).toNat
  if len < 126 then if 2 ≤ bytes.length then some (2, len) else none
  else if len = 126 then
    if 4 ≤ bytes.length then some (4, BigEndian.decode ((bytes.drop 2).take 2)) else none
  else if 10 ≤ bytes.length then some (10, BigEndian.decode ((bytes.drop 2).take 8)) else none

/-- The data of a message event of a browser: those of a frame that is not masked, holds binary
data and is not continued by others. -/
def messageEvent (bytes : Bytes) : Framing.Next Bytes :=
  match eventHeader bytes with
  | none => .more
  | some (hdrLen, len) =>
      if bytes.getD 0 0 ≠ 0x82 ∨ 128 ≤ (bytes.getD 1 0).toNat then .bad
      else if bytes.length < hdrLen + len then .more
      else .item ((bytes.drop hdrLen).take len) (hdrLen + len)

namespace Endpoint

/-- What a client makes of the bytes that have arrived. -/
def received (parse : Bytes → Json) : Endpoint V W → Bytes → Framing.Next Message
  | .python .. => Python.received parse
  | .matlab _ => Matlab.received parse
  | .javascript _ => JavaScript.received parse

/-- The messages that a client has been able to read. -/
def heard (parse : Bytes → Json) (endpoint : Endpoint V W) (ws : Bool) (written : Bytes) :
    List Message :=
  (Framing.drain (endpoint.received parse)
    (if ws then (Framing.drain messageEvent written).1.flatten else written)).1

end Endpoint

/-- The lengths of a message, their sum, and what follows it, which the Matlab client computes,
fit in 32 bits. -/
def Outgoing.Fits (jansson : Jansson Json) (out : Outgoing) : Prop :=
  (out.jsonstr jansson).length + out.bindata.length < 2 ^ 32 - 1

/-! ### The frames for browsers -/

/-- What follows the second byte of a header says how long the payload is. -/
def Announces (byte : UInt8) (ext : Bytes) (len : Nat) : Prop :=
  (byte.toNat < 126 ∧ ext = [] ∧ byte.toNat = len) ∨
    (byte.toNat = 126 ∧ ext.length = 2 ∧ BigEndian.decode ext = len) ∨
    (byte.toNat = 127 ∧ ext.length = 8 ∧ BigEndian.decode ext = len)

theorem exists_wsHeader {len : Nat} (h : len < 2 ^ 64) : ∃ byte ext,
    Socket.wsHeader len = 0x82 :: byte :: ext ∧ Announces byte ext len := by
  unfold Socket.wsHeader
  split
  · next hsmall =>
      refine ⟨UInt8.ofNat len, [], rfl, .inl ⟨?_, rfl, ?_⟩⟩
      · rw [UInt8.toNat_ofNat']
        omega
      · rw [UInt8.toNat_ofNat']
        omega
  · split
    · next hmedium =>
        refine ⟨126, _, rfl, .inr (.inl ⟨rfl, BigEndian.length_encode 2 len, ?_⟩)⟩
        exact BigEndian.decode_encode_of_lt hmedium
    · refine ⟨127, _, rfl, .inr (.inr ⟨rfl, BigEndian.length_encode 8 len, ?_⟩)⟩
      exact BigEndian.decode_encode_of_lt h

variable {byte : UInt8} {ext : Bytes} {len : Nat}

theorem eventHeader_append (h : Announces byte ext len) (rest : Bytes) :
    eventHeader (0x82 :: byte :: (ext ++ rest)) = some (2 + ext.length, len) := by
  have hsecond : ((0x82 : UInt8) :: byte :: (ext ++ rest)).getD 1 0 = byte := rfl
  have hdrop : ((0x82 : UInt8) :: byte :: (ext ++ rest)).drop 2 = ext ++ rest := rfl
  rw [eventHeader, hsecond, hdrop]
  simp only [List.length_cons, List.length_append]
  obtain ⟨hbyte, rfl, rfl⟩ | ⟨hbyte, hext, hlen⟩ | ⟨hbyte, hext, hlen⟩ := h
  · rw [if_pos hbyte, if_pos (by omega)]
    rfl
  · rw [if_neg (by omega), if_pos hbyte, if_pos (by omega), List.take_left' hext, hlen, hext]
  · rw [if_neg (by omega), if_neg (by omega), if_pos (by omega), List.take_left' hext, hlen, hext]

/-- A header that is cut short. -/
theorem eventHeader_cut (h : Announces byte ext len) {front : Bytes}
    (hfront : front <+: 0x82 :: byte :: ext) (hne : front ≠ 0x82 :: byte :: ext) :
    eventHeader front = none := by
  have hshort : front.length < ((0x82 : UInt8) :: byte :: ext).length :=
    lt_of_le_of_ne hfront.length_le fun heq => hne (hfront.eq_of_length heq)
  rw [List.length_cons, List.length_cons] at hshort
  cases front with
  | nil => rfl
  | cons first front =>
      obtain ⟨rfl, htail⟩ := List.cons_prefix_cons.mp hfront
      cases front with
      | nil => rfl
      | cons second front =>
          obtain ⟨rfl, _⟩ := List.cons_prefix_cons.mp htail
          have hsecond : ((0x82 : UInt8) :: second :: front).getD 1 0 = second := rfl
          rw [eventHeader, hsecond]
          simp only [List.length_cons] at hshort ⊢
          obtain ⟨hbyte, rfl, _⟩ | ⟨hbyte, hext, _⟩ | ⟨hbyte, hext, _⟩ := h
          · rw [List.length_nil] at hshort
            omega
          · rw [if_neg (by omega), if_pos hbyte, if_neg (by omega)]
          · rw [if_neg (by omega), if_neg (by omega), if_neg (by omega)]

theorem Announces.small (h : Announces byte ext len) : ¬ 128 ≤ byte.toNat := by
  rcases h with ⟨hbyte, _⟩ | ⟨hbyte, _⟩ | ⟨hbyte, _⟩ <;> omega

/-- A browser reads the payloads that the server has put into frames. -/
theorem reads_messageEvent {payload : Bytes} (hlen : payload.length < 2 ^ 64) :
    Framing.Reads (fun payload => Socket.wsHeader payload.length ++ payload) id messageEvent
      payload := by
  obtain ⟨byte, ext, hheader, hannounces⟩ := exists_wsHeader hlen
  constructor
  · intro hnil
    rw [hheader] at hnil
    cases hnil
  · intro rest
    rw [hheader]
    simp only [List.cons_append, List.append_assoc]
    have hfirst : ((0x82 : UInt8) :: byte :: (ext ++ (payload ++ rest))).getD 0 0 = 0x82 := rfl
    have hsecond : ((0x82 : UInt8) :: byte :: (ext ++ (payload ++ rest))).getD 1 0 = byte := rfl
    have hdrop : ((0x82 : UInt8) :: byte :: (ext ++ (payload ++ rest))).drop (2 + ext.length) =
        payload ++ rest := by
      rw [Nat.add_comm 2]
      exact List.drop_left
    rw [messageEvent, eventHeader_append hannounces]
    dsimp only
    rw [hfirst, hsecond, if_neg (by simp [hannounces.small]), if_neg ?_, hdrop, List.take_left]
    · simp only [id, List.length_cons, List.length_append]
      congr 1
      omega
    · simp only [List.length_cons, List.length_append]
      omega
  · intro front hfront hne
    rw [hheader] at hfront hne
    have hsplit : ((0x82 : UInt8) :: byte :: ext) ++ payload = 0x82 :: byte :: (ext ++ payload) := rfl
    rcases Nat.lt_or_ge front.length ((0x82 : UInt8) :: byte :: ext).length with hcut | hlong
    · have hinside := List.prefix_of_prefix_length_le hfront (List.prefix_append _ _) hcut.le
      rw [messageEvent, eventHeader_cut hannounces hinside]
      intro heq
      rw [heq] at hcut
      exact absurd hcut (lt_irrefl _)
    · obtain ⟨part, rfl⟩ := List.prefix_of_prefix_length_le (List.prefix_append _ _) hfront hlong
      have hpart : part.length < payload.length := by
        have hle := (List.prefix_append_right_inj _).mp hfront
        exact lt_of_le_of_ne hle.length_le fun heq => hne (by rw [hle.eq_of_length heq])
      have hfirst : ((0x82 : UInt8) :: byte :: (ext ++ part)).getD 0 0 = 0x82 := rfl
      have hsecond : ((0x82 : UInt8) :: byte :: (ext ++ part)).getD 1 0 = byte := rfl
      rw [List.cons_append, List.cons_append, messageEvent, eventHeader_append hannounces]
      dsimp only
      rw [hfirst, hsecond, if_neg (by simp [hannounces.small]), if_pos ?_]
      simp only [List.length_cons, List.length_append]
      omega

/-! ### The messages -/

theorem Python.received_eq (parse : Bytes → Json) (arrived : Bytes) :
    Python.received parse arrived = JavaScript.received parse arrived := by
  unfold Python.received JavaScript.received
  by_cases hlong : 12 ≤ arrived.length
  · rw [if_neg (Nat.not_lt.mpr hlong), if_pos hlong]
    split
    · rfl
    · dsimp only
      generalize BigEndian.decode ((arrived.drop 4).take 4) = m
      generalize BigEndian.decode ((arrived.drop 8).take 4) = n
      by_cases hthere : 12 + m + n ≤ arrived.length
      · rw [if_neg (by omega), if_pos hthere, List.take_take, Nat.min_eq_left (Nat.le_add_right m n),
          List.drop_take, List.drop_drop, Nat.add_sub_cancel_left, Nat.add_assoc]
      · rw [if_pos (by omega), if_neg hthere]
  · rw [if_pos (Nat.lt_of_not_le hlong), if_neg hlong]

/-- Nothing saturates in a message that fits. -/
theorem Matlab.received_eq (parse : Bytes → Json) {arrived : Bytes}
    (hheader : 12 ≤ arrived.length → arrived.take 4 = magic ∧
      BigEndian.decode ((arrived.drop 4).take 4) + BigEndian.decode ((arrived.drop 8).take 4) <
        2 ^ 32 - 1) :
    Matlab.received parse arrived = JavaScript.received parse arrived := by
  unfold Matlab.received JavaScript.received
  by_cases hlong : 12 ≤ arrived.length
  · obtain ⟨hmagic, hfits⟩ := hheader hlong
    rw [if_neg (Nat.not_lt.mpr hlong), if_pos hlong, hmagic, if_neg (by decide),
      if_neg (not_not_intro rfl)]
    dsimp only
    generalize BigEndian.decode ((arrived.drop 4).take 4) = m at hfits
    generalize BigEndian.decode ((arrived.drop 8).take 4) = n at hfits
    have hmin : min (m + n) (2 ^ 32 - 1) = m + n := Nat.min_eq_left (by omega)
    by_cases hthere : 12 + m + n ≤ arrived.length
    · have hdrop : ((arrived.drop 12).take (m + n)).drop (min (m + 1) (2 ^ 32 - 1) - 1) =
          (arrived.drop (12 + m)).take n := by
        rw [Nat.min_eq_left (by omega), Nat.add_sub_cancel, List.drop_take, List.drop_drop,
          Nat.add_sub_cancel_left]
      rw [hmin, if_neg (by omega), if_pos hthere, hdrop, List.take_take,
        Nat.min_eq_left (Nat.le_add_right m n), Nat.add_assoc]
    · rw [hmin, if_pos (by omega), if_neg hthere]
  · rw [if_pos (Nat.lt_of_not_le hlong), if_neg hlong]

theorem Outgoing.length_frame (jansson : Jansson Json) (out : Outgoing) :
    (out.frame jansson false).length =
      12 + (out.jsonstr jansson).length + out.bindata.length := by
  rw [Outgoing.frame, if_neg Bool.false_ne_true, List.nil_append, List.length_append,
    List.length_append, JavaScript.length_header]
  rfl

theorem Outgoing.frame_true (jansson : Jansson Json) (out : Outgoing) :
    out.frame jansson true =
      Socket.wsHeader (out.frame jansson false).length ++ out.frame jansson false := by
  rw [out.length_frame]
  rfl

theorem Outgoing.Fits.lengths_lt {out : Outgoing} (hfits : out.Fits jansson) :
    (out.jsonstr jansson).length < 2 ^ 32 ∧ out.bindata.length < 2 ^ 32 := by
  rw [Outgoing.Fits] at hfits
  constructor <;> omega

/-- The frame of a message that fits. -/
def Outgoing.toFrame (jansson : Jansson Json) (out : Outgoing) (hfits : out.Fits jansson) :
    JavaScript.Frame :=
  ⟨(out.jsonstr jansson).1, out.bindata, hfits.lengths_lt.1, hfits.lengths_lt.2⟩

instance (out : Outgoing) : Decidable (out.Fits jansson) := inferInstanceAs (Decidable (_ < _))

variable {parse : Bytes → Json} {endpoint : Endpoint V W} {out : Outgoing} {outs : List Outgoing}

theorem Outgoing.frame_false (hfits : out.Fits jansson) :
    out.frame jansson false = (out.toFrame jansson hfits).bytes := by
  rw [Outgoing.frame, JavaScript.Frame.bytes, if_neg Bool.false_ne_true, List.nil_append,
    List.append_assoc]
  rfl

theorem Matlab.received_of_header (hfits : out.Fits jansson) {arrived : Bytes}
    (hheader : 12 ≤ arrived.length →
      Socket.header (out.jsonstr jansson).length out.bindata.length <+: arrived) :
    Matlab.received parse arrived = JavaScript.received parse arrived := by
  refine Matlab.received_eq parse fun hlong => ?_
  obtain ⟨rest, rfl⟩ := hheader hlong
  obtain ⟨hmagic, hjson, hbindata, _⟩ := JavaScript.header_parts (Outgoing.Fits.lengths_lt hfits).1
    (Outgoing.Fits.lengths_lt hfits).2 rest
  exact ⟨hmagic, by rw [hjson, hbindata]; exact hfits⟩

/-- Every client reads the messages of the server, and waits for the rest of one. -/
theorem Endpoint.reads (parse : Bytes → Json) (endpoint : Endpoint V W) (hfits : out.Fits jansson) :
    Framing.Reads (Outgoing.frame jansson false)
      (Outgoing.message jansson fun text => parse text.1) (endpoint.received parse) out := by
  have hframe := Outgoing.frame_false hfits
  have hreads : Framing.Reads (Outgoing.frame jansson false)
      (Outgoing.message jansson fun text => parse text.1) (JavaScript.received parse) out := by
    obtain ⟨hpos, hcomplete, hcut⟩ := JavaScript.reads_frame parse (out.toFrame jansson hfits)
    rw [← hframe] at hpos hcomplete hcut
    exact ⟨hpos, hcomplete, hcut⟩
  have hheader : Socket.header (out.jsonstr jansson).length out.bindata.length <+:
      out.frame jansson false := by
    rw [hframe]
    exact List.prefix_append _ _
  cases endpoint with
  | python useJson calls =>
      have hsame : Python.received parse = JavaScript.received parse :=
        funext (Python.received_eq parse)
      rw [Endpoint.received, hsame]
      exact hreads
  | matlab calls =>
      refine ⟨hreads.pos, fun rest => ?_, fun front hfront hne => ?_⟩
      · rw [Endpoint.received, Matlab.received_of_header hfits fun _ =>
          hheader.trans (List.prefix_append _ _)]
        exact hreads.complete rest
      · rw [Endpoint.received, Matlab.received_of_header hfits fun hlong => ?_]
        · exact hreads.cut front hfront hne
        · apply List.prefix_of_prefix_length_le hheader hfront
          rw [JavaScript.length_header]
          exact hlong
  | javascript calls => exact hreads

theorem JavaScript.received_progresses (parse : Bytes → Json) :
    Framing.Progresses (JavaScript.received parse) := by
  intro bytes message size h
  unfold JavaScript.received at h
  split at h
  · split at h
    · cases h
    · dsimp only at h
      split at h
      · next hthere =>
          cases h
          exact ⟨by omega, hthere⟩
      · cases h
  · cases h

theorem Matlab.received_progresses (parse : Bytes → Json) :
    Framing.Progresses (Matlab.received parse) := by
  intro bytes message size h
  unfold Matlab.received at h
  split at h
  · cases h
  · split at h
    · cases h
    · dsimp only at h
      split at h
      · cases h
      · next hthere =>
          cases h
          exact ⟨by omega, Nat.le_of_not_lt hthere⟩

theorem Endpoint.received_progresses (parse : Bytes → Json) (endpoint : Endpoint V W) :
    Framing.Progresses (endpoint.received parse) := by
  cases endpoint with
  | python useJson calls =>
      rw [Endpoint.received, show Python.received parse = JavaScript.received parse from
        funext (Python.received_eq parse)]
      exact JavaScript.received_progresses parse
  | matlab calls => exact Matlab.received_progresses parse
  | javascript calls => exact JavaScript.received_progresses parse

theorem messageEvent_progresses : Framing.Progresses messageEvent := by
  intro bytes payload size h
  unfold messageEvent at h
  split at h
  · cases h
  · next hdrLen len hheader =>
      have hpos : 0 < hdrLen := by
        unfold eventHeader at hheader
        dsimp only at hheader
        repeat' split at hheader
        all_goals cases hheader
        all_goals decide
      split at h
      · cases h
      · split at h
        · cases h
        · next hthere =>
            cases h
            exact ⟨by omega, Nat.le_of_not_lt hthere⟩

theorem Endpoint.received_nil (parse : Bytes → Json) (endpoint : Endpoint V W) :
    endpoint.received parse [] = .more := by
  cases endpoint with
  | python useJson calls => rfl
  | matlab calls => rfl
  | javascript calls => rfl

/-- What a client hears is the beginning of what has been pushed to it. -/
theorem Endpoint.heard_begins (parse : Bytes → Json) (endpoint : Endpoint V W) {ws : Bool}
    {written : Bytes} (hfits : ∀ out ∈ outs, out.Fits jansson)
    (hwritten : written <+: outs.flatMap (Outgoing.frame jansson ws)) :
    endpoint.heard parse ws written <+:
      outs.map (Outgoing.message jansson fun text => parse text.1) := by
  have hplain : ∀ outs' written', (∀ out ∈ outs', out.Fits jansson) →
      written' <+: Framing.stream (Outgoing.frame jansson false) outs' →
      (Framing.drain (endpoint.received parse) written').1 <+:
        outs'.map (Outgoing.message jansson fun text => parse text.1) := by
    intro outs' written' hfits' hwritten'
    obtain ⟨done, todo, rest, rfl, _, _, hdrain⟩ := Framing.drain_stream
      (endpoint.received_progresses parse) (endpoint.received_nil parse)
      (fun out hout => endpoint.reads parse (hfits' out hout)) hwritten'
    rw [hdrain, List.map_append]
    exact List.prefix_append _ _
  rw [Endpoint.heard]
  cases ws with
  | false =>
      rw [if_neg Bool.false_ne_true]
      refine hplain outs written hfits ?_
      rwa [Framing.stream, ← List.flatMap_def]
  | true =>
      rw [if_pos rfl]
      have hframes : outs.flatMap (Outgoing.frame jansson true) = Framing.stream
          (fun payload => Socket.wsHeader payload.length ++ payload)
          (outs.map (Outgoing.frame jansson false)) := by
        rw [Framing.stream, List.map_map, ← List.flatMap_def]
        exact congrArg (List.flatMap · outs) (funext fun out => out.frame_true jansson)
      have hreads : ∀ payload ∈ outs.map (Outgoing.frame jansson false), Framing.Reads
          (fun payload => Socket.wsHeader payload.length ++ payload) id messageEvent payload := by
        intro payload hpayload
        obtain ⟨out, hout, rfl⟩ := List.mem_map.mp hpayload
        have hlength := out.length_frame jansson
        have hfit := hfits out hout
        rw [Outgoing.Fits] at hfit
        exact reads_messageEvent (by omega)
      rw [hframes] at hwritten
      obtain ⟨done, todo, rest, hsplit, _, _, hdrain⟩ := Framing.drain_stream
        messageEvent_progresses rfl hreads hwritten
      obtain ⟨front, back, rfl, rfl, rfl⟩ := List.map_eq_append_iff.mp hsplit
      rw [hdrain, List.map_id, List.map_append]
      refine List.IsPrefix.trans ?_ (List.prefix_append _ _)
      exact hplain front _ (fun out hout => hfits out (List.mem_append_left _ hout)) List.prefix_rfl

/-! ## What the clients send -/

/-- A client sends what its session has come to with what it has been able to read: the bytes of
requests that the server can parse, if the connection is one of WebSocket as payloads of frames. -/
def Delivers (platform : Platform V W) (endpoint : ClientPtr → Endpoint V W)
    (jansson : Jansson Json) (parse : Bytes → Json) (srv : Server) (traffic : Traffic)
    (c : ClientPtr) (received : Bytes) : Prop :=
  ∃ clnt ws stream, ∃ sent : List (Sendable jansson),
    srv.clnts.cells c = some clnt ∧ (∀ out ∈ clnt.sent, out.Fits jansson) ∧
    sent.map Sendable.value <+: (endpoint c).requests platform
      ((endpoint c).heard parse clnt.sock.ws.isSome (traffic.written c)) ∧
    ws.isSome = clnt.sock.ws.isSome ∧ Layered received ws stream ∧
    stream <+: Framing.stream Sendable.encode sent

theorem layered_unique {received stream stream' : Bytes} {ws ws' : Option Bytes}
    (h : Layered received ws stream) (h' : Layered received ws' stream')
    (hsame : ws.isSome = ws'.isSome) : stream = stream' := by
  cases ws with
  | none =>
      cases ws' with
      | none => exact Eq.trans h h'.symm
      | some rest' => cases hsame
  | some rest =>
      cases ws' with
      | none => cases hsame
      | some rest' =>
          obtain ⟨payloads, hdrain, rfl⟩ := h
          obtain ⟨payloads', hdrain', rfl⟩ := h'
          rw [hdrain] at hdrain'
          cases hdrain'
          rfl

variable {platform : Platform V W} {endpoints : ClientPtr → Endpoint V W} {srv : Server}
  {traffic : Traffic} {history : List (Server × Action)} {c : ClientPtr} {clnt : Client}

namespace Server

theorem byCommands_driven (loads : CString → Json) :
    ByCommands (Driven platform endpoints jansson loads) := by
  refine ⟨trivial, fun history mid action hdriven hother => ?_⟩
  refine driven_append.mpr ⟨hdriven, ?_⟩
  cases action with
  | command c jsondata bindata => exact absurd rfl (hother c jsondata bindata)
  | accept fd ws => trivial
  | find fd => trivial
  | transfer c sock => trivial
  | close c => trivial

/-- The messages that are popped from what a client sends are the next requests of its session,
even if more has been pushed to it in the meantime. -/
theorem permits_delivered {P : List (Server × Action) → Prop}
    (h : Carried jansson P traffic history srv) (hc : srv.clnts.cells c = some clnt)
    {chunk : Except String Bytes}
    (hdelivers : Delivers platform endpoints jansson parse srv traffic c
      ((traffic.receive c chunk).received c)) :
    Permits jansson (Driven platform endpoints jansson fun text => parse text.1)
      (traffic.receive c chunk) c clnt := by
  obtain ⟨clnt', ws, stream, sent, hc', hfits, hrequests, hws, hlayered, hstream⟩ := hdelivers
  cases hc.symm.trans hc'
  intro history' mid later sock message size hmid hlater hbefore hitem hdriven
  refine driven_append.mpr ⟨hdriven, ?_⟩
  -- what the client has read is still the beginning of what has been pushed to it
  have hwritten : traffic.written c <+: clnt.sent.flatMap
      (Outgoing.frame jansson clnt.sock.ws.isSome) := by
    have hwrites := h.writes c (clnt.view srv.content) (by rw [view_peers, hc, Option.map_some])
    rw [show (clnt.view srv.content).ws.isSome = clnt.sock.ws.isSome from Option.isSome_map]
      at hwrites
    rw [show clnt.sent = (clnt.view srv.content).sent from rfl, ← hwrites]
    exact List.prefix_append _ _
  have hheard := (endpoints c).heard_begins parse hfits hwritten
  have hstreams : (mid.setClient c { later with sock }).stream jansson (fun text => parse text.1) c =
      later.sent.map (Outgoing.message jansson fun text => parse text.1) := by
    rw [stream_eq (setClient_self hlater)]
  have hgrows : (endpoints c).requests platform
      ((endpoints c).heard parse clnt.sock.ws.isSome (traffic.written c)) <+:
      (endpoints c).requests platform
        ((mid.setClient c { later with sock }).stream jansson (fun text => parse text.1) c) := by
    obtain ⟨more, hmore⟩ := hheard.trans (hbefore.sent.map
      (Outgoing.message jansson fun text => parse text.1))
    rw [hstreams, ← hmore]
    exact (endpoints c).requests_grow platform _ more
  -- the message is the next one in the bytes
  obtain ⟨stream', hlayered', hdrain'⟩ := hmid.reads c (later.view mid.content)
    (by rw [view_peers, hlater, Option.map_some])
  have hsame : stream' = stream := layered_unique hlayered' hlayered (by
    have hsome : (later.view mid.content).ws.isSome = later.sock.ws.isSome := Option.isSome_map
    exact hsome.trans (hbefore.ws.trans hws.symm))
  obtain ⟨done, todo, rest, rfl, _, _, hdrain⟩ := Framing.drain_stream
    (Socket.readMessage_progresses jansson) (readMessage_nil jansson)
    (fun m _ => reads_encode m) hstream
  have hrbuf : (later.view mid.content).rbuf = later.sock.rbuf.toList := rfl
  rw [hsame, hdrain, hrbuf, Framing.drain_item (Socket.readMessage_progresses jansson) hitem,
    Prod.mk.injEq] at hdrain'
  have hprefix : handled history' c ++ [message] <+: (endpoints c).requests platform
      ((mid.setClient c { later with sock }).stream jansson (fun text => parse text.1) c) := by
    refine List.IsPrefix.trans ?_ (hrequests.trans hgrows)
    rw [List.map_append, hdrain'.1, List.append_assoc]
    exact (List.prefix_append_right_inj _).mpr
      ((List.singleton_prefix_cons_iff.mpr rfl).trans (List.prefix_append _ _))
  obtain ⟨others, hothers⟩ := hprefix
  have hnext : ((endpoints c).requests platform
      ((mid.setClient c { later with sock }).stream jansson (fun text => parse text.1) c))[
      (handled (history' ++ [(mid, .transfer c sock)]) c).length]? =
      some ⟨message.jsondata, message.bindata⟩ := by
    rw [handled_transfer, ← hothers, List.append_assoc, List.getElem?_append_right le_rfl,
      Nat.sub_self]
    rfl
  exact hnext

end Server

open Server

/-- The requests of the client, which the server can parse. -/
abbrev joinJansson : Jansson Json := compactJansson
  [(((compactJansson []).dumps (Request.handshake "pickle").jsondata).1,
      (Request.handshake "pickle").jsondata),
    (((compactJansson []).dumps (Request.join ["g"]).jsondata).1, (Request.join ["g"]).jsondata)]

def handshakeSent : Sendable joinJansson where
  jsonstr := joinJansson.dumps (Request.handshake "pickle").jsondata
  bindata := []
  jsondata := (Request.handshake "pickle").jsondata
  accepted := by decide +kernel
  short := by decide +kernel

def joinSent : Sendable joinJansson where
  jsonstr := joinJansson.dumps (Request.join ["g"]).jsondata
  bindata := []
  jsondata := (Request.join ["g"]).jsondata
  accepted := by decide +kernel
  short := by decide +kernel

def replyParse (text : Bytes) : Json :=
  ([handshakeReply "pickle" false].find? fun value => value.compact = text).getD .null

end Dime
