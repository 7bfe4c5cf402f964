import Dime.Server.Link

/-!
# WebSocket framing

A stream of messages that a peer cuts into masked frames, and the network into
chunks, comes out of the two inbuffers as it was sent; and the frame header of a
pushed message announces its length.
-/

namespace Dime

/-- The three encodings of the length of a payload. -/
inductive LengthForm where
  | short
  | medium
  | long
  deriving DecidableEq, Repr

namespace LengthForm

/-- The low seven bits of the second byte. -/
def bits (n : Nat) : LengthForm → Nat
  | short => n
  | medium => 126
  | long => 127

/-- The bytes that follow the second. -/
def extended (n : Nat) : LengthForm → Bytes
  | short => []
  | medium => BigEndian.encode 2 n
  | long => BigEndian.encode 8 n

/-- The lengths that can be encoded. Those of `long` leave room for the header in
the size of an object. -/
def limit : LengthForm → Nat
  | short => 126
  | medium => 2 ^ 16
  | long => 2 ^ 64 - 14

/-- The length of a header with its mask. -/
def hdrLen : LengthForm → Nat
  | short => 6
  | medium => 8
  | long => 14

/-- The header of a masked frame. -/
def head (form : LengthForm) (n : Nat) (first : UInt8) (mask : Bytes) : Bytes :=
  first :: (0x80 ||| UInt8.ofNat (form.bits n)) :: (form.extended n ++ mask)

@[simp] theorem bits_medium (n : Nat) : medium.bits n = 126 := rfl

@[simp] theorem bits_long (n : Nat) : long.bits n = 127 := rfl

theorem masked_bits : ∀ k < 128, ((0x80 ||| UInt8.ofNat k) &&& 0x7F).toNat = k ∧
    (0x80 ||| UInt8.ofNat k) &&& 0x80 ≠ 0 := by decide

theorem bits_lt {form : LengthForm} {n : Nat} (hn : n < form.limit) : form.bits n < 128 := by
  cases form with
  | short => exact lt_trans hn (by decide)
  | medium => exact show 126 < 128 by decide
  | long => exact show 127 < 128 by decide

theorem length_head (form : LengthForm) (n : Nat) (first : UInt8) {mask : Bytes}
    (hmask : mask.length = 4) : (form.head n first mask).length = form.hdrLen := by
  cases form <;> simp [head, extended, hdrLen, hmask]

/-- The fields of a header, among the bytes that are peeked at. -/
theorem fields_head (form : LengthForm) (n : Nat) (first : UInt8) {mask : Bytes}
    (hmask : mask.length = 4) (rest : Bytes) :
    (((form.head n first mask ++ rest).take 14).drop 2).take (form.extended n).length =
      form.extended n ∧
    (((form.head n first mask ++ rest).take 14).drop (2 + (form.extended n).length)).take 4 =
      mask ∧
    form.hdrLen ≤ ((form.head n first mask ++ rest).take 14).length := by
  have hle : (form.extended n).length ≤ 8 := by cases form <;> simp [extended]
  have hpeek : (form.head n first mask ++ rest).take 14 =
      first :: (0x80 ||| UInt8.ofNat (form.bits n)) ::
        (form.extended n ++ (mask ++ rest)).take 12 := by
    simp [head]
  rw [hpeek]
  refine ⟨?_, ?_, ?_⟩
  · rw [List.drop_succ_cons, List.drop_succ_cons, List.drop_zero, List.take_take,
      Nat.min_eq_left (by omega)]
    exact List.take_left' rfl
  · rw [Nat.add_comm, List.drop_succ_cons, List.drop_succ_cons, List.drop_take,
      List.drop_left' rfl, List.take_take, Nat.min_eq_left (by omega)]
    exact List.take_left' hmask
  · have hlength := length_head form n first hmask
    rw [head, List.length_cons, List.length_cons, List.length_append] at hlength
    simp only [List.length_cons, List.length_take, List.length_append]
    omega

/-- A complete header is read as it was written, whatever follows it. -/
theorem frameHeader_head {form : LengthForm} {n : Nat} (hn : n < form.limit) (first : UInt8)
    {mask : Bytes} (hmask : mask.length = 4) (rest : Bytes) :
    Socket.frameHeader ((form.head n first mask ++ rest).take 14) =
      some (form.hdrLen, n, mask) ∧
    ((form.head n first mask ++ rest).take 14).getD 1 0 &&& 0x80 ≠ 0 := by
  obtain ⟨hlen, hbit⟩ := masked_bits _ (bits_lt hn)
  obtain ⟨hextended, hmasked, hlong⟩ := fields_head form n first hmask rest
  have hsecond : ((form.head n first mask ++ rest).take 14).getD 1 0 =
      0x80 ||| UInt8.ofNat (form.bits n) := rfl
  refine ⟨?_, by rw [hsecond]; exact hbit⟩
  rw [Socket.frameHeader, hsecond, hlen]
  cases form with
  | short =>
      rw [if_pos ⟨hn, hlong⟩]
      exact congrArg (fun mask => some (6, n, mask)) hmasked
  | medium =>
      have hdecode : BigEndian.decode (BigEndian.encode 2 n) = n :=
        BigEndian.decode_encode_of_lt (lt_of_lt_of_eq hn (by decide))
      rw [if_neg fun hshort => absurd hshort.1 (lt_irrefl 126), if_pos ⟨rfl, hlong⟩]
      simp only [extended, BigEndian.length_encode] at hextended hmasked
      rw [hextended, hmasked, hdecode]
      rfl
  | long =>
      have hdecode : BigEndian.decode (BigEndian.encode 8 n) = n :=
        BigEndian.decode_encode_of_lt (lt_of_lt_of_le hn (by decide))
      have hall : ((head long n first mask ++ rest).take 14).length = 14 :=
        le_antisymm (List.length_take_le _ _) hlong
      rw [bits_long, if_neg fun hshort => absurd hshort.1 (by decide),
        if_neg fun hmedium => absurd hmedium.1 (by decide), if_pos ⟨rfl, hall⟩]
      simp only [extended, BigEndian.length_encode] at hextended hmasked
      rw [hextended, hmasked, hdecode]
      rfl

/-- A header that is cut short is not read as any. -/
theorem frameHeader_cut {form : LengthForm} {n : Nat} (hn : n < form.limit) {first : UInt8}
    {mask : Bytes} {front : Bytes} (hfront : front <+: form.head n first mask)
    (hcut : front.length < form.hdrLen) : Socket.frameHeader front = none := by
  have hlong : front.length < 14 := lt_of_lt_of_le hcut (by cases form <;> decide)
  match front, hfront with
  | [], _ => rfl
  | [_], _ => simp [Socket.frameHeader]
  | first' :: second :: rest, hfront =>
      obtain ⟨tail, htail⟩ := hfront
      rw [head, List.cons_append, List.cons_append] at htail
      obtain ⟨_, hcons⟩ := List.cons.inj htail
      obtain ⟨rfl, _⟩ := List.cons.inj hcons
      have hlen := (masked_bits _ (bits_lt hn)).1
      have hsecond : (first' :: (0x80 ||| UInt8.ofNat (form.bits n)) :: rest).getD 1 0 =
        0x80 ||| UInt8.ofNat (form.bits n) := rfl
      rw [Socket.frameHeader, hsecond, hlen]
      cases form with
      | short =>
          have hn' : n < 126 := hn
          have hcut' : (first' :: (0x80 ||| UInt8.ofNat (bits n short)) :: rest).length < 6 := hcut
          rw [if_neg (by omega), if_neg (fun hmedium => by
            have : n = 126 := hmedium.1
            omega), if_neg (fun hlong => by
            have : n = 127 := hlong.1
            omega)]
      | medium =>
          have hcut' : (first' :: (0x80 ||| UInt8.ofNat 126) :: rest).length < 8 := hcut
          rw [bits_medium, if_neg fun hshort => absurd hshort.1 (lt_irrefl 126),
            if_neg (fun hmedium => absurd hmedium.2 (by omega)),
            if_neg fun hlong => absurd hlong.1 (by decide)]
      | long =>
          have hcut' : (first' :: (0x80 ||| UInt8.ofNat 127) :: rest).length < 14 := hcut
          rw [bits_long, if_neg fun hshort => absurd hshort.1 (by decide),
            if_neg fun hmedium => absurd hmedium.1 (by decide),
            if_neg (fun hall => absurd hall.2 (by omega))]

end LengthForm

/-! ## Masked frames -/

theorem length_unmask (mask frame : Bytes) : (Socket.unmask mask frame).length = frame.length :=
  List.length_mapIdx

/-- Masking twice changes nothing. -/
theorem unmask_unmask (mask frame : Bytes) :
    Socket.unmask mask (Socket.unmask mask frame) = frame := by
  apply List.ext_getElem
  · rw [length_unmask, length_unmask]
  · intro i _ _
    simp [Socket.unmask, UInt8.xor_assoc]

/-- A masked frame of a peer; its payload is that before the masking. -/
structure Frame where
  first : UInt8
  form : LengthForm
  mask : Bytes
  payload : Bytes
  mask_len : mask.length = 4
  fits : payload.length < form.limit

namespace Frame

variable (frame : Frame)

def head : Bytes := frame.form.head frame.payload.length frame.first frame.mask

def encode : Bytes := frame.head ++ Socket.unmask frame.mask frame.payload

theorem length_encode : frame.encode.length = frame.form.hdrLen + frame.payload.length := by
  rw [encode, List.length_append, length_unmask, head, LengthForm.length_head _ _ _ frame.mask_len]

/-- The size of a frame does not wrap. -/
theorem size_lt : frame.form.hdrLen + frame.payload.length < 2 ^ 64 := by
  have hfits := frame.fits
  cases hform : frame.form with
  | short =>
      rw [hform] at hfits
      exact lt_trans (Nat.add_lt_add_left hfits _) (by decide)
  | medium =>
      rw [hform] at hfits
      exact lt_trans (Nat.add_lt_add_left hfits _) (by decide)
  | long =>
      rw [hform] at hfits
      exact lt_of_lt_of_le (Nat.add_lt_add_left hfits _) (by decide)

/-- The frame loop reads a frame back, and waits while it is not complete. -/
theorem reads_frame : Framing.Reads encode payload readFrame frame := by
  have hsize := frame.size_lt
  have hlength := frame.length_encode
  have hheadLength : frame.head.length = frame.form.hdrLen :=
    LengthForm.length_head _ _ _ frame.mask_len
  refine ⟨?_, fun rest => ?_, fun front hfront hne => ?_⟩
  · exact List.cons_ne_nil _ _
  · obtain ⟨hheader, hmask⟩ := LengthForm.frameHeader_head frame.fits frame.first frame.mask_len
      (Socket.unmask frame.mask frame.payload ++ rest)
    rw [readFrame, encode, List.append_assoc, head, hheader]
    dsimp only
    have hpayload : ((frame.head ++ (Socket.unmask frame.mask frame.payload ++ rest)).take
        (frame.form.hdrLen + frame.payload.length)).drop frame.form.hdrLen =
        Socket.unmask frame.mask frame.payload := by
      rw [← List.append_assoc, ← encode, List.take_left' hlength, encode,
        List.drop_left' hheadLength]
    rw [if_neg hmask, Nat.mod_eq_of_lt hsize, if_pos, if_neg (lt_irrefl _), ← head, hpayload,
      unmask_unmask, ← encode, hlength]
    rw [← head, ← List.append_assoc, List.length_append, ← encode, hlength]
    omega
  · have hcut : front.length < frame.encode.length :=
      lt_of_le_of_ne hfront.length_le fun heq => hne (hfront.eq_of_length heq)
    rw [readFrame]
    rcases Nat.lt_or_ge front.length frame.form.hdrLen with hshort | hlong
    · have hshort' : front.length < 14 :=
        lt_of_lt_of_le hshort (by cases frame.form <;> decide)
      have hfront' : front <+: frame.head :=
        List.prefix_of_prefix_length_le hfront (List.prefix_append _ _)
          (by rw [hheadLength]; exact hshort.le)
      rw [List.take_of_length_le hshort'.le, LengthForm.frameHeader_cut frame.fits hfront' hshort]
    · obtain ⟨rest, rfl⟩ : frame.head <+: front :=
        List.prefix_of_prefix_length_le (List.prefix_append _ _) hfront
          (by rw [hheadLength]; exact hlong)
      obtain ⟨hheader, hmask⟩ := LengthForm.frameHeader_head frame.fits frame.first frame.mask_len
        rest
      rw [head, hheader]
      dsimp only
      rw [if_neg hmask, Nat.mod_eq_of_lt hsize, if_neg]
      rw [← head]
      omega

end Frame

/-! ## Receiving -/

section Receiving

variable {J : Type} {jansson : Jansson J}

namespace Socket

/-- Bytes that arrive in the frame layer. -/
def feed (sock : Socket) (chunk : Bytes) : Socket :=
  { sock with ws := sock.ws.map fun ws => (ws.write true chunk).2 }

/-- What both inbuffers hold. -/
def buffered (sock : Socket) : Nat := sock.rbuf.len + sock.ws.elim 0 Ring.len

/-- Chunks that arrive one after another, each with the pops that follow it. -/
def feedAll (jansson : Jansson J) : List Bytes → Socket →
    Except Fault (List (PopCall J) × Socket)
  | [], sock => .ok ([], sock)
  | chunk :: rest, sock =>
      match popAll jansson ((sock.feed chunk).buffered + 1) (sock.feed chunk) with
      | .error fault => .error fault
      | .ok (calls, sock) =>
          (feedAll jansson rest sock).map fun (calls', sock) => (calls ++ calls', sock)

/-- A fresh WebSocket connection. -/
def websocket (fd : Nat) : Socket :=
  { fd, rbuf := .empty, wbuf := .empty, ws := some .empty, err := "" }

/-- The first pop unwraps all complete frames. -/
theorem pop_frames {sock : Socket} {ws : Ring} (hws : sock.ws = some ws) {payloads : List Bytes}
    {rest : Bytes} (hdrain : Framing.drain readFrame ws.toList = (payloads, some rest)) :
    ∃ rbuf ws', sock.pop jansson .succeed =
        ({ sock with rbuf, ws := some ws' } : Socket).pop jansson .succeed ∧
      ({ sock with rbuf, ws := some ws' } : Socket).Unwrapped ∧ ws'.toList = rest ∧
      rbuf.toList = sock.rbuf.toList ++ payloads.flatten := by
  rcases popFrames_spec (ws.len + 1) 0 sock ws (by rw [Ring.length_toList]; omega) with
    ⟨payloads', rbuf, ws', hdrain', hrun, hrbuf, hmore⟩ | ⟨hbad, _⟩
  · rw [hdrain] at hdrain'
    obtain ⟨rfl, hrest⟩ := Prod.mk.inj hdrain'
    have hunwrapped : ({ sock with rbuf, ws := some ws' } : Socket).Unwrapped := by
      intro ws'' hsame
      cases hsame
      exact hmore
    refine ⟨rbuf, ws', ?_, hunwrapped, (Option.some.inj hrest).symm, hrbuf⟩
    rw [pop_unwrapped jansson hunwrapped, pop, hws]
    dsimp only
    rw [hrun]
  · rw [hdrain] at hbad
    cases hbad

/-- Sockets that pop alike go through the same pops. -/
theorem popAll_congr {sock sock' last : Socket} {calls : List (PopCall J)} {fuel : Nat}
    (hpop : sock.pop jansson .succeed = sock'.pop jansson .succeed)
    (hrun : popAll jansson fuel sock' = .ok (calls, last)) :
    ∃ calls', popAll jansson fuel sock = .ok (calls', last) ∧
      calls'.map PopCall.ret = calls.map PopCall.ret ∧
      calls'.map PopCall.message = calls.map PopCall.message := by
  cases fuel with
  | zero => cases hrun
  | succ fuel =>
      rw [popAll] at hrun ⊢
      rw [hpop]
      split at hrun
      next => cases hrun
      next ret message next _ =>
        dsimp only
        split at hrun
        next hpos =>
          rw [if_pos hpos]
          cases hmore : popAll jansson fuel next with
          | error fault =>
              rw [hmore] at hrun
              cases hrun
          | ok result =>
              rw [hmore] at hrun
              cases hrun
              exact ⟨_, rfl, rfl, rfl⟩
        next hpos =>
          rw [if_neg hpos]
          cases hrun
          exact ⟨_, rfl, rfl, rfl⟩

end Socket

/-- Frames are longer than their payloads. -/
theorem payloads_length_le (frames : List Frame) :
    (frames.map Frame.payload).flatten.length ≤ (Framing.stream Frame.encode frames).length := by
  induction frames with
  | nil => exact le_rfl
  | cons frame frames ih =>
      have hlength := frame.length_encode
      rw [List.map_cons, List.flatten_cons, Framing.stream_cons, List.length_append,
        List.length_append]
      omega

/-- What has become of the bytes that arrived: the complete frames among them have been
unwrapped, and the complete messages among their payloads popped. -/
structure Received (ms : List (Sendable jansson)) (frames : List Frame) (bytes : Bytes)
    (calls : List (PopCall J)) (sock : Socket) (complete todo : List Frame)
    (popped rest : List (Sendable jansson)) (ws : Ring) : Prop where
  sock_ws : sock.ws = some ws
  frames_eq : frames = complete ++ todo
  bytes_eq : bytes = Framing.stream Frame.encode complete ++ ws.toList
  frame_cut : Framing.Rest Frame.encode ws.toList todo
  ms_eq : ms = popped ++ rest
  payloads_eq : (complete.map Frame.payload).flatten =
    Framing.stream Sendable.encode popped ++ sock.rbuf.toList
  message_cut : Framing.Rest Sendable.encode sock.rbuf.toList rest
  messages_eq : calls.filterMap PopCall.message = popped.map Sendable.value
  succeeds : ∀ ret ∈ calls.map PopCall.ret, 0 ≤ ret

variable {ms popped rest : List (Sendable jansson)} {frames complete todo : List Frame}
  {bytes chunk : Bytes} {calls : List (PopCall J)} {sock : Socket} {ws : Ring}

/-- A chunk, with the pops that follow it. -/
theorem Received.feed (h : Received ms frames bytes calls sock complete todo popped rest ws)
    (hall : (frames.map Frame.payload).flatten = Framing.stream Sendable.encode ms)
    (hchunk : bytes ++ chunk <+: Framing.stream Frame.encode frames) :
    ∃ calls' sock' complete' todo' popped' rest' ws',
      popAll jansson ((sock.feed chunk).buffered + 1) (sock.feed chunk) = .ok (calls', sock') ∧
      Received ms frames (bytes ++ chunk) (calls ++ calls') sock' complete' todo' popped' rest'
        ws' := by
  have hws : (sock.feed chunk).ws = some (ws.write true chunk).2 := by
    rw [Socket.feed, h.sock_ws]
    rfl
  have hfed : (ws.write true chunk).2.toList = ws.toList ++ chunk := Ring.write_true_toList _ _
  have hfront : ws.toList ++ chunk <+: Framing.stream Frame.encode todo := by
    rw [h.bytes_eq, h.frames_eq, Framing.stream_append, List.append_assoc] at hchunk
    exact (List.prefix_append_right_inj _).mp hchunk
  obtain ⟨done, todo', cut, htodo, hcut, hcutRest, hdrain⟩ := Framing.drain_stream
    readFrame_progresses rfl (fun frame _ => frame.reads_frame) hfront
  rw [← hfed] at hdrain
  obtain ⟨rbuf, ws', hpop, hunwrapped, hws', hrbuf⟩ := Socket.pop_frames hws hdrain
  -- the payloads continue the messages that the inbuffer holds the beginning of
  have hpayloads : ((complete ++ done).map Frame.payload).flatten =
      Framing.stream Sendable.encode popped ++ rbuf.toList := by
    rw [List.map_append, List.flatten_append, h.payloads_eq, hrbuf, List.append_assoc]
    rfl
  have hrest : rbuf.toList <+: Framing.stream Sendable.encode rest := by
    rw [h.frames_eq, htodo, ← List.append_assoc, List.map_append, List.flatten_append, hpayloads,
      h.ms_eq, Framing.stream_append, List.append_assoc] at hall
    exact ⟨_, List.append_cancel_left hall⟩
  have hfuel : rbuf.toList.length < (sock.feed chunk).buffered + 1 := by
    have hle := payloads_length_le done
    have hlength := congrArg List.length hcut
    rw [← hfed, List.length_append, Ring.length_toList] at hlength
    rw [hrbuf, List.length_append, Ring.length_toList, Socket.buffered, hws, Option.elim_some]
    omega
  obtain ⟨calls', rbuf', popped', rest', hrun, hsplit, hvalues, hstream, hmessageCut, hexact⟩ :=
    popAll_stream rest _ _ hunwrapped hrest hfuel
  obtain ⟨calls'', hrun', hrets, hmessages⟩ := Socket.popAll_congr hpop hrun
  refine ⟨calls'', _, complete ++ done, todo', popped ++ popped', rest', ws', hrun', rfl, ?_, ?_,
    ?_, ?_, ?_, hmessageCut, ?_, ?_⟩
  · rw [h.frames_eq, htodo, List.append_assoc]
  · rw [h.bytes_eq, Framing.stream_append, List.append_assoc, List.append_assoc, hcut, hws']
  · rw [hws']
    exact hcutRest
  · rw [h.ms_eq, hsplit, List.append_assoc]
  · rw [hpayloads, hstream, Framing.stream_append, List.append_assoc]
  · have hsame : calls''.filterMap PopCall.message = calls'.filterMap PopCall.message := by
      have hboth := congrArg (List.filterMap id) hmessages
      rwa [List.filterMap_map, List.filterMap_map, Function.id_comp] at hboth
    rw [List.filterMap_append, h.messages_eq, hsame, hvalues, List.map_append]
  · intro ret hret
    rw [List.map_append, hrets] at hret
    rcases List.mem_append.mp hret with hold | hnew
    · exact h.succeeds ret hold
    · obtain ⟨call, hcall, rfl⟩ := List.mem_map.mp hnew
      exact (hexact call hcall).1

/-- All chunks. The induction is on the chunks that are still to come. -/
theorem Received.feedAll (h : Received ms frames bytes calls sock complete todo popped rest ws)
    (hall : (frames.map Frame.payload).flatten = Framing.stream Sendable.encode ms)
    (chunks : List Bytes)
    (hchunks : bytes ++ chunks.flatten <+: Framing.stream Frame.encode frames) :
    ∃ calls' sock' complete' todo' popped' rest' ws',
      Socket.feedAll jansson chunks sock = .ok (calls', sock') ∧
      Received ms frames (bytes ++ chunks.flatten) (calls ++ calls') sock' complete' todo' popped'
        rest' ws' := by
  induction chunks generalizing bytes calls sock complete todo popped rest ws with
  | nil =>
      refine ⟨[], sock, complete, todo, popped, rest, ws, rfl, ?_⟩
      rw [List.flatten_nil, List.append_nil, List.append_nil]
      exact h
  | cons chunk chunks ih =>
      rw [List.flatten_cons, ← List.append_assoc] at hchunks ⊢
      obtain ⟨calls₁, sock₁, complete₁, todo₁, popped₁, rest₁, ws₁, hrun₁, h₁⟩ :=
        h.feed hall ((List.prefix_append _ _).trans hchunks)
      obtain ⟨calls₂, sock₂, complete₂, todo₂, popped₂, rest₂, ws₂, hrun₂, h₂⟩ := ih h₁ hchunks
      refine ⟨calls₁ ++ calls₂, sock₂, complete₂, todo₂, popped₂, rest₂, ws₂, ?_, ?_⟩
      · rw [Socket.feedAll, hrun₁]
        dsimp only
        rw [hrun₂]
        rfl
      · rw [← List.append_assoc]
        exact h₂

theorem received_start (ms : List (Sendable jansson)) (frames : List Frame) (fd : Nat) :
    Received ms frames [] [] (Socket.websocket fd) [] frames [] ms .empty where
  sock_ws := rfl
  frames_eq := rfl
  bytes_eq := rfl
  frame_cut := .inl rfl
  ms_eq := rfl
  payloads_eq := rfl
  message_cut := .inl rfl
  messages_eq := rfl
  succeeds _ hret := absurd hret List.not_mem_nil

/-- Once everything has arrived, every message has been popped. -/
theorem Received.all (h : Received ms frames bytes calls sock complete todo popped rest ws)
    (hall : (frames.map Frame.payload).flatten = Framing.stream Sendable.encode ms)
    (hbytes : bytes = Framing.stream Frame.encode frames) :
    calls.filterMap PopCall.message = ms.map Sendable.value ∧ sock.rbuf.toList = [] := by
  have hcut : ws.toList = Framing.stream Frame.encode todo := by
    have heq := h.bytes_eq
    rw [hbytes, h.frames_eq, Framing.stream_append] at heq
    exact (List.append_cancel_left heq).symm
  have htodo : todo = [] := by
    have hnil := Framing.rest_eq_nil h.frame_cut hcut
    cases todo with
    | nil => rfl
    | cons frame _ =>
        rw [hnil, Framing.stream_cons] at hcut
        exact absurd (List.append_eq_nil_iff.mp hcut.symm).1 frame.reads_frame.pos
  have hrbuf : sock.rbuf.toList = Framing.stream Sendable.encode rest := by
    have heq := h.payloads_eq
    rw [h.frames_eq, htodo, List.append_nil] at hall
    rw [hall, h.ms_eq, Framing.stream_append] at heq
    exact (List.append_cancel_left heq).symm
  have hnil := Framing.rest_eq_nil h.message_cut hrbuf
  have hrest : rest = [] := by
    cases rest with
    | nil => rfl
    | cons m _ =>
        rw [hnil, Framing.stream_cons] at hrbuf
        exact absurd (List.append_eq_nil_iff.mp hrbuf.symm).1 (reads_encode m).pos
  refine ⟨?_, hnil⟩
  rw [h.messages_eq, h.ms_eq, hrest, List.append_nil]

end Receiving

/-! ## The header of a pushed message -/

/-- The header of an unmasked frame with the mask bit set and the mask behind it. -/
def addMask (mask : Bytes) : Bytes → Bytes
  | first :: second :: extended => first :: (0x80 ||| second) :: (extended ++ mask)
  | short => short

/-- With a mask, the header of a pushed message is one of the three headers of a peer. -/
theorem addMask_wsHeader {n : Nat} (hn : n < 2 ^ 63) (mask : Bytes) :
    ∃ form : LengthForm, n < form.limit ∧ (Socket.wsHeader n).length + 4 = form.hdrLen ∧
      addMask mask (Socket.wsHeader n) = form.head n 0x82 mask := by
  rw [Socket.wsHeader]
  split
  next hshort => exact ⟨.short, hshort, rfl, rfl⟩
  next =>
    split
    next hmedium => exact ⟨.medium, hmedium, by simp [LengthForm.hdrLen], rfl⟩
    next => exact ⟨.long, lt_of_lt_of_le hn (by decide), by simp [LengthForm.hdrLen], rfl⟩

/-- The frame header of a message announces the length of what follows it, as
`dime_socket_pop` would read it with a mask. -/
def HeaderReadsBack (sock : Socket) (jsonstr : CString) (bindata : Bytes) : Prop :=
  ∃ ret sock' hdr payload, sock.pushStr (fun _ => true) jsonstr bindata = (ret, sock') ∧
    sock'.wbuf.toList = sock.wbuf.toList ++ (hdr ++ payload) ∧
    payload.length = 12 + jsonstr.length + bindata.length ∧
    ∀ mask rest : Bytes, mask.length = 4 →
      Socket.frameHeader ((addMask mask hdr ++ rest).take 14) =
        some (hdr.length + 4, payload.length, mask)

theorem headerReadsBack {sock : Socket} (hws : sock.ws.isSome) (jsonstr : CString)
    (bindata : Bytes) (hshort : 12 + jsonstr.length + bindata.length < 2 ^ 63) :
    HeaderReadsBack sock jsonstr bindata := by
  obtain ⟨ret, wbuf, hrun, _, hwbuf⟩ := sock.pushStr_succeed jsonstr bindata
  rw [if_pos hws] at hwbuf
  have hlength : (Socket.header jsonstr.length bindata.length ++ jsonstr.1 ++ bindata).length =
      12 + jsonstr.length + bindata.length := by
    simp only [Socket.header, magic, CString.length, List.length_append, BigEndian.length_encode,
      List.length_cons, List.length_nil]
  refine ⟨ret, _, _, _, hrun, hwbuf, hlength, fun mask rest hmask => ?_⟩
  obtain ⟨form, hlimit, hhdr, hhead⟩ := addMask_wsHeader hshort mask
  rw [hlength, hhead, hhdr]
  exact (LengthForm.frameHeader_head hlimit 0x82 hmask rest).1

/-- `{}` with one byte of binary data. -/
def bracesMessage : Sendable braces :=
  ⟨braces.dumps (), [7], (), rfl, by decide⟩

/-- The message in two frames of different forms, with different masks. -/
def bracesFrames : List Frame :=
  [⟨0x02, .short, [1, 2, 3, 4], bracesMessage.encode.take 5, rfl, by decide⟩,
    ⟨0x80, .medium, [5, 6, 7, 8], bracesMessage.encode.drop 5, rfl, by decide⟩]

end Dime
