import Dime.Server.WebSocket

/-!
# The bounds of the frame loop

What one iteration of the frame loop of `dime_socket_pop` does to its buffers, for every
length that a peer may declare.
-/

namespace Dime

namespace LengthForm

theorem second_masked (byte : UInt8) (h : byte &&& 0x80 ≠ 0) :
    byte = 0x80 ||| UInt8.ofNat (byte &&& 0x7F).toNat := by
  have hall : ∀ k < 256, UInt8.ofNat k &&& 0x80 ≠ 0 →
      UInt8.ofNat k = 0x80 ||| UInt8.ofNat (UInt8.ofNat k &&& 0x7F).toNat := by decide +kernel
  have hbyte := hall byte.toNat byte.toNat_lt
  rw [UInt8.ofNat_toNat] at hbyte
  exact hbyte h

/-- A header whose fields are there begins what arrived. -/
theorem head_prefix (form : LengthForm) {n : Nat} (first : UInt8) {second : UInt8} {rest : Bytes}
    (hsecond : second = 0x80 ||| UInt8.ofNat (form.bits n))
    (hextended : form.extended n = (rest.take 12).take (form.hdrLen - 6))
    (hlong : form.hdrLen ≤ (rest.take 12).length + 2) :
    (((rest.take 12).drop (form.hdrLen - 6)).take 4).length = 4 ∧
      form.head n first (((rest.take 12).drop (form.hdrLen - 6)).take 4) <+:
        first :: second :: rest := by
  have hsix : 6 ≤ form.hdrLen := by cases form <;> decide
  refine ⟨?_, ?_⟩
  · rw [List.length_take, List.length_drop]
    omega
  · rw [head, ← hsecond, hextended, ← List.take_add]
    rw [List.prefix_cons_inj, List.prefix_cons_inj]
    exact (List.take_prefix _ _).trans (List.take_prefix _ _)

/-- What is read as a masked header is one, unless the size of the frame wraps. -/
theorem head_of_frameHeader {bytes : Bytes} {hdrLen n : Nat} {mask : Bytes}
    (h : Socket.frameHeader (bytes.take 14) = some (hdrLen, n, mask))
    (hbit : (bytes.take 14).getD 1 0 &&& 0x80 ≠ 0) :
    ∃ (form : LengthForm) (first : UInt8), form.hdrLen = hdrLen ∧ mask.length = 4 ∧
      (n < form.limit ∨ 2 ^ 64 ≤ hdrLen + n) ∧ form.head n first mask <+: bytes := by
  cases bytes with
  | nil => exact absurd (by decide) hbit
  | cons first bytes =>
  cases bytes with
  | nil => exact absurd (show (0 : UInt8) &&& 0x80 = 0 by decide) hbit
  | cons second rest =>
      have hpeek : (first :: second :: rest).take 14 = first :: second :: rest.take 12 := rfl
      have hsecond : (first :: second :: rest.take 12).getD 1 0 = second := rfl
      rw [hpeek, hsecond] at hbit
      rw [hpeek, Socket.frameHeader, hsecond] at h
      have hmasked := second_masked second hbit
      split at h
      next hlen =>
        cases h
        obtain ⟨hmask, hpart⟩ := head_prefix .short first hmasked rfl hlen.2
        exact ⟨.short, first, rfl, hmask, .inl hlen.1, hpart⟩
      next =>
        split at h
        next hlen =>
          cases h
          rw [hlen.1] at hmasked
          have htwo : ((rest.take 12).take 2).length = 2 := List.length_take_of_le (by
            have := hlen.2
            rw [List.length_cons, List.length_cons] at this
            omega)
          have hlt := BigEndian.decode_lt ((rest.take 12).take 2)
          have hencode := BigEndian.encode_decode ((rest.take 12).take 2)
          rw [htwo] at hlt hencode
          obtain ⟨hmask, hpart⟩ := head_prefix .medium first hmasked hencode hlen.2
          exact ⟨.medium, first, rfl, hmask, .inl hlt, hpart⟩
        next =>
          split at h
          next hlen =>
            cases h
            rw [hlen.1] at hmasked
            have height : ((rest.take 12).take 8).length = 8 := List.length_take_of_le (by
              have := hlen.2
              rw [List.length_cons, List.length_cons] at this
              omega)
            have hencode := BigEndian.encode_decode ((rest.take 12).take 8)
            rw [height] at hencode
            obtain ⟨hmask, hpart⟩ := head_prefix .long first hmasked hencode hlen.2.ge
            refine ⟨.long, first, rfl, hmask, ?_, hpart⟩
            rcases Nat.lt_or_ge (BigEndian.decode ((rest.take 12).take 8)) (2 ^ 64 - 14) with hlt | hge
            · exact .inl hlt
            · exact .inr (Nat.sub_le_iff_le_add'.mp hge)
          next => cases h

end LengthForm

/-- Complete frames begin with a header and are not longer than what arrived. -/
theorem Frame.exists_of_frameHeader {bytes : Bytes} {hdrLen n : Nat} {mask : Bytes}
    (h : Socket.frameHeader (bytes.take 14) = some (hdrLen, n, mask))
    (hbit : (bytes.take 14).getD 1 0 &&& 0x80 ≠ 0) (hcomplete : hdrLen + n ≤ bytes.length)
    (hsize : hdrLen + n < 2 ^ 64) :
    ∃ frame : Frame, bytes = frame.encode ++ bytes.drop (hdrLen + n) := by
  obtain ⟨form, first, rfl, hmask, hlimit, rest, hhead⟩ := LengthForm.head_of_frameHeader h hbit
  have hlimit' : n < form.limit := hlimit.resolve_right (Nat.not_le.mpr hsize)
  have hheadLength := LengthForm.length_head form n first hmask
  rw [← hhead, List.length_append, hheadLength] at hcomplete
  have hpayload : (Socket.unmask mask (rest.take n)).length = n := by
    rw [length_unmask]
    exact List.length_take_of_le (by omega)
  have hencode : form.head (Socket.unmask mask (rest.take n)).length first mask ++
      Socket.unmask mask (Socket.unmask mask (rest.take n)) = form.head n first mask ++ rest.take n := by
    rw [hpayload, unmask_unmask]
  refine ⟨⟨first, form, mask, Socket.unmask mask (rest.take n), hmask, by rw [hpayload]; exact hlimit'⟩, ?_⟩
  refine Eq.trans ?_ (congrArg (· ++ bytes.drop (form.hdrLen + n)) hencode.symm)
  rw [← hhead, List.append_assoc, ← hheadLength, List.drop_length_add_append, List.take_append_drop]

namespace Socket

/-- What one iteration of the frame loop comes to: the end of the loop, or a frame that it
has taken. -/
inductive Round where
  | stop (ok : Bool) (sock : Socket)
  | next (hdrLen frameLen : Nat) (sock : Socket) (ws : Ring)

/-- One iteration of the frame loop. -/
def popFrame (alloc : PopAlloc) (i : Nat) (sock : Socket) (ws : Ring) : Except Fault Round :=
  let sock := { sock with ws := some ws }
  let wsHdr := ws.peek 14
  match frameHeader wsHdr with
  | none => .ok (.stop true sock)
  | some (hdrLen, frameLen, mask) =>
      if wsHdr.getD 1 0 &&& 0x80 = 0 then .ok (.stop false sock)
      else if ¬ alloc.frame i then .ok (.stop false sock)
      else
        let msgsiz := (hdrLen + frameLen) % 2 ^ 64
        let msg := ws.peek msgsiz
        if msg.length = msgsiz then
          if msgsiz < hdrLen + frameLen then .error .outOfBounds
          else
            let frame := unmask mask (msg.drop hdrLen)
            let (ret, rbuf) := sock.rbuf.write (alloc.payload i) frame
            if ret < 0 then .ok (.stop false { sock with err := strerror })
            else .ok (.next hdrLen frameLen { sock with rbuf } (ws.discard msgsiz).2)
        else .ok (.stop true sock)

variable {alloc : PopAlloc} {i : Nat} {sock sock' : Socket} {ws ws' : Ring}

/-- The rest of the loop. -/
def Round.run (alloc : PopAlloc) (fuel i : Nat) : Round → Except Fault (Bool × Socket)
  | .stop ok sock => .ok (ok, sock)
  | .next _ _ sock ws => popFrames alloc fuel (i + 1) sock ws

/-- The loop is one iteration after the other. -/
theorem popFrames_succ (alloc : PopAlloc) (fuel i : Nat) (sock : Socket) (ws : Ring) :
    popFrames alloc (fuel + 1) i sock ws = popFrame alloc i sock ws >>= Round.run alloc fuel i := by
  rw [popFrames, popFrame]
  dsimp only
  cases hheader : frameHeader (ws.peek 14) with
  | none => rfl
  | some header =>
      obtain ⟨hdrLen, frameLen, mask⟩ := header
      dsimp only
      by_cases hmask : (ws.peek 14).getD 1 0 &&& 0x80 = 0
      · rw [if_pos hmask, if_pos hmask]
        rfl
      rw [if_neg hmask, if_neg hmask]
      by_cases halloc : ¬ alloc.frame i = true
      · rw [if_pos halloc, if_pos halloc]
        rfl
      rw [if_neg halloc, if_neg halloc]
      split
      · split
        · rfl
        · split
          · rfl
          · rfl
      · rfl

/-- An iteration keeps to its buffer: a frame that it takes is complete, its payload is
appended to the inbuffer without the mask, and just the frame is discarded. -/
def Round.Within (sock : Socket) (ws : Ring) : Round → Prop
  | .stop _ _ => True
  | .next hdrLen frameLen sock' ws' =>
      ∃ mask, frameHeader (ws.toList.take 14) = some (hdrLen, frameLen, mask) ∧
        hdrLen + frameLen ≤ ws.toList.length ∧
        sock'.rbuf.toList = sock.rbuf.toList ++
          unmask mask ((ws.toList.take (hdrLen + frameLen)).drop hdrLen) ∧
        ws'.toList = ws.toList.drop (hdrLen + frameLen)

/-- The iterations that the loop comes to. -/
inductive ComesTo (alloc : PopAlloc) (sock : Socket) (ws : Ring) : Nat → Socket → Ring → Prop
  | start : ComesTo alloc sock ws 0 sock ws
  | next {i hdrLen frameLen : Nat} {mid sock' : Socket} {midWs ws' : Ring}
      (before : ComesTo alloc sock ws i mid midWs)
      (step : popFrame alloc i mid midWs = .ok (.next hdrLen frameLen sock' ws')) :
      ComesTo alloc sock ws (i + 1) sock' ws'

/-- Whatever allocations fail, no iteration leaves its buffer, and the loop ends. -/
structure LoopContained (sock : Socket) (ws : Ring) : Prop where
  rounds : ∀ alloc i sock' ws', ComesTo alloc sock ws i sock' ws' →
    ∃ round, popFrame alloc i sock' ws' = .ok round ∧ round.Within sock' ws'
  returns : ∀ alloc, ∃ result, popFrames alloc (ws.len + 1) 0 sock ws = .ok result

/-- The bytes begin with a masked header, and the size of its frame does not fit in a
`size_t`. -/
def Wraps (bytes : Bytes) : Prop :=
  ∃ hdrLen frameLen mask, frameHeader (bytes.take 14) = some (hdrLen, frameLen, mask) ∧
    (bytes.take 14).getD 1 0 &&& 0x80 ≠ 0 ∧ 2 ^ 64 ≤ hdrLen + frameLen

/-! ## One iteration -/

/-- A frame that is taken is complete, its size does not wrap, and its header is masked. -/
theorem popFrame_next {hdrLen frameLen : Nat}
    (h : popFrame alloc i sock ws = .ok (.next hdrLen frameLen sock' ws')) :
    (Round.next hdrLen frameLen sock' ws').Within sock ws ∧
      (ws.toList.take 14).getD 1 0 &&& 0x80 ≠ 0 ∧ hdrLen + frameLen < 2 ^ 64 := by
  rw [popFrame] at h
  simp only [Ring.peek_eq] at h
  cases hheader : frameHeader (ws.toList.take 14) with
  | none =>
      rw [hheader] at h
      cases h
  | some header =>
      obtain ⟨hdrLen', frameLen', mask⟩ := header
      rw [hheader] at h
      dsimp only at h
      split at h
      next => cases h
      next hbit =>
        split at h
        next => cases h
        split at h
        next hcomplete =>
          split at h
          next => cases h
          next hfits =>
            have hmod : (hdrLen' + frameLen') % 2 ^ 64 = hdrLen' + frameLen' :=
              le_antisymm (Nat.mod_le _ _) (Nat.not_lt.mp hfits)
            rw [hmod] at h hcomplete
            split at h
            next => cases h
            next hwrite =>
              cases h
              refine ⟨⟨mask, hheader, ?_, ?_, Ring.discard_toList _ _⟩, hbit, ?_⟩
              · rw [← hcomplete]
                exact List.length_take_le' _ _
              · rcases Ringbuffer.write_spec sock.rbuf.2 (alloc.payload i)
                  (unmask mask ((ws.toList.take (hdrLen + frameLen)).drop hdrLen)) with
                  ⟨hfail, -⟩ | ⟨-, -, hlist⟩
                · have hret : (sock.rbuf.write (alloc.payload i)
                      (unmask mask ((ws.toList.take (hdrLen + frameLen)).drop hdrLen))).1 = -1 :=
                    congrArg Prod.fst hfail
                  exact absurd (hret.trans_lt (show (-1 : Int) < 0 by decide)) hwrite
                · exact hlist
              · exact hmod ▸ Nat.mod_lt _ (by decide)
        next => cases h

/-- No iteration leaves its buffer at bytes that do not wrap. -/
theorem popFrame_within (h : ¬ Wraps ws.toList) (alloc : PopAlloc) (i : Nat) (sock : Socket) :
    ∃ round, popFrame alloc i sock ws = .ok round ∧ round.Within sock ws := by
  cases hround : popFrame alloc i sock ws with
  | ok round =>
      cases round with
      | stop ok sock' => exact ⟨_, rfl, trivial⟩
      | next hdrLen frameLen sock' ws' => exact ⟨_, rfl, (popFrame_next hround).1⟩
  | error fault =>
      rw [popFrame] at hround
      simp only [Ring.peek_eq] at hround
      cases hheader : frameHeader (ws.toList.take 14) with
      | none =>
          rw [hheader] at hround
          cases hround
      | some header =>
          obtain ⟨hdrLen, frameLen, mask⟩ := header
          rw [hheader] at hround
          dsimp only at hround
          split at hround
          next => cases hround
          next hbit =>
            split at hround
            next => cases hround
            split at hround
            next =>
              split at hround
              next hwrap =>
                refine absurd ⟨hdrLen, frameLen, mask, hheader, hbit, ?_⟩ h
                by_contra hfits
                rw [Nat.mod_eq_of_lt (Nat.not_le.mp hfits)] at hwrap
                exact absurd hwrap (lt_irrefl _)
              next => split at hround <;> cases hround
            next => cases hround

/-- The lengths in a header. -/
theorem frameHeader_bounds {wsHdr : Bytes} {hdrLen frameLen : Nat} {mask : Bytes}
    (h : frameHeader wsHdr = some (hdrLen, frameLen, mask)) :
    hdrLen ≤ wsHdr.length ∧ frameLen < 2 ^ 64 := by
  have hlt : ∀ k ≤ 8, BigEndian.decode ((wsHdr.drop 2).take k) < 2 ^ 64 := by
    intro k hk
    refine (BigEndian.decode_lt _).trans_le ?_
    calc 256 ^ ((wsHdr.drop 2).take k).length ≤ 256 ^ 8 :=
          Nat.pow_le_pow_right (by decide) ((List.length_take_le _ _).trans hk)
      _ = 2 ^ 64 := by decide
  rw [frameHeader] at h
  split at h
  next hlen =>
    cases h
    exact ⟨hlen.2, hlen.1.trans (by decide)⟩
  next =>
    split at h
    next hlen =>
      cases h
      exact ⟨hlen.2, hlt 2 (by decide)⟩
    next =>
      split at h
      next hlen =>
        cases h
        exact ⟨hlen.2.ge, hlt 8 le_rfl⟩
      next => cases h

/-- A size that wraps is at most that of the header, so the frame counts as complete. -/
theorem popFrame_wraps (h : Wraps ws.toList) (i : Nat) (sock : Socket) :
    popFrame .succeed i sock ws = .error .outOfBounds := by
  obtain ⟨hdrLen, frameLen, mask, hheader, hbit, hwraps⟩ := h
  obtain ⟨hlong, hframe⟩ := frameHeader_bounds hheader
  rw [List.length_take] at hlong
  have hmod : (hdrLen + frameLen) % 2 ^ 64 = hdrLen + frameLen - 2 ^ 64 := by
    rw [Nat.mod_eq_sub_mod hwraps, Nat.mod_eq_of_lt (by omega)]
  have hcomplete : (ws.toList.take ((hdrLen + frameLen) % 2 ^ 64)).length =
      (hdrLen + frameLen) % 2 ^ 64 := List.length_take_of_le (by omega)
  rw [popFrame]
  simp only [Ring.peek_eq]
  rw [hheader]
  dsimp only
  rw [if_neg hbit, if_neg (by simp [PopAlloc.succeed]), if_pos hcomplete, if_pos (by omega)]

/-- A complete frame is taken. -/
theorem popFrame_frame {frame : Frame} {rest : Bytes} (h : ws.toList = frame.encode ++ rest) (i : Nat)
    (sock : Socket) : ∃ hdrLen frameLen sock' ws',
      popFrame .succeed i sock ws = .ok (.next hdrLen frameLen sock' ws') ∧ ws'.toList = rest := by
  obtain ⟨hheader, hbit⟩ := LengthForm.frameHeader_head frame.fits frame.first frame.mask_len
    (Socket.unmask frame.mask frame.payload ++ rest)
  have hbytes : ws.toList = frame.form.head frame.payload.length frame.first frame.mask ++
      (Socket.unmask frame.mask frame.payload ++ rest) := by
    rw [h, Frame.encode, Frame.head, List.append_assoc]
  have hcomplete : (ws.toList.take (frame.form.hdrLen + frame.payload.length)).length =
      frame.form.hdrLen + frame.payload.length := by
    rw [h, ← frame.length_encode, List.take_left]
  rw [← hbytes] at hheader hbit
  rw [popFrame]
  simp only [Ring.peek_eq]
  rw [hheader]
  dsimp only
  rw [Nat.mod_eq_of_lt frame.size_lt, if_neg hbit, if_neg (by simp [PopAlloc.succeed]),
    if_pos hcomplete, if_neg (lt_irrefl _),
    if_neg (by rw [PopAlloc.succeed, Ring.write_true_fst]; exact Int.not_lt.mpr (Int.natCast_nonneg _))]
  refine ⟨_, _, _, _, rfl, ?_⟩
  rw [Ring.discard_toList, h, ← frame.length_encode, List.drop_left]

/-! ## The loop -/

/-- Behind complete frames comes no header whose size wraps. -/
def NoWrap (bytes : Bytes) : Prop :=
  ∀ frames rest, bytes = Framing.stream Frame.encode frames ++ rest → ¬ Wraps rest

theorem NoWrap.not_wraps {bytes : Bytes} (h : NoWrap bytes) : ¬ Wraps bytes := h [] bytes rfl

/-- This is still so behind a frame that is taken. -/
theorem NoWrap.next (h : NoWrap ws.toList) {hdrLen frameLen : Nat}
    (hround : popFrame alloc i sock ws = .ok (.next hdrLen frameLen sock' ws')) :
    NoWrap ws'.toList ∧ ws'.toList.length < ws.toList.length := by
  obtain ⟨⟨mask, hheader, hcomplete, -, hleft⟩, hbit, hsize⟩ := popFrame_next hround
  obtain ⟨frame, hframe⟩ := Frame.exists_of_frameHeader hheader hbit hcomplete hsize
  rw [← hleft] at hframe
  refine ⟨?_, ?_⟩
  · intro frames rest hbytes
    apply h (frame :: frames) rest
    rw [hframe, hbytes, Framing.stream_cons, List.append_assoc]
  · have hpos := frameHeader_pos hheader
    rw [hleft, List.length_drop]
    omega

theorem NoWrap.comesTo (h : NoWrap ws.toList) (hcomes : ComesTo alloc sock ws i sock' ws') :
    NoWrap ws'.toList := by
  induction hcomes with
  | start => exact h
  | next before step ih => exact (ih.next step).1

/-- The loop ends, since each frame has a header. -/
theorem NoWrap.returns (h : NoWrap ws.toList) (alloc : PopAlloc) {fuel : Nat}
    (hfuel : ws.toList.length < fuel) (i : Nat) (sock : Socket) :
    ∃ result, popFrames alloc fuel i sock ws = .ok result := by
  induction fuel generalizing i sock ws with
  | zero => exact absurd hfuel (Nat.not_lt_zero _)
  | succ fuel ih =>
      rw [popFrames_succ]
      obtain ⟨round, hround, -⟩ := popFrame_within h.not_wraps alloc i sock
      rw [hround]
      cases round with
      | stop ok sock' => exact ⟨_, rfl⟩
      | next hdrLen frameLen sock' ws' =>
          obtain ⟨hnext, hshorter⟩ := h.next hround
          exact ih hnext (by omega) (i + 1) sock'

/-- Where no allocation fails, the loop comes to what is behind complete frames. -/
theorem comesTo_rest (frames : List Frame) {rest : Bytes} (hcomes : ComesTo .succeed sock ws i sock' ws')
    (hbytes : ws'.toList = Framing.stream Frame.encode frames ++ rest) :
    ∃ j sock'' ws'', ComesTo .succeed sock ws j sock'' ws'' ∧ ws''.toList = rest := by
  induction frames generalizing i sock' ws' with
  | nil => exact ⟨i, sock', ws', hcomes, hbytes⟩
  | cons frame frames ih =>
      rw [Framing.stream_cons, List.append_assoc] at hbytes
      obtain ⟨hdrLen, frameLen, sock'', ws'', hround, hrest⟩ := popFrame_frame hbytes i sock'
      exact ih (hcomes.next hround) hrest

/-- For every content of the buffer of the frame layer, the frame loop keeps to its buffers,
takes complete frames only, discards these, and ends, whatever allocations fail, if and only
if no masked header behind complete frames announces a size from 2 ^ 64 on. -/
theorem frameLoop_contained_iff (sock : Socket) (ws : Ring) :
    LoopContained sock ws ↔ NoWrap ws.toList := by
  refine ⟨?_, fun h => ⟨?_, ?_⟩⟩
  · rintro hcontained frames rest hbytes hwraps
    have hstart : ComesTo .succeed sock ws 0 sock ws := .start
    obtain ⟨i, sock', ws', hcomes, hrest⟩ := comesTo_rest frames hstart hbytes
    obtain ⟨round, hround, -⟩ := hcontained.rounds _ _ _ _ hcomes
    rw [popFrame_wraps (hrest ▸ hwraps)] at hround
    cases hround
  · intro alloc i sock' ws' hcomes
    exact popFrame_within (h.comesTo hcomes).not_wraps alloc i sock'
  · intro alloc
    exact h.returns alloc (by rw [Ring.length_toList]; exact Nat.lt_succ_self _) 0 sock

/-- A header that declares 2 ^ 64 - 14 bytes. -/
def hugeHeader : Bytes := [0x82, 0xFF, 0xFF, 0xFF, 0xFF, 0xFF, 0xFF, 0xFF, 0xFF, 0xF2, 1, 2, 3, 4]

theorem not_contained_huge :
    ¬ LoopContained (Socket.websocket 5) (Ring.empty.write true hugeHeader).2 := by
  intro hcontained
  obtain ⟨round, hround, -⟩ := hcontained.rounds .succeed 0 _ _ .start
  have hwraps : Wraps (Ring.empty.write true hugeHeader).2.toList := by
    rw [Ring.write_true_toList, Ring.empty_toList, List.nil_append]
    exact ⟨14, 2 ^ 64 - 14, [1, 2, 3, 4], by decide, by decide, by decide⟩
  rw [popFrame_wraps hwraps] at hround
  cases hround

end Socket

end Dime
